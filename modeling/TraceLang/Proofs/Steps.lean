/-
# TraceLang.Proofs.Steps — runs as sequences of small steps

A `Step` is one elementary thing that a running program does to its machine: an
edit of heap, tracer, output or counters, the opening or closing of a scope or a
frame, a new binding, a new function. Whatever is executed and however it ends,
the machine has gone through a sequence of steps (`execute_steps`,
`run_steps`).

A machine is reachable if steps lead to it from a new one. That covers the
machines between programs as well as those in the middle of a run, and a
property that every step keeps holds of all of them.
-/
import Mathlib.Logic.Relation
import TraceLang.Proofs.Sessions

namespace TraceLang

set_option autoImplicit false

/-- One thing that a running program does to its machine. -/
inductive Step (m : Machine) : Machine → Prop
  | edit {m' : Machine} (edit : Edit m m') : Step m m'
  | openScope : Step m { m with scopes := m.scopes.push }
  | closeScopes (depth : Nat) : Step m { m with scopes := m.scopes.truncate depth }
  | bind (name : String) (value : Value) (assigned : Bool) (valid : isValidName name) :
    Step m (m.bound name value assigned)
  | openFrame (frame : Frame) : Step m { m with context := m.context.push frame }
  | closeFrames (depth : Nat) : Step m { m with context := m.context.truncate depth }
  | define (f : Defined) (free : m.isUserFunction f.function.name = false) :
    Step m { m with functions := (f.function.name, f) :: m.functions }
  | countCalls (depth : Nat) : Step m { m with callDepth := depth }
  | iterate (loops : List Site) : Step m { m with iterating := loops }

/-- Any number of steps. -/
abbrev Steps : Machine → Machine → Prop :=
  Relation.ReflTransGen Step

/-- A machine that comes up while programs run. -/
def Machine.Reachable (m : Machine) : Prop :=
  ∃ output, Steps { output } m

theorem Machine.Reachable.steps {m m' : Machine} (reachable : m.Reachable) (steps : Steps m m') :
    m'.Reachable :=
  reachable.imp fun _ before => before.trans steps

/-- Only valid names are ever bound. -/
theorem Machine.Reachable.valid_of_bindsAs {m : Machine} (reachable : m.Reachable) {name : String}
    {c : CellId} (bound : m.scopes.BindsAs name c) : isValidName name := by
  obtain ⟨output, steps⟩ := reachable
  induction steps with
  | refl =>
    obtain ⟨scope, member, entry⟩ := bound
    obtain rfl : scope = [] := by simpa [Scopes.global] using member
    cases entry
  | tail _ step ih =>
    cases step with
    | edit edit => exact ih ((edit_kept edit).scopes ▸ bound)
    | openScope => exact ih (Scopes.bindsAs_of_push bound)
    | closeScopes depth => exact ih (Scopes.bindsAs_of_truncate bound)
    | bind other value assigned valid =>
      rcases Scopes.bindsAs_of_define bound with ⟨rfl, -⟩ | old
      · exact valid
      · exact ih old
    | openFrame | closeFrames | define | countCalls | iterate => exact ih bound

/-- No step puts another writer in the place of the host's. -/
theorem Steps.writer {m m' : Machine} (steps : Steps m m') :
    m'.output.writer = m.output.writer := by
  induction steps with
  | refl => rfl
  | tail _ step ih =>
    refine Eq.trans ?_ ih
    cases step with
    | edit edit => cases edit <;> rfl
    | _ => rfl

/-- Whatever happens, it happens in steps. -/
def stepsEffect : Effect where
  inv _ := True
  change := Steps
  fault _ _ := True

namespace Machine

open TraceLang.Action

variable {α : Type} {m : Machine}

theorem hasAt_steps {act : Action α} :
    act.HasAt stepsEffect m ↔ act.Ends m (fun _ m' => Steps m m') (fun _ m' => Steps m m') := by
  simp [HasAt, stepsEffect]

/-- An action that only looks at the machine. -/
theorem has_steps_of_same {act : Action α}
    (same : ∀ m, act.Ends m (fun _ m' => m' = m) (fun _ m' => m' = m)) : act.Has stepsEffect := by
  intro m _
  refine hasAt_steps.mpr ((same m).mono ?_ ?_)
  · rintro _ _ rfl
    exact .refl
  · rintro _ _ rfl
    exact .refl

theorem checkDeclaration_same (d : Declaration) (m : Machine) :
    (checkDeclaration d).Ends m (fun _ m' => m' = m) (fun _ m' => m' = m) :=
  (checkDeclaration_ends d m).mono (fun _ _ good => good) (fun _ _ bad => bad.1)

theorem control_same (allowed : Context → Bool) (otherwise : Misplaced) (flow : Flow)
    (m : Machine) :
    (control allowed otherwise flow).Ends m (fun _ m' => m' = m) (fun _ m' => m' = m) :=
  (control_ends allowed otherwise flow m).mono (fun _ _ good => good.2.2) (fun _ _ bad => bad.2.2)

theorem expectNext_same (isStep : Bool) (flow : Flow) (m : Machine) :
    (expectNext isStep flow).Ends m (fun _ m' => m' = m) (fun _ m' => m' = m) :=
  expectNext_ends rfl fun _ => rfl

/-- A frame is opened and closed, and scopes that were left open are closed. -/
theorem framed_steps {act : Action α} (frame : Frame) (has : act.Has stepsEffect) :
    (framed frame act).Has stepsEffect := by
  intro m _
  have steps := hasAt_steps.mp (has { m with context := m.context.push frame } trivial)
  refine hasAt_steps.mpr ?_
  unfold Ends framed at *
  have opened : Steps m { m with context := m.context.push frame } := .single (.openFrame frame)
  cases result : act { m with context := m.context.push frame } with
  | outOfFuel => trivial
  | ok a m' | fault f m' =>
    simp only [result] at steps ⊢
    have closed := (opened.trans steps).tail (.closeFrames m.context.depth)
    cases imbalance? m.context.depth m.scopes.depth m' with
    | none => exact closed
    | some d => exact closed.tail (.closeScopes m.scopes.depth)

theorem stepsEffect_permissive : stepsEffect.Permissive where
  refl _ := .refl
  trans := .trans
  fault_after _ _ := trivial
  fault_locate _ _ := trivial
  edit edit _ := ⟨trivial, .single (.edit edit)⟩
  ordinary _ _ _ _ := trivial

/-- The regime in which everything happens in steps. -/
theorem steps_govern : Governs (fun _ => True) stepsEffect stepsEffect where
  permissive := stepsEffect_permissive
  lawful := stepsEffect_permissive.toLawful
  weaken has := has
  scope has m _ := by
    refine hasAt_steps.mpr (ends_withScope.mpr ?_)
    have opened : Steps m { m with scopes := m.scopes.push } := .single .openScope
    refine (hasAt_steps.mp (has { m with scopes := m.scopes.push } trivial)).mono ?_ ?_
    · exact fun _ _ steps => (opened.trans steps).tail (.closeScopes _)
    · exact fun _ _ steps => (opened.trans steps).tail (.closeScopes _)
  iterating loop has m _ := by
    refine hasAt_steps.mpr ((ends_withIterating loop).mpr ?_)
    have opened : Steps m { m with iterating := loop.setMark true m.iterating } :=
      .single (.iterate _)
    refine (hasAt_steps.mp (has _ trivial)).mono ?_ ?_
    · exact fun _ _ steps => (opened.trans steps).tail (.iterate _)
    · exact fun _ _ steps => (opened.trans steps).tail (.iterate _)
  called limit span has m _ := by
    refine hasAt_steps.mpr ((ends_withCall limit span).mpr ⟨fun _ => .refl, fun _ => ?_⟩)
    have opened : Steps m { m with callDepth := m.callDepth + 1 } := .single (.countCalls _)
    refine (hasAt_steps.mp (has { m with callDepth := m.callDepth + 1 } trivial)).mono ?_ ?_
    · exact fun _ _ steps => (opened.trans steps).tail (.countCalls _)
    · exact fun _ _ steps => (opened.trans steps).tail (.countCalls _)
  framed := framed_steps
  framed_inner := framed_steps
  check _ := has_steps_of_same (checkDeclaration_same _)
  bound name value assigned valid _ := ⟨trivial, .single (.bind name value assigned valid)⟩
  nameless _ _ _ := trivial
  define {span f} site _ m _ := by
    simp only [HasAt, Ends, defineFunction]
    cases taken : m.isUserFunction f.name with
    | true => exact ⟨trivial, .refl, trivial⟩
    | false => exact ⟨trivial, .single (.define ⟨f, site⟩ taken)⟩
  function {m name f} _ _ := ⟨f.function.span, Instr.every_of_forall (fun _ => trivial) _⟩
  param _ _ _ := has_steps_of_same (checkDeclaration_same _)
  header isStep _ has := has_bind stepsEffect_permissive.toLawful has fun flow =>
    has_steps_of_same (expectNext_same isStep flow)
  leave := has_steps_of_same (control_same _ _ _)
  again := has_steps_of_same (control_same _ _ _)
  result := has_steps_of_same (control_same _ _ _)
  across _ _ := trivial

/-- An instruction takes its machine through steps, however it ends. -/
theorem execute_steps (settings : Settings) (fuel unit : Nat) (path : Path) (i : Instr)
    (m : Machine) : (execute ((Env.standard settings).engine fuel) unit path i).Ends m
      (fun _ m' => Steps m m') (fun _ m' => Steps m m') := by
  have has := execute_has steps_govern (standard_call_has steps_govern settings fuel) unit path i
    (Instr.every_of_forall (fun _ => trivial) i)
  rw [Instr.effect, ite_self] at has
  exact hasAt_steps.mp (has m trivial)

/-- A program takes its machine through steps, however it ends. -/
theorem run_steps (settings : Settings) (fuel unit : Nat) (prog : Program) (m : Machine) :
    (run ((Env.standard settings).engine fuel) unit prog).Ends m
      (fun _ m' => Steps m m') (fun _ m' => Steps m m') := by
  have lawful := stepsEffect_permissive.toLawful
  have body := runBlock_has steps_govern (standard_call_has steps_govern settings fuel) unit [] 0
    prog.body (Instr.everyOf_of_forall (fun _ => trivial) _)
  refine hasAt_steps.mp (has_bind lawful body (fun flow => ?_) m trivial)
  cases flow with
  | next => exact has_pure lawful ()
  | leave | again | result => exact has_steps_of_same fun _ => ends_stray fun _ => rfl

/-- Between programs a machine is reachable. -/
theorem AtRest.reachable (rest : AtRest m) : m.Reachable := by
  induction rest with
  | new output => exact ⟨output, .refl⟩
  | succeeded _ _ ran ih => exact ih.steps ((run_steps ..).of_ok ran)
  | failed _ _ ran ih => exact ih.steps ((run_steps ..).of_fault ran)

end Machine

end TraceLang
