/-
# TraceLang.Proofs.Coupling.Basic — two runs held against each other

A coupling says when two machines correspond to each other: which variables and
lists of one are which of the other, what their heaps and their notes about
watched variables have to do with each other, and which instructions the second
program leaves out. The correspondence grows while the machines run; a world is
one state of it.

`Mirrors k w good act act'` says that, from corresponding machines of the world
`w` or a later one, `act'` ends the way `act` does: with values related by
`good`, or with the same fault, and with machines that correspond again. Faults
that are excused and lack of fuel end the comparison. Each way of building an
action has one rule (`mirrors_bind`, `mirrors_framed`, ...).
-/
import TraceLang.Proofs.Coupling.Scopes
import TraceLang.Proofs.Regime
import TraceLang.Proofs.Syntax.Pruning

namespace TraceLang

set_option autoImplicit false

/-- A way to hold two machines against each other. -/
structure Coupling where
  /-- The states of the correspondence. -/
  World : Type
  /-- What corresponds in the first world does so in the second. -/
  le : World → World → Prop
  refl : ∀ w, le w w
  trans : ∀ {w w' w'' : World}, le w w' → le w' w'' → le w w''
  cells : World → CellId → CellId → Prop
  cells_mono : ∀ {w w' : World} {c c' : CellId}, le w w' → cells w c c' → cells w' c c'
  lists : World → ListId → ListId → Prop
  lists_mono : ∀ {w w' : World} {l l' : ListId}, le w w' → lists w l l' → lists w' l l'
  heaps : World → Heap → Heap → Prop
  /-- How the step counters and the notes about watched variables correspond. -/
  notes : World → Nat → Tracer → Nat → Tracer → Prop
  notes_mono : ∀ {w w' : World} {s s' : Nat} {t t' : Tracer}, le w w' → notes w s t s' t' →
    notes w' s t s' t'
  /-- The instructions that the second program leaves out. -/
  drop : Instr → Bool
  /-- What is known of all instructions of the first program. -/
  admits : Instr → Prop
  /-- The faults after which the runs are no longer compared. -/
  excused : Fault → Prop
  excused_locate : ∀ {f : Fault} (span : Span), excused f → excused (f.locate span)
  excused_trace : ∀ {f : Fault} (c : Context), excused f → excused (f.trace c)

/-- The same frames and as many scopes. -/
structure Machine.Level (m n : Machine) : Prop where
  context : n.context = m.context
  depth : n.scopes.depth = m.scopes.depth

theorem Machine.Level.refl (m : Machine) : m.Level m :=
  ⟨rfl, rfl⟩

theorem Machine.Level.trans {m m' m'' : Machine} (first : m.Level m') (second : m'.Level m'') :
    m.Level m'' :=
  ⟨second.context.trans first.context, second.depth.trans first.depth⟩

namespace Coupling

variable (k : Coupling)

/-- The values are the same up to corresponding lists. -/
abbrev Values (w : k.World) (v v' : Value) : Prop :=
  v.Like (k.lists w) v'

/-- Variables that show the same name and state, and the same value once they
are assigned. -/
structure Variables (w : k.World) (v v' : Variable) : Prop where
  name : v'.name = v.name
  assigned : v'.assigned = v.assigned
  value : v.assigned → k.Values w v.value v'.value

/-- Assigned variables that show the same. -/
structure Given (w : k.World) (v v' : Variable) : Prop extends k.Variables w v v' where
  isAssigned : v.assigned

/-- Control signals that correspond. -/
inductive Flows (w : k.World) : Flow → Flow → Prop
  | next : Flows w .next .next
  | leave : Flows w .leave .leave
  | again : Flows w .again .again
  | nothing : Flows w (.result none) (.result none)
  | value {v v' : Value} (like : k.Values w v v') :
    Flows w (.result (some (.fresh v))) (.result (some (.fresh v')))

/-- A function and what is left of it in the second program. -/
structure Functions (f f' : Defined) : Prop where
  pruned : f'.function = f.function.without k.drop
  admitted : f.function.Every k.admits

/-- The machines correspond to each other. -/
structure Machines (w : k.World) (m m' : Machine) : Prop where
  heap : k.heaps w m.heap m'.heap
  scopes : m.scopes.Like (k.cells w) m'.scopes
  context : m'.context = m.context
  functions : List.Forall₂ (fun entry entry' => entry'.1 = entry.1 ∧ k.Functions entry.2 entry'.2)
    m.functions m'.functions
  callDepth : m'.callDepth = m.callDepth
  output : m'.output = m.output
  notes : k.notes w m.steps m.tracer m'.steps m'.tracer

/-- Started on the two machines, the second action ends as the first one does. -/
def MirrorsAt {α : Type} (w : k.World) (good : k.World → α → α → Prop) (act act' : Action α)
    (m m' : Machine) : Prop :=
  act.Ends m
    (fun a n => m.Level n ∧ ∃ w' a' n', act' m' = .ok a' n' ∧ k.le w w' ∧ k.Machines w' n n' ∧
      good w' a a')
    (fun f n => m.Level n ∧ (k.excused f ∨
      ∃ w' n', act' m' = .fault f n' ∧ k.le w w' ∧ k.Machines w' n n'))

/-- Wherever the actions start on corresponding machines, the second one ends as
the first one does. -/
def Mirrors {α : Type} (w : k.World) (good : k.World → α → α → Prop) (act act' : Action α) :
    Prop :=
  ∀ w' m m', k.le w w' → k.Machines w' m m' → k.MirrorsAt w' good act act' m m'

/-- The values are equal. -/
def same {α : Type} (_ : k.World) (a a' : α) : Prop :=
  a' = a

variable {k} {α β : Type} {w w' : k.World} {good good' : k.World → α → α → Prop}
  {act act' : Action α} {m m' n : Machine}

theorem Variables.later {v v' : Variable} (like : k.Variables w v v') (later : k.le w w') :
    k.Variables w' v v' :=
  ⟨like.name, like.assigned, fun assigned => (like.value assigned).mono fun _ _ =>
    k.lists_mono later⟩

theorem Given.later {v v' : Variable} (given : k.Given w v v') (later : k.le w w') :
    k.Given w' v v' :=
  ⟨given.toVariables.later later, given.isAssigned⟩

theorem Given.shown {v v' : Variable} (given : k.Given w v v') : k.Values w v.value v'.value :=
  given.value given.isAssigned

theorem given_fresh {v v' : Value} (like : k.Values w v v') :
    k.Given w (.fresh v) (.fresh v') :=
  ⟨⟨rfl, rfl, fun _ => like⟩, rfl⟩

theorem variables_fresh {v v' : Value} (like : k.Values w v v') :
    k.Variables w (.fresh v) (.fresh v') :=
  (given_fresh like).toVariables

theorem Flows.later {flow flow' : Flow} (like : k.Flows w flow flow') (later : k.le w w') :
    k.Flows w' flow flow' := by
  cases like with
  | value like => exact .value (like.mono fun _ _ => k.lists_mono later)
  | _ => constructor

/-! ## Rules for the parts of an action -/

theorem Mirrors.later (mirrors : k.Mirrors w good act act') (later : k.le w w') :
    k.Mirrors w' good act act' :=
  fun _ m m' later' coupled => mirrors _ m m' (k.trans later later') coupled

theorem Mirrors.mono (mirrors : k.Mirrors w good act act')
    (weaker : ∀ w' a a', good w' a a' → good' w' a a') : k.Mirrors w good' act act' := by
  intro w₁ m m' later coupled
  refine (mirrors w₁ m m' later coupled).mono ?_ (fun _ _ failed => failed)
  rintro a n ⟨level, w₂, a', n', ran, later', coupled', like⟩
  exact ⟨level, w₂, a', n', ran, later', coupled', weaker w₂ a a' like⟩

theorem mirrors_pure {a a' : α} (like : ∀ w', k.le w w' → good w' a a') :
    k.Mirrors w good (pure a) (pure a') :=
  fun w' m m' later coupled => ⟨.refl m, w', a', m', rfl, k.refl w', coupled, like w' later⟩

theorem mirrors_outOfFuel : k.Mirrors w good (fun _ => .outOfFuel) act' :=
  fun _ _ _ _ _ => trivial

theorem mirrors_read {f f' : Machine → α}
    (like : ∀ w' m m', k.le w w' → k.Machines w' m m' → good w' (f m) (f' m')) :
    k.Mirrors w good (Action.read f) (Action.read f') :=
  fun w' m m' later coupled =>
    ⟨.refl m, w', f' m', m', rfl, k.refl w', coupled, like w' m m' later coupled⟩

theorem mirrors_failAt (cause : Cause) (span : Span) :
    k.Mirrors w good (Action.failAt cause span) (Action.failAt cause span) :=
  fun w' m m' _ coupled => ⟨.refl m, .inr ⟨w', m', rfl, k.refl w', coupled⟩⟩

theorem mirrors_fail (cause : Cause) :
    k.Mirrors w good (Action.fail cause) (Action.fail cause) :=
  fun w' m m' _ coupled => ⟨.refl m, .inr ⟨w', m', rfl, k.refl w', coupled⟩⟩

theorem mirrors_bind {mid : k.World → β → β → Prop} {first first' : Action β}
    {next next' : β → Action α} (ofFirst : k.Mirrors w mid first first')
    (ofNext : ∀ w' b b', k.le w w' → mid w' b b' → k.Mirrors w' good (next b) (next' b')) :
    k.Mirrors w good (first >>= next) (first' >>= next') := by
  intro w₁ m m' later coupled
  unfold MirrorsAt
  rw [Action.ends_bind]
  refine (ofFirst w₁ m m' later coupled).mono ?_ ?_
  · rintro b n ⟨level, w₂, b', n', ran, later₂, coupled₂, like⟩
    have mirrors := ofNext w₂ b b' (k.trans later later₂) like w₂ n n' (k.refl w₂) coupled₂
    refine mirrors.mono ?_ ?_
    · rintro a o ⟨level', w₃, a', o', ran', later₃, coupled₃, like'⟩
      exact ⟨level.trans level', w₃, a', o', (Action.bind_of_ok ran).trans ran',
        k.trans later₂ later₃, coupled₃, like'⟩
    · rintro f o ⟨level', excused | ⟨w₃, o', failed, later₃, coupled₃⟩⟩
      · exact ⟨level.trans level', .inl excused⟩
      · exact ⟨level.trans level', .inr ⟨w₃, o', (Action.bind_of_ok ran).trans failed,
          k.trans later₂ later₃, coupled₃⟩⟩
  · rintro f n ⟨level, excused | ⟨w₂, n', failed, later₂, coupled₂⟩⟩
    · exact ⟨level, .inl excused⟩
    · exact ⟨level, .inr ⟨w₂, n', Action.bind_of_fault failed, later₂, coupled₂⟩⟩

theorem mirrors_discard (mirrors : k.Mirrors w good act act') :
    k.Mirrors w k.same (discard act) (discard act') :=
  mirrors_bind mirrors fun _ _ _ _ _ => mirrors_pure fun _ _ => rfl

theorem mirrors_located (span : Span) (mirrors : k.Mirrors w good act act') :
    k.Mirrors w good (Action.located span act) (Action.located span act') := by
  intro w₁ m m' later coupled
  unfold MirrorsAt
  rw [Action.ends_located]
  refine (mirrors w₁ m m' later coupled).mono ?_ ?_
  · rintro a n ⟨level, w₂, a', n', ran, rest⟩
    exact ⟨level, w₂, a', n', Action.located_of_ok ran, rest⟩
  · rintro f n ⟨level, excused | ⟨w₂, n', failed, rest⟩⟩
    · exact ⟨level, .inl (k.excused_locate span excused)⟩
    · exact ⟨level, .inr ⟨w₂, n', Action.located_of_fault failed, rest⟩⟩

theorem mirrors_ite {p : Prop} [Decidable p] {other other' : Action α}
    (yes : p → k.Mirrors w good act act') (no : ¬ p → k.Mirrors w good other other') :
    k.Mirrors w good (if p then act else other) (if p then act' else other') := by
  split
  · exact yes ‹_›
  · exact no ‹_›

/-! ## Brackets -/

/-- The actions inside two brackets, which start on `n` and `n'` where the whole
starts on `m` and `m'`. -/
theorem mirrorsAt_close {n n' : Machine} (close close' : Machine → Machine)
    (mirrors : k.MirrorsAt w good act act' n n')
    (level : ∀ o, n.Level o → m.Level (close o))
    (closed : ∀ w' o o', n.Level o → k.Machines w' o o' → k.Machines w' (close o) (close' o')) :
    act.Ends n
      (fun a o => m.Level (close o) ∧ ∃ w' a' o', Action.afterwards act' close' n' = .ok a' o' ∧
        k.le w w' ∧ k.Machines w' (close o) o' ∧ good w' a a')
      (fun f o => m.Level (close o) ∧ (k.excused f ∨
        ∃ w' o', Action.afterwards act' close' n' = .fault f o' ∧ k.le w w' ∧
          k.Machines w' (close o) o')) := by
  refine mirrors.mono ?_ ?_
  · rintro a o ⟨inside, w', a', o', ran, later, coupled, like⟩
    exact ⟨level o inside, w', a', _, Action.afterwards_of_ok ran, later,
      closed w' o o' inside coupled, like⟩
  · rintro f o ⟨inside, excused | ⟨w', o', failed, later, coupled⟩⟩
    · exact ⟨level o inside, .inl excused⟩
    · exact ⟨level o inside, .inr ⟨w', _, Action.afterwards_of_fault failed, later,
        closed w' o o' inside coupled⟩⟩

theorem Machines.depth (coupled : k.Machines w m m') : m'.scopes.depth = m.scopes.depth :=
  coupled.scopes.depth

theorem mirrors_withScope (mirrors : k.Mirrors w good act act') :
    k.Mirrors w good (Action.withScope act) (Action.withScope act') := by
  intro w₁ m m' later coupled
  have opened : k.Machines w₁ { m with scopes := m.scopes.push }
      { m' with scopes := m'.scopes.push } :=
    { coupled with scopes := coupled.scopes.push }
  refine Action.ends_withScope.mpr (mirrorsAt_close
    (fun n => { n with scopes := n.scopes.truncate m.scopes.depth })
    (fun n => { n with scopes := n.scopes.truncate m'.scopes.depth })
    (mirrors w₁ _ _ later opened) ?_ ?_)
  · intro o inside
    have positive := m.scopes.depth_pos
    have deeper : o.scopes.stack.size = m.scopes.depth + 1 :=
      inside.depth.trans (Scopes.depth_push _)
    refine ⟨inside.context, ?_⟩
    simp only [Scopes.depth, Scopes.truncate, Array.size_shrink] at deeper positive ⊢
    omega
  · intro w₂ o o' _ coupled'
    rw [coupled.depth]
    exact { coupled' with scopes := coupled'.scopes.truncate m.scopes.depth }

theorem mirrors_withIterating (loop loop' : Site) (mirrors : k.Mirrors w good act act') :
    k.Mirrors w good (Action.withIterating loop act) (Action.withIterating loop' act') := by
  intro w₁ m m' later coupled
  have opened : k.Machines w₁ { m with iterating := loop.setMark true m.iterating }
      { m' with iterating := loop'.setMark true m'.iterating } := { coupled with }
  refine (Action.ends_withIterating loop).mpr (mirrorsAt_close
    (fun n => { n with iterating := loop.setMark (m.isIterating loop) n.iterating })
    (fun n => { n with iterating := loop'.setMark (m'.isIterating loop') n.iterating })
    (mirrors w₁ _ _ later opened) ?_ ?_)
  · exact fun o inside => ⟨inside.context, inside.depth⟩
  · exact fun w₂ o o' _ coupled' => { coupled' with }

theorem mirrors_withCall (limit : Nat) (span : Span) (mirrors : k.Mirrors w good act act') :
    k.Mirrors w good (Action.withCall limit span act) (Action.withCall limit span act') := by
  intro w₁ m m' later coupled
  have opened : k.Machines w₁ { m with callDepth := m.callDepth + 1 }
      { m' with callDepth := m'.callDepth + 1 } :=
    { coupled with callDepth := congrArg (· + 1) coupled.callDepth }
  refine (Action.ends_withCall limit span).mpr ⟨fun exceeded => ?_, fun within => ?_⟩
  · have failed : Action.withCall limit span act' m' =
        .fault { cause := .callDepth limit, span := some span } m' := by
      simp [Action.withCall, coupled.callDepth, exceeded]
    exact ⟨.refl m, .inr ⟨w₁, m', failed, k.refl w₁, coupled⟩⟩
  · have unfolded : Action.withCall limit span act' m' =
        Action.afterwards act' (fun n => { n with callDepth := m'.callDepth })
          { m' with callDepth := m'.callDepth + 1 } := by
      simp [Action.withCall, coupled.callDepth, within]
    rw [unfolded]
    refine mirrorsAt_close (fun n => { n with callDepth := m.callDepth }) _
      (mirrors w₁ _ _ later opened) ?_ ?_
    · exact fun o inside => ⟨inside.context, inside.depth⟩
    · exact fun w₂ o o' _ coupled' => { coupled' with callDepth := coupled.callDepth }

theorem mirrors_framed (frame : Frame) (mirrors : k.Mirrors w good act act') :
    k.Mirrors w good (Action.framed frame act) (Action.framed frame act') := by
  intro w₁ m m' later coupled
  have opened : k.Machines w₁ { m with context := m.context.push frame }
      { m' with context := m'.context.push frame } :=
    { coupled with context := congrArg (·.push frame) coupled.context }
  -- The frame and the scopes of the second action are those of the first.
  have balanced : ∀ {w₂ : k.World} {o o' : Machine},
      Machine.Level { m with context := m.context.push frame } o → k.Machines w₂ o o' →
      o'.context = m'.context.push frame ∧ o'.scopes.depth = m'.scopes.depth := by
    intro w₂ o o' inside coupled'
    refine ⟨?_, coupled'.depth.trans (inside.depth.trans coupled.depth.symm)⟩
    rw [coupled'.context, inside.context, coupled.context]
  refine Action.ends_framed frame ((mirrors w₁ _ _ later opened).mono ?_ ?_)
  · rintro a o ⟨inside, w₂, a', o', ran, later₂, coupled', like⟩
    obtain ⟨context', depth'⟩ := balanced inside coupled'
    refine ⟨inside.context, inside.depth, ⟨rfl, inside.depth⟩, w₂, a', _,
      Action.framed_of_ok_balanced ran context' depth', later₂, ?_, like⟩
    exact { coupled' with context := coupled.context }
  · rintro f o ⟨inside, failing⟩
    refine ⟨inside.context, inside.depth, ⟨rfl, inside.depth⟩, ?_⟩
    rcases failing with excused | ⟨w₂, o', failed, later₂, coupled'⟩
    · exact .inl (k.excused_locate _ (k.excused_trace _ excused))
    · obtain ⟨context', depth'⟩ := balanced inside coupled'
      have failed' := Action.framed_of_fault_balanced failed context' depth'
      rw [coupled.context] at failed'
      refine .inr ⟨w₂, _, failed', later₂, ?_⟩
      exact { coupled' with context := rfl }

/-! ## Loops -/

theorem mirrors_repeatWhile {cond cond' : Action Bool} {body body' : Action Flow}
    {step step' : Action Unit} (ofCond : k.Mirrors w k.same cond cond')
    (ofBody : k.Mirrors w k.Flows body body') (ofStep : k.Mirrors w k.same step step')
    (fuel : Nat) :
    k.Mirrors w k.Flows (Action.repeatWhile cond body step fuel)
      (Action.repeatWhile cond' body' step' fuel) := by
  induction fuel with
  | zero => exact mirrors_outOfFuel
  | succ fuel ih =>
    unfold Action.repeatWhile
    refine mirrors_bind ofCond ?_
    rintro w₁ holds _ later₁ rfl
    refine mirrors_ite (fun _ => ?_) fun _ => mirrors_pure fun _ _ => .next
    refine mirrors_bind (ofBody.later later₁) ?_
    intro w₂ flow flow' later₂ like
    have later := k.trans later₁ later₂
    cases like with
    | leave => exact mirrors_pure fun _ _ => .next
    | nothing => exact mirrors_pure fun _ _ => .nothing
    | value like => exact mirrors_pure fun _ later₃ => (Flows.value like).later later₃
    | next | again =>
      exact mirrors_bind (ofStep.later later) fun w₃ _ _ later₃ _ => ih.later (k.trans later later₃)

end Coupling

end TraceLang
