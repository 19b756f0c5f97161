/-
# TraceLang.Proofs.Stacks — scopes, frames and calls are closed again

Whatever an instruction does and however it ends, it leaves the frames, the
depth of the scopes and the number of calls in progress as it found them, and
every user function stays defined (`execute_balanced`). Only a declaration that
succeeds touches a scope: it binds its name to a new variable in the innermost
one.

Expressions and calls leave the scopes exactly as they are (`Kept`); a block may
bind names in the innermost scope (`KeptBelow`). The regime of these two
relations is set up once for all descriptions of faults that say something about
the frames in progress (`Tolerates`), since a frame is where faults are traced.
-/
import TraceLang.Proofs.Heap
import TraceLang.Proofs.Regime

namespace TraceLang

set_option autoImplicit false

namespace Machine

variable {m m' m'' : Machine}

/-! ## What is kept -/

/-- The frames and the calls in progress are the same, every user function is
still defined, and no variable has gone. -/
structure Steady (m m' : Machine) : Prop where
  context : m'.context = m.context
  callDepth : m'.callDepth = m.callDepth
  functions : ∀ name f, m.function? name = some f → m'.function? name = some f
  cells : m.heap.cells.size ≤ m'.heap.cells.size

/-- The scopes are the same as well. -/
structure Kept (m m' : Machine) : Prop extends Steady m m' where
  scopes : m'.scopes = m.scopes

/-- The scopes are the same up to the bindings of the innermost one. -/
structure KeptBelow (m m' : Machine) : Prop extends Steady m m' where
  depth : m'.scopes.depth = m.scopes.depth
  below : m'.scopes.stack.pop = m.scopes.stack.pop

theorem Steady.refl (m : Machine) : Steady m m :=
  ⟨rfl, rfl, fun _ _ found => found, Nat.le_refl _⟩

theorem Steady.trans (first : Steady m m') (second : Steady m' m'') : Steady m m'' where
  context := second.context.trans first.context
  callDepth := second.callDepth.trans first.callDepth
  functions name f found := second.functions name f (first.functions name f found)
  cells := Nat.le_trans first.cells second.cells

theorem Kept.refl (m : Machine) : Kept m m :=
  ⟨.refl m, rfl⟩

theorem Kept.trans (first : Kept m m') (second : Kept m' m'') : Kept m m'' :=
  ⟨first.toSteady.trans second.toSteady, second.scopes.trans first.scopes⟩

theorem KeptBelow.trans (first : KeptBelow m m') (second : KeptBelow m' m'') : KeptBelow m m'' :=
  ⟨first.toSteady.trans second.toSteady, second.depth.trans first.depth,
    second.below.trans first.below⟩

theorem Kept.keptBelow (kept : Kept m m') : KeptBelow m m' :=
  ⟨kept.toSteady, by rw [kept.scopes], by rw [kept.scopes]⟩

/-- The stacks are kept under a frame, and then the frame is closed. -/
theorem Kept.closeFrame {frame : Frame}
    (kept : Kept { m with context := m.context.push frame } m') :
    Kept m { m' with context := m.context } :=
  ⟨⟨rfl, kept.callDepth, kept.functions, kept.cells⟩, kept.scopes⟩

theorem KeptBelow.closeFrame {frame : Frame}
    (kept : KeptBelow { m with context := m.context.push frame } m') :
    KeptBelow m { m' with context := m.context } :=
  ⟨⟨rfl, kept.callDepth, kept.functions, kept.cells⟩, kept.depth, kept.below⟩

theorem edit_kept (edit : Edit m m') : Kept m m' := by
  cases edit with
  | tick | ask | record | count => exact ⟨⟨rfl, rfl, fun _ _ found => found, Nat.le_refl _⟩, rfl⟩
  | newList values =>
    exact ⟨⟨rfl, rfl, fun _ _ found => found, (m.heap.grows_newList values).size⟩, rfl⟩
  | copy v => exact ⟨⟨rfl, rfl, fun _ _ found => found, (m.heap.grows_deepCopy v).size⟩, rfl⟩
  | append l v =>
    exact ⟨⟨rfl, rfl, fun _ _ found => found, by simp [Heap.size_push]⟩, rfl⟩
  | assign c v =>
    exact ⟨⟨rfl, rfl, fun _ _ found => found, Nat.le_of_eq (Heap.size_modify ..).symm⟩, rfl⟩
  | watch c label =>
    exact ⟨⟨rfl, rfl, fun _ _ found => found, Nat.le_of_eq (Heap.size_modify ..).symm⟩, rfl⟩

theorem bound_keptBelow (m : Machine) (name : String) (value : Value) (assigned : Bool) :
    KeptBelow m (m.bound name value assigned) where
  context := rfl
  callDepth := rfl
  functions _ _ found := found
  cells := (m.heap.grows_alloc _).size
  depth := Scopes.depth_define ..
  below := Scopes.pop_define ..

end Machine

/-! ## The regime of the stacks -/

/-- The faults that are tolerated in a context are enough for all that the
instructions admitted by `p` can fail with, apart from `break` and `continue`. -/
structure Condones (p : Instr → Prop) (bad : Context → Fault → Prop) : Prop where
  ordinary : ∀ (c : Context) {cause : Cause} (span : Option Span), cause.isOrdinary →
    bad c { cause, span }
  locate : ∀ {c : Context} {f : Fault} (span : Span), bad c f → bad c (f.locate span)
  /-- A fault that is tolerated under a frame is tolerated outside, traced. -/
  trace : ∀ {c : Context} {frame : Frame} {f : Fault}, bad (c.push frame) f →
    bad c (f.trace (c.push frame))
  invalid : ∀ (c : Context) {span : Span} {d : Declaration}, p (.declare span d) →
    ¬ isValidName d.name → bad c { cause := .invalidName d.name }
  missing : ∀ (c : Context) {span : Span} {d : Declaration}, p (.declare span d) →
    d.mode = .mustExist → bad c { cause := .nothingToOverwrite d.name }
  traced : ∀ (c : Context) {span : Span} {d : Declaration}, p (.declare span d) →
    d.mode ≠ .mustNotExist → bad c { cause := .tracedOverwrite d.name }
  nameless : ∀ (c : Context) {span : Span} {target value : Expr}, p (.assign span target value) →
    target.rootName? = some "" → bad c { cause := .invalidName "", span := some target.span }
  param : ∀ (c : Context) {span : Span} {f : Function} {x : Param},
    p (.define span f.name f.params f.body f.span) → x ∈ f.params → ¬ isValidName x.name →
    bad c { cause := .invalidName x.name }
  header : ∀ {span : Span} {init step : Instr} {cond : Expr} {body : List Instr} (isStep : Bool),
    p (.forLoop span init step cond body) → (if isStep then step else init).isSimple ∨
      ∀ c flow, bad c { cause := .defect (.header isStep flow) }
  result : ∀ {c : Context}, c.inFunction = false → bad c { cause := .misplaced .result }

/-- The faults that are tolerated in a context are enough for all that the
instructions admitted by `p` can fail with. -/
structure Tolerates (p : Instr → Prop) (bad : Context → Fault → Prop) : Prop extends
    Condones p bad where
  leave : ∀ {c : Context}, c.loopDepth = 0 → bad c { cause := .misplaced .leave }
  again : ∀ {c : Context}, c.loopDepth = 0 → bad c { cause := .misplaced .again }
  across : ∀ (c : Context) (span : Span),
    bad c { cause := .misplaced .acrossFunction, span := some span }

/-- Expressions and calls keep the stacks, and every function that is defined is
admitted. -/
def stackEffect (p : Instr → Prop) (bad : Context → Fault → Prop) : Effect where
  inv m := ∀ name f, m.function? name = some f → f.function.Every p
  change := Machine.Kept
  fault m f := bad m.context f

/-- Blocks keep all scopes but the innermost one. -/
def blockEffect (p : Instr → Prop) (bad : Context → Fault → Prop) : Effect where
  inv m := ∀ name f, m.function? name = some f → f.function.Every p
  change := Machine.KeptBelow
  fault m f := bad m.context f

namespace Machine

open TraceLang.Action

/-- A simple instruction gives no control signal. -/
theorem execute_simple (g : Engine) (unit : Nat) (path : Path) {i : Instr} (simple : i.isSimple)
    (m : Machine) :
    (execute g unit path i).Ends m (fun flow _ => flow = .next) (fun _ _ => True) := by
  cases i <;> simp only [Instr.isSimple, Bool.false_eq_true] at simple
  case declare | assign =>
    unfold execute
    refine ends_framed_ok _ ?_
    rw [ends_bind]
    refine ends_of_forall fun _ _ => ?_
    rw [ends_bind]
    exact ends_of_forall fun _ _ => rfl
  case call =>
    unfold execute
    refine ends_framed_ok _ ?_
    rw [ends_bind]
    refine ends_of_forall fun _ _ => ?_
    rw [ends_bind]
    refine ends_of_forall fun _ _ => ?_
    rw [ends_bind]
    refine ends_of_forall fun _ _ => ?_
    rw [ends_bind]
    exact ends_of_forall fun _ _ => rfl

theorem control_ends (allowed : Context → Bool) (otherwise : Misplaced) (flow : Flow)
    (m : Machine) :
    (control allowed otherwise flow).Ends m
      (fun flow' m' => allowed m.context ∧ flow' = flow ∧ m' = m)
      (fun f m' => allowed m.context = false ∧ f = { cause := .misplaced otherwise } ∧ m' = m) := by
  simp only [Ends, control]
  cases may : allowed m.context <;> simp

theorem control_tolerated {p : Instr → Prop} {bad : Context → Fault → Prop}
    {allowed : Context → Bool} {otherwise : Misplaced} (flow : Flow)
    (misplaced : ∀ {c}, allowed c = false → bad c { cause := .misplaced otherwise }) :
    (control allowed otherwise flow).Has (stackEffect p bad) := by
  intro m inv
  refine (control_ends allowed otherwise flow m).mono ?_ ?_
  · rintro _ m ⟨-, -, rfl⟩
    exact ⟨inv, .refl m⟩
  · rintro _ m ⟨refused, rfl, rfl⟩
    exact ⟨inv, .refl m, misplaced refused⟩

/-- Why a declaration is refused. -/
inductive Refused (d : Declaration) : Fault → Prop
  | invalid (isInvalid : ¬ isValidName d.name) : Refused d { cause := .invalidName d.name }
  | taken : Refused d { cause := .alreadyDeclared d.name }
  | missing (mode : d.mode = .mustExist) : Refused d { cause := .nothingToOverwrite d.name }
  | traced (mode : d.mode ≠ .mustNotExist) : Refused d { cause := .tracedOverwrite d.name }

/-- A header statement that did not go on ends with a defect, if at all. -/
theorem expectNext_ends {isStep : Bool} {flow : Flow} {m : Machine}
    {good : Unit → Machine → Prop} {bad : Fault → Machine → Prop} (passes : good () m)
    (fails : ∀ account, bad { cause := .defect (.header isStep account) } m) :
    (expectNext isStep flow).Ends m good bad := by
  unfold expectNext
  cases flow with
  | next => exact passes
  | leave | again | result => exact ends_stray fails

theorem checkDeclaration_ends (d : Declaration) (m : Machine) :
    (checkDeclaration d).Ends m (fun _ m' => m' = m) (fun f m' => m' = m ∧ Refused d f) := by
  simp only [Ends, checkDeclaration]
  by_cases valid : isValidName d.name
  · simp only [valid, Bool.not_true, Bool.false_eq_true, if_false]
    cases found : m.scopes.findLocal? d.name with
    | none =>
      cases mode : d.mode with
      | mustExist => exact ⟨rfl, .missing mode⟩
      | mustNotExist | either => exact rfl
    | some c =>
      cases mode : d.mode with
      | mustNotExist => exact ⟨rfl, .taken⟩
      | mustExist | either =>
        simp only
        cases (m.heap.read c).traced with
        | true => exact ⟨rfl, .traced (by simp [mode])⟩
        | false => exact rfl
  · simp only [valid, Bool.not_false, if_true]
    exact ⟨trivial, .invalid valid⟩

section

variable {p : Instr → Prop} {bad : Context → Fault → Prop} (condones : Condones p bad)

include condones

theorem stackEffect_permissive : (stackEffect p bad).Permissive where
  refl := Kept.refl
  trans := Kept.trans
  fault_after change fault := by
    simp only [stackEffect] at fault ⊢
    rwa [← change.context]
  fault_locate := condones.locate
  edit {m m'} edit inv := by
    have kept := edit_kept edit
    refine ⟨?_, kept⟩
    have same : m'.functions = m.functions := by cases edit <;> rfl
    intro name f found
    exact inv name f (by simpa [function?, same] using found)
  ordinary m := condones.ordinary m.context

theorem blockEffect_lawful : (blockEffect p bad).Lawful where
  refl m := (Kept.refl m).keptBelow
  trans := KeptBelow.trans
  fault_after change fault := by
    simp only [blockEffect] at fault ⊢
    rwa [← change.context]
  fault_locate := condones.locate

theorem checkDeclaration_tolerated {d : Declaration}
    (invalid : ∀ c, ¬ isValidName d.name → bad c { cause := .invalidName d.name })
    (missing : ∀ c, d.mode = .mustExist → bad c { cause := .nothingToOverwrite d.name })
    (traced : ∀ c, d.mode ≠ .mustNotExist → bad c { cause := .tracedOverwrite d.name }) :
    (checkDeclaration d).Has (stackEffect p bad) := by
  intro m inv
  refine (checkDeclaration_ends d m).mono ?_ ?_
  · rintro _ m rfl
    exact ⟨inv, .refl m⟩
  · rintro _ m ⟨rfl, refused⟩
    refine ⟨inv, .refl m, ?_⟩
    cases refused with
    | invalid isInvalid => exact invalid m.context isInvalid
    | taken => exact condones.ordinary m.context none rfl
    | missing mode => exact missing m.context mode
    | traced mode => exact traced m.context mode

/-- The regime of the stacks, as far as `break` and `continue` have no part in it. -/
theorem stacks_cover : Covers p (stackEffect p bad) (blockEffect p bad) where
  permissive := stackEffect_permissive condones
  lawful := blockEffect_lawful condones
  weaken has m inv := (has m inv).mono (fun _ _ good => ⟨good.1, good.2.keptBelow⟩)
    (fun _ _ bad => ⟨bad.1, bad.2.1.keptBelow, bad.2.2⟩)
  scope has m inv := by
    refine ends_withScope.mpr ((has { m with scopes := m.scopes.push } inv).close ?_ ?_)
    · intro m' inv' below
      refine ⟨inv', ⟨below.context, below.callDepth, below.functions, below.cells⟩, ?_⟩
      refine Scopes.truncate_of_below (below.depth.trans (Scopes.depth_push _)) ?_
      rw [below.below]
      simp [Scopes.push]
    · exact fun _ fault => fault
  iterating loop has m inv := by
    refine (ends_withIterating loop).mpr
      ((has { m with iterating := loop.setMark true m.iterating } inv).close ?_ ?_)
    · exact fun m' inv' kept =>
        ⟨inv', ⟨kept.context, kept.callDepth, kept.functions, kept.cells⟩, kept.scopes⟩
    · exact fun _ fault => fault
  called limit span has m inv := by
    refine (ends_withCall limit span).mpr ⟨fun _ => ?_, fun _ =>
      (has { m with callDepth := m.callDepth + 1 } inv).close ?_ ?_⟩
    · exact ⟨inv, .refl m, condones.ordinary m.context _ rfl⟩
    · exact fun m' inv' kept =>
        ⟨inv', ⟨kept.context, rfl, kept.functions, kept.cells⟩, kept.scopes⟩
    · exact fun _ fault => fault
  framed frame has m inv := by
    refine ends_framed frame ((has { m with context := m.context.push frame } inv).mono ?_ ?_)
    · rintro a m' ⟨inv', kept⟩
      exact ⟨kept.context, by rw [kept.scopes], inv', kept.closeFrame⟩
    · rintro f m' ⟨inv', kept, fault⟩
      exact ⟨kept.context, by rw [kept.scopes], inv', kept.closeFrame,
        condones.locate _ (condones.trace fault)⟩
  framed_inner frame has m inv := by
    refine ends_framed frame ((has { m with context := m.context.push frame } inv).mono ?_ ?_)
    · rintro a m' ⟨inv', kept⟩
      exact ⟨kept.context, kept.depth, inv', kept.closeFrame⟩
    · rintro f m' ⟨inv', kept, fault⟩
      exact ⟨kept.context, kept.depth, inv', kept.closeFrame,
        condones.locate _ (condones.trace fault)⟩
  check admitted := checkDeclaration_tolerated condones
    (fun c => condones.invalid c admitted) (fun c => condones.missing c admitted)
    (fun c => condones.traced c admitted)
  bound {m} name value assigned _ inv := ⟨inv, bound_keptBelow m name value assigned⟩
  nameless m admitted := condones.nameless m.context admitted
  define {span f} site every m inv := by
    simp only [HasAt, Ends, defineFunction]
    cases taken : m.isUserFunction f.name with
    | true => exact ⟨inv, .refl m, condones.ordinary m.context none rfl⟩
    | false =>
      have absent : m.function? f.name = none := by
        simpa [isUserFunction] using taken
      refine ⟨?_, ⟨rfl, rfl, ?_, Nat.le_refl _⟩, rfl⟩
      · intro name d found
        simp only [function?, lookup_entry] at found
        split at found
        · cases found
          exact ⟨span, every⟩
        · exact inv name d found
      · intro name d found
        have apart : name ≠ f.name := by
          rintro rfl
          rw [absent] at found
          cases found
        simpa only [function?, lookup_entry, apart, if_false] using found
  function {m name f} inv := inv name f
  param {span f x} place admitted listed := checkDeclaration_tolerated condones
    (fun c => condones.param c admitted listed) (fun _ mode => by cases mode)
    (fun _ mode => absurd rfl mode)
  header {g unit path span init step cond body} isStep admitted has m inv := by
    have known := has m inv
    rcases condones.header isStep admitted with simple | tolerated
    · refine hasAt_bind (blockEffect_lawful condones) (fun flow _ => flow = .next) known
        (execute_simple g unit path simple m) ?_
      rintro flow m' inv' rfl
      exact ⟨inv', (Kept.refl m').keptBelow⟩
    · refine has_bind (blockEffect_lawful condones) has (fun flow m' inv' => ?_) m inv
      exact expectNext_ends ⟨inv', (Kept.refl m').keptBelow⟩
        fun _ => ⟨inv', (Kept.refl m').keptBelow, tolerated m'.context _⟩
  result := control_tolerated _ fun may => condones.result may

end

/-- The regime of the stacks. -/
theorem stacks_govern {p : Instr → Prop} {bad : Context → Fault → Prop}
    (tolerates : Tolerates p bad) : Governs p (stackEffect p bad) (blockEffect p bad) where
  toCovers := stacks_cover tolerates.toCondones
  leave := control_tolerated _ fun may => tolerates.leave (by simpa using may)
  again := control_tolerated _ fun may => tolerates.again (by simpa using may)
  across m := tolerates.across m.context

end Machine

/-! ## Every instruction is balanced -/

/-- Any fault may come out of any instruction. -/
theorem condones_all : Condones (fun _ => True) (fun _ _ => True) := by
  constructor
  case header => exact fun _ _ => .inr fun _ _ => trivial
  all_goals
    intros
    trivial

theorem tolerates_all : Tolerates (fun _ => True) (fun _ _ => True) where
  toCondones := condones_all
  leave _ := trivial
  again _ := trivial
  across _ _ := trivial

/-- The name that a declaration binds. -/
def Instr.declaredName? : Instr → Option String
  | .declare _ d => some d.name
  | _ => none

namespace Machine

open TraceLang.Action

/-- The stacks after an instruction that may have bound the name `rebound` in
the innermost scope. -/
structure Balanced (rebound : Option String) (m m' : Machine) : Prop where
  context : m'.context = m.context
  depth : m'.scopes.depth = m.scopes.depth
  callDepth : m'.callDepth = m.callDepth
  /-- Every other name denotes what it did, in every scope. -/
  bindings : ∀ level name, ¬ (level + 1 = m.scopes.depth ∧ rebound = some name) →
    m'.scopes.binding? level name = m.scopes.binding? level name
  /-- The name denotes a variable that was not there before. -/
  rebinding : ∀ name, rebound = some name → ∃ c : CellId,
    m'.scopes.binding? (m.scopes.depth - 1) name = some c ∧ m.heap.cells.size ≤ c.index
  functions : ∀ name f, m.function? name = some f → m'.function? name = some f

variable {m m' : Machine}

theorem Kept.balanced (kept : Kept m m') : Balanced none m m' where
  context := kept.context
  depth := by rw [kept.scopes]
  callDepth := kept.callDepth
  bindings _ _ _ := by rw [kept.scopes]
  rebinding _ rebound := by cases rebound
  functions := kept.functions

/-- The work of an instruction is balanced, and then its frame is closed. -/
theorem Balanced.closeFrame {rebound : Option String} {i : Instr}
    (balanced : Balanced rebound (m.entered i) m') :
    Balanced rebound m { m' with context := m.context } :=
  ⟨rfl, balanced.depth, balanced.callDepth, balanced.bindings, balanced.rebinding,
    balanced.functions⟩

/-- Around a declaration everything is kept. -/
theorem balanced_bound {name : String} {value : Value} {assigned : Bool} {m₁ m₂ : Machine}
    (before : Kept m m₁) (after : Kept (m₁.bound name value assigned) m₂) :
    Balanced (some name) m m₂ where
  context := after.context.trans before.context
  depth := by rw [after.scopes, bound, Scopes.depth_define, before.scopes]
  callDepth := after.callDepth.trans before.callDepth
  bindings level other elsewhere := by
    have elsewhere' : ¬ (level + 1 = m.scopes.depth ∧ other = name) := fun here =>
      elsewhere ⟨here.1, by rw [here.2]⟩
    rw [after.scopes, bound, Scopes.binding?_define, before.scopes, if_neg elsewhere']
  rebinding other rebound := by
    cases rebound
    have innermost : m.scopes.depth - 1 + 1 = m.scopes.depth :=
      Nat.sub_add_cancel m.scopes.depth_pos
    refine ⟨⟨m₁.heap.cells.size⟩, ?_, before.cells⟩
    rw [after.scopes, bound, Scopes.binding?_define, before.scopes, if_pos ⟨innermost, rfl⟩]
    rfl
  functions other f found := after.functions other f (before.functions other f found)

/-- All that can be said about every instruction, whatever its faults. -/
abbrev plainEffect : Effect :=
  stackEffect (fun _ => True) fun _ _ => True

theorem plainEffect_inv (m : Machine) : plainEffect.inv m :=
  fun _ f _ => ⟨f.function.span, Instr.every_of_forall (fun _ => trivial) _⟩

theorem recordTraces_kept (settings : Settings) (span : Span) (m : Machine) :
    (recordTraces settings span).Ends m (fun _ m' => Kept m m') (fun _ _ => False) :=
  (recordTraces_has (stackEffect_permissive condones_all) settings span m (plainEffect_inv m)).2

/-- A declaration binds its name as the last thing it does, if it does not
fail. -/
theorem declare_ends {g : Engine} (call : ∀ name args span, (g.call name args span).Has plainEffect)
    (d : Declaration) (m : Machine) :
    (declare g d).Ends m (fun _ m' => ∃ m₁ v, Kept m m₁ ∧ m' = m₁.bound d.name v d.assigned)
      (fun _ m' => Kept m m') := by
  have rule := stacks_govern tolerates_all
  have checked : (checkDeclaration d).Has plainEffect :=
    checkDeclaration_tolerated condones_all (fun _ _ => trivial) (fun _ _ => trivial)
      (fun _ _ => trivial)
  rw [declare, ends_bind]
  refine Ends.mono (checked m (plainEffect_inv m)) ?_ (fun _ _ bad => bad.2.1)
  rintro _ m₁ ⟨inv₁, kept₁⟩
  rw [ends_bind]
  refine Ends.mono (eval_has rule.permissive (invoke_has rule.toCovers call) d.init m₁ inv₁) ?_
    (fun _ _ bad => kept₁.trans bad.2.1)
  rintro v m₂ ⟨inv₂, kept₂⟩
  have kept := kept₁.trans kept₂
  rw [bindChecked, ends_bind]
  refine Ends.mono (used_has rule.permissive d.init v m₂ inv₂) ?_
    (fun _ _ bad => kept.trans bad.2.1)
  rintro w m₃ ⟨-, kept₃⟩
  refine ends_ite.mpr ⟨fun _ => kept.trans kept₃, fun _ => ?_⟩
  exact ⟨m₃, _, kept.trans kept₃, rfl⟩

theorem execute_declare_balanced {g : Engine}
    (call : ∀ name args span, (g.call name args span).Has plainEffect) (unit : Nat) (path : Path)
    (span : Span) (d : Declaration) (m : Machine) :
    (execute g unit path (.declare span d)).Ends m
      (fun _ m' => Balanced (some d.name) m m') (fun _ m' => Balanced none m m') := by
  unfold execute
  refine ends_stepped ?_
  rw [ends_bind, ends_discard]
  refine (declare_ends call d _).mono ?_ ?_
  · rintro c m' ⟨m₁, v, before, rfl⟩
    rw [ends_bind]
    refine (recordTraces_kept _ span _).mono ?_ (fun _ _ never => never.elim)
    intro _ m₂ after
    have balanced := balanced_bound before after
    exact ⟨balanced.context, balanced.depth, balanced.closeFrame⟩
  · intro f m' kept
    have balanced := kept.balanced
    exact ⟨balanced.context, balanced.depth, balanced.closeFrame⟩

/-- However an instruction ends, it has closed every scope and frame that it
opened and every call that it made. Where it succeeds and is a declaration, its
name is bound to a new variable in the innermost scope; nothing else is bound or
unbound, and no function is lost or replaced. -/
theorem execute_balanced (settings : Settings) (fuel unit : Nat) (path : Path) (i : Instr)
    (m : Machine) :
    (execute ((Env.standard settings).engine fuel) unit path i).Ends m
      (fun _ m' => Balanced i.declaredName? m m') (fun _ m' => Balanced none m m') := by
  have rule := stacks_govern tolerates_all
  have call := standard_call_has rule settings fuel
  have every : i.Every fun _ => True := Instr.every_of_forall (fun _ => trivial) i
  have has := execute_has rule call unit path i every
  cases i with
  | declare span d => exact execute_declare_balanced call unit path span d m
  | whileLoop | forLoop | conditional | assign | call | define | trace | leave | again | result =>
    exact (has m (plainEffect_inv m)).mono (fun _ _ good => Kept.balanced good.2)
      (fun _ _ bad => Kept.balanced bad.2.1)

end Machine

end TraceLang
