/-
# TraceLang.Proofs.Settling — when all changes have been recorded

Declarations, assignments and call statements look at all watched variables when
they end; the other instructions do not. A machine is settled if every watched
variable has been seen as it is. A condition, a returned value or a target of
`trace` that appends to a list leaves a machine that is not settled, until the
next instruction that records.

`Instr.outlook` follows a program through its branches, loops, `break`,
`continue` and `return` and says where the machine is settled for certain, if
calls of certain functions are trusted to leave it so. This module brings what
the analysis rests on: additions to a grounded heap leave a settled machine
settled (`Orderly.grown`), and so do expressions that call trusted functions
(`eval_settles`).
-/
import TraceLang.Proofs.Calls
import TraceLang.Proofs.Grounding

namespace TraceLang

set_option autoImplicit false

/-! ## The analysis -/

/-- Where the machine is settled for certain. -/
structure Outlook where
  /-- When the next instruction is reached. -/
  next : Bool
  /-- At every `break` and `continue` that is passed on. -/
  jump : Bool
  /-- At every `return`. -/
  result : Bool
deriving DecidableEq, Repr

namespace Outlook

/-- Whether the machine is settled if this is the control signal. -/
def after (o : Outlook) : Flow → Bool
  | .next => o.next
  | .leave | .again => o.jump
  | .result _ => o.result

/-- One or the other. -/
def either (o o' : Outlook) : Outlook :=
  ⟨o.next && o'.next, o.jump && o'.jump, o.result && o'.result⟩

/-- One after the other. -/
def andThen (o o' : Outlook) : Outlook :=
  { o.either o' with next := o'.next }

theorem after_either (o o' : Outlook) (flow : Flow) :
    (o.either o').after flow = (o.after flow && o'.after flow) := by
  cases flow <;> rfl

/-- A part that gives no control signal. -/
def plain (next : Bool) : Outlook :=
  ⟨next, true, true⟩

/-- A loop around a body that is settled where the second outlook says so. -/
def loop (next : Bool) (body : Outlook) : Outlook :=
  ⟨next, true, body.result⟩

end Outlook

namespace Instr

mutual

/-- Where the machine is settled after the instruction, if it is or is not
before. -/
def outlook (trusts : String → Bool) (settled : Bool) : Instr → Outlook
  | .declare .. | .assign .. | .call .. => .plain true
  | .define .. => .plain settled
  | .trace _ targets => .plain (settled && targets.all (·.callsOnly trusts))
  | .leave _ | .again _ => { Outlook.plain true with jump := settled }
  | .result _ none => { Outlook.plain true with result := settled }
  | .result _ (some value) =>
    { Outlook.plain true with result := settled && value.callsOnly trusts }
  | .conditional _ cond onTrue onFalse =>
    let settled := settled && cond.callsOnly trusts
    (outlookAll trusts settled onTrue).either (outlookAll trusts settled onFalse)
  | .whileLoop _ cond body =>
    let inside := outlookAll trusts true body
    let throughout := settled && cond.callsOnly trusts && (inside.next && inside.jump)
    .loop throughout (outlookAll trusts throughout body)
  | .forLoop _ _ _ cond body =>
    let throughout := cond.callsOnly trusts && (outlookAll trusts true body).jump
    .loop throughout (outlookAll trusts throughout body)

/-- Where the machine is settled after a block. -/
def outlookAll (trusts : String → Bool) (settled : Bool) : List Instr → Outlook
  | [] => .plain settled
  | i :: rest =>
    let first := outlook trusts settled i
    first.andThen (outlookAll trusts first.next rest)

end

/-- If the instruction defines a function that is trusted, every call of it that
comes back leaves a settled machine settled. -/
def Reliable (trusts : String → Bool) : Instr → Prop
  | .define _ name _ body _ => trusts name →
    (outlookAll trusts true body).next ∧ (outlookAll trusts true body).result
  | _ => True

instance (trusts : String → Bool) : DecidablePred (Reliable trusts)
  | .define _ name _ body _ => inferInstanceAs (Decidable (trusts name →
      (outlookAll trusts true body).next ∧ (outlookAll trusts true body).result))
  | .whileLoop .. | .forLoop .. | .conditional .. | .declare .. | .assign .. | .call ..
  | .trace .. | .leave .. | .again .. | .result .. => isTrue trivial

end Instr

/-- At the end of the program the machine is settled for certain, and the trust
that this takes is justified. -/
structure Program.Settles (trusts : String → Bool) (prog : Program) : Prop where
  append : trusts "append" = false
  functions : Instr.EveryOf (Instr.Reliable trusts) prog.body
  ending : (Instr.outlookAll trusts true prog.body).next

instance (trusts : String → Bool) (prog : Program) : Decidable (prog.Settles trusts) :=
  decidable_of_iff (trusts "append" = false ∧ Instr.EveryOf (Instr.Reliable trusts) prog.body ∧
      (Instr.outlookAll trusts true prog.body).next)
    ⟨fun h => ⟨h.1, h.2.1, h.2.2⟩, fun h => ⟨h.append, h.functions, h.ending⟩⟩

namespace Machine

open TraceLang.Action

variable {m m' : Machine} {α : Type} {trusts : String → Bool}

/-! ## Settled machines -/

/-- Every watched variable has been seen as it is. -/
def Settled (m : Machine) : Prop :=
  ∀ w ∈ m.tracer.watched, w.Synced m.heap

/-- Functions are listed under their names. -/
def Named (m : Machine) : Prop :=
  ∀ entry ∈ m.functions, entry.1 = entry.2.function.name

theorem edit_functions (edit : Edit m m') : m'.functions = m.functions := by
  cases edit <;> rfl

theorem step_named (step : Step m m') (named : m.Named) : m'.Named := by
  cases step with
  | edit edit =>
    unfold Named
    rw [edit_functions edit]
    exact named
  | define f => exact List.forall_mem_cons.mpr ⟨rfl, named⟩
  | _ => exact named

theorem Reachable.named (reachable : m.Reachable) : m.Named := by
  obtain ⟨output, steps⟩ := reachable
  induction steps with
  | refl => exact fun _ => nofun
  | tail _ step ih => exact step_named step ih

/-- What holds while a program runs whose trusted functions are reliable. -/
structure Orderly (trusts : String → Bool) (m : Machine) : Prop where
  reachable : m.Reachable
  grounded : m.Grounded (Instr.Reliable trusts)

/-- A trusted function is reliable. -/
theorem Orderly.function (orderly : m.Orderly trusts) {name : String} {f : Defined}
    (found : m.function? name = some f) (trusted : trusts name) :
    (Instr.outlookAll trusts true f.function.body).next ∧
      (Instr.outlookAll trusts true f.function.body).result ∧
      Instr.EveryOf (fun i => i.Spelled ∧ i.Reliable trusts) f.function.body := by
  have member : (name, f) ∈ m.functions := mem_of_lookup found
  have called : name = f.function.name := orderly.reachable.named _ member
  obtain ⟨span, ⟨-, reliable⟩, inBody⟩ := orderly.grounded.functions _ member
  obtain ⟨next, result⟩ := reliable (called ▸ trusted)
  exact ⟨next, result, inBody⟩

/-- Steps that touch neither heap nor functions. -/
theorem Orderly.aside (orderly : m.Orderly trusts) (steps : Steps m m')
    (heap : m'.heap = m.heap) (functions : m'.functions = m.functions) : m'.Orderly trusts := by
  refine ⟨orderly.reachable.steps steps, ?_, ?_, ?_⟩
  · rw [heap]
    exact orderly.grounded.heap
  · rw [heap]
    exact orderly.grounded.secluded
  · rw [functions]
    exact orderly.grounded.functions

/-- Watched variables that were seen still are in a heap that shows the same. -/
theorem Orderly.synced {h : Heap} (orderly : m.Orderly trusts) (shows : m.heap.Shows h)
    (versions : ∀ c : CellId, c.index < m.heap.cells.size →
      (h.read c).version = (m.heap.read c).version)
    {w : Watched} (member : w ∈ m.tracer.watched) (synced : w.Synced m.heap) : w.Synced h := by
  have sound := orderly.reachable.sound
  have inHeap := (sound.watched w member).inHeap
  have same : h.snapshot (h.read w.cell).value = m.heap.snapshot (m.heap.read w.cell).value := by
    rw [(shows.read w.cell inHeap).2.2]
    have grounded : m.heap.Grounded := orderly.grounded.heap
    exact grounded.snapshot_eq sound.wired shows (grounded w.cell)
  constructor
  · rw [synced.version, versions w.cell inHeap]
  · rw [same]
    exact synced.seen
  · rw [same]
    exact synced.last

/-- Only additions to the heap, and no new notes. -/
structure Grown (m m' : Machine) : Prop where
  heap : m.heap.Grows m'.heap
  tracer : m'.tracer = m.tracer

theorem Grown.trans {m'' : Machine} (first : m.Grown m') (second : m'.Grown m'') : m.Grown m'' :=
  ⟨first.heap.trans second.heap, second.tracer.trans first.tracer⟩

/-- Additions leave a settled machine settled. -/
theorem Orderly.grown (orderly : m.Orderly trusts) (settled : m.Settled) (grown : m.Grown m') :
    m'.Settled := by
  intro w member
  rw [grown.tracer] at member
  refine orderly.synced grown.heap.shows (fun c old => ?_) member (settled w member)
  rw [grown.heap.cells c old]

/-- What only adds to the heap. -/
def growingEffect : Effect where
  inv _ := True
  change := Grown
  fault _ _ := True

theorem growingEffect_reporting : growingEffect.Reporting where
  refl _ := ⟨.refl _, rfl⟩
  trans := .trans
  fault_after _ _ := trivial
  fault_locate _ _ := trivial
  newList values _ := ⟨trivial, Heap.grows_newList _ values, rfl⟩
  ordinary _ _ _ _ := trivial
  copy v _ := ⟨trivial, Heap.grows_deepCopy _ v, rfl⟩
  ask _ _ := ⟨trivial, .refl _, rfl⟩

theorem ends_grown {act : Action α} (has : act.Has growingEffect) (orderly : m.Orderly trusts)
    (settled : m.Settled) : act.Ends m (fun _ m' => m'.Settled) (fun _ _ => True) :=
  (has m trivial).onOk fun _ _ good => orderly.grown settled good.2

/-- What takes an orderly machine through steps and mirrors itself keeps it
orderly. -/
theorem ends_orderly {act : Action α} {good : Heap → α → α → Prop} (has : act.Has stepsEffect)
    (mirrors : (grounding (Instr.Reliable trusts)).Mirrors m.heap good act act)
    (orderly : m.Orderly trusts) :
    act.Ends m (fun a m' => m'.Orderly trusts ∧ good m'.heap a a)
      (fun _ _ => True) := by
  refine ((hasAt_steps.mp (has m trivial)).and (ends_upkept mirrors orderly.grounded)).onOk ?_
  rintro a m' ⟨steps, grounded, like⟩
  exact ⟨⟨orderly.reachable.steps steps, grounded⟩, like⟩

/-! ## Expressions -/

/-- The arguments of a call, which hold lists of the heap. -/
abbrev Arguments (trusts : String → Bool) (m : Machine) (args : List Variable) : Prop :=
  List.Forall₂ ((grounding (Instr.Reliable trusts)).Given m.heap) args args

/-- What is known of calls while the trust is justified. -/
structure Trusted (trusts : String → Bool) (g : Engine) : Prop where
  answers : (grounding (Instr.Reliable trusts)).Answers g.call
  steps : ∀ name args span, (g.invoke name args span).Has stepsEffect
  settles : ∀ {m : Machine} {name : String} {args : List Variable} (span : Span), trusts name →
    m.Orderly trusts → m.Settled → m.Arguments trusts args →
    (g.call name args span).Ends m (fun _ m' => m'.Settled) (fun _ _ => True)

theorem used_same (x : Expr) (v : Variable) (m : Machine) :
    (used x v).Ends m (fun _ m' => m' = m) (fun _ _ => True) :=
  ends_ite.mpr ⟨fun _ => rfl, fun _ => trivial⟩

theorem truth_same (x : Expr) (v : Variable) (m : Machine) :
    (truth x v).Ends m (fun _ m' => m' = m) (fun _ _ => True) := by
  refine (used_same x v m).bind_ok ?_
  rintro v _ rfl
  split
  · rfl
  · trivial

section

variable {g : Engine} (trusted : Trusted trusts g)

include trusted

theorem eval_orderly (x : Expr) (orderly : m.Orderly trusts) :
    (eval g x).Ends m (fun _ m' => m'.Orderly trusts) (fun _ _ => True) :=
  (ends_orderly (eval_has stepsEffect_permissive trusted.steps x)
    (Coupling.eval_mirrors groundedness_lawful.tends trusted.answers x) orderly).onOk
    fun _ _ good => good.1

theorem evalArgs_orderly (xs : List Expr) (orderly : m.Orderly trusts) :
    (evalArgs g xs).Ends m (fun args m' => m'.Orderly trusts ∧ m'.Arguments trusts args)
      (fun _ _ => True) :=
  ends_orderly (evalArgs_has stepsEffect_permissive trusted.steps xs)
    (Coupling.evalArgs_mirrors groundedness_lawful.tends trusted.answers xs) orderly

theorem resolve_orderly (x : Expr) (orderly : m.Orderly trusts) :
    (resolve g x).Ends m (fun _ m' => m'.Orderly trusts) (fun _ _ => True) :=
  (ends_orderly (resolve_has stepsEffect_permissive trusted.steps x)
    (Coupling.resolve_mirrors groundedness_lawful.tends trusted.answers x) orderly).onOk
    fun _ _ good => good.1

theorem invoke_settles {name : String} (known : trusts name) {args : List Variable} (span : Span)
    (orderly : m.Orderly trusts) (settled : m.Settled) (arguments : m.Arguments trusts args) :
    (g.invoke name args span).Ends m (fun _ m' => m'.Settled) (fun _ _ => True) := by
  have found : (located span (g.env.lookup name)).Ends m (fun _ m' => m' = m) (fun _ _ => True) :=
    (ends_located span).mpr ((lookup_ends g.env name m).onOk fun _ _ good => good.2)
  unfold Engine.invoke
  refine found.bind_ok ?_
  rintro callee _ rfl
  refine Ends.bind_ok (ends_framed_ok _ ?_) fun _ _ settled' => settled'
  exact trusted.settles span known (orderly.aside (.single (.openFrame _)) rfl rfl) settled
    arguments

/-! A machine that is settled stays so while trusted functions are called. -/

-- The list case uses the calls only through the elements.
set_option linter.unusedSectionVars false in
mutual

theorem eval_settles : (x : Expr) → x.callsOnly trusts → ∀ {m : Machine}, m.Orderly trusts →
    m.Settled → (eval g x).Ends m (fun _ m' => m'.Settled) (fun _ _ => True)
  | .int .., _, _, _, settled | .float .., _, _, _, settled | .bool .., _, _, _, settled
  | .str .., _, _, _, settled | .none .., _, _, _, settled => by
    unfold eval
    exact settled
  | .default _ ty, _, _, orderly, settled => by
    have allocating := growingEffect_reporting.toAllocating
    unfold eval
    exact ends_grown (has_bind allocating.toLawful (defaultValue_has allocating ty)
      fun _ => has_pure allocating.toLawful _) orderly settled
  | .list span items, only, m, orderly, settled => by
    have allocating := growingEffect_reporting.toAllocating
    simp only [Expr.callsOnly] at only
    unfold eval
    refine (ends_located span).mpr ?_
    refine ((evalArgs_orderly trusted items orderly).and
      (evalArgs_settles items only orderly settled)).bind_ok ?_
    rintro values m₁ ⟨⟨orderly₁, -⟩, settled₁⟩
    exact ends_grown (has_bind allocating.toLawful (has_newList allocating _)
      fun _ => has_pure allocating.toLawful _) orderly₁ settled₁
  | .var span name, _, _, orderly, settled => by
    have allocating := growingEffect_reporting.toAllocating
    unfold eval
    exact ends_grown (has_located allocating.toLawful span (has_bind allocating.toLawful
      (locate_has allocating name) fun _ => has_read allocating.toLawful _)) orderly settled
  | .index span base index, only, m, orderly, settled => by
    have allocating := growingEffect_reporting.toAllocating
    simp only [Expr.callsOnly, Bool.and_eq_true] at only
    unfold eval
    refine (ends_located span).mpr ?_
    refine ((eval_orderly trusted base orderly).and
      (eval_settles base only.1 orderly settled)).bind_ok ?_
    rintro v m₁ ⟨orderly₁, settled₁⟩
    refine (used_same base v m₁).bind_ok ?_
    rintro v _ rfl
    refine ((eval_orderly trusted index orderly₁).and
      (eval_settles index only.2 orderly₁ settled₁)).bind_ok ?_
    rintro w m₂ ⟨orderly₂, settled₂⟩
    exact ends_grown (has_bind allocating.toLawful (position_has allocating index w) fun i =>
      element_has allocating base v i) orderly₂ settled₂
  | .binary span op left right, only, m, orderly, settled => by
    have allocating := growingEffect_reporting.toAllocating
    simp only [Expr.callsOnly, Bool.and_eq_true] at only
    have ofLeft := (eval_orderly trusted left orderly).and
      (eval_settles left only.1 orderly settled)
    have ofRight : ∀ {m₁ : Machine}, m₁.Orderly trusts → m₁.Settled →
        (eval g right).Ends m₁ (fun _ m₂ => m₂.Orderly trusts ∧ m₂.Settled) (fun _ _ => True) :=
      fun orderly₁ settled₁ => ((eval_orderly trusted right orderly₁).and
        (eval_settles right only.2 orderly₁ settled₁)).onOk fun _ _ good => good
    cases op
    case and | or =>
      unfold eval
      refine (ends_located span).mpr (ofLeft.bind_ok ?_)
      rintro v m₁ ⟨orderly₁, settled₁⟩
      refine (truth_same left v m₁).bind_ok ?_
      rintro b _ rfl
      -- One of the two values decides without the right operand.
      refine ends_ite.mpr ⟨fun _ => ?_, fun _ => ?_⟩
      all_goals first
        | exact settled₁
        | refine (ofRight orderly₁ settled₁).bind_ok ?_
          rintro w m₂ ⟨orderly₂, settled₂⟩
          exact ends_grown (has_bind allocating.toLawful (truth_has allocating right w) fun _ =>
            has_pure allocating.toLawful _) orderly₂ settled₂
    all_goals
      unfold eval
      refine (ends_located span).mpr (ofLeft.bind_ok ?_)
      rintro v m₁ ⟨orderly₁, settled₁⟩
      refine (used_same left v m₁).bind_ok ?_
      rintro a _ rfl
      refine (ofRight orderly₁ settled₁).bind_ok ?_
      rintro w m₂ ⟨orderly₂, settled₂⟩
      exact ends_grown (has_bind allocating.toLawful (used_has allocating right w) fun b =>
        applyBinary_has allocating _ a.value b.value) orderly₂ settled₂
  | .unary span op operand, only, m, orderly, settled => by
    have allocating := growingEffect_reporting.toAllocating
    simp only [Expr.callsOnly] at only
    unfold eval
    refine (ends_located span).mpr ?_
    refine ((eval_orderly trusted operand orderly).and
      (eval_settles operand only orderly settled)).bind_ok ?_
    rintro v m₁ ⟨orderly₁, settled₁⟩
    refine ends_grown (has_bind allocating.toLawful (used_has allocating operand v) fun v => ?_)
      orderly₁ settled₁
    exact has_bind allocating.toLawful
      (ofExcept_has allocating fun _ => Operators.unary_ordinary) fun _ =>
      has_pure allocating.toLawful _
  | .call span name args, only, m, orderly, settled => by
    simp only [Expr.callsOnly, Bool.and_eq_true] at only
    unfold eval
    refine (ends_located span).mpr ?_
    refine ((evalArgs_orderly trusted args orderly).and
      (evalArgs_settles args only.2 orderly settled)).bind_ok ?_
    rintro values m₁ ⟨⟨orderly₁, arguments⟩, settled₁⟩
    exact invoke_settles trusted only.1 span orderly₁ settled₁ arguments

theorem evalArgs_settles : (xs : List Expr) → Expr.callOnly trusts xs → ∀ {m : Machine},
    m.Orderly trusts → m.Settled →
    (evalArgs g xs).Ends m (fun _ m' => m'.Settled) (fun _ _ => True)
  | [], _, _, _, settled => settled
  | x :: rest, only, m, orderly, settled => by
    simp only [Expr.callOnly, Bool.and_eq_true] at only
    unfold evalArgs
    refine ((eval_orderly trusted x orderly).and
      (eval_settles x only.1 orderly settled)).bind_ok ?_
    rintro v m₁ ⟨orderly₁, settled₁⟩
    refine (used_same x v m₁).bind_ok ?_
    rintro v _ rfl
    exact (evalArgs_settles rest only.2 orderly₁ settled₁).bind_ok fun _ _ settled₂ => settled₂

end

theorem resolve_settles : (x : Expr) → x.callsOnly trusts → ∀ {m : Machine}, m.Orderly trusts →
    m.Settled → (resolve g x).Ends m (fun _ m' => m'.Settled) (fun _ _ => True)
  | .var span name, _, _, orderly, settled => by
    have allocating := growingEffect_reporting.toAllocating
    unfold resolve
    exact ends_grown (has_located allocating.toLawful span (locate_has allocating name)) orderly
      settled
  | .index span base index, only, m, orderly, settled => by
    have allocating := growingEffect_reporting.toAllocating
    have lawful := allocating.toLawful
    simp only [Expr.callsOnly, Bool.and_eq_true] at only
    unfold resolve
    refine ((resolve_orderly trusted base orderly).and
      (resolve_settles base only.1 orderly settled)).bind_ok ?_
    rintro c m₁ ⟨orderly₁, settled₁⟩
    refine ((eval_orderly trusted index orderly₁).and
      (eval_settles trusted index only.2 orderly₁ settled₁)).bind_ok ?_
    rintro w m₂ ⟨orderly₂, settled₂⟩
    refine ends_grown (has_bind lawful (position_has allocating index w) fun i => ?_) orderly₂
      settled₂
    refine has_bind lawful (has_read lawful _) fun v => has_ite (fun _ => ?_) (fun _ => ?_)
    · split
      · exact has_located lawful span (elementOf_has allocating _ i)
      · exact has_failAt allocating rfl span
      · exact has_failAt allocating rfl base.span
    · exact has_failAt allocating rfl base.span
  | .int .., _, _, _, _ | .float .., _, _, _, _ | .bool .., _, _, _, _ | .str .., _, _, _, _
  | .none .., _, _, _, _ | .list .., _, _, _, _ | .binary .., _, _, _, _ | .unary .., _, _, _, _
  | .call .., _, _, _, _ | .default .., _, _, _, _ => trivial

end

end Machine

end TraceLang
