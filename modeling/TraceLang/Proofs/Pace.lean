/-
# TraceLang.Proofs.Pace — what happens between two records

A record carries the step at which it is made, and an instruction records after
all that happens inside it. If a function ends in a `return`, an instruction
that called it finds the steps counted on since the last record inside the call:
the `return` counted as a step and recorded nothing. This module says so for
whole programs whose functions all end in a `return`.

`Paced settings echo ready kept` speaks of two properties of a machine and its
twin, whose records are echoed or not as `echo` says. `kept` holds throughout a
run. `ready` holds as well from where an instruction begins to where it records,
if it does, and again when a function has returned: counting a step makes a
machine ready, and recording needs a ready one. What fails may fail on a machine
that is only kept. `run_paced` is the result for programs.
-/
import TraceLang.Proofs.Twins

namespace TraceLang

set_option autoImplicit false

/-! ## The two properties -/

def Instr.isReturn : Instr → Bool
  | .result .. => true
  | _ => false

/-- If the instruction defines a function, its body ends in a `return`. -/
def Instr.EndsInReturn : Instr → Prop
  | .define _ _ _ body _ => body.getLast?.any isReturn
  | _ => True

instance : DecidablePred Instr.EndsInReturn
  | .define _ _ _ body _ => inferInstanceAs (Decidable (body.getLast?.any Instr.isReturn = true))
  | .whileLoop .. | .forLoop .. | .conditional .. | .declare .. | .assign .. | .call ..
  | .trace .. | .leave .. | .again .. | .result .. => isTrue trivial

/-- The settings with or without the echo of records. -/
def Settings.echoing (settings : Settings) (echo : Bool) : Settings :=
  { settings with echoTraces := echo }

def Env.echoing (env : Env) (echo : Bool) : Env :=
  { env with settings := env.settings.echoing echo }

/-- The engine of the twin, with its own way to call functions. -/
def Engine.echoing (g : Engine) (echo : Bool) (call : Caller) : Engine :=
  { env := g.env.echoing echo, call, fuel := g.fuel }

/-- What holds throughout a run and what also holds up to a record. -/
structure Paced (settings : Settings) (echo : Bool) (ready kept : View) : Prop where
  weaken : ∀ m o, ready m o → kept m o
  readyStable : ready.Stable
  keptStable : kept.Stable
  alike : ∀ {m : Machine} {o : Output} (r : Request), kept m o →
    o.refusal? r = m.output.refusal? r
  readyAsk : ∀ {m : Machine} {o : Output} (r : Request), ready m o → ready (m.ask r) (o.ask r)
  keptAsk : ∀ {m : Machine} {o : Output} (r : Request), kept m o → kept (m.ask r) (o.ask r)
  tick : ∀ {m : Machine} {o : Output}, kept m o → ready { m with steps := m.steps + 1 } o
  record : ∀ {m : Machine} {o : Output} (span : Span), ready m o →
    (Machine.recordTraces settings span).Ends m
      (fun _ n => kept n ((m.printing o).recordOutput (settings.echoing echo) span))
      (fun _ _ => False)
  watch : ∀ {m : Machine} {o : Output} (heap : Heap) (c : CellId) (label : String), ready m o →
    ready { m with heap, tracer := m.tracer.watch heap c label } o
  define : ∀ {m : Machine} {o : Output} {f : Defined}, f.function.Every Instr.EndsInReturn →
    ready m o → ready { m with functions := (f.function.name, f) :: m.functions } o
  function : ∀ {m : Machine} {o : Output} {name : String} {f : Defined}, kept m o →
    m.function? name = some f → f.function.Every Instr.EndsInReturn

/-- A property between the two that expressions keep as well. -/
structure Lasting (ready kept p : View) : Prop where
  stable : p.Stable
  ask : ∀ {m : Machine} {o : Output} (r : Request), p m o → p (m.ask r) (o.ask r)
  ofReady : ∀ m o, ready m o → p m o
  weaken : ∀ m o, p m o → kept m o

namespace Paced

variable {settings : Settings} {echo : Bool} {ready kept : View}
  (paced : Paced settings echo ready kept)

include paced

theorem lasting_ready : Lasting ready kept ready :=
  ⟨paced.readyStable, paced.readyAsk, fun _ _ holds => holds, paced.weaken⟩

theorem lasting_kept : Lasting ready kept kept :=
  ⟨paced.keptStable, paced.keptAsk, paced.weaken, fun _ _ holds => holds⟩

end Paced

/-! ## Accounts -/

/-- A property of the histories, the step counter, the output, and the output of
the twin. -/
abbrev Account :=
  Tracer → Nat → Output → Output → Prop

/-- The account is true of a machine and its twin, and all functions end in a
`return`. -/
structure Account.Holds (a : Account) (m : Machine) (o : Output) : Prop where
  returns : ∀ name f, m.function? name = some f → f.function.Every Instr.EndsInReturn
  account : a m.tracer m.steps m.output o

/-- What has to be known of two accounts: that the outputs answer the same, and which
steps keep which account. -/
structure Account.Steady (settings : Settings) (echo : Bool) (ready kept : Account) : Prop where
  weaken : ∀ {t : Tracer} {s : Nat} {o o' : Output}, ready t s o o' → kept t s o o'
  alike : ∀ {t : Tracer} {s : Nat} {o o' : Output} (r : Request), kept t s o o' →
    o'.refusal? r = o.refusal? r
  readyAsk : ∀ {t : Tracer} {s : Nat} {o o' : Output} (r : Request), ready t s o o' →
    ready t s (o.ask r) (o'.ask r)
  keptAsk : ∀ {t : Tracer} {s : Nat} {o o' : Output} (r : Request), kept t s o o' →
    kept t s (o.ask r) (o'.ask r)
  tick : ∀ {t : Tracer} {s : Nat} {o o' : Output}, kept t s o o' → ready t (s + 1) o o'
  record : ∀ {m : Machine} {o' : Output} (span : Span), ready m.tracer m.steps m.output o' →
    kept (m.tracer.update m.heap m.steps span).2 m.steps (m.recordOutput settings span)
      ((m.printing o').recordOutput (settings.echoing echo) span)
  watch : ∀ {t : Tracer} {s : Nat} {o o' : Output} (h : Heap) (c : CellId) (label : String),
    ready t s o o' → ready (t.watch h c label) s o o'

namespace Account

variable {settings : Settings} {echo : Bool} {a ready kept : Account}

theorem holds_stable : View.Stable a.Holds where
  keep holds same := by
    constructor
    · intro name f found
      rw [Machine.function?, same.functions] at found
      exact holds.returns name f found
    · rw [same.tracer, same.steps, same.output]
      exact holds.account

theorem Steady.paced (steady : Steady settings echo ready kept) :
    Paced settings echo ready.Holds kept.Holds where
  weaken _ _ holds := ⟨holds.returns, steady.weaken holds.account⟩
  readyStable := holds_stable
  keptStable := holds_stable
  alike r holds := steady.alike r holds.account
  readyAsk r holds := ⟨holds.returns, steady.readyAsk r holds.account⟩
  keptAsk r holds := ⟨holds.returns, steady.keptAsk r holds.account⟩
  tick holds := ⟨holds.returns, steady.tick holds.account⟩
  record span holds := by
    unfold Action.Ends
    rw [Machine.recordTraces_eq]
    exact ⟨holds.returns, steady.record span holds.account⟩
  watch heap c label holds :=
    ⟨holds.returns, steady.watch heap c label holds.account⟩
  define {m o f} every holds := by
    refine ⟨fun name f' found => ?_, holds.account⟩
    simp only [Machine.function?, lookup_entry] at found
    split at found
    · cases found
      exact every
    · exact holds.returns name f' found
  function holds found := holds.returns _ _ found

end Account

namespace Machine

open TraceLang.Action

/-! ## Expressions -/

section

variable {ready kept p : View} (lasting : Lasting ready kept p)

include lasting

theorem twins_of_quiet {α : Type} {act : Action α} (quiet : act.Quiet) :
    act.Twins act p (fun _ => p) kept :=
  quiet.twins lasting.stable lasting.weaken

variable {g : Engine} {echo : Bool} {call' : Caller}
  (invoke : ∀ name args span, (g.invoke name args span).Twins
    ((g.echoing echo call').invoke name args span) p (fun _ => p) kept)

include invoke

-- The list case uses the calls only through the elements.
set_option linter.unusedSectionVars false in
mutual

/-- Expressions keep what the calls in them keep. -/
theorem eval_twins : (x : Expr) → (eval g x).Twins (eval (g.echoing echo call') x) p (fun _ => p) kept
  | .int .. | .float .. | .bool .. | .str .. | .none .. => by
    unfold eval
    exact twins_pure fun _ _ holds => holds
  | .default _ ty => by
    unfold eval
    exact twins_bind (twins_of_quiet lasting (quiet_onHeap _))
      fun _ => twins_pure fun _ _ holds => holds
  | .list span items => by
    unfold eval
    refine twins_located span (twins_bind (evalArgs_twins items) fun values => ?_)
    exact twins_bind (twins_of_quiet lasting (quiet_onHeap _))
      fun _ => twins_pure fun _ _ holds => holds
  | .var span name => by
    unfold eval
    refine twins_located span (twins_of_quiet lasting ?_)
    exact quiet_bind (locate_quiet name) fun _ => quiet_read fun _ _ => rfl
  | .index span base index => by
    unfold eval
    refine twins_located span (twins_bind (eval_twins base) fun v => ?_)
    refine twins_bind (twins_of_quiet lasting (used_quiet base v)) fun v => ?_
    refine twins_bind (eval_twins index) fun w => ?_
    refine twins_bind (twins_of_quiet lasting (position_quiet index w)) fun i => ?_
    exact twins_of_quiet lasting (element_quiet base v i)
  | .binary span op left right => by
    have ofLeft := eval_twins left
    have ofRight := eval_twins right
    cases op
    case and | or =>
      unfold eval
      refine twins_located span (twins_bind ofLeft fun v => ?_)
      refine twins_bind (twins_of_quiet lasting (truth_quiet left v)) fun b => ?_
      -- One of the two values decides without the right operand.
      cases b
      all_goals first
        | exact twins_pure fun _ _ holds => holds
        | refine twins_bind ofRight fun w => ?_
          exact twins_bind (twins_of_quiet lasting (truth_quiet right w))
            fun _ => twins_pure fun _ _ holds => holds
    all_goals
      unfold eval
      refine twins_located span (twins_bind ofLeft fun v => ?_)
      refine twins_bind (twins_of_quiet lasting (used_quiet left v)) fun a => ?_
      refine twins_bind ofRight fun w => ?_
      refine twins_bind (twins_of_quiet lasting (used_quiet right w)) fun b => ?_
      exact twins_of_quiet lasting (applyBinary_quiet _ a.value b.value)
  | .unary span op operand => by
    unfold eval
    refine twins_located span (twins_bind (eval_twins operand) fun v => ?_)
    refine twins_bind (twins_of_quiet lasting (used_quiet operand v)) fun v => ?_
    exact twins_bind (twins_of_quiet lasting (ofExcept_quiet _))
      fun _ => twins_pure fun _ _ holds => holds
  | .call span name args => by
    unfold eval
    exact twins_located span (twins_bind (evalArgs_twins args) fun args => invoke name args span)

theorem evalArgs_twins : (xs : List Expr) →
    (evalArgs g xs).Twins (evalArgs (g.echoing echo call') xs) p (fun _ => p) kept
  | [] => twins_pure fun _ _ holds => holds
  | x :: rest => by
    unfold evalArgs
    refine twins_bind (eval_twins x) fun v => ?_
    refine twins_bind (twins_of_quiet lasting (used_quiet x v)) fun v => ?_
    exact twins_bind (evalArgs_twins rest) fun _ => twins_pure fun _ _ holds => holds

end

theorem evalValue_twins (x : Expr) :
    (evalValue g x).Twins (evalValue (g.echoing echo call') x) p (fun _ => p) kept :=
  twins_bind (eval_twins lasting invoke x) fun v => twins_of_quiet lasting (used_quiet x v)

theorem evalCondition_twins (x : Expr) :
    (evalCondition g x).Twins (evalCondition (g.echoing echo call') x) p (fun _ => p) kept :=
  twins_bind (eval_twins lasting invoke x) fun v => twins_of_quiet lasting (truth_quiet x v)

theorem resolve_twins : (x : Expr) →
    (resolve g x).Twins (resolve (g.echoing echo call') x) p (fun _ => p) kept
  | .var span name =>
    twins_of_quiet lasting (quiet_located span (locate_quiet name))
  | .index span base index => by
    unfold resolve
    refine twins_bind (resolve_twins base) fun cell => ?_
    refine twins_bind (eval_twins lasting invoke index) fun w => ?_
    refine twins_bind (twins_of_quiet lasting (position_quiet index w)) fun i => ?_
    refine twins_of_quiet lasting (quiet_bind (quiet_read fun _ _ => rfl) fun v => ?_)
    refine quiet_ite ?_ (quiet_failAt _ _)
    split
    · exact quiet_located span (elementOf_quiet _ i)
    · exact quiet_failAt _ _
    · exact quiet_failAt _ _
  | .int .. | .float .. | .bool .. | .str .. | .none .. | .list .. | .binary .. | .unary ..
  | .call .. | .default .. => twins_failAt _ _ lasting.weaken

end

/-! ## Simple instructions -/

/-- What holds after an instruction: a `return` leaves the machine ready. -/
def AfterFlow (ready kept : View) : Flow → View
  | .result _ => ready
  | _ => kept

section

variable {settings : Settings} {echo : Bool} {ready kept : View}
  (paced : Paced settings echo ready kept)

include paced

theorem afterFlow_of_ready (flow : Flow) {m : Machine} {o : Output} (holds : ready m o) :
    AfterFlow ready kept flow m o := by
  cases flow with
  | result => exact holds
  | next | leave | again => exact paced.weaken m o holds

theorem kept_of_afterFlow (flow : Flow) {m : Machine} {o : Output}
    (holds : AfterFlow ready kept flow m o) : kept m o := by
  cases flow with
  | result => exact paced.weaken m o holds
  | next | leave | again => exact holds

theorem afterFlow_stable (flow : Flow) : (AfterFlow ready kept flow).Stable := by
  cases flow with
  | result => exact paced.readyStable
  | next | leave | again => exact paced.keptStable

theorem twins_inScope {act act' : Action Flow}
    (twins : act.Twins act' kept (AfterFlow ready kept) kept) :
    (withScope act).Twins (withScope act') kept (AfterFlow ready kept) kept :=
  twins_withScope paced.keptStable (afterFlow_stable paced) paced.keptStable twins

/-- Counting the step makes the machine ready. -/
theorem stepped_twins {work work' : Action Flow} (i : Instr)
    (twins : work.Twins work' ready (AfterFlow ready kept) kept) :
    (stepped i work).Twins (stepped i work') kept (AfterFlow ready kept) kept := by
  intro m o holds
  have framed := twins_framed paced.readyStable (afterFlow_stable paced) paced.keptStable
    (m.frame i) (fun flow _ _ after => kept_of_afterFlow paced flow after) twins
    { m with steps := m.steps + 1 } o (paced.tick holds)
  cases i <;> exact framed

omit paced in
theorem repeatWhile_twins {cond cond' : Action Bool} {body body' : Action Flow}
    {step step' : Action Unit} (ofCond : cond.Twins cond' kept (fun _ => kept) kept)
    (ofBody : body.Twins body' kept (AfterFlow ready kept) kept)
    (ofStep : step.Twins step' kept (fun _ => kept) kept) (fuel : Nat) :
    (repeatWhile cond body step fuel).Twins (repeatWhile cond' body' step' fuel) kept
      (AfterFlow ready kept) kept := by
  induction fuel with
  | zero => exact twins_outOfFuel
  | succ fuel ih =>
    unfold repeatWhile
    refine twins_bind ofCond fun holds => twins_ite ?_ (twins_pure fun _ _ h => h)
    refine twins_bind ofBody fun flow => ?_
    cases flow with
    | next | again => exact twins_bind ofStep fun _ => ih
    | leave | result => exact twins_pure fun _ _ h => h

theorem header_twins {act act' : Action Flow} (isStep : Bool)
    (twins : act.Twins act' kept (AfterFlow ready kept) kept) :
    (act >>= expectNext isStep).Twins (act' >>= expectNext isStep) kept (fun _ => kept) kept := by
  refine twins_bind twins fun flow => ?_
  refine (twins_of_quiet paced.lasting_kept (expectNext_quiet isStep flow)).mono ?_
    fun _ _ _ h => h
  exact fun _ _ => kept_of_afterFlow paced flow

theorem record_twins (span : Span) :
    (do recordTraces settings span; return Flow.next).Twins
      (do recordTraces (settings.echoing echo) span; return Flow.next) ready (AfterFlow ready kept)
      kept := by
  have record : (recordTraces settings span).Twins (recordTraces (settings.echoing echo) span) ready
      (fun _ => kept) kept := by
    intro m o holds
    have recorded := paced.record span holds
    unfold Ends at *
    rw [recordTraces_eq] at recorded ⊢
    exact ⟨_, recordTraces_eq _ span _, recorded⟩
  exact twins_bind record fun _ => twins_pure fun _ _ h => h

theorem countCall_twins (site : Site) :
    (countCall site).Twins (countCall site) ready (fun _ => ready) kept :=
  fun _ o holds => ⟨o, rfl, paced.readyStable.keep holds ⟨rfl, rfl, rfl, rfl⟩⟩

theorem defineFunction_twins {f : Defined} (every : f.function.Every Instr.EndsInReturn) :
    (defineFunction f).Twins (defineFunction f) ready (fun _ => ready) kept := by
  intro m o holds
  have same : (m.printing o).isUserFunction f.function.name =
    m.isUserFunction f.function.name := rfl
  simp only [Ends, defineFunction, same]
  cases m.isUserFunction f.function.name with
  | true => exact ⟨o, rfl, paced.weaken m o holds⟩
  | false => exact ⟨o, rfl, paced.define every holds⟩

variable {g : Engine} {call' : Caller}
  (call : ∀ {p : View}, Lasting ready kept p → ∀ name args span,
    (g.call name args span).Twins (call' name args span) p (fun _ => p) kept)

include call

theorem invoke_twins {p : View} (lasting : Lasting ready kept p) (name : String)
    (args : List Variable) (span : Span) :
    (g.invoke name args span).Twins ((g.echoing echo call').invoke name args span) p
      (fun _ => p) kept := by
  refine twins_bind (twins_located span (twins_of_quiet lasting (lookup_quiet g.env name)))
    fun callee => ?_
  refine twins_bind ?_ fun _ => twins_pure fun _ _ h => h
  exact twins_framed lasting.stable (fun _ => lasting.stable) paced.keptStable _
    (fun _ => lasting.weaken) (call lasting name args span)

theorem declare_twins (d : Declaration) :
    (declare g d).Twins (declare (g.echoing echo call') d) ready (fun _ => ready) kept := by
  have lasting := paced.lasting_ready
  refine twins_bind (twins_of_quiet lasting (checkDeclaration_quiet d)) fun _ => ?_
  refine twins_bind (eval_twins lasting (invoke_twins paced call lasting) d.init) fun v => ?_
  exact twins_of_quiet lasting (bindChecked_quiet d v)

theorem assign_twins (target value : Expr) :
    (assign g target value).Twins (assign (g.echoing echo call') target value) ready (fun _ => ready)
      kept := by
  have lasting := paced.lasting_ready
  have invoke := invoke_twins paced call lasting
  unfold assign
  refine twins_ite (twins_failAt _ _ paced.weaken) ?_
  refine twins_bind (evalValue_twins lasting invoke value) fun v => ?_
  refine twins_bind (resolve_twins lasting invoke target) fun cell => ?_
  exact fun m o holds => ⟨o, rfl, paced.readyStable.keep holds ⟨rfl, rfl, rfl, rfl⟩⟩

theorem startTraces_twins : (targets : List Expr) →
    (startTraces g targets).Twins (startTraces (g.echoing echo call') targets) ready (fun _ => ready)
      kept
  | [] => twins_pure fun _ _ h => h
  | target :: rest => by
    have lasting := paced.lasting_ready
    have invoke := invoke_twins paced call lasting
    unfold startTraces
    refine twins_ite ?_ (twins_failAt _ _ paced.weaken)
    refine twins_bind (resolve_twins lasting invoke target) fun cell => ?_
    refine twins_bind (twins_of_quiet lasting (quiet_read fun _ _ => rfl)) fun traced => ?_
    refine twins_ite (twins_failAt _ _ paced.weaken) ?_
    refine twins_bind (fun m o holds => ?_) fun _ => startTraces_twins rest
    exact ⟨o, rfl, paced.watch _ cell target.text holds⟩

/-! ## Instructions and blocks -/

variable (known : g.env.settings = settings)

include known

-- Blocks use what is known about the engine only through their instructions.
set_option linter.unusedSectionVars false in
mutual

/-- An instruction leaves a kept machine, and a ready one if it is or contains
the `return` that ends it. -/
theorem execute_twins (unit : Nat) (path : Path) : (i : Instr) → i.Every Instr.EndsInReturn →
    (execute g unit path i).Twins (execute (g.echoing echo call') unit path i) kept
      (AfterFlow ready kept) kept
  | .whileLoop span cond body, ⟨_, inBody⟩ => by
    have lasting := paced.lasting_kept
    have pass := twins_inScope paced (runBlock_twins unit path.body 0 body inBody)
    unfold execute
    refine stepped_twins paced _ ((repeatWhile_twins ?_ ?_ ?_ g.fuel).mono paced.weaken
      fun _ _ _ h => h)
    · exact evalCondition_twins lasting (invoke_twins paced call lasting) cond
    · exact twins_withIterating paced.keptStable (afterFlow_stable paced) paced.keptStable _ pass
    · exact twins_pure fun _ _ h => h
  | .forLoop span init step cond body, ⟨_, inInit, inStep, inBody⟩ => by
    have lasting := paced.lasting_kept
    have pass := twins_inScope paced (runBlock_twins unit path.body 0 body inBody)
    unfold execute
    refine stepped_twins paced _ ((twins_inScope paced ?_).mono paced.weaken fun _ _ _ h => h)
    rw [← Action.bind_bind, ← Action.bind_bind]
    refine twins_bind (header_twins paced false (execute_twins unit path.first init inInit))
      fun _ => repeatWhile_twins ?_ ?_ ?_ g.fuel
    · exact evalCondition_twins lasting (invoke_twins paced call lasting) cond
    · exact twins_withIterating paced.keptStable (afterFlow_stable paced) paced.keptStable _ pass
    · exact header_twins paced true (execute_twins unit path.second step inStep)
  | .conditional span cond onTrue onFalse, ⟨_, inTrue, inFalse⟩ => by
    have lasting := paced.lasting_kept
    have ofCond := evalCondition_twins lasting (invoke_twins paced call lasting) cond
    unfold execute
    refine stepped_twins paced _ ((twins_bind ofCond fun b => ?_).mono paced.weaken
      fun _ _ _ h => h)
    exact twins_ite (twins_inScope paced (runBlock_twins unit path.first 0 onTrue inTrue))
      (twins_inScope paced (runBlock_twins unit path.second 0 onFalse inFalse))
  | .declare span d, _ => by
    unfold execute
    refine stepped_twins paced _ (twins_bind (twins_discard (declare_twins paced call d))
      fun _ => ?_)
    exact known ▸ record_twins paced span
  | .assign span target value, _ => by
    unfold execute
    refine stepped_twins paced _ (twins_bind (assign_twins paced call target value) fun _ => ?_)
    exact known ▸ record_twins paced span
  | .call span name args, _ => by
    have lasting := paced.lasting_ready
    unfold execute
    refine stepped_twins paced _ (twins_bind
      (evalArgs_twins lasting (invoke_twins paced call lasting) args) fun values => ?_)
    refine twins_bind (twins_discard (call lasting name values span)) fun _ => ?_
    exact twins_bind (countCall_twins paced _) fun _ => known ▸ record_twins paced span
  | .define span name params body funcSpan, every => by
    unfold execute
    refine stepped_twins paced _ (twins_bind (defineFunction_twins paced ⟨span, every⟩)
      fun _ => ?_)
    exact twins_pure paced.weaken
  | .trace span targets, _ => by
    unfold execute
    refine stepped_twins paced _ (twins_bind (startTraces_twins paced call targets) fun _ => ?_)
    exact twins_pure paced.weaken
  | .leave span, _ | .again span, _ => by
    unfold execute
    refine stepped_twins paced _ ((twins_of_quiet paced.lasting_ready (control_quiet _ _ _)).mono
      (fun _ _ h => h) ?_)
    exact fun flow _ _ => afterFlow_of_ready paced flow
  | .result span value, _ => by
    have lasting := paced.lasting_ready
    unfold execute
    refine stepped_twins paced _ (twins_bind (twins_discard (twins_of_quiet lasting
      (control_quiet _ _ _))) fun _ => ?_)
    cases value with
    | none => exact twins_pure fun _ _ h => h
    | some x =>
      exact twins_bind (evalValue_twins lasting (invoke_twins paced call lasting) x)
        fun _ => twins_pure fun _ _ h => h

theorem runBlock_twins (unit : Nat) (path : Path) (n : Nat) : (block : List Instr) →
    Instr.EveryOf Instr.EndsInReturn block →
    (runBlock g unit path n block).Twins (runBlock (g.echoing echo call') unit path n block) kept
      (AfterFlow ready kept) kept
  | [], _ => twins_pure fun _ _ h => h
  | i :: rest, ⟨inFirst, inRest⟩ => by
    unfold runBlock
    refine twins_bind (execute_twins unit (path.item n) i inFirst) fun flow => ?_
    cases flow with
    | next => exact runBlock_twins unit path (n + 1) rest inRest
    | leave | again | result => exact twins_pure fun _ _ h => h

end

/-! ## Calls and programs -/

omit paced known call in
theorem execute_return {i : Instr} (returns : i.isReturn) (unit : Nat) (path : Path) (m : Machine) :
    (execute g unit path i).Ends m (fun flow _ => flow ≠ .next) (fun _ _ => True) := by
  cases i with
  | result span value =>
    unfold execute
    refine ends_stepped_ok (ends_bind.mpr (ends_of_forall fun _ n => ?_))
    cases value with
    | none => exact Flow.noConfusion
    | some x => exact ends_bind.mpr (ends_of_forall fun _ _ => Flow.noConfusion)
  | _ => cases returns

omit paced known call in
/-- A block that ends in a `return` does not go on to its end. -/
theorem runBlock_return (unit : Nat) (path : Path) : (block : List Instr) →
    block.getLast?.any Instr.isReturn → (n : Nat) → (m : Machine) →
    (runBlock g unit path n block).Ends m (fun flow _ => flow ≠ .next) (fun _ _ => True)
  | [i], returns, n, m => by
    unfold runBlock
    refine (execute_return returns unit (path.item n) m).bind_ok fun flow m' stops => ?_
    cases flow with
    | next => exact absurd rfl stops
    | leave | again | result => exact Flow.noConfusion
  | i :: j :: rest, returns, n, m => by
    rw [List.getLast?_cons_cons] at returns
    unfold runBlock
    refine ends_bind.mpr (ends_of_forall fun flow m' => ?_)
    cases flow with
    | next => exact runBlock_return unit path (j :: rest) returns (n + 1) m'
    | leave | again | result => exact Flow.noConfusion

/-- A call of a user function that ends in a `return` leaves the machine ready. -/
theorem callUser_twins {f : Defined} (every : f.function.Every Instr.EndsInReturn)
    (args : List Variable) (span : Span) :
    (callUser g f args span).Twins (callUser (g.echoing echo call') f args span) kept
      (fun _ => ready) kept := by
  obtain ⟨_, returns, inBody⟩ := every
  have body := (runBlock_twins paced call known f.site.unit f.site.path.body 0 _ inBody).and_ends
    (runBlock_return f.site.unit f.site.path.body _ returns 0)
  have params := twins_of_quiet paced.lasting_kept (bindParams_quiet span f.function.params args)
  have stable : ∀ flow, View.Stable fun m o => flow ≠ .next ∧ AfterFlow ready kept flow m o :=
    fun flow => ⟨fun h same => ⟨h.1, (afterFlow_stable paced flow).keep h.2 same⟩⟩
  have stableKept := paced.keptStable
  unfold callUser
  refine twins_ite (twins_failAt _ _ fun _ _ holds => holds) ?_
  refine twins_bind (twins_withCall stableKept stable stableKept _ span (fun _ _ holds => holds)
    (twins_withScope stableKept stable stableKept (twins_bind params fun _ => body))) fun flow => ?_
  cases flow with
  | next => exact fun m o stops => absurd rfl stops.1
  | result => exact twins_pure fun _ _ h => h.2
  | leave | again => exact twins_failAt _ _ fun _ _ h => h.2

end

section

variable {settings : Settings} {echo : Bool} {ready kept : View}
  (paced : Paced settings echo ready kept)

include paced

theorem ask_twins {p : View} (lasting : Lasting ready kept p) (r : Request) :
    (Action.ask r).Twins (Action.ask r) p (fun _ => p) kept := by
  intro m o holds
  have alike := paced.alike r (lasting.weaken m o holds)
  have asked := lasting.ask r holds
  simp only [Ends, Action.ask, alike]
  cases m.output.refusal? r with
  | none => exact ⟨o.ask r, rfl, asked⟩
  | some refusal => exact ⟨o.ask r, rfl, lasting.weaken _ _ asked⟩

theorem print_twins {p : View} (lasting : Lasting ready kept p) (call call' : Caller)
    (args : List Variable) (span : Span) :
    (Builtins.print call args span).Twins (Builtins.print call' args span) p (fun _ => p)
      kept := by
  refine twins_bind (twins_of_quiet lasting (quiet_read fun _ _ => rfl)) fun texts => ?_
  refine twins_bind ?_ fun _ => twins_pure fun _ _ h => h
  exact twins_bind (ask_twins paced lasting _) fun _ => ask_twins paced lasting _

omit paced in
theorem lookup_twins {p : View} (lasting : Lasting ready kept p) (env : Env) (name : String) :
    (env.lookup name).Twins ((env.echoing echo).lookup name) p
      (fun callee m o => env.callee? m name = some callee ∧ p m o) kept := by
  intro m o holds
  refine ((lookup_ends env name m).and (twins_of_quiet lasting (lookup_quiet env name) m o
    holds)).mono ?_ fun _ _ failed => failed.2
  rintro callee n ⟨⟨found, -⟩, o', ran, after⟩
  exact ⟨o', ran, found, after⟩

/-- Calls keep whatever is between the two properties. -/
theorem callByName_twins {p : View} (lasting : Lasting ready kept p) (fuel : Nat)
    (name : String) (args : List Variable) (span : Span) :
    (callByName (Env.standard settings) fuel name args span).Twins
      (callByName (Env.standard (settings.echoing echo)) fuel name args span) p (fun _ => p) kept := by
  induction fuel generalizing p name args span with
  | zero => exact twins_outOfFuel
  | succ fuel ih =>
    refine twins_bind (lookup_twins lasting (Env.standard settings) name) fun callee => ?_
    cases callee with
    | builtin handler =>
      intro m o between
      have handled : (handler (callByName (Env.standard settings) fuel) args span).Twins
          (handler (callByName (Env.standard (settings.echoing echo)) fuel) args span) p (fun _ => p)
          kept := by
        obtain rfl | ⟨act, quiet, same⟩ :=
          Builtins.standard_quiet (Env.lookup_of_callee?_builtin between.1) args span
        · exact print_twins paced lasting _ _ args span
        · rw [same, same]
          exact twins_of_quiet lasting quiet
      have wrapped : ∀ v, (pure (some (.fresh v)) : Action (Option Variable)).Twins
          (pure (some (.fresh v))) p (fun _ => p) kept := fun _ => twins_pure fun _ _ h => h
      exact twins_bind (twins_located span handled) wrapped m o between.2
    | user f =>
      intro m o between
      have kept := lasting.weaken m o between.2
      have every := paced.function kept (Env.function?_of_callee?_user between.1)
      have called := callUser_twins paced (g := ⟨Env.standard settings, _, fuel⟩)
        (fun lasting => ih lasting) rfl every args span
      exact called.mono (fun _ _ h => h) (fun _ => lasting.ofReady) m o kept

/-- A program whose functions all end in a `return` keeps what it should,
however it ends, and the run of its twin ends in the same way. -/
theorem run_paced (fuel unit : Nat) {prog : Program}
    (returns : Instr.EveryOf Instr.EndsInReturn prog.body) :
    (run ((Env.standard settings).engine fuel) unit prog).Twins
      (run ((Env.standard (settings.echoing echo)).engine fuel) unit prog) kept (fun _ => kept) kept := by
  have body := runBlock_twins paced (g := (Env.standard settings).engine fuel)
    (fun lasting => callByName_twins paced lasting fuel) rfl unit [] 0 prog.body returns
  refine twins_bind body fun flow => ?_
  cases flow with
  | next => exact twins_pure fun _ _ holds => holds
  | leave | again | result =>
    exact (twins_of_quiet paced.lasting_kept (stray_quiet _ _)).mono
      (fun _ _ => kept_of_afterFlow paced _) fun _ _ _ holds => holds

end

end Machine

end TraceLang
