/-
# TraceLang.Proofs.Kinship.Programs — kindred runs of whole programs

Two engines that keep in step on calls keep in step on everything else: on
expressions (`eval_akin`), on instructions (`execute_akin`) and on programs
(`run_akin`). The value of a variable is used only after a look at whether it is
assigned (`used_akin`); with this the payloads of hidden variables never matter.

Engines with the standard functions keep in step on calls
(`standard_akin`), whatever may differ between the machines.
-/
import TraceLang.Proofs.Kinship.Basic

namespace TraceLang

set_option autoImplicit false

/-- The variables are the same once they are assigned, and until then they show no
difference but in their payload. -/
structure Variable.Alike (v v' : Variable) : Prop where
  name : v'.name = v.name
  assigned : v'.assigned = v.assigned
  traced : v'.traced = v.traced
  same : v.assigned → v' = v

theorem Variable.Alike.refl (v : Variable) : v.Alike v :=
  ⟨rfl, rfl, rfl, fun _ => rfl⟩

namespace Operators

variable {secret : CellId → Prop} {h h' : Heap}

/-- The answers of an operator in two heaps are the same. -/
inductive Answers (h h' : Heap) : Except Cause (Value × Heap) → Except Cause (Value × Heap) → Prop
  | error (cause : Cause) : Answers h h' (.error cause) (.error cause)
  | value (v : Value) : Answers h h' (.ok (v, h)) (.ok (v, h'))
  | joined (values : List Value) : Answers h h' (.ok (h.newList values)) (.ok (h'.newList values))

theorem answers_map (result : Except Cause Value) :
    Answers h h' (result.map (·, h)) (result.map (·, h')) := by
  cases result with
  | ok v => exact .value v
  | error cause => exact .error cause

theorem onOthers_answers (veils : h.Veils secret h') (op : BinOp) (a b : Value) :
    Answers h h' (onOthers h op a b) (onOthers h' op a b) := by
  cases op
  case eq | ne =>
    simp only [onOthers, veils.equal]
    exact .value _
  case add =>
    cases a <;> cases b
    case str.str => exact .value _
    case list.list =>
      simp only [onOthers, veils.values]
      exact .joined _
    all_goals exact .error _
  case lt | le | gt | ge =>
    cases a <;> cases b
    case str.str => exact .value _
    all_goals exact .error _
  all_goals exact .error _

theorem binary_answers (veils : h.Veils secret h') (op : BinOp) (a b : Value) :
    Answers h h' (binary h op a b) (binary h' op a b) := by
  have others := onOthers_answers veils op a b
  cases a <;> cases b
  case int.int | float.float | int.float | float.int => exact answers_map _
  all_goals exact others

end Operators

namespace Kinship

variable {k : Kinship} {m m' : Machine} {α : Type} {good : α → α → Prop}

theorem Kin.read (kin : k.Kin m m') (c : CellId) : (m.heap.read c).Alike (m'.heap.read c) := by
  obtain ⟨secret, -, heaps, -⟩ := kin.veiled
  by_cases isSecret : secret c
  · obtain ⟨-, unassigned, same, -⟩ := heaps.kept c isSecret
    rw [same]
    exact ⟨rfl, rfl, rfl, fun assigned => by simp [unassigned] at assigned⟩
  · rw [heaps.shown c isSecret]
    exact .refl _

theorem Kin.detail (kin : k.Kin m m') (flow : Flow) :
    flow.detail m'.heap = flow.detail m.heap := by
  obtain ⟨secret, -, heaps, -⟩ := kin.veiled
  cases flow with
  | next | leave | again => rfl
  | result value =>
    cases value with
    | none => rfl
    | some v => simp only [Flow.detail, heaps.detail]

/-- An operation of the heap that cannot tell kindred heaps apart. -/
theorem akin_onHeap {f : Heap → α × Heap}
    (alike : ∀ {secret : CellId → Prop} {h h' : Heap}, h.Veils secret h' →
      (f h').1 = (f h).1 ∧ (f h).2.Veils secret (f h').2)
    (grows : ∀ h : Heap, h.Grows (f h).2) :
    k.Akin Eq (Action.onHeap f) (Action.onHeap f) := by
  intro m m' kin
  obtain ⟨secret, -, heaps, -⟩ := kin.veiled
  exact .ok (alike heaps).1.symm
    (kin.heap (fun veils => (alike veils).2) (grows _).cells (grows _).cells)
    ⟨rfl, rfl⟩

/-- Kindred machines know the same functions. -/
theorem Kin.lookup (kin : k.Kin m m') (env : Env) (name : String) :
    (∃ f, env.lookup name m = .fault f m ∧ env.lookup name m' = .fault f m') ∨
      ∃ callee, env.callee? m name = some callee ∧ env.lookup name m = .ok callee m ∧
        env.lookup name m' = .ok callee m' := by
  obtain ⟨heap, tracer, rfl⟩ := kin.same
  have sameCallee : env.callee? { m with heap, tracer } name = env.callee? m name := rfl
  have sameNames : env.functionNames { m with heap, tracer } = env.functionNames m := rfl
  simp only [Env.lookup, sameCallee, sameNames]
  cases env.callee? m name with
  | none => exact .inl ⟨_, rfl, rfl⟩
  | some callee => exact .inr ⟨callee, rfl, rfl, rfl⟩

theorem Kin.ask (kin : k.Kin m m') (r : Request) : k.Kin (m.ask r) (m'.ask r) :=
  kin.edit (·.ask r) (fun _ _ _ => rfl) fun w => ⟨w.loops, w.calls, w.functions⟩

theorem ask_akin (r : Request) : k.Akin Eq (Action.ask r) (Action.ask r) := by
  intro m m' kin
  have same : m'.output = m.output := by
    obtain ⟨heap, tracer, rfl⟩ := kin.same
    rfl
  unfold Action.ask
  rw [same]
  cases m.output.refusal? r with
  | none => exact .ok rfl (kin.ask r) ⟨rfl, rfl⟩
  | some refusal => exact .fault (kin.ask r)

theorem stray_akin (defect : String → Defect) (flow : Flow) :
    k.Akin good (Action.stray defect flow) (Action.stray defect flow) := by
  intro m m' kin
  unfold Action.stray
  rw [kin.detail]
  cases flow.detail m.heap with
  | none => exact .outOfFuel
  | some account => exact .fault kin

theorem Kin.bound (kin : k.Kin m m') (name : String) (value : Value) (assigned : Bool) :
    k.Kin (m.bound name value assigned) (m'.bound name value assigned) := by
  obtain ⟨secret, -, heaps, -⟩ := kin.veiled
  have sameCell := (heaps.alloc { value, assigned, name := some name }).1
  have more := kin.heap (fun veils => (veils.alloc { value, assigned, name := some name }).2)
    (Heap.grows_alloc _ _).cells (Heap.grows_alloc _ _).cells
  simp only [Machine.bound, sameCell]
  obtain ⟨heap, tracer, rfl⟩ := kin.same
  exact more.scopes (m.scopes.define name (m.heap.alloc { value, assigned, name := some name }).1)

theorem Kin.watch (kin : k.Kin m m') (c : CellId) (label : String) :
    k.Kin
      (let heap := m.heap.modify c fun v => { v with traced := true }
       { m with heap, tracer := m.tracer.watch heap c label })
      (let heap := m'.heap.modify c fun v => { v with traced := true }
       { m' with heap, tracer := m'.tracer.watch heap c label }) := by
  have kept (h : Heap) (d : CellId) :
      ((h.modify c fun v => { v with traced := true }).read d).value = (h.read d).value ∧
        ((h.modify c fun v => { v with traced := true }).read d).version = (h.read d).version := by
    rcases h.read_modify_or c d fun v => { v with traced := true } with same | ⟨rfl, marked⟩
    · rw [same]
      exact ⟨rfl, rfl⟩
    · rw [marked]
      exact ⟨rfl, rfl⟩
  obtain ⟨⟨⟨heap, tracer, rfl⟩, secret, hides, heaps, notes⟩, within⟩ := kin
  refine ⟨⟨⟨_, _, rfl⟩, secret, hides, heaps.mark c, ?_⟩,
    within.loops, within.calls, within.functions⟩
  exact Tracer.watch_alike (notes.congr heaps.kept (fun d _ => kept _ d) fun d _ => kept _ d)
    (heaps.mark c) c label

end Kinship

namespace Machine

open TraceLang.Action Kinship

variable {k : Kinship} {m m' : Machine}

/-! ## Parts of expressions -/

theorem locate_akin (name : String) : k.Akin Eq (locate name) (locate name) := by
  intro m m' kin
  obtain ⟨heap, tracer, rfl⟩ := kin.same
  unfold locate
  simp only
  cases m.scopes.find? name with
  | none => exact .fault kin
  | some c => exact .ok rfl kin (.refl m)

/-- Variables that are to be used are the same or fail in the same way. -/
theorem used_akin (x : Expr) {v v' : Variable} (alike : v.Alike v') :
    k.Akin Eq (used x v) (used x v') := by
  unfold used
  rw [alike.assigned, alike.name]
  exact akin_ite (fun assigned => akin_pure (alike.same assigned).symm) fun _ => akin_failAt _ _

theorem truth_akin (x : Expr) {v v' : Variable} (alike : v.Alike v') :
    k.Akin Eq (truth x v) (truth x v') := by
  refine akin_bind_eq (used_akin x alike) fun v => ?_
  split
  · exact akin_pure rfl
  · exact akin_failAt _ _

theorem position_akin (x : Expr) {v v' : Variable} (alike : v.Alike v') :
    k.Akin Eq (position x v) (position x v') := by
  refine akin_bind_eq (used_akin x alike) fun v => ?_
  split
  · exact akin_pure rfl
  · exact akin_failAt _ _

theorem ofExcept_akin {α : Type} (result : Except Cause α) :
    k.Akin Eq (ofExcept result) (ofExcept result) := by
  cases result with
  | ok a => exact akin_pure rfl
  | error cause => exact akin_fail cause

theorem elementOf_akin (l : ListId) (i : Int64) :
    k.Akin Eq (fun m => ofExcept (item (m.heap.elements l) i) m)
      (fun m => ofExcept (item (m.heap.elements l) i) m) := by
  intro m m' kin
  obtain ⟨secret, -, heaps, -⟩ := kin.veiled
  simp only [heaps.elements]
  exact ofExcept_akin _ m m' kin

theorem readCell_akin (c : CellId) :
    k.Akin Variable.Alike (Action.read fun m => m.heap.read c)
      (Action.read fun m => m.heap.read c) :=
  akin_read fun _ _ kin => kin.read c

theorem element_akin (base : Expr) (v : Variable) (i : Int64) :
    k.Akin Variable.Alike (element base v i) (element base v i) := by
  unfold element
  split
  · exact akin_bind_eq (elementOf_akin _ i) fun c => readCell_akin c
  · exact akin_bind_eq (ofExcept_akin _) fun _ => akin_pure (.refl _)
  · exact akin_failAt _ _

theorem defaultValue_akin (ty : Ty) : k.Akin Eq (defaultValue ty) (defaultValue ty) := by
  refine akin_onHeap (fun veils => veils.default? ty) fun h => ?_
  unfold Heap.default?
  cases ty.registered? with
  | none => exact .refl h
  | some v => exact h.grows_deepCopy v

theorem newList_akin (values : List Value) :
    k.Akin Eq (Action.onHeap fun h => h.newList values) (Action.onHeap fun h => h.newList values) :=
  akin_onHeap (fun veils => veils.newList values) fun h => Heap.grows_newList h values

theorem applyBinary_akin (op : BinOp) (a b : Value) :
    k.Akin Eq (applyBinary op a b) (applyBinary op a b) := by
  intro m m' kin
  obtain ⟨secret, -, heaps, -⟩ := kin.veiled
  have answers := Operators.binary_answers heaps op a b
  unfold applyBinary
  generalize Operators.binary m.heap op a b = result,
    Operators.binary m'.heap op a b = result' at answers
  cases answers with
  | error cause => exact .fault kin
  | value v => exact .ok rfl kin (.refl m)
  | joined values =>
    have same := (heaps.newList values).1
    refine .ok (congrArg Variable.fresh same).symm ?_ ⟨rfl, rfl⟩
    exact kin.heap (fun veils => (veils.newList values).2) (Heap.grows_newList _ _).cells
      (Heap.grows_newList _ _).cells

theorem lookup_akin (env : Env) (name : String) :
    k.Akin Eq (env.lookup name) (env.lookup name) := by
  intro m m' kin
  rcases kin.lookup env name with ⟨f, failed, failed'⟩ | ⟨callee, -, looked, looked'⟩
  · rw [failed, failed']
    exact .fault kin
  · rw [looked, looked']
    exact .ok rfl kin (.refl m)

end Machine

/-! ## Engines that keep in step -/

open TraceLang.Action Machine in
/-- The engines keep in step on calls inside expressions and on call statements,
if they do so on the arguments. -/
structure Engine.Akin (k : Kinship) (g g' : Engine) : Prop where
  env : g'.env = g.env
  fuel : g'.fuel = g.fuel
  invoke : ∀ name args span, k.Akin Eq (g.invoke name args span) (g'.invoke name args span)
  statement : ∀ unit path span name args, k.units unit →
    k.Akin Eq (evalArgs g args) (evalArgs g' args) →
    k.Akin Eq (execute g unit path (.call span name args))
      (execute g' unit path (.call span name args))

namespace Machine

open TraceLang.Action Kinship

section

variable {k : Kinship} {g g' : Engine} (akin : g.Akin k g')

include akin

/-! ## Expressions -/

-- The list case uses the engines only through the elements.
set_option linter.unusedSectionVars false in
mutual

/-- Kindred engines keep in step on expressions. -/
theorem eval_akin : (x : Expr) → k.Akin Variable.Alike (eval g x) (eval g' x)
  | .int .. | .float .. | .bool .. | .str .. | .none .. => by
    unfold eval
    exact akin_pure (.refl _)
  | .default _ ty => by
    unfold eval
    exact akin_bind_eq (defaultValue_akin ty) fun _ => akin_pure (.refl _)
  | .list span items => by
    unfold eval
    refine akin_located span (akin_bind_eq (evalArgs_akin items) fun values => ?_)
    exact akin_bind_eq (newList_akin _) fun _ => akin_pure (.refl _)
  | .var span name => by
    unfold eval
    exact akin_located span (akin_bind_eq (locate_akin name) fun c => readCell_akin c)
  | .index span base index => by
    unfold eval
    refine akin_located span (akin_bind (eval_akin base) fun v v' alike => ?_)
    refine akin_bind_eq (used_akin base alike) fun v => ?_
    refine akin_bind (eval_akin index) fun w w' alike' => ?_
    exact akin_bind_eq (position_akin index alike') fun i => element_akin base v i
  | .binary span op left right => by
    have ofLeft := eval_akin left
    have ofRight := eval_akin right
    cases op
    case and | or =>
      unfold eval
      refine akin_located span (akin_bind ofLeft fun v v' alike => ?_)
      refine akin_bind_eq (truth_akin left alike) fun b => ?_
      have rest := akin_bind ofRight fun w w' alike' => akin_bind_eq (truth_akin right alike')
        fun b => akin_pure (Variable.Alike.refl (.fresh (.bool b)))
      -- One of the two values decides without the right operand.
      cases b <;> first | exact rest | exact akin_pure (.refl _)
    all_goals
      unfold eval
      refine akin_located span (akin_bind ofLeft fun v v' alike => ?_)
      refine akin_bind_eq (used_akin left alike) fun a => ?_
      refine akin_bind ofRight fun w w' alike' => ?_
      refine akin_bind_eq (used_akin right alike') fun b => ?_
      exact (applyBinary_akin _ a.value b.value).mono fun _ _ same => same ▸ .refl _
  | .unary span op operand => by
    unfold eval
    refine akin_located span (akin_bind (eval_akin operand) fun v v' alike => ?_)
    refine akin_bind_eq (used_akin operand alike) fun v => ?_
    exact akin_bind_eq (ofExcept_akin _) fun _ => akin_pure (.refl _)
  | .call span name args => by
    unfold eval
    refine akin_located span (akin_bind_eq (evalArgs_akin args) fun args => ?_)
    exact (akin.invoke name args span).mono fun _ _ same => same ▸ .refl _

theorem evalArgs_akin : (xs : List Expr) → k.Akin Eq (evalArgs g xs) (evalArgs g' xs)
  | [] => akin_pure rfl
  | x :: rest => by
    unfold evalArgs
    refine akin_bind (eval_akin x) fun v v' alike => ?_
    refine akin_bind_eq (used_akin x alike) fun v => ?_
    exact akin_bind_eq (evalArgs_akin rest) fun _ => akin_pure rfl

end

theorem evalValue_akin (x : Expr) : k.Akin Eq (evalValue g x) (evalValue g' x) :=
  akin_bind (eval_akin akin x) fun _ _ alike => used_akin x alike

theorem evalCondition_akin (x : Expr) : k.Akin Eq (evalCondition g x) (evalCondition g' x) :=
  akin_bind (eval_akin akin x) fun _ _ alike => truth_akin x alike

theorem resolve_akin : (x : Expr) → k.Akin Eq (resolve g x) (resolve g' x)
  | .var span name => by
    unfold resolve
    exact akin_located span (locate_akin name)
  | .index span base index => by
    unfold resolve
    refine akin_bind_eq (resolve_akin base) fun cell => ?_
    refine akin_bind (eval_akin akin index) fun w w' alike => ?_
    refine akin_bind_eq (position_akin index alike) fun i => ?_
    refine akin_bind (readCell_akin cell) fun v v' alike' => ?_
    rw [alike'.assigned]
    refine akin_ite (fun assigned => ?_) fun _ => akin_failAt _ _
    rw [alike'.same assigned]
    split
    · exact akin_located span (elementOf_akin _ i)
    · exact akin_failAt _ _
    · exact akin_failAt _ _
  | .int .. | .float .. | .bool .. | .str .. | .none .. | .list .. | .binary .. | .unary ..
  | .call .. | .default .. => akin_failAt _ _

end

/-! ## Parts of instructions -/

section

variable {k : Kinship}

theorem checkDeclaration_akin (d : Declaration) :
    k.Akin Eq (checkDeclaration d) (checkDeclaration d) := by
  intro m m' kin
  have traced (c : CellId) : (m'.heap.read c).traced = (m.heap.read c).traced := (kin.read c).traced
  have scopes : m'.scopes = m.scopes := by
    obtain ⟨heap, tracer, rfl⟩ := kin.same
    rfl
  unfold checkDeclaration
  simp only [scopes, traced]
  cases isValidName d.name with
  | false => exact .fault kin
  | true =>
    cases m.scopes.findLocal? d.name with
    | none =>
      cases d.mode with
      | mustExist => exact .fault kin
      | mustNotExist | either => exact .ok rfl kin (.refl m)
    | some c =>
      cases d.mode with
      | mustNotExist => exact .fault kin
      | mustExist | either =>
        simp only [Bool.not_true, Bool.false_eq_true, if_false]
        cases (m.heap.read c).traced with
        | true => exact .fault kin
        | false => exact .ok rfl kin (.refl m)

theorem bindChecked_akin (d : Declaration) {v v' : Variable} (alike : v.Alike v') :
    k.Akin Eq (bindChecked d v) (bindChecked d v') := by
  refine akin_bind_eq (used_akin d.init alike) fun v => akin_ite (fun _ => akin_failAt _ _) ?_
  intro _ m m' kin
  obtain ⟨secret, -, heaps, -⟩ := kin.veiled
  have sameCell := (heaps.alloc { value := v.value, assigned := d.assigned, name := some d.name }).1
  exact .ok sameCell.symm (kin.bound d.name v.value d.assigned) ⟨rfl, Scopes.depth_define ..⟩

theorem bindParams_akin (span : Span) : (params : List Param) → (args : List Variable) →
    k.Akin Eq (bindParams span params args) (bindParams span params args)
  | [], _ | _ :: _, [] => akin_pure rfl
  | x :: params, v :: args => by
    unfold bindParams
    refine akin_bind_eq (akin_discard ?_) fun _ => bindParams_akin span params args
    exact akin_bind_eq (checkDeclaration_akin _) fun _ => bindChecked_akin _ (.refl v)

theorem expectNext_akin (isStep : Bool) (flow : Flow) :
    k.Akin Eq (expectNext isStep flow) (expectNext isStep flow) := by
  unfold expectNext
  cases flow with
  | next => exact akin_pure rfl
  | leave | again | result => exact stray_akin _ _

theorem control_akin (allowed : Context → Bool) (otherwise : Misplaced) (flow : Flow) :
    k.Akin Eq (control allowed otherwise flow) (control allowed otherwise flow) := by
  intro m m' kin
  obtain ⟨heap, tracer, rfl⟩ := kin.same
  unfold control
  simp only
  cases allowed m.context with
  | true => exact .ok rfl kin (.refl m)
  | false => exact .fault kin

theorem defineFunction_akin {f : Defined} (inside : k.units f.site.unit) :
    k.Akin Eq (defineFunction f) (defineFunction f) := by
  intro m m' kin
  have defined : m'.isUserFunction f.function.name = m.isUserFunction f.function.name := by
    obtain ⟨heap, tracer, rfl⟩ := kin.same
    rfl
  unfold defineFunction
  simp only [defined]
  split
  · exact .fault kin
  · exact .ok rfl (kin.define inside) ⟨rfl, rfl⟩

/-- Recording brings the notes about all watched variables into agreement. -/
theorem recordTraces_alike {m : Machine} {heap : Heap} {tracer : Tracer} {secret : CellId → Prop}
    (hides : ∀ c, secret c → k.hidden c) (heaps : m.heap.Veils secret heap)
    (pending : List.Forall₂ (Watched.Pending secret m.heap heap) m.tracer.watched.toList
      tracer.watched.toList)
    (within : m.Within k.units) (settings : Settings) (span : Span) :
    k.Alike Eq m (recordTraces settings span m)
      (recordTraces settings span { m with heap, tracer }) := by
  obtain ⟨count, notes⟩ := Tracer.update_alike pending heaps m.steps span
  have sameOutput : Machine.recordOutput { m with heap, tracer } settings span =
      m.recordOutput settings span := by
    simp only [Machine.recordOutput, Machine.echoLines, count, notes.echoLines]
  rw [recordTraces_eq, recordTraces_eq, sameOutput]
  refine .ok rfl ⟨⟨⟨_, _, rfl⟩, secret, hides, heaps, notes⟩, ?_⟩ ⟨rfl, rfl⟩
  exact ⟨within.loops, within.calls, within.functions⟩

theorem recordTraces_akin (settings : Settings) (span : Span) :
    k.Akin Eq (recordTraces settings span) (recordTraces settings span) := by
  intro m m' kin
  obtain ⟨secret, hides, heaps, notes⟩ := kin.veiled
  obtain ⟨heap, tracer, rfl⟩ := kin.same
  exact recordTraces_alike hides heaps (notes.imp fun _ _ => .inl) kin.toWithin settings span

/-- After an assignment to a variable whose payload was hidden, recording brings
the notes into agreement again. -/
theorem assignCell_akin (c : CellId) (v : Value) (settings : Settings) (span : Span) :
    k.Akin Eq
      (do
        Action.modify fun m => { m with heap := m.heap.assign c v }
        recordTraces settings span)
      (do
        Action.modify fun m => { m with heap := m.heap.assign c v }
        recordTraces settings span) := by
  intro m m' kin
  obtain ⟨secret, hides, heaps, notes⟩ := kin.veiled
  obtain ⟨heap, tracer, rfl⟩ := kin.same
  have level : m.Level { m with heap := m.heap.assign c v } := ⟨rfl, rfl⟩
  exact Alike.before level (recordTraces_alike (m := { m with heap := m.heap.assign c v })
    (fun d isSecret => hides d isSecret.1) (heaps.assign c v)
    (notes.imp fun _ _ notes => notes.assign heaps c v)
    ⟨kin.loops, kin.calls, kin.functions⟩ settings span)

theorem countCall_akin {site : Site} (inside : k.units site.unit) :
    k.Akin Eq (countCall site) (countCall site) :=
  fun _ _ kin => .ok rfl (kin.count inside) ⟨rfl, rfl⟩

theorem record_akin (settings : Settings) (span : Span) :
    k.Akin Eq (do recordTraces settings span; return Flow.next)
      (do recordTraces settings span; return Flow.next) :=
  akin_bind_eq (recordTraces_akin settings span) fun _ => akin_pure rfl

end

/-! ## Instructions and blocks -/

section

variable {k : Kinship} {g g' : Engine} (akin : g.Akin k g')

include akin

theorem declare_akin (d : Declaration) : k.Akin Eq (declare g d) (declare g' d) := by
  refine akin_bind_eq (checkDeclaration_akin d) fun _ => ?_
  exact akin_bind (eval_akin akin d.init) fun _ _ alike => bindChecked_akin d alike

/-- An assignment and the recording after it. -/
theorem assign_akin (target value : Expr) (settings : Settings) (span : Span) :
    k.Akin Eq
      (do assign g target value; recordTraces settings span; return Flow.next)
      (do assign g' target value; recordTraces settings span; return Flow.next) := by
  unfold assign
  by_cases nameless : target.rootName? = some ""
  · simp only [nameless, if_true]
    exact akin_bind_eq (akin_failAt _ _) fun _ => record_akin settings span
  · simp only [nameless, if_false, Action.bind_bind]
    refine akin_bind_eq (evalValue_akin akin value) fun v => ?_
    refine akin_bind_eq (resolve_akin akin target) fun c => ?_
    rw [← Action.bind_bind]
    exact akin_bind_eq (assignCell_akin c v.value settings span) fun _ => akin_pure rfl

theorem startTraces_akin : (targets : List Expr) →
    k.Akin Eq (startTraces g targets) (startTraces g' targets)
  | [] => akin_pure rfl
  | target :: rest => by
    unfold startTraces
    refine akin_ite (fun _ => ?_) fun _ => akin_failAt _ _
    refine akin_bind_eq (resolve_akin akin target) fun cell => ?_
    refine akin_bind_eq (akin_read fun _ _ kin => (kin.read cell).traced.symm) fun traced => ?_
    refine akin_ite (fun _ => akin_failAt _ _) fun _ => ?_
    refine akin_bind_eq (fun _ _ kin => ?_) fun _ => startTraces_akin rest
    exact .ok rfl (kin.watch cell target.text) ⟨rfl, rfl⟩

-- Blocks use the engines only through their instructions.
set_option linter.unusedSectionVars false in
mutual

/-- Kindred engines keep in step on instructions. -/
theorem execute_akin {unit : Nat} (inside : k.units unit) (path : Path) : (i : Instr) →
    k.Akin Eq (execute g unit path i) (execute g' unit path i)
  | .whileLoop span cond body => by
    unfold execute
    rw [akin.fuel]
    refine akin_stepped _
      (akin_repeatWhile (evalCondition_akin akin cond) ?_ (akin_pure rfl) g.fuel)
    exact akin_withIterating inside (akin_withScope (runBlock_akin inside path.body 0 body))
  | .forLoop span init step cond body => by
    unfold execute
    rw [akin.fuel]
    refine akin_stepped _ (akin_withScope ?_)
    refine akin_bind_eq (execute_akin inside path.first init) fun flow => ?_
    refine akin_bind_eq (expectNext_akin false flow) fun _ => ?_
    refine akin_repeatWhile (evalCondition_akin akin cond) ?_ ?_ g.fuel
    · exact akin_withIterating inside (akin_withScope (runBlock_akin inside path.body 0 body))
    · exact akin_bind_eq (execute_akin inside path.second step) fun flow =>
        expectNext_akin true flow
  | .conditional span cond onTrue onFalse => by
    unfold execute
    refine akin_stepped _ (akin_bind_eq (evalCondition_akin akin cond) fun b => ?_)
    exact akin_ite (fun _ => akin_withScope (runBlock_akin inside path.first 0 onTrue))
      fun _ => akin_withScope (runBlock_akin inside path.second 0 onFalse)
  | .declare span d => by
    unfold execute
    rw [akin.env]
    exact akin_stepped _ (akin_bind_eq (akin_discard (declare_akin akin d)) fun _ =>
      record_akin _ span)
  | .assign span target value => by
    unfold execute
    rw [akin.env]
    exact akin_stepped _ (assign_akin akin target value _ span)
  | .call span name args => akin.statement unit path span name args inside (evalArgs_akin akin args)
  | .define span name params body funcSpan => by
    unfold execute
    exact akin_stepped _ (akin_bind_eq (defineFunction_akin inside) fun _ => akin_pure rfl)
  | .trace span targets => by
    unfold execute
    exact akin_stepped _ (akin_bind_eq (startTraces_akin akin targets) fun _ => akin_pure rfl)
  | .leave span | .again span => by
    unfold execute
    exact akin_stepped _ (control_akin _ _ _)
  | .result span value => by
    unfold execute
    refine akin_stepped _ (akin_bind_eq (akin_discard (control_akin _ _ _)) fun _ => ?_)
    cases value with
    | none => exact akin_pure rfl
    | some x => exact akin_bind_eq (evalValue_akin akin x) fun _ => akin_pure rfl

/-- Kindred engines keep in step on blocks. -/
theorem runBlock_akin {unit : Nat} (inside : k.units unit) (path : Path) (n : Nat) :
    (block : List Instr) → k.Akin Eq (runBlock g unit path n block) (runBlock g' unit path n block)
  | [] => akin_pure rfl
  | i :: rest => by
    unfold runBlock
    refine akin_bind_eq (execute_akin inside (path.item n) i) fun flow => ?_
    cases flow with
    | next => exact runBlock_akin inside path (n + 1) rest
    | leave | again | result => exact akin_pure rfl

end

/-- Kindred engines keep in step on programs. -/
theorem run_akin {unit : Nat} (inside : k.units unit) (prog : Program) :
    k.Akin Eq (run g unit prog) (run g' unit prog) := by
  refine akin_bind_eq (runBlock_akin akin inside [] 0 prog.body) fun flow => ?_
  cases flow with
  | next => exact akin_pure rfl
  | leave | again | result => exact stray_akin _ _

/-- Kindred engines keep in step on calls of user functions. -/
theorem callUser_akin {f : Defined} (inside : k.units f.site.unit) (args : List Variable)
    (span : Span) : k.Akin Eq (callUser g f args span) (callUser g' f args span) := by
  unfold callUser
  rw [akin.env]
  refine akin_ite (fun _ => akin_failAt _ _) fun _ => ?_
  refine akin_bind_eq (akin_withCall _ span (akin_withScope ?_)) fun flow => ?_
  · refine akin_bind_eq (bindParams_akin span _ args) fun _ => ?_
    exact runBlock_akin akin inside f.site.path.body 0 f.function.body
  · cases flow with
    | result | next => exact akin_pure rfl
    | leave | again => exact akin_failAt _ span

end

/-! ## Calls -/

section

variable {k : Kinship}

/-- Engines that keep in step on calls as such. -/
theorem akin_of_call {env : Env} {fuel : Nat} {call call' : Caller}
    (calls : ∀ name args span, k.Akin Eq (call name args span) (call' name args span)) :
    Engine.Akin k ⟨env, call, fuel⟩ ⟨env, call', fuel⟩ where
  env := rfl
  fuel := rfl
  invoke name args span := by
    unfold Engine.invoke
    refine akin_bind_eq (akin_located span (lookup_akin env name)) fun callee => ?_
    exact akin_bind_eq (akin_framed _ (calls name args span)) fun _ => akin_pure rfl
  statement unit path span name args inside ofArgs := by
    unfold execute
    refine akin_stepped _ (akin_bind_eq ofArgs fun values => ?_)
    refine akin_bind_eq (akin_discard (calls name values span)) fun _ => ?_
    exact akin_bind_eq (countCall_akin inside) fun _ => record_akin _ span

/-- What depends on a name keeps in step if it does for the builtin function of
that name and for all functions of programs that take part. -/
theorem akin_lookup {α : Type} {good : α → α → Prop} (env : Env) (name : String)
    {next next' : Callee → Action α}
    (builtin : ∀ handler, env.builtins.lookup name = some handler →
      k.Akin good (next (.builtin handler)) (next' (.builtin handler)))
    (user : ∀ f : Defined, k.units f.site.unit → k.Akin good (next (.user f)) (next' (.user f))) :
    k.Akin good (env.lookup name >>= next) (env.lookup name >>= next') := by
  intro m m' kin
  rcases kin.lookup env name with ⟨f, failed, failed'⟩ | ⟨callee, found, looked, looked'⟩
  · rw [bind_of_fault failed, bind_of_fault failed']
    exact .fault kin
  · rw [bind_of_ok looked, bind_of_ok looked']
    cases callee with
    | builtin handler => exact builtin handler (Env.lookup_of_callee?_builtin found) _ _ kin
    | user f =>
      exact user f (kin.functions name f (Env.function?_of_callee?_user found)) _ _ kin

end

end Machine

/-! ## The standard functions -/

namespace Builtins

open TraceLang.Action Kinship Machine

variable {k : Kinship}

theorem one_akin (name : String) (args : List Variable) :
    k.Akin Eq (one name args) (one name args) := by
  unfold one
  split
  · exact akin_pure rfl
  · exact akin_fail _

theorem two_akin (name : String) (args : List Variable) :
    k.Akin Eq (two name args) (two name args) := by
  unfold two
  split
  · exact akin_pure rfl
  · exact akin_fail _

theorem print_akin (call call' : Caller) (args : List Variable) (span : Span) :
    k.Akin Eq (print call args span) (print call' args span) := by
  refine akin_bind_eq (akin_read fun m m' kin => ?_) fun texts =>
    akin_bind_eq (akin_bind_eq (ask_akin _) fun _ => ask_akin _) fun _ => akin_pure rfl
  obtain ⟨secret, -, heaps, -⟩ := kin.veiled
  simp only [heaps.text]

theorem len_akin (call call' : Caller) (args : List Variable) (span : Span) :
    k.Akin Eq (len call args span) (len call' args span) := by
  refine akin_bind_eq (one_akin _ args) fun v => ?_
  split
  · refine akin_bind_eq (akin_read fun m m' kin => ?_) fun _ => ofExcept_akin _
    obtain ⟨secret, -, heaps, -⟩ := kin.veiled
    rw [heaps.elements]
  · exact ofExcept_akin _
  · exact akin_fail _

theorem append_akin (call call' : Caller) (args : List Variable) (span : Span) :
    k.Akin Eq (append call args span) (append call' args span) := by
  refine akin_bind_eq (two_akin _ args) fun v => ?_
  split
  · refine akin_bind_eq (fun m m' kin => ?_) fun _ => akin_pure rfl
    refine .ok rfl
      (kin.heap (fun veils => veils.push _ _) (fun c old => ?_) fun c old => ?_) ⟨rfl, rfl⟩
    · exact Heap.read_push_of_lt old _ _
    · exact Heap.read_push_of_lt old _ _
  · exact akin_fail _

theorem copy_akin (call call' : Caller) (args : List Variable) (span : Span) :
    k.Akin Eq (copy call args span) (copy call' args span) := by
  refine akin_bind_eq (one_akin _ args) fun v => ?_
  split
  · exact akin_onHeap (fun veils => veils.deepCopy _) fun h => Heap.grows_deepCopy h _
  · exact akin_fail _

theorem str_akin (call call' : Caller) (args : List Variable) (span : Span) :
    k.Akin Eq (str call args span) (str call' args span) := by
  refine akin_bind_eq (one_akin _ args) fun v => akin_read fun m m' kin => ?_
  obtain ⟨secret, -, heaps, -⟩ := kin.veiled
  rw [heaps.text]

theorem assert_akin (call call' : Caller) (args : List Variable) (span : Span) :
    k.Akin Eq (assert call args span) (assert call' args span) := by
  refine akin_bind_eq (one_akin _ args) fun v => ?_
  split
  · exact akin_pure rfl
  · exact akin_fail _
  · exact akin_fail _

/-- The standard functions do the same on kindred machines, whatever they could
call. -/
theorem standard_akin {name : String} {handler : Handler}
    (found : standard.lookup name = some handler) (call call' : Caller) (args : List Variable)
    (span : Span) : k.Akin Eq (handler call args span) (handler call' args span) := by
  have listed := mem_of_lookup found
  simp only [standard, List.mem_cons, Prod.mk.injEq, List.not_mem_nil, or_false] at listed
  rcases listed with ⟨-, rfl⟩ | ⟨-, rfl⟩ | ⟨-, rfl⟩ | ⟨-, rfl⟩ | ⟨-, rfl⟩ | ⟨-, rfl⟩
  · exact print_akin call call' args span
  · exact len_akin call call' args span
  · exact append_akin call call' args span
  · exact copy_akin call call' args span
  · exact str_akin call call' args span
  · exact assert_akin call call' args span

end Builtins

namespace Machine

open TraceLang.Action Kinship

variable {k : Kinship}

theorem callByName_akin (settings : Settings) (fuel : Nat) (name : String) (args : List Variable)
    (span : Span) :
    k.Akin Eq (callByName (Env.standard settings) fuel name args span)
      (callByName (Env.standard settings) fuel name args span) := by
  induction fuel generalizing name args span with
  | zero => exact fun _ _ _ => .outOfFuel
  | succ fuel ih =>
    unfold callByName
    refine akin_lookup _ name (fun handler found => ?_) fun f inside => ?_
    · refine akin_bind_eq (akin_located span ?_) fun _ => akin_pure rfl
      exact Builtins.standard_akin found _ _ args span
    · exact callUser_akin (akin_of_call ih) inside args span

/-- The engine with the standard functions keeps in step with itself. -/
theorem engine_akin (settings : Settings) (fuel : Nat) :
    ((Env.standard settings).engine fuel).Akin k ((Env.standard settings).engine fuel) :=
  akin_of_call (callByName_akin settings fuel)

end Machine

end TraceLang
