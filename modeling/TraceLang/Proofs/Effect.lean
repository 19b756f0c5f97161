/-
# TraceLang.Proofs.Effect — what actions keep, change and fail with

An effect describes actions of some kind: what they keep of a machine, how the
machine at the end relates to the one at the start, and which faults can come
out. `act.Has e` says that an action is of the kind `e`.

All that happens to a machine between the opening and the closing of scopes and
frames is an `Edit`. Expressions only make new lists and copies of lists, apart from
the calls in them: an effect that permits these and every ordinary fault is the
effect of all expressions as soon as it is the effect of these calls (`eval_has`).
An effect that also permits new elements and output is that of all standard
functions (`standard_has`).
-/
import TraceLang.Machine.Builtins
import TraceLang.Proofs.Action
import TraceLang.Proofs.Syntax.Program

namespace TraceLang

set_option autoImplicit false

/-- What actions of some kind do. -/
structure Effect where
  /-- What holds before and after. -/
  inv : Machine → Prop
  /-- How the machine at the end relates to the one at the start. -/
  change : Machine → Machine → Prop
  /-- The faults that can come out when an action starts on a machine. -/
  fault : Machine → Fault → Prop

namespace Action

/-- The action, started on the machine, has the effect. -/
def HasAt {α : Type} (act : Action α) (e : Effect) (m : Machine) : Prop :=
  act.Ends m (fun _ m' => e.inv m' ∧ e.change m m')
    (fun f m' => e.inv m' ∧ e.change m m' ∧ e.fault m f)

/-- The action has the effect wherever it starts. -/
def Has {α : Type} (act : Action α) (e : Effect) : Prop :=
  ∀ m, e.inv m → act.HasAt e m

end Action

/-- Effects of one action after another. -/
structure Effect.Lawful (e : Effect) : Prop where
  refl : ∀ m, e.change m m
  trans : ∀ {m m' m''}, e.change m m' → e.change m' m'' → e.change m m''
  fault_after : ∀ {m m' f}, e.change m m' → e.fault m' f → e.fault m f
  fault_locate : ∀ {m f} (span : Span), e.fault m f → e.fault m (f.locate span)

/-! ## Edits and ordinary faults -/

/-- The variable is bound in a scope or is an element of a list. -/
def Machine.Holds (m : Machine) (c : CellId) : Prop :=
  m.scopes.Binds c ∨ ∃ l, c ∈ m.heap.elements l

/-- One thing that happens to a machine while its scopes and frames stay. -/
inductive Edit (m : Machine) : Machine → Prop
  | tick : Edit m { m with steps := m.steps + 1 }
  | ask (r : Request) : Edit m (m.ask r)
  | newList (values : List Value) : Edit m { m with heap := (m.heap.newList values).2 }
  | copy (v : Value) : Edit m { m with heap := (m.heap.deepCopy v).2 }
  | append (l : ListId) (v : Value) : Edit m { m with heap := m.heap.push l v }
  | assign (c : CellId) (v : Value) (held : m.Holds c) :
    Edit m { m with heap := m.heap.assign c v }
  | watch (c : CellId) (label : String) (held : m.Holds c)
    (untraced : (m.heap.read c).traced = false) :
    Edit m
      { m with
        heap := m.heap.modify c fun v => { v with traced := true }
        tracer := m.tracer.watch (m.heap.modify c fun v => { v with traced := true }) c label }
  | record (span : Span) :
    Edit m { m with tracer := (m.tracer.update m.heap m.steps span).2 }
  | count (site : Site) :
    Edit m { m with calls := m.calls.insert site (m.calls.getD site 0 + 1) }

/-- A cause that says nothing about names, control instructions and stacks. -/
def Cause.isOrdinary : Cause → Bool
  | .invalidName _ | .nothingToOverwrite _ | .tracedOverwrite _ | .misplaced _ | .defect _ => false
  | _ => true

/-- The effect permits new lists, copies of lists and every ordinary fault. -/
structure Effect.Allocating (e : Effect) : Prop extends e.Lawful where
  newList : ∀ {m : Machine} (values : List Value), e.inv m →
    e.inv { m with heap := (m.heap.newList values).2 } ∧
      e.change m { m with heap := (m.heap.newList values).2 }
  copy : ∀ {m : Machine} (v : Value), e.inv m →
    e.inv { m with heap := (m.heap.deepCopy v).2 } ∧
      e.change m { m with heap := (m.heap.deepCopy v).2 }
  ordinary : ∀ m {cause : Cause} (span : Option Span), cause.isOrdinary →
    e.fault m { cause, span }

/-- The effect also permits output. -/
structure Effect.Reporting (e : Effect) : Prop extends e.Allocating where
  ask : ∀ {m : Machine} (r : Request), e.inv m → e.inv (m.ask r) ∧ e.change m (m.ask r)

/-- The effect also permits new elements. -/
structure Effect.Serving (e : Effect) : Prop extends e.Reporting where
  append : ∀ {m : Machine} (l : ListId) (v : Value), e.inv m →
    e.inv { m with heap := m.heap.push l v } ∧ e.change m { m with heap := m.heap.push l v }

/-- The effect permits every edit and every ordinary fault. -/
structure Effect.Permissive (e : Effect) : Prop extends e.Serving where
  edit : ∀ {m m'}, Edit m m' → e.inv m → e.inv m' ∧ e.change m m'
  newList values inv := edit (.newList values) inv
  copy v inv := edit (.copy v) inv
  append l v inv := edit (.append l v) inv
  ask r inv := edit (.ask r) inv

/-- What is known of effects that permit less holds of permissive ones. -/
instance {e : Effect} : Coe e.Permissive e.Allocating :=
  ⟨fun permissive => permissive.toAllocating⟩

instance {e : Effect} : Coe e.Permissive e.Serving :=
  ⟨Effect.Permissive.toServing⟩

namespace Action

variable {α β : Type} {e : Effect} {m : Machine}

/-! ## Effects of composed actions -/

theorem has_pure (lawful : e.Lawful) (a : α) : (pure a : Action α).Has e :=
  fun m inv => ⟨inv, lawful.refl m⟩

theorem has_read (lawful : e.Lawful) (f : Machine → α) : (read f).Has e :=
  fun m inv => ⟨inv, lawful.refl m⟩

theorem has_outOfFuel : Has (α := α) (fun _ => .outOfFuel) e :=
  fun _ _ => trivial

/-- What follows may rely on all that is known about the end of the first
action. -/
theorem hasAt_bind (lawful : e.Lawful) {act : Action α} {f : α → Action β}
    (known : α → Machine → Prop) (first : act.HasAt e m)
    (also : act.Ends m known (fun _ _ => True))
    (second : ∀ a m', e.inv m' → known a m' → (f a).HasAt e m') : (act >>= f).HasAt e m := by
  unfold HasAt
  rw [ends_bind]
  refine (Ends.and first also).mono ?_ (fun _ _ bad => bad.1)
  rintro a m' ⟨⟨inv', change⟩, isKnown⟩
  refine (second a m' inv' isKnown).mono ?_ ?_
  · rintro b m'' ⟨inv'', change'⟩
    exact ⟨inv'', lawful.trans change change'⟩
  · rintro f m'' ⟨inv'', change', fault⟩
    exact ⟨inv'', lawful.trans change change', lawful.fault_after change fault⟩

theorem has_bind (lawful : e.Lawful) {act : Action α} {f : α → Action β}
    (first : act.Has e) (second : ∀ a, (f a).Has e) : (act >>= f).Has e :=
  fun m inv => hasAt_bind lawful (fun _ _ => True) (first m inv)
    ((first m inv).mono (fun _ _ _ => trivial) (fun _ _ _ => trivial))
    (fun a m' inv' _ => second a m' inv')

theorem has_discard (lawful : e.Lawful) {act : Action α} (has : act.Has e) : (discard act).Has e :=
  has_bind lawful has fun _ => has_pure lawful ()

theorem has_located (lawful : e.Lawful) (span : Span) {act : Action α} (has : act.Has e) :
    (located span act).Has e := by
  intro m inv
  unfold HasAt
  rw [ends_located]
  refine (has m inv).mono (fun _ _ good => good) ?_
  rintro f m' ⟨inv', change, fault⟩
  exact ⟨inv', change, lawful.fault_locate span fault⟩

theorem has_ite {p : Prop} [Decidable p] {act act' : Action α} (yes : p → act.Has e)
    (no : ¬ p → act'.Has e) : (if p then act else act').Has e := by
  split
  · exact yes ‹_›
  · exact no ‹_›

/-- The part of an action inside a bracket, which starts on `n` where the whole
starts on `m` and is followed by `close`. -/
theorem HasAt.close {e' : Effect} {n : Machine} {act : Action α} (has : act.HasAt e n)
    {close : Machine → Machine}
    (closed : ∀ m', e.inv m' → e.change n m' → e'.inv (close m') ∧ e'.change m (close m'))
    (faults : ∀ f, e.fault n f → e'.fault m f) :
    act.Ends n (fun _ m' => e'.inv (close m') ∧ e'.change m (close m'))
      (fun f m' => e'.inv (close m') ∧ e'.change m (close m') ∧ e'.fault m f) := by
  refine has.mono ?_ ?_
  · rintro a m' ⟨inv, change⟩
    exact closed m' inv change
  · rintro f m' ⟨inv, change, fault⟩
    obtain ⟨inv', change'⟩ := closed m' inv change
    exact ⟨inv', change', faults f fault⟩

theorem has_repeatWhile (lawful : e.Lawful) {cond : Action Bool} {body : Action Flow}
    {step : Action Unit} (ofCond : cond.Has e) (ofBody : body.Has e) (ofStep : step.Has e)
    (fuel : Nat) : (repeatWhile cond body step fuel).Has e := by
  induction fuel with
  | zero => exact has_outOfFuel
  | succ fuel ih =>
    unfold repeatWhile
    refine has_bind lawful ofCond fun holds => has_ite (fun _ => ?_) (fun _ => has_pure lawful _)
    refine has_bind lawful ofBody fun flow => ?_
    cases flow with
    | leave | result => exact has_pure lawful _
    | next | again => exact has_bind lawful ofStep fun _ => ih

/-! ## Edits and faults as actions -/

theorem has_fail (allocating : e.Allocating) {cause : Cause} (ordinary : cause.isOrdinary) :
    (fail cause : Action α).Has e :=
  fun m inv => ⟨inv, allocating.refl m, allocating.ordinary m none ordinary⟩

theorem has_failAt (allocating : e.Allocating) {cause : Cause} (ordinary : cause.isOrdinary)
    (span : Span) : (failAt cause span : Action α).Has e :=
  fun m inv => ⟨inv, allocating.refl m, allocating.ordinary m (some span) ordinary⟩

theorem has_modify (permissive : e.Permissive) {f : Machine → Machine}
    (edit : ∀ m, Edit m (f m)) : (modify f).Has e :=
  fun m inv => permissive.edit (edit m) inv

theorem has_newList (allocating : e.Allocating) (values : List Value) :
    (onHeap fun h => h.newList values).Has e :=
  fun _ inv => allocating.newList values inv

theorem has_copy (allocating : e.Allocating) (v : Value) :
    (onHeap fun h => h.deepCopy v).Has e :=
  fun _ inv => allocating.copy v inv

end Action

/-! ## Operators -/

namespace Operators

theorem inRange_ordinary {computation : Computation} {n : Int} {cause : Cause}
    (failed : inRange computation n = .error cause) : cause.isOrdinary := by
  unfold inRange at failed
  split at failed
  · cases failed
  · cases failed; rfl

theorem onInts_ordinary {op : BinOp} {x y : Int64} {cause : Cause}
    (failed : onInts op x y = .error cause) : cause.isOrdinary := by
  cases op <;> simp only [onInts, reduceCtorEq] at failed
  case add | sub | mul => exact inRange_ordinary failed
  case div =>
    split at failed
    · cases failed; rfl
    · exact inRange_ordinary failed
  case mod =>
    split at failed
    · cases failed; rfl
    · cases quotient : inRange .modulo (x.toInt.tdiv y.toInt) with
      | error c =>
        rw [quotient] at failed
        cases failed
        exact inRange_ordinary quotient
      | ok _ =>
        rw [quotient] at failed
        exact inRange_ordinary failed
  case and | or => cases failed; rfl

theorem onFloats_ordinary {op : BinOp} {x y : Binary64} {cause : Cause}
    (failed : onFloats op x y = .error cause) : cause.isOrdinary := by
  cases op <;> simp only [onFloats, reduceCtorEq] at failed
  case div | mod =>
    split at failed
    · cases failed; rfl
    · cases failed
  case and | or => cases failed; rfl

theorem onOthers_ordinary {h : Heap} {op : BinOp} {a b : Value} {cause : Cause}
    (failed : onOthers h op a b = .error cause) : cause.isOrdinary := by
  unfold onOthers at failed
  split at failed <;> cases failed
  rfl

theorem map_error {α β : Type} {f : α → β} {result : Except Cause α} {cause : Cause}
    (failed : result.map f = .error cause) : result = .error cause := by
  cases result with
  | ok a => cases failed
  | error c => cases failed; rfl

theorem binary_ordinary {h : Heap} {op : BinOp} {a b : Value} {cause : Cause}
    (failed : binary h op a b = .error cause) : cause.isOrdinary := by
  unfold binary at failed
  split at failed
  · exact onInts_ordinary (map_error failed)
  · exact onFloats_ordinary (map_error failed)
  · exact onFloats_ordinary (map_error failed)
  · exact onFloats_ordinary (map_error failed)
  · exact onOthers_ordinary failed

/-- Only the joining of two lists allocates. -/
theorem heap_binary {h h' : Heap} {op : BinOp} {a b v : Value}
    (ok : binary h op a b = .ok (v, h')) : h' = h ∨ ∃ values, h' = (h.newList values).2 := by
  have ofMap : ∀ {result : Except Cause Value}, result.map (·, h) = .ok (v, h') → h' = h := by
    intro result mapped
    cases result with
    | ok w => cases mapped; rfl
    | error c => cases mapped
  unfold binary at ok
  split at ok
  · exact .inl (ofMap ok)
  · exact .inl (ofMap ok)
  · exact .inl (ofMap ok)
  · exact .inl (ofMap ok)
  · unfold onOthers at ok
    split at ok
    case h_4 l k =>
      cases ok
      exact .inr ⟨_, rfl⟩
    all_goals
      cases ok
      try exact .inl rfl

theorem unary_ordinary {op : UnOp} {v : Value} {cause : Cause}
    (failed : unary op v = .error cause) : cause.isOrdinary := by
  unfold unary at failed
  split at failed
  · exact inRange_ordinary failed
  all_goals
    cases failed
    try rfl

end Operators

namespace Machine

open TraceLang.Action

theorem item_ordinary {α : Type} {items : Array α} {i : Int64} {cause : Cause}
    (failed : item items i = .error cause) : cause.isOrdinary := by
  unfold item at failed
  split at failed
  · cases failed; rfl
  · split at failed
    · cases failed
    · cases failed; rfl

section

variable {e : Effect} (allocating : e.Allocating)

include allocating

/-! ## Parts of expressions -/

theorem locate_has (name : String) : (locate name).Has e := by
  intro m inv
  simp only [HasAt, Ends, locate]
  cases m.scopes.find? name with
  | some c => exact ⟨inv, allocating.refl m⟩
  | none => exact ⟨inv, allocating.refl m, allocating.ordinary m none rfl⟩

theorem used_has (x : Expr) (v : Variable) : (used x v).Has e :=
  has_ite (fun _ => has_pure allocating.toLawful v) (fun _ => has_failAt allocating rfl x.span)

theorem truth_has (x : Expr) (v : Variable) : (truth x v).Has e := by
  refine has_bind allocating.toLawful (used_has allocating x v) fun v => ?_
  split
  · exact has_pure allocating.toLawful _
  · exact has_failAt allocating rfl x.span

theorem position_has (x : Expr) (v : Variable) : (position x v).Has e := by
  refine has_bind allocating.toLawful (used_has allocating x v) fun v => ?_
  split
  · exact has_pure allocating.toLawful _
  · exact has_failAt allocating rfl x.span

theorem ofExcept_has {α : Type} {result : Except Cause α}
    (ordinary : ∀ cause, result = .error cause → cause.isOrdinary) : (ofExcept result).Has e := by
  cases result with
  | ok a => exact has_pure allocating.toLawful a
  | error cause => exact has_fail allocating (ordinary cause rfl)

/-- An element is looked up in the list as it is then. -/
theorem elementOf_has (l : ListId) (i : Int64) :
    Has (fun m => ofExcept (item (m.heap.elements l) i) m) e :=
  fun m inv => ofExcept_has allocating (fun _ => item_ordinary) m inv

theorem element_has (base : Expr) (v : Variable) (i : Int64) : (element base v i).Has e := by
  unfold element
  split
  · exact has_bind allocating.toLawful (elementOf_has allocating _ i)
      fun c => has_read allocating.toLawful _
  · exact has_bind allocating.toLawful (ofExcept_has allocating fun _ => item_ordinary)
      fun c => has_pure allocating.toLawful _
  · exact has_failAt allocating rfl base.span

theorem applyBinary_has (op : BinOp) (a b : Value) : (applyBinary op a b).Has e := by
  intro m inv
  simp only [HasAt, Ends, applyBinary]
  cases result : Operators.binary m.heap op a b with
  | ok pair =>
    obtain ⟨v, heap⟩ := pair
    rcases Operators.heap_binary result with rfl | ⟨values, rfl⟩
    · exact ⟨inv, allocating.refl m⟩
    · exact allocating.newList values inv
  | error cause =>
    exact ⟨inv, allocating.refl m, allocating.ordinary m none (Operators.binary_ordinary result)⟩

/-- A default value is a copy of the registered one. -/
theorem defaultValue_has (ty : Ty) : (defaultValue ty).Has e := by
  intro m inv
  unfold HasAt defaultValue
  rw [ends_onHeap, Heap.default?]
  cases ty.registered? with
  | none => exact ⟨inv, allocating.refl m⟩
  | some registered => exact allocating.copy registered inv

/-! ## Expressions -/

variable {g : Engine}

-- The list case uses the effect only through the elements.
set_option linter.unusedSectionVars false in
mutual

/-- An expression has every allocating effect that the calls in it have. -/
theorem eval_has_of_calls : (x : Expr) →
    (∀ span name args, x.Part (.call span name args) →
      ∀ values, (g.invoke name values span).Has e) → (eval g x).Has e
  | .int .., _ | .float .., _ | .bool .., _ | .str .., _ | .none .., _ => by
    unfold eval
    exact has_pure allocating.toLawful _
  | .default _ ty, _ => by
    unfold eval
    exact has_bind allocating.toLawful (defaultValue_has allocating ty)
      fun _ => has_pure allocating.toLawful _
  | .list span items, calls => by
    unfold eval
    refine has_located allocating.toLawful span ?_
    refine has_bind allocating.toLawful (evalArgs_has_of_calls items fun x mem s f a part =>
      calls s f a (.inside mem part)) fun values => ?_
    exact has_bind allocating.toLawful (has_newList allocating _)
      fun _ => has_pure allocating.toLawful _
  | .var span name, _ => by
    unfold eval
    refine has_located allocating.toLawful span ?_
    exact has_bind allocating.toLawful (locate_has allocating name)
      fun _ => has_read allocating.toLawful _
  | .index span base index, calls => by
    have ofBase := eval_has_of_calls base fun s f a part =>
      calls s f a (.inside (List.mem_cons_self ..) part)
    have ofIndex := eval_has_of_calls index fun s f a part =>
      calls s f a (.inside (List.mem_cons_of_mem _ (List.mem_cons_self ..)) part)
    unfold eval
    refine has_located allocating.toLawful span ?_
    refine has_bind allocating.toLawful ofBase fun v => ?_
    refine has_bind allocating.toLawful (used_has allocating base v) fun v => ?_
    refine has_bind allocating.toLawful ofIndex fun w => ?_
    refine has_bind allocating.toLawful (position_has allocating index w) fun i => ?_
    exact element_has allocating base v i
  | .binary span op left right, calls => by
    have ofLeft := eval_has_of_calls left fun s f a part =>
      calls s f a (.inside (List.mem_cons_self ..) part)
    have ofRight := eval_has_of_calls right fun s f a part =>
      calls s f a (.inside (List.mem_cons_of_mem _ (List.mem_cons_self ..)) part)
    have lawful := allocating.toLawful
    cases op
    case and | or =>
      unfold eval
      refine has_located lawful span (has_bind lawful ofLeft fun v => ?_)
      refine has_bind lawful (truth_has allocating left v) fun b => ?_
      have rest := has_bind lawful ofRight fun w => has_bind lawful (truth_has allocating right w)
        fun b => has_pure lawful (Variable.fresh (.bool b))
      -- One of the two values decides without the right operand.
      cases b <;> first | exact rest | exact has_pure lawful _
    all_goals
      unfold eval
      refine has_located lawful span (has_bind lawful ofLeft fun v => ?_)
      refine has_bind lawful (used_has allocating left v) fun a => ?_
      refine has_bind lawful ofRight fun w => ?_
      refine has_bind lawful (used_has allocating right w) fun b => ?_
      exact applyBinary_has allocating _ a.value b.value
  | .unary span op operand, calls => by
    have ofOperand := eval_has_of_calls operand fun s f a part =>
      calls s f a (.inside (List.mem_cons_self ..) part)
    unfold eval
    refine has_located allocating.toLawful span ?_
    refine has_bind allocating.toLawful ofOperand fun v => ?_
    refine has_bind allocating.toLawful (used_has allocating operand v) fun v => ?_
    exact has_bind allocating.toLawful
      (ofExcept_has allocating fun _ => Operators.unary_ordinary) fun _ =>
      has_pure allocating.toLawful _
  | .call span name args, calls => by
    unfold eval
    refine has_located allocating.toLawful span ?_
    refine has_bind allocating.toLawful (evalArgs_has_of_calls args fun x mem s f a part =>
      calls s f a (.inside mem part)) fun values => ?_
    exact calls span name args .self values

theorem evalArgs_has_of_calls : (xs : List Expr) →
    (∀ x ∈ xs, ∀ span name args, x.Part (.call span name args) →
      ∀ values, (g.invoke name values span).Has e) → (evalArgs g xs).Has e
  | [], _ => has_pure allocating.toLawful []
  | x :: rest, calls => by
    unfold evalArgs
    refine has_bind allocating.toLawful (eval_has_of_calls x (calls x (List.mem_cons_self ..)))
      fun v => ?_
    refine has_bind allocating.toLawful (used_has allocating x v) fun v => ?_
    exact has_bind allocating.toLawful (evalArgs_has_of_calls rest fun y mem =>
      calls y (List.mem_cons_of_mem _ mem)) fun _ => has_pure allocating.toLawful _

end

section

variable {x : Expr} (calls : ∀ span name args, x.Part (.call span name args) →
  ∀ values, (g.invoke name values span).Has e)

include calls

theorem evalValue_has_of_calls : (evalValue g x).Has e :=
  has_bind allocating.toLawful (eval_has_of_calls allocating x calls) fun v =>
    used_has allocating x v

theorem evalCondition_has_of_calls : (evalCondition g x).Has e :=
  has_bind allocating.toLawful (eval_has_of_calls allocating x calls) fun v =>
    truth_has allocating x v

end

theorem resolve_has_of_calls : (x : Expr) → (∀ span name args, x.Part (.call span name args) →
    ∀ values, (g.invoke name values span).Has e) → (resolve g x).Has e
  | .var span name, _ => by
    unfold resolve
    exact has_located allocating.toLawful span (locate_has allocating name)
  | .index span base index, calls => by
    have lawful := allocating.toLawful
    have ofBase := resolve_has_of_calls base fun s f a part =>
      calls s f a (.inside (List.mem_cons_self ..) part)
    have ofIndex := eval_has_of_calls allocating index fun s f a part =>
      calls s f a (.inside (List.mem_cons_of_mem _ (List.mem_cons_self ..)) part)
    unfold resolve
    refine has_bind lawful ofBase fun cell => ?_
    refine has_bind lawful ofIndex fun w => ?_
    refine has_bind lawful (position_has allocating index w) fun i => ?_
    refine has_bind lawful (has_read lawful _) fun v => has_ite (fun _ => ?_) (fun _ => ?_)
    · split
      · exact has_located lawful span (elementOf_has allocating _ i)
      · exact has_failAt allocating rfl span
      · exact has_failAt allocating rfl base.span
    · exact has_failAt allocating rfl base.span
  | .int .., _ | .float .., _ | .bool .., _ | .str .., _ | .none .., _ | .list .., _
  | .binary .., _ | .unary .., _ | .call .., _ | .default .., _ => has_failAt allocating rfl _

section

variable (invoke : ∀ name args span, (g.invoke name args span).Has e)

include invoke

/-- Expressions have every allocating effect that all calls have. -/
theorem eval_has (x : Expr) : (eval g x).Has e :=
  eval_has_of_calls allocating x fun span name _ _ values => invoke name values span

theorem evalArgs_has (xs : List Expr) : (evalArgs g xs).Has e :=
  evalArgs_has_of_calls allocating xs fun _ _ span name _ _ values => invoke name values span

theorem evalValue_has (x : Expr) : (evalValue g x).Has e :=
  evalValue_has_of_calls allocating fun span name _ _ values => invoke name values span

theorem evalCondition_has (x : Expr) : (evalCondition g x).Has e :=
  evalCondition_has_of_calls allocating fun span name _ _ values => invoke name values span

theorem resolve_has (x : Expr) : (resolve g x).Has e :=
  resolve_has_of_calls allocating x fun span name _ _ values => invoke name values span

end

end

end Machine

/-! ## Standard functions -/

namespace Builtins

open TraceLang.Action Machine

variable {e : Effect} (reporting : e.Reporting)

section

include reporting

theorem one_has (name : String) (args : List Variable) : (one name args).Has e := by
  unfold one
  split
  · exact has_pure reporting.toLawful _
  · exact has_fail reporting.toAllocating rfl

theorem two_has (name : String) (args : List Variable) : (two name args).Has e := by
  unfold two
  split
  · exact has_pure reporting.toLawful _
  · exact has_fail reporting.toAllocating rfl

theorem lengthValue_has (n : Nat) : (ofExcept (Operators.lengthValue n)).Has e :=
  ofExcept_has reporting.toAllocating fun _ => Operators.inRange_ordinary

theorem ask_has (r : Request) : (Action.ask r).Has e := by
  intro m inv
  obtain ⟨after, change⟩ := reporting.ask r inv
  exact (ends_ask r).mpr ⟨fun _ => ⟨after, change⟩,
    fun _ _ => ⟨after, change, reporting.ordinary m none rfl⟩⟩

theorem print_has (text : String) : (Action.print text).Has e :=
  has_bind reporting.toLawful (ask_has reporting _) fun _ => ask_has reporting _

/-- All standard functions but `append` have every reporting effect. -/
theorem standard_reports {name : String} {handler : Handler}
    (found : standard.lookup name = some handler) (other : name ≠ "append") (call : Caller)
    (args : List Variable) (span : Span) : (handler call args span).Has e := by
  have lawful := reporting.toLawful
  have listed := mem_of_lookup found
  simp only [standard, List.mem_cons, Prod.mk.injEq, List.not_mem_nil, or_false] at listed
  rcases listed with ⟨-, rfl⟩ | ⟨-, rfl⟩ | ⟨appends, -⟩ | ⟨-, rfl⟩ | ⟨-, rfl⟩ | ⟨-, rfl⟩
  · -- print
    refine has_bind lawful (has_read lawful _) fun texts => ?_
    exact has_bind lawful (print_has reporting _) fun _ => has_pure lawful _
  · -- len
    refine has_bind lawful (one_has reporting _ args) fun v => ?_
    split
    · exact has_bind lawful (has_read lawful _) fun n => lengthValue_has reporting n
    · exact lengthValue_has reporting _
    · exact has_fail reporting.toAllocating rfl
  · exact absurd appends other
  · -- copy
    refine has_bind lawful (one_has reporting _ args) fun v => ?_
    split
    · exact has_copy reporting.toAllocating _
    · exact has_fail reporting.toAllocating rfl
  · -- str
    exact has_bind lawful (one_has reporting _ args) fun v => has_read lawful _
  · -- assert
    refine has_bind lawful (one_has reporting _ args) fun v => ?_
    split
    · exact has_pure lawful _
    · exact has_fail reporting.toAllocating rfl
    · exact has_fail reporting.toAllocating rfl

end

/-- The standard functions have every serving effect. -/
theorem standard_has (serving : e.Serving) {name : String} {handler : Handler}
    (found : standard.lookup name = some handler) (call : Caller) (args : List Variable)
    (span : Span) : (handler call args span).Has e := by
  have lawful := serving.toLawful
  by_cases appends : name = "append"
  · subst appends
    obtain rfl : append = handler := by simpa [standard, List.lookup_cons] using found
    refine has_bind lawful (two_has serving.toReporting _ args) fun v => ?_
    split
    · exact has_bind lawful (fun _ inv => serving.append _ _ inv) fun _ => has_pure lawful _
    · exact has_fail serving.toAllocating rfl
  · exact standard_reports serving.toReporting found appends call args span

end Builtins

/-! ## Places are held -/

namespace Machine

variable {g : Engine} {m : Machine}

open TraceLang.Action

/-- The place that an expression denotes is held by the machine that resolving
leaves behind. -/
theorem resolve_holds (x : Expr) :
    (resolve g x).Ends m (fun c m' => m'.Holds c) (fun _ _ => True) := by
  cases x with
  | var span name =>
    refine (ends_located span).mpr ?_
    simp only [Ends, locate]
    cases found : m.scopes.find? name with
    | none => trivial
    | some c => exact .inl (Scopes.binds_of_find? found)
  | index span base index =>
    simp only [resolve]
    -- Only the last step, which reads the list, decides which place it is.
    rw [ends_bind]
    refine ends_of_forall fun cell m₁ => ?_
    rw [ends_bind]
    refine ends_of_forall fun w m₂ => ?_
    rw [ends_bind]
    refine ends_of_forall fun i m₃ => ?_
    rw [ends_bind, ends_read, ends_ite]
    refine ⟨fun _ => ?_, fun _ => trivial⟩
    split
    case h_1 l _ =>
      refine (ends_located span).mpr ?_
      simp only [Ends, item]
      by_cases negative : i.toInt < 0
      · simp [negative, ofExcept, Action.fail]
      · simp only [negative, if_false]
        cases found : (m₃.heap.elements l)[i.toInt.toNat]? with
        | none => trivial
        | some c => exact .inr ⟨l, Array.mem_of_getElem? found⟩
    all_goals trivial
  | _ => trivial

end Machine

end TraceLang
