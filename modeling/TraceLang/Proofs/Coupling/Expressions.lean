/-
# TraceLang.Proofs.Coupling.Expressions — expressions in two runs

`k.Tends` lists what a coupling has to know about corresponding heaps: that
reading, comparing and showing give the same answers, and that corresponding
changes lead to heaps that correspond. Then every expression gives corresponding
variables in both runs if the calls in it do (`eval_mirrors`), every place
corresponds (`resolve_mirrors`), and so does what the standard functions do
(`standard_mirrors`).
-/
import TraceLang.Proofs.Coupling.Basic
import TraceLang.Proofs.Heap

namespace TraceLang

set_option autoImplicit false

/-- A new variable that holds the default value of a type and is not assigned. -/
def Heap.reserve (h : Heap) (ty : Ty) (name : String) : CellId × Heap :=
  let (value, h) := (h.default? ty).getD (.none, h)
  h.alloc { value, assigned := false, name := some name }

namespace Coupling

variable {k : Coupling} {w w' : k.World} {m m' : Machine}

/-- What has to be known about corresponding heaps. -/
structure Tends (k : Coupling) : Prop where
  pristine : ∀ {w : k.World} {h h' : Heap}, k.heaps w h h' → h.Pristine ∧ h'.Pristine
  read : ∀ {w : k.World} {h h' : Heap} {c c' : CellId}, k.heaps w h h' → k.cells w c c' →
    k.Variables w (h.read c) (h'.read c')
  elements : ∀ {w : k.World} {h h' : Heap} {l l' : ListId}, k.heaps w h h' → k.lists w l l' →
    List.Forall₂ (k.cells w) (h.elements l).toList (h'.elements l').toList
  values : ∀ {w : k.World} {h h' : Heap} {l l' : ListId}, k.heaps w h h' → k.lists w l l' →
    List.Forall₂ (k.Values w) (h.values l) (h'.values l')
  text : ∀ {w : k.World} {h h' : Heap} {v v' : Value}, k.heaps w h h' → k.Values w v v' →
    h'.text v' = h.text v
  equal : ∀ {w : k.World} {h h' : Heap} {a a' b b' : Value}, k.heaps w h h' → k.Values w a a' →
    k.Values w b b' → h'.equal a' b' = h.equal a b
  newList : ∀ {w : k.World} {h h' : Heap} {vs vs' : List Value}, k.heaps w h h' →
    List.Forall₂ (k.Values w) vs vs' → ∃ w', k.le w w' ∧
      k.heaps w' (h.newList vs).2 (h'.newList vs').2 ∧
      k.Values w' (h.newList vs).1 (h'.newList vs').1
  copy : ∀ {w : k.World} {h h' : Heap} {v v' : Value}, k.heaps w h h' → k.Values w v v' →
    ∃ w', k.le w w' ∧ k.heaps w' (h.deepCopy v).2 (h'.deepCopy v').2 ∧
      k.Values w' (h.deepCopy v).1 (h'.deepCopy v').1
  push : ∀ {w : k.World} {h h' : Heap} {l l' : ListId} {v v' : Value}, k.heaps w h h' →
    k.lists w l l' → k.Values w v v' → ∃ w', k.le w w' ∧ k.heaps w' (h.push l v) (h'.push l' v')
  assign : ∀ {w : k.World} {h h' : Heap} {c c' : CellId} {v v' : Value}, k.heaps w h h' →
    k.cells w c c' → k.Values w v v' →
    ∃ w', k.le w w' ∧ k.heaps w' (h.assign c v) (h'.assign c' v')
  alloc : ∀ {w : k.World} {h h' : Heap} {v v' : Value} (name : String), k.heaps w h h' →
    k.Values w v v' →
    ∃ w', k.le w w' ∧
      k.heaps w' (h.alloc { value := v, name := some name }).2
        (h'.alloc { value := v', name := some name }).2 ∧
      k.cells w' (h.alloc { value := v, name := some name }).1
        (h'.alloc { value := v', name := some name }).1
  reserve : ∀ {w : k.World} {h h' : Heap} (ty : Ty) (name : String), k.heaps w h h' →
    ∃ w', k.le w w' ∧ k.heaps w' (h.reserve ty name).2 (h'.reserve ty name).2 ∧
      k.cells w' (h.reserve ty name).1 (h'.reserve ty name).1

/-- Default values are alike. Where an unassigned variable may hold any values
that are alike, it may hold these. -/
theorem reserve_like {w : k.World} {h h' : Heap} (heap : k.heaps w h h') (ty : Ty) (name : String)
    (pristine : h.Pristine ∧ h'.Pristine)
    (newList : ∃ w', k.le w w' ∧ k.heaps w' (h.newList []).2 (h'.newList []).2 ∧
      k.Values w' (h.newList []).1 (h'.newList []).1)
    (alloc : ∀ {w : k.World} {h h' : Heap} {v v' : Value}, k.heaps w h h' → k.Values w v v' →
      ∃ w', k.le w w' ∧
        k.heaps w' (h.alloc { value := v, assigned := false, name := some name }).2
          (h'.alloc { value := v', assigned := false, name := some name }).2 ∧
        k.cells w' (h.alloc { value := v, assigned := false, name := some name }).1
          (h'.alloc { value := v', assigned := false, name := some name }).1) :
    ∃ w', k.le w w' ∧ k.heaps w' (h.reserve ty name).2 (h'.reserve ty name).2 ∧
      k.cells w' (h.reserve ty name).1 (h'.reserve ty name).1 := by
  cases ty with
  | list =>
    obtain ⟨w₁, later, heap₁, like⟩ := newList
    obtain ⟨w₂, later', heap₂, paired⟩ := alloc heap₁ like
    simp only [Heap.reserve, pristine.1.default?_list, pristine.2.default?_list]
    exact ⟨w₂, k.trans later later', heap₂, paired⟩
  | int => exact alloc heap (.int 0)
  | float => exact alloc heap (.float .zero)
  | bool => exact alloc heap (.bool false)
  | string => exact alloc heap (.str "")
  | none | auto => exact alloc heap .none

/-- The heaps have changed and everything else still corresponds. -/
theorem Machines.grow {h h' : Heap} (coupled : k.Machines w m m') (later : k.le w w')
    (heap : k.heaps w' h h') : k.Machines w' { m with heap := h } { m' with heap := h' } :=
  { coupled with
    heap
    scopes := coupled.scopes.mono fun _ _ => k.cells_mono later
    notes := k.notes_mono later coupled.notes }

theorem mirrors_modify {f f' : Machine → Machine}
    (changes : ∀ w' m m', k.le w w' → k.Machines w' m m' →
      m.Level (f m) ∧ ∃ w'', k.le w' w'' ∧ k.Machines w'' (f m) (f' m')) :
    k.Mirrors w k.same (Action.modify f) (Action.modify f') := by
  intro w₁ m m' later coupled
  obtain ⟨level, w₂, later₂, coupled₂⟩ := changes w₁ m m' later coupled
  exact ⟨level, w₂, (), f' m', rfl, later₂, coupled₂, rfl⟩

theorem mirrors_onHeap {α : Type} {good : k.World → α → α → Prop} {f f' : Heap → α × Heap}
    (like : ∀ w' h h', k.le w w' → k.heaps w' h h' →
      ∃ w'', k.le w' w'' ∧ k.heaps w'' (f h).2 (f' h').2 ∧ good w'' (f h).1 (f' h').1) :
    k.Mirrors w good (Action.onHeap f) (Action.onHeap f') := by
  intro w₁ m m' later coupled
  obtain ⟨w₂, later₂, heap, result⟩ := like w₁ _ _ later coupled.heap
  exact ⟨⟨rfl, rfl⟩, w₂, _, _, rfl, later₂, coupled.grow later₂ heap, result⟩

/-! ## Functions by name -/

/-- Calls with corresponding arguments give corresponding results. -/
def Answers (k : Coupling) (call : Caller) : Prop :=
  ∀ (w : k.World) (name : String) {args args' : List Variable},
    List.Forall₂ (k.Given w) args args' → ∀ span,
    k.Mirrors w (fun w => Option.Rel (k.Variables w)) (call name args span) (call name args' span)

theorem Machines.function? (coupled : k.Machines w m m') (name : String) :
    Option.Rel k.Functions (m.function? name) (m'.function? name) := by
  unfold Machine.function?
  have functions := coupled.functions
  generalize m.functions = entries, m'.functions = entries' at functions ⊢
  induction functions with
  | nil => exact .none
  | @cons entry entry' rest rest' first _ ih =>
    obtain ⟨key, f⟩ := entry
    obtain ⟨key', f'⟩ := entry'
    obtain ⟨rfl, like⟩ := first
    rw [lookup_entry, lookup_entry]
    split
    · exact .some like
    · exact ih

theorem Machines.isUserFunction (coupled : k.Machines w m m') (name : String) :
    m'.isUserFunction name = m.isUserFunction name := by
  have found := coupled.function? name
  unfold Machine.isUserFunction
  generalize m.function? name = f, m'.function? name = f' at found ⊢
  cases found <;> rfl

theorem Machines.functionNames (coupled : k.Machines w m m') (env : Env) :
    env.functionNames m' = env.functionNames m := by
  have same : m'.functions.map (·.1) = m.functions.map (·.1) := by
    have functions := coupled.functions
    generalize m.functions = entries, m'.functions = entries' at functions ⊢
    induction functions with
    | nil => rfl
    | cons first _ ih => rw [List.map_cons, List.map_cons, ih, first.1]
  rw [Env.functionNames, Env.functionNames, same]

/-- What a name denotes in the two runs. -/
inductive Callees (k : Coupling) (env : Env) (name : String) : Callee → Callee → Prop
  | builtin {handler : Handler} (found : env.builtins.lookup name = some handler) :
    Callees k env name (.builtin handler) (.builtin handler)
  | user {f f' : Defined} (like : k.Functions f f') : Callees k env name (.user f) (.user f')

theorem Callees.status {env : Env} {name : String} {callee callee' : Callee}
    (like : k.Callees env name callee callee') : callee'.status = callee.status := by
  cases like <;> rfl

theorem lookup_mirrors (env : Env) (name : String) :
    k.Mirrors w (fun _ => k.Callees env name) (env.lookup name) (env.lookup name) := by
  intro w₁ m m' _ coupled
  have found := coupled.function? name
  have names := coupled.functionNames env
  simp only [MirrorsAt, Action.Ends, Env.lookup, Env.callee?, names]
  generalize m.function? name = f, m'.function? name = f' at found ⊢
  cases found with
  | some like => exact ⟨.refl m, w₁, _, m', rfl, k.refl w₁, coupled, .user like⟩
  | none =>
    cases listed : env.builtins.lookup name with
    | some handler =>
      exact ⟨.refl m, w₁, _, m', rfl, k.refl w₁, coupled, .builtin listed⟩
    | none => exact ⟨.refl m, .inr ⟨w₁, m', rfl, k.refl w₁, coupled⟩⟩

theorem invoke_mirrors {g : Engine} (answers : k.Answers g.call) (name : String)
    {args args' : List Variable}
    (like : List.Forall₂ (k.Given w) args args') (span : Span) :
    k.Mirrors w k.Variables (g.invoke name args span) (g.invoke name args' span) := by
  unfold Engine.invoke
  refine mirrors_bind (mirrors_located span (lookup_mirrors g.env name)) ?_
  intro w₁ callee callee' later₁ callees
  simp only [callees.status]
  have called := answers w₁ name (like.imp fun _ _ like => like.later later₁) span
  refine mirrors_bind (mirrors_framed _ called) fun w₂ value value' _ values => ?_
  refine mirrors_pure fun w₃ later₃ => ?_
  cases values with
  | some like => exact like.later later₃
  | none => exact variables_fresh .none

/-! ## Parts of expressions -/

open Machine

theorem locate_mirrors (name : String) : k.Mirrors w k.cells (locate name) (locate name) := by
  intro w₁ m m' _ coupled
  have found := coupled.scopes.find? name
  simp only [MirrorsAt, Action.Ends, locate, coupled.scopes.visibleNames]
  generalize m.scopes.find? name = c, m'.scopes.find? name = c' at found ⊢
  cases found with
  | some paired => exact ⟨.refl m, w₁, _, m', rfl, k.refl w₁, coupled, paired⟩
  | none => exact ⟨.refl m, .inr ⟨w₁, m', rfl, k.refl w₁, coupled⟩⟩

theorem used_mirrors (x : Expr) {v v' : Variable} (like : k.Variables w v v') :
    k.Mirrors w k.Given (used x v) (used x v') := by
  unfold used
  rw [like.assigned, like.name]
  refine mirrors_ite (fun assigned => ?_) fun _ => mirrors_failAt _ _
  exact mirrors_pure fun _ later => ⟨like.later later, assigned⟩

theorem truth_mirrors (x : Expr) {v v' : Variable} (like : k.Variables w v v') :
    k.Mirrors w k.same (truth x v) (truth x v') := by
  refine mirrors_bind (used_mirrors x like) fun w₁ a a' _ given => ?_
  have value := given.shown
  generalize a.value = b, a'.value = b' at value ⊢
  cases value with
  | bool b => exact mirrors_pure fun _ _ => rfl
  | _ => exact mirrors_failAt _ _

theorem position_mirrors (x : Expr) {v v' : Variable} (like : k.Variables w v v') :
    k.Mirrors w k.same (position x v) (position x v') := by
  refine mirrors_bind (used_mirrors x like) fun w₁ a a' _ given => ?_
  have value := given.shown
  generalize a.value = b, a'.value = b' at value ⊢
  cases value with
  | int n => exact mirrors_pure fun _ _ => rfl
  | _ => exact mirrors_failAt _ _

theorem ofExcept_mirrors {α : Type} (result : Except Cause α) :
    k.Mirrors w k.same (ofExcept result) (ofExcept result) := by
  cases result with
  | ok a => exact mirrors_pure fun _ _ => rfl
  | error cause => exact mirrors_fail cause

theorem scalar_mirrors {result : Except Cause Value}
    (scalar : ∀ v, result = .ok v → k.Values w v v) :
    k.Mirrors w k.Values (ofExcept result) (ofExcept result) := by
  cases result with
  | ok v =>
    exact mirrors_pure fun _ later => (scalar v rfl).mono fun _ _ => k.lists_mono later
  | error cause => exact mirrors_fail cause

/-- An item at the same position of two sequences of the same length. -/
theorem item_like {α : Type} {R : α → α → Prop} {items items' : Array α}
    (like : List.Forall₂ R items.toList items'.toList) (i : Int64) :
    (∃ cause, item items i = .error cause ∧ item items' i = .error cause) ∨
      ∃ a a', item items i = .ok a ∧ item items' i = .ok a' ∧ R a a' := by
  have sizes : items'.size = items.size := by simpa using like.length_eq.symm
  unfold item
  split
  · exact .inl ⟨_, rfl, by rw [sizes]⟩
  · by_cases inside : i.toInt.toNat < items.size
    · have inside' : i.toInt.toNat < items'.size := sizes ▸ inside
      rw [Array.getElem?_eq_getElem inside, Array.getElem?_eq_getElem inside']
      have paired := like.get (by simpa using inside) (by simpa using inside')
      exact .inr ⟨_, _, rfl, rfl, by simpa using paired⟩
    · have inside' : ¬ i.toInt.toNat < items'.size := sizes ▸ inside
      rw [Array.getElem?_eq_none (Nat.le_of_not_lt inside),
        Array.getElem?_eq_none (Nat.le_of_not_lt inside'), sizes]
      exact .inl ⟨_, rfl, rfl⟩

/-! ## Operators -/

/-- What an operator does in the two runs: it fails for the same reason, it gives
a value, or it makes a new list. -/
inductive Outcomes (k : Coupling) (w : k.World) (h h' : Heap) :
    Except Cause (Value × Heap) → Except Cause (Value × Heap) → Prop
  | error (cause : Cause) : Outcomes k w h h' (.error cause) (.error cause)
  | value {v v' : Value} (like : k.Values w v v') : Outcomes k w h h' (.ok (v, h)) (.ok (v', h'))
  | joined {vs vs' : List Value} (like : List.Forall₂ (k.Values w) vs vs') :
    Outcomes k w h h' (.ok (h.newList vs)) (.ok (h'.newList vs'))

theorem outcomes_map {h h' : Heap} {result : Except Cause Value}
    (scalar : ∀ v, result = .ok v → k.Values w v v) :
    k.Outcomes w h h' (result.map (·, h)) (result.map (·, h')) := by
  cases result with
  | error cause => exact .error cause
  | ok v => exact .value (scalar v rfl)

theorem inRange_like {computation : Computation} {n : Int} {v : Value}
    (ok : Operators.inRange computation n = .ok v) : k.Values w v v := by
  unfold Operators.inRange at ok
  split at ok <;> cases ok
  exact .int _

theorem onInts_like {op : BinOp} {x y : Int64} {v : Value} (ok : Operators.onInts op x y = .ok v) :
    k.Values w v v := by
  cases op <;> simp only [Operators.onInts] at ok
  case add | sub | mul => exact inRange_like ok
  case div =>
    split at ok
    · cases ok
    · exact inRange_like ok
  case mod =>
    split at ok
    · cases ok
    · cases quotient : Operators.inRange .modulo (x.toInt.tdiv y.toInt) with
      | error cause => simp [quotient, Bind.bind, Except.bind] at ok
      | ok q =>
        simp only [quotient, Bind.bind, Except.bind] at ok
        exact inRange_like ok
  all_goals
    cases ok
    try exact .bool _

theorem onFloats_like {op : BinOp} {x y : Binary64} {v : Value}
    (ok : Operators.onFloats op x y = .ok v) : k.Values w v v := by
  cases op <;> simp only [Operators.onFloats] at ok
  case div | mod =>
    split at ok <;> cases ok
    exact .float _
  case add | sub | mul =>
    cases ok
    exact .float _
  all_goals
    cases ok
    try exact .bool _

theorem unary_like (op : UnOp) {v v' : Value} (like : k.Values w v v') :
    Operators.unary op v' = Operators.unary op v ∧
      ∀ u, Operators.unary op v = .ok u → k.Values w u u := by
  cases op <;> cases like
  case neg.int n => exact ⟨rfl, fun _ => inRange_like⟩
  all_goals
    refine ⟨rfl, fun u ok => ?_⟩
    cases ok
    try constructor

section

variable (tends : k.Tends)

include tends

theorem elementOf_mirrors {l l' : ListId} (like : k.lists w l l') (i : Int64) :
    k.Mirrors w k.cells (fun m => ofExcept (item (m.heap.elements l) i) m)
      (fun m => ofExcept (item (m.heap.elements l') i) m) := by
  intro w₁ m m' later coupled
  have elements := tends.elements coupled.heap (k.lists_mono later like)
  simp only [MirrorsAt, Action.Ends]
  rcases item_like elements i with ⟨cause, here, there⟩ | ⟨c, c', here, there, paired⟩
  · simp only [here, there]
    exact ⟨.refl m, .inr ⟨w₁, m', rfl, k.refl w₁, coupled⟩⟩
  · simp only [here, there]
    exact ⟨.refl m, w₁, c', m', rfl, k.refl w₁, coupled, paired⟩

theorem readCell_mirrors {c c' : CellId} (paired : k.cells w c c') :
    k.Mirrors w k.Variables (Action.read fun m => m.heap.read c)
      (Action.read fun m => m.heap.read c') :=
  mirrors_read fun _ _ _ later coupled => tends.read coupled.heap (k.cells_mono later paired)

theorem element_mirrors (base : Expr) {v v' : Variable} (given : k.Given w v v') (i : Int64) :
    k.Mirrors w k.Variables (element base v i) (element base v' i) := by
  have value := given.shown
  unfold element
  generalize v.value = a, v'.value = a' at value ⊢
  cases value with
  | list paired =>
    exact mirrors_bind (elementOf_mirrors tends paired i) fun _ _ _ _ cells =>
      readCell_mirrors tends cells
  | str s =>
    refine mirrors_bind (ofExcept_mirrors _) ?_
    rintro w₁ c _ _ rfl
    exact mirrors_pure fun _ _ => variables_fresh (.str _)
  | _ => exact mirrors_failAt _ _

theorem newList_mirrors {vs vs' : List Value} (like : List.Forall₂ (k.Values w) vs vs') :
    k.Mirrors w k.Values (Action.onHeap fun h => h.newList vs)
      (Action.onHeap fun h => h.newList vs') :=
  mirrors_onHeap fun _ _ _ later heap =>
    tends.newList heap (like.imp fun _ _ value => value.mono fun _ _ => k.lists_mono later)

theorem defaultValue_mirrors (ty : Ty) :
    k.Mirrors w k.Values (defaultValue ty) (defaultValue ty) := by
  cases ty with
  | list =>
    refine mirrors_onHeap fun w' h h' _ heap => ?_
    obtain ⟨pristine, pristine'⟩ := tends.pristine heap
    simp only [pristine.default?_list, pristine'.default?_list]
    exact tends.newList heap .nil
  | _ => exact mirrors_onHeap fun w' h h' _ heap => ⟨w', k.refl w', heap, by constructor⟩

theorem onOthers_outcomes {h h' : Heap} (heap : k.heaps w h h') (op : BinOp) {a a' b b' : Value}
    (left : k.Values w a a') (right : k.Values w b b') :
    k.Outcomes w h h' (Operators.onOthers h op a b) (Operators.onOthers h' op a' b') := by
  have answer := tends.equal heap left right
  cases op
  case eq | ne =>
    simp only [Operators.onOthers, answer]
    exact .value (.bool _)
  case add =>
    cases left <;> cases right
    case str.str => exact .value (.str _)
    case list.list first _ _ second =>
      exact .joined (List.rel_append (tends.values heap first) (tends.values heap second))
    all_goals exact .error _
  case lt | le | gt | ge =>
    cases left <;> cases right
    case str.str => exact .value (.bool _)
    all_goals exact .error _
  all_goals cases left <;> cases right <;> exact .error _

theorem binary_outcomes {h h' : Heap} (heap : k.heaps w h h') (op : BinOp) {a a' b b' : Value}
    (left : k.Values w a a') (right : k.Values w b b') :
    k.Outcomes w h h' (Operators.binary h op a b) (Operators.binary h' op a' b') := by
  have others := onOthers_outcomes tends heap op left right
  cases left <;> cases right
  case int.int => exact outcomes_map fun _ => onInts_like
  case float.float | int.float | float.int => exact outcomes_map fun _ => onFloats_like
  all_goals exact others

theorem applyBinary_mirrors (op : BinOp) {a a' b b' : Value} (left : k.Values w a a')
    (right : k.Values w b b') :
    k.Mirrors w k.Variables (applyBinary op a b) (applyBinary op a' b') := by
  intro w₁ m m' later coupled
  have more : ∀ {v v' : Value}, k.Values w v v' → k.Values w₁ v v' := fun value =>
    value.mono fun _ _ => k.lists_mono later
  simp only [MirrorsAt, Action.Ends, applyBinary]
  have outcomes := binary_outcomes tends coupled.heap op (more left) (more right)
  generalize Operators.binary m.heap op a b = result,
    Operators.binary m'.heap op a' b' = result' at outcomes ⊢
  cases outcomes with
  | error cause => exact ⟨.refl m, .inr ⟨w₁, m', rfl, k.refl w₁, coupled⟩⟩
  | value like => exact ⟨.refl m, w₁, _, m', rfl, k.refl w₁, coupled, variables_fresh like⟩
  | joined like =>
    obtain ⟨w₂, later₂, heap, value⟩ := tends.newList coupled.heap like
    exact ⟨⟨rfl, rfl⟩, w₂, _, _, rfl, later₂, coupled.grow later₂ heap, variables_fresh value⟩

/-! ## Expressions -/

variable {g : Engine} (answers : k.Answers g.call)

include answers

-- The list case uses the heaps and the calls only through the elements.
set_option linter.unusedSectionVars false in
mutual

/-- Expressions give corresponding variables if the calls in them do. -/
theorem eval_mirrors : (x : Expr) → k.Mirrors w k.Variables (eval g x) (eval g x)
  | .int .. | .float .. | .bool .. | .str .. | .none .. => by
    unfold eval
    exact mirrors_pure fun _ _ => variables_fresh (by constructor)
  | .default _ ty => by
    unfold eval
    refine mirrors_bind (defaultValue_mirrors tends ty) fun _ _ _ _ like => ?_
    exact mirrors_pure fun _ later => (variables_fresh like).later later
  | .list span items => by
    unfold eval
    refine mirrors_located span (mirrors_bind (evalArgs_mirrors items) fun w₁ vs vs' _ like => ?_)
    have values : List.Forall₂ (k.Values w₁) (vs.map (·.value)) (vs'.map (·.value)) :=
      List.rel_map (fun v v' (given : k.Given w₁ v v') => given.shown) like
    refine mirrors_bind (newList_mirrors tends values) fun _ _ _ _ like => ?_
    exact mirrors_pure fun _ later => (variables_fresh like).later later
  | .var span name => by
    unfold eval
    refine mirrors_located span (mirrors_bind (locate_mirrors name) fun _ _ _ _ paired => ?_)
    exact readCell_mirrors tends paired
  | .index span base index => by
    unfold eval
    refine mirrors_located span (mirrors_bind (eval_mirrors base) fun w₁ _ _ later₁ like => ?_)
    refine mirrors_bind (used_mirrors base like) fun w₂ _ _ later₂ like => ?_
    refine mirrors_bind ((eval_mirrors index).later (k.trans later₁ later₂)) ?_
    intro w₃ _ _ later₃ like'
    refine mirrors_bind (position_mirrors index like') ?_
    rintro w₄ _ i later₄ rfl
    exact element_mirrors tends base (like.later (k.trans later₃ later₄)) i
  | .binary span op left right => by
    have ofLeft := eval_mirrors left
    have ofRight := eval_mirrors right
    cases op
    case and | or =>
      unfold eval
      refine mirrors_located span (mirrors_bind ofLeft fun w₁ _ _ later₁ like => ?_)
      refine mirrors_bind (truth_mirrors left like) ?_
      rintro w₂ b _ later₂ rfl
      have later := k.trans later₁ later₂
      refine mirrors_ite (fun _ => ?_) fun _ => ?_
      -- One of the two values decides without the right operand.
      all_goals first
        | exact mirrors_pure fun _ _ => variables_fresh (.bool _)
        | refine mirrors_bind (ofRight.later later) fun w₃ _ _ _ like => ?_
          refine mirrors_bind (truth_mirrors right like) ?_
          rintro w₄ _ b _ rfl
          exact mirrors_pure fun _ _ => variables_fresh (.bool b)
    all_goals
      unfold eval
      refine mirrors_located span (mirrors_bind ofLeft fun w₁ _ _ later₁ like => ?_)
      refine mirrors_bind (used_mirrors left like) fun w₂ _ _ later₂ like => ?_
      refine mirrors_bind (ofRight.later (k.trans later₁ later₂)) fun w₃ _ _ later₃ like' => ?_
      refine mirrors_bind (used_mirrors right like') fun w₄ _ _ later₄ like' => ?_
      exact applyBinary_mirrors tends _ (like.later (k.trans later₃ later₄)).shown like'.shown
  | .unary span op operand => by
    unfold eval
    refine mirrors_located span (mirrors_bind (eval_mirrors operand) fun w₁ _ _ _ like => ?_)
    refine mirrors_bind (used_mirrors operand like) fun w₂ v v' _ like => ?_
    obtain ⟨same, scalar⟩ := unary_like op like.shown
    rw [same]
    refine mirrors_bind (scalar_mirrors scalar) fun w₃ _ _ _ like => ?_
    exact mirrors_pure fun _ later => (variables_fresh like).later later
  | .call span name args => by
    unfold eval
    refine mirrors_located span (mirrors_bind (evalArgs_mirrors args) fun w₁ _ _ _ like => ?_)
    exact invoke_mirrors answers name like span

theorem evalArgs_mirrors : (xs : List Expr) →
    k.Mirrors w (fun w => List.Forall₂ (k.Given w)) (evalArgs g xs) (evalArgs g xs)
  | [] => mirrors_pure fun _ _ => .nil
  | x :: rest => by
    unfold evalArgs
    refine mirrors_bind (eval_mirrors x) fun w₁ _ _ later₁ like => ?_
    refine mirrors_bind (used_mirrors x like) fun w₂ _ _ later₂ like => ?_
    refine mirrors_bind ((evalArgs_mirrors rest).later (k.trans later₁ later₂)) ?_
    intro w₃ _ _ later₃ others
    refine mirrors_pure fun w₄ later₄ => ?_
    exact .cons (like.later (k.trans later₃ later₄)) (others.imp fun _ _ like => like.later later₄)

end

theorem evalValue_mirrors (x : Expr) :
    k.Mirrors w k.Given (evalValue g x) (evalValue g x) :=
  mirrors_bind (eval_mirrors tends answers x) fun _ _ _ _ like => used_mirrors x like

theorem evalCondition_mirrors (x : Expr) :
    k.Mirrors w k.same (evalCondition g x) (evalCondition g x) :=
  mirrors_bind (eval_mirrors tends answers x) fun _ _ _ _ like => truth_mirrors x like

/-- Places correspond. -/
theorem resolve_mirrors : (x : Expr) → k.Mirrors w k.cells (resolve g x) (resolve g x)
  | .var span name => by
    unfold resolve
    exact mirrors_located span (locate_mirrors name)
  | .index span base index => by
    unfold resolve
    refine mirrors_bind (resolve_mirrors base) fun w₁ c c' later₁ paired => ?_
    refine mirrors_bind ((eval_mirrors tends answers index).later later₁) ?_
    intro w₂ _ _ later₂ like
    refine mirrors_bind (position_mirrors index like) ?_
    rintro w₃ _ i later₃ rfl
    have paired := k.cells_mono (k.trans later₂ later₃) paired
    refine mirrors_bind (readCell_mirrors tends paired) fun w₄ v v' _ like => ?_
    rw [like.assigned]
    refine mirrors_ite (fun assigned => ?_) fun _ => mirrors_failAt _ _
    have value := like.value assigned
    generalize v.value = a, v'.value = a' at value ⊢
    cases value with
    | list paired => exact mirrors_located span (elementOf_mirrors tends paired i)
    | _ => exact mirrors_failAt _ _
  | .int .. | .float .. | .bool .. | .str .. | .none .. | .list .. | .binary .. | .unary ..
  | .call .. | .default .. => mirrors_failAt _ _

end

/-! ## Standard functions -/

open Builtins

theorem one_mirrors (name : String) {args args' : List Variable}
    (like : List.Forall₂ (k.Given w) args args') :
    k.Mirrors w k.Values (one name args) (one name args') := by
  have lengths := like.length_eq
  cases like with
  | nil => exact mirrors_fail _
  | cons first rest =>
    cases rest with
    | nil => exact mirrors_pure fun _ later => (first.later later).shown
    | cons => simpa only [one, lengths] using mirrors_fail _

theorem two_mirrors (name : String) {args args' : List Variable}
    (like : List.Forall₂ (k.Given w) args args') :
    k.Mirrors w (fun w vs vs' => k.Values w vs.1 vs'.1 ∧ k.Values w vs.2 vs'.2) (two name args)
      (two name args') := by
  have lengths := like.length_eq
  cases like with
  | nil => exact mirrors_fail _
  | cons first rest =>
    cases rest with
    | nil => exact mirrors_fail _
    | cons second others =>
      cases others with
      | nil =>
        exact mirrors_pure fun _ later => ⟨(first.later later).shown, (second.later later).shown⟩
      | cons => simpa only [two, lengths] using mirrors_fail _

theorem lengthValue_mirrors (n : Nat) :
    k.Mirrors w k.Values (ofExcept (Operators.lengthValue n))
      (ofExcept (Operators.lengthValue n)) :=
  scalar_mirrors fun _ => inRange_like

theorem ask_mirrors (r : Request) : k.Mirrors w k.same (Action.ask r) (Action.ask r) := by
  intro w₁ m m' _ coupled
  have asked : k.Machines w₁ (m.ask r) (m'.ask r) :=
    { coupled with output := congrArg (·.ask r) coupled.output }
  simp only [MirrorsAt, Action.Ends, Action.ask, coupled.output]
  cases m.output.refusal? r with
  | none => exact ⟨⟨rfl, rfl⟩, w₁, _, _, rfl, k.refl w₁, asked, rfl⟩
  | some refusal => exact ⟨⟨rfl, rfl⟩, .inr ⟨w₁, _, rfl, k.refl w₁, asked⟩⟩

theorem print_mirrors (text : String) :
    k.Mirrors w k.same (Action.print text) (Action.print text) :=
  mirrors_bind (ask_mirrors _) fun _ _ _ _ _ => ask_mirrors _

/-- The standard functions do the same in both runs. -/
theorem standard_mirrors (tends : k.Tends) {name : String} {handler : Handler}
    (listed : (name, handler) ∈ standard) (call : Caller) {args args' : List Variable}
    (like : List.Forall₂ (k.Given w) args args') (span : Span) :
    k.Mirrors w k.Values (handler call args span) (handler call args' span) := by
  simp only [standard, List.mem_cons, Prod.mk.injEq, List.not_mem_nil, or_false] at listed
  rcases listed with ⟨-, rfl⟩ | ⟨-, rfl⟩ | ⟨-, rfl⟩ | ⟨-, rfl⟩ | ⟨-, rfl⟩ | ⟨-, rfl⟩
  · -- print
    have shown : k.Mirrors w k.same (Action.read fun m => args.map fun v => m.heap.text v.value)
        (Action.read fun m => args'.map fun v => m.heap.text v.value) := by
      refine mirrors_read fun w₁ m m' later coupled => ?_
      have texts : List.Forall₂ (· = ·) (args.map fun v => m.heap.text v.value)
          (args'.map fun v => m'.heap.text v.value) :=
        List.rel_map (fun _ _ like => (tends.text coupled.heap (like.later later).shown).symm) like
      rw [List.forall₂_eq_eq_eq] at texts
      exact texts.symm
    refine mirrors_bind shown ?_
    rintro w₁ _ texts _ rfl
    exact mirrors_bind (print_mirrors _) fun _ _ _ _ _ => mirrors_pure fun _ _ => .none
  · -- len
    refine mirrors_bind (one_mirrors _ like) fun w₁ _ _ _ value => ?_
    cases value with
    | @list l l' paired =>
      have counted : k.Mirrors w₁ k.same (Action.read fun m => (m.heap.elements l).size)
          (Action.read fun m => (m.heap.elements l').size) := by
        refine mirrors_read fun w₂ m m' later coupled => ?_
        have lengths := (tends.elements coupled.heap (k.lists_mono later paired)).length_eq
        simpa [same] using lengths.symm
      refine mirrors_bind counted ?_
      rintro w₂ _ n _ rfl
      exact lengthValue_mirrors n
    | str s => exact lengthValue_mirrors _
    | _ => exact mirrors_fail _
  · -- append
    refine mirrors_bind (two_mirrors _ like) ?_
    rintro w₁ ⟨a, b⟩ ⟨a', b'⟩ _ ⟨list, value⟩
    cases list with
    | list paired =>
      refine mirrors_bind (mirrors_modify fun w₂ m m' later coupled => ?_)
        fun _ _ _ _ _ => mirrors_pure fun _ _ => .none
      obtain ⟨w₃, later₃, heap⟩ := tends.push coupled.heap (k.lists_mono later paired)
        (value.mono fun _ _ => k.lists_mono later)
      exact ⟨⟨rfl, rfl⟩, w₃, later₃, coupled.grow later₃ heap⟩
    | _ => exact mirrors_fail _
  · -- copy
    refine mirrors_bind (one_mirrors _ like) fun w₁ _ _ _ value => ?_
    cases value with
    | list paired =>
      exact mirrors_onHeap fun w₂ h h' later heap =>
        tends.copy heap (.list (k.lists_mono later paired))
    | _ => exact mirrors_fail _
  · -- str
    refine mirrors_bind (one_mirrors _ like) fun w₁ _ _ _ value => ?_
    refine mirrors_read fun w₂ m m' later coupled => ?_
    rw [tends.text coupled.heap (value.mono fun _ _ => k.lists_mono later)]
    exact .str _
  · -- assert
    refine mirrors_bind (one_mirrors _ like) fun w₁ _ _ _ value => ?_
    cases value with
    | bool b =>
      cases b with
      | true => exact mirrors_pure fun _ _ => .none
      | false => exact mirrors_fail _
    | _ => exact mirrors_fail _

end Coupling

end TraceLang
