/-
# TraceLang.Proofs.Walks — walks through lists come to an end

Texts, snapshots, copies and comparisons follow the lists of a value from one to
the next, and lists can contain themselves. Each walk is defined here a second
time as it is meant, without any bound: as a relation whose derivations are the
finite walks (`Summarizes`, `Compares`, `Duplicates`). In a heap without dangling
identities every walk has a derivation, and the result is what the bounded
definition gives: the bound is never reached (`summarizes`, `compares`,
`duplicates`). What is opened on the way is remembered and never opened again, so
no more can be open than there is in the heap. Comparisons come to an end in any
heap, since a list that is not there has nothing to compare.
-/
import TraceLang.Proofs.Grounding
import TraceLang.Proofs.Pairing.Copy

namespace TraceLang

set_option autoImplicit false

/-- Whether a value is a list. -/
def Value.isList : Value → Bool
  | .list _ => true
  | _ => false

namespace Heap

variable {h : Heap} {n : Nat}

/-! ## Summaries -/

section

variable {α : Type} (leaf : Value → α) (mark : α) (node : List α → α)

mutual

/-- What is made of a value inside the lists `opened`. -/
inductive Summarizes (h : Heap) : (opened : List ListId) → Value → α → Prop
  | scalar {opened : List ListId} {v : Value} (scalar : v.isList = false) :
    Summarizes h opened v (leaf v)
  | again {opened : List ListId} {l : ListId} (isOpen : l ∈ opened) :
    Summarizes h opened (.list l) mark
  | items {opened : List ListId} {l : ListId} {parts : List α} (new : l ∉ opened)
    (inside : SummarizesAll h (l :: opened) (h.values l) parts) :
    Summarizes h opened (.list l) (node parts)

/-- What is made of some values inside the lists `opened`. -/
inductive SummarizesAll (h : Heap) : (opened : List ListId) → List Value → List α → Prop
  | nil {opened : List ListId} : SummarizesAll h opened [] []
  | cons {opened : List ListId} {v : Value} {rest : List Value} {part : α} {parts : List α}
    (first : Summarizes h opened v part) (others : SummarizesAll h opened rest parts) :
    SummarizesAll h opened (v :: rest) (part :: parts)

end

/-- The lists that are open are lists of the heap, and there is room for the
others. -/
structure Entered (h : Heap) (n : Nat) (opened : List ListId) : Prop where
  nodup : opened.Nodup
  valid : ∀ l ∈ opened, l.index < h.lists.size
  room : h.lists.size < opened.length + n

theorem entered_nil (h : Heap) : Entered h (h.lists.size + 1) [] :=
  ⟨List.nodup_nil, by simp, by simp⟩

theorem Entered.positive {opened : List ListId} (entered : Entered h n opened) : 0 < n := by
  have count := length_le_of_lt entered.nodup entered.valid
  have room := entered.room
  omega

theorem Entered.cons {opened : List ListId} (entered : Entered h (n + 1) opened) {l : ListId}
    (new : l ∉ opened) (old : l.index < h.lists.size) : Entered h n (l :: opened) where
  nodup := List.nodup_cons.mpr ⟨new, entered.nodup⟩
  valid := List.forall_mem_cons.mpr ⟨old, entered.valid⟩
  room := by have := entered.room; simp only [List.length_cons]; omega

/-- The summary of a value comes to an end. -/
theorem summarizes (grounded : h.Grounded) {opened : List ListId} (entered : Entered h n opened)
    {v : Value} (within : v.Within h.lists.size) :
    Summarizes leaf mark node h opened v (h.summary leaf mark node n opened v) := by
  induction n generalizing opened v with
  | zero => exact absurd entered.positive (Nat.lt_irrefl 0)
  | succ n ih =>
    cases v with
    | list l =>
      unfold summary
      split
      · exact .again ‹_›
      · rename_i new
        have entered' := entered.cons new (within l rfl)
        refine .items new ?_
        have inside := grounded.values l
        generalize h.values l = values at inside ⊢
        induction values with
        | nil => exact .nil
        | cons v rest others =>
          obtain ⟨first, rest⟩ := List.forall_mem_cons.mp inside
          exact .cons (ih entered' first) (others rest)
    | none | int | float | bool | str => exact .scalar rfl

end

/-! ## Comparisons -/

mutual

/-- The comparison of two values when the comparisons of some pairs of lists have
begun: the answer, and the pairs that have begun at the end. -/
inductive Compares (h : Heap) : Pairs → Value → Value → Bool × Pairs → Prop
  | scalar {pairs : Pairs} {a b : Value} (scalar : (a.isList && b.isList) = false) :
    Compares h pairs a b (a.scalarEq b, pairs)
  | same {pairs : Pairs} {l : ListId} : Compares h pairs (.list l) (.list l) (true, pairs)
  | begun {pairs : Pairs} {l k : ListId} (begun : (l, k) ∈ pairs) :
    Compares h pairs (.list l) (.list k) (true, pairs)
  | sizes {pairs : Pairs} {l k : ListId} (apart : l ≠ k) (new : (l, k) ∉ pairs)
    (sizes : (h.elements l).size ≠ (h.elements k).size) :
    Compares h pairs (.list l) (.list k) (false, (l, k) :: pairs)
  | items {pairs : Pairs} {l k : ListId} {answer : Bool × Pairs} (apart : l ≠ k)
    (new : (l, k) ∉ pairs) (sizes : (h.elements l).size = (h.elements k).size)
    (inside : ComparesAll h ((l, k) :: pairs) (h.values l) (h.values k) answer) :
    Compares h pairs (.list l) (.list k) answer

/-- The comparison of two sequences of values, up to the first difference. -/
inductive ComparesAll (h : Heap) : Pairs → List Value → List Value → Bool × Pairs → Prop
  | done {pairs : Pairs} {as bs : List Value} (done : as = [] ∨ bs = []) :
    ComparesAll h pairs as bs (true, pairs)
  | differ {pairs pairs' : Pairs} {a b : Value} {as bs : List Value}
    (first : Compares h pairs a b (false, pairs')) :
    ComparesAll h pairs (a :: as) (b :: bs) (false, pairs')
  | agree {pairs pairs' : Pairs} {a b : Value} {as bs : List Value} {answer : Bool × Pairs}
    (first : Compares h pairs a b (true, pairs')) (others : ComparesAll h pairs' as bs answer) :
    ComparesAll h pairs (a :: as) (b :: bs) answer

end

/-- Both lists of the pair are lists of the heap. -/
def hasPair (h : Heap) (p : ListId × ListId) : Bool :=
  p.1.index < h.lists.size && p.2.index < h.lists.size

/-- No comparison has begun twice, and there is room for the pairs of lists of the heap
whose comparison has not. -/
structure Undertaken (h : Heap) (n : Nat) (pairs : Pairs) : Prop where
  nodup : pairs.Nodup
  room : h.lists.size * h.lists.size < (pairs.filter h.hasPair).length + n

theorem undertaken_nil (h : Heap) : Undertaken h (h.lists.size * h.lists.size + 1) [] :=
  ⟨List.nodup_nil, by simp⟩

theorem Undertaken.positive {pairs : Pairs} (begun : Undertaken h n pairs) : 0 < n := by
  have count := pairs_length_le_of_lt (begun.nodup.filter h.hasPair) fun p member => by
    simpa [hasPair] using (List.mem_filter.mp member).2
  have room := begun.room
  omega

/-- A pair that is there takes some of the room. -/
theorem Undertaken.cons {pairs : Pairs} (begun : Undertaken h (n + 1) pairs) {p : ListId × ListId}
    (new : p ∉ pairs) (there : h.hasPair p) : Undertaken h n (p :: pairs) where
  nodup := List.nodup_cons.mpr ⟨new, begun.nodup⟩
  room := by
    have := begun.room
    rw [List.filter_cons_of_pos there, List.length_cons]
    omega

/-- Beginning one more comparison takes no more room than there was. -/
theorem Undertaken.more {pairs : Pairs} (begun : Undertaken h n pairs) {p : ListId × ListId}
    (new : p ∉ pairs) : Undertaken h n (p :: pairs) where
  nodup := List.nodup_cons.mpr ⟨new, begun.nodup⟩
  room := by
    have longer := ((List.sublist_cons_self p pairs).filter h.hasPair).length_le
    have := begun.room
    omega

theorem Undertaken.succ {pairs : Pairs} (begun : Undertaken h n pairs) :
    Undertaken h (n + 1) pairs :=
  { begun with room := Nat.lt_succ_of_lt begun.room }

/-- A list that is not there has no values, and neither has one of the same size. -/
theorem values_eq_nil {l k : ListId} (outside : ¬ h.hasPair (l, k))
    (sizes : (h.elements l).size = (h.elements k).size) : h.values l = [] := by
  have empty : (h.elements l).size = 0 := by
    by_cases there : l.index < h.lists.size
    · have away : ¬ k.index < h.lists.size := fun there' =>
        outside (by simp [hasPair, there, there'])
      rw [sizes]
      simp [elements, Array.getD, away]
    · simp [elements, Array.getD, there]
  simp [values, Array.size_eq_zero_iff.mp empty]

/-- A sequence of comparisons comes to an end if each of them does. -/
theorem comparesAll {compare : Pairs → Value → Value → Bool × Pairs}
    (ends : ∀ {pairs} (a b), Undertaken h n pairs →
      Compares h pairs a b (compare pairs a b) ∧ Undertaken h n (compare pairs a b).2)
    (as bs : List Value) {pairs : Pairs} (begun : Undertaken h n pairs) :
    ComparesAll h pairs as bs (compareAll compare pairs as bs) ∧
      Undertaken h n (compareAll compare pairs as bs).2 := by
  induction as generalizing bs pairs with
  | nil => exact ⟨.done (.inl rfl), begun⟩
  | cons a as ih =>
    cases bs with
    | nil => exact ⟨.done (.inr rfl), begun⟩
    | cons b bs =>
      obtain ⟨first, begun'⟩ := ends a b begun
      simp only [compareAll]
      generalize compare pairs a b = answer at first begun' ⊢
      obtain ⟨same, pairs'⟩ := answer
      cases same with
      | false => exact ⟨.differ first, begun'⟩
      | true =>
        obtain ⟨others, begun''⟩ := ih bs begun'
        exact ⟨.agree first others, begun''⟩

/-- The comparison of two values comes to an end. -/
theorem compares {pairs : Pairs} (a b : Value) (begun : Undertaken h n pairs) :
    Compares h pairs a b (h.compare n pairs a b) ∧ Undertaken h n (h.compare n pairs a b).2 := by
  induction n generalizing pairs a b with
  | zero => exact absurd begun.positive (Nat.lt_irrefl 0)
  | succ n ih =>
    cases a <;> cases b
    case list.list l k =>
      unfold compare
      split
      · rename_i same
        subst same
        exact ⟨.same, begun⟩
      · split
        · exact ⟨.begun ‹_›, begun⟩
        · rename_i apart new
          simp only
          split
          · rename_i sizes
            by_cases there : h.hasPair (l, k)
            · obtain ⟨inside, begun'⟩ :=
                comparesAll ih (h.values l) (h.values k) (begun.cons new there)
              exact ⟨.items apart new sizes inside, begun'.succ⟩
            · have inside : ComparesAll h ((l, k) :: pairs) (h.values l) (h.values k)
                  (true, (l, k) :: pairs) := .done (.inl (values_eq_nil there sizes))
              rw [values_eq_nil there sizes]
              exact ⟨.items apart new sizes inside, begun.more new⟩
          · exact ⟨.sizes apart new ‹_›, begun.more new⟩
    all_goals exact ⟨.scalar rfl, begun⟩

/-! ## Copies -/

mutual

/-- The copy of a value while a copy is in progress. -/
inductive Duplicates : Value → Copying → Value × Copying → Prop
  | scalar {v : Value} {st : Copying} (scalar : v.isList = false) : Duplicates v st (v, st)
  | begun {l copy : ListId} {st : Copying} (begun : st.begun.lookup l = some copy) :
    Duplicates (.list l) st (.list copy, st)
  | items {l : ListId} {st st' : Copying} {cells : Array CellId}
    (new : st.begun.lookup l = none)
    (inside : DuplicatesAll (st.heap.values l) #[]
      { heap := (st.heap.allocList #[]).2, begun := (l, (st.heap.allocList #[]).1) :: st.begun }
      (cells, st')) :
    Duplicates (.list l) st
      (.list (st.heap.allocList #[]).1,
        { st' with heap := st'.heap.setElements (st.heap.allocList #[]).1 cells })

/-- The copies of some values in new cells. -/
inductive DuplicatesAll : List Value → Array CellId → Copying → Array CellId × Copying → Prop
  | nil {cells : Array CellId} {st : Copying} : DuplicatesAll [] cells st (cells, st)
  | cons {v v' : Value} {rest : List Value} {cells : Array CellId} {st st' : Copying}
    {result : Array CellId × Copying} (first : Duplicates v st (v', st'))
    (others : DuplicatesAll rest (cells.push (st'.heap.alloc (.fresh v')).1)
      { st' with heap := (st'.heap.alloc (.fresh v')).2 } result) :
    DuplicatesAll (v :: rest) cells st result

end

/-- A copy out of the heap `h`: what was there is still there, the lists begun are
among those of `h`, and there is room for the others. -/
structure Underway (h : Heap) (n : Nat) (st : Copying) : Prop where
  grows : h.Grows st.heap
  entered : Entered h n (st.begun.map Prod.fst)

theorem Underway.alloc {st : Copying} (underway : Underway h n st) (v : Variable) :
    Underway h n { st with heap := (st.heap.alloc v).2 } :=
  { underway with grows := underway.grows.trans (grows_alloc _ _) }

/-- A list that was not begun before is begun. -/
theorem Underway.begin {st : Copying} (underway : Underway h (n + 1) st) {l : ListId}
    (new : st.begun.lookup l = none) (old : l.index < h.lists.size) :
    Underway h n { heap := (st.heap.allocList #[]).2
                   begun := (l, (st.heap.allocList #[]).1) :: st.begun } where
  grows := underway.grows.trans (grows_allocList _ _)
  entered := underway.entered.cons (not_mem_of_lookup new) old

theorem duplicatesAll {copy : Value → Copying → Value × Copying}
    (ends : ∀ {v st}, Underway h n st → v.Within h.lists.size →
      Duplicates v st (copy v st) ∧ Underway h n (copy v st).2)
    {values : List Value} (within : ∀ v ∈ values, v.Within h.lists.size) (cells : Array CellId)
    {st : Copying} (underway : Underway h n st) :
    DuplicatesAll values cells st (copyAll copy values cells st) ∧
      Underway h n (copyAll copy values cells st).2 := by
  induction values generalizing cells st with
  | nil => exact ⟨.nil, underway⟩
  | cons v rest ih =>
    obtain ⟨first, others⟩ := List.forall_mem_cons.mp within
    obtain ⟨copied, underway'⟩ := ends underway first
    obtain ⟨copiedAll, underway''⟩ := ih others _ (underway'.alloc (.fresh (copy v st).1))
    exact ⟨.cons copied copiedAll, underway''⟩

/-- The copy of a value comes to an end. -/
theorem duplicates (grounded : h.Grounded) (wired : h.Wired) {st : Copying}
    (underway : Underway h n st) {v : Value} (within : v.Within h.lists.size) :
    Duplicates v st (copyWithin n v st) ∧ Underway h n (copyWithin n v st).2 := by
  induction n generalizing st v with
  | zero => exact absurd underway.entered.positive (Nat.lt_irrefl 0)
  | succ n ih =>
    cases v with
    | list l =>
      unfold copyWithin
      cases begun : st.begun.lookup l with
      | some copy => exact ⟨.begun begun, underway⟩
      | none =>
        have old := within l rfl
        have values : st.heap.values l = h.values l := underway.grows.values old (wired l)
        obtain ⟨inside, underway'⟩ := duplicatesAll (fun underway => ih underway)
          (values ▸ grounded.values l) #[] (underway.begin begun old)
        refine ⟨.items begun inside, ?_, ?_⟩
        · exact underway'.grows.setElements underway.grows.count _
        · exact { underway'.entered with room := Nat.lt_succ_of_lt underway'.entered.room }
    | none | int | float | bool | str => exact ⟨.scalar rfl, underway⟩

end Heap

end TraceLang
