/-
# TraceLang.Proofs.Supply — what additions to the heap consist of

New lists, copies and new elements leave every variable alone. What they add are
fresh variables, assigned, untraced and without a name, and slots of lists that
hold such variables, each of them in one slot at most. `h.Supplies h'` says so of
a heap `h'` that was made from `h`.

A list gets its elements after they have been made, so in between there are new
variables that are in no slot yet. `h.Stock base cells` says that of the
variables `cells`, all of them newer than the first `base` ones.
-/
import Mathlib.Data.List.Nodup
import TraceLang.Proofs.Heap

namespace TraceLang

set_option autoImplicit false

namespace Heap

variable {h h' h'' : Heap} {c : CellId} {l : ListId} {base : Nat} {cells : Array CellId}

/-- The variable in a slot of a list. -/
def slot? (h : Heap) (l : ListId) (i : Nat) : Option CellId :=
  (h.elements l)[i]?

theorem mem_of_slot? {i : Nat} (found : h.slot? l i = some c) : c ∈ h.elements l :=
  Array.mem_of_getElem? found

theorem exists_slot? (member : c ∈ h.elements l) : ∃ i, h.slot? l i = some c :=
  Array.mem_iff_getElem?.mp member

/-- The second heap has the variables of the first one and fresh ones, and slots
of lists that were not there before hold fresh ones, each of them once. -/
structure Supplies (h h' : Heap) : Prop where
  size : h.cells.size ≤ h'.cells.size
  old : ∀ c : CellId, c.index < h.cells.size → h'.read c = h.read c
  fresh : ∀ c : CellId, h.cells.size ≤ c.index → ∃ v, h'.read c = .fresh v
  slots : ∀ (l : ListId) (i : Nat) (c : CellId), h'.slot? l i = some c →
    h.slot? l i = some c ∨ h.cells.size ≤ c.index
  apart : ∀ (l l' : ListId) (i i' : Nat) (c : CellId), h.cells.size ≤ c.index →
    h'.slot? l i = some c → h'.slot? l' i' = some c → l = l' ∧ i = i'

theorem Supplies.refl (wired : h.Wired) : h.Supplies h where
  size := Nat.le_refl _
  old _ _ := rfl
  fresh _ outside := ⟨_, read_of_size_le outside⟩
  slots _ _ _ found := .inl found
  apart _ _ _ _ c outside found _ := absurd (wired _ c (mem_of_slot? found)) (by omega)

theorem Supplies.trans (first : h.Supplies h') (second : h'.Supplies h'') : h.Supplies h'' where
  size := Nat.le_trans first.size second.size
  old c old := (second.old c (Nat.lt_of_lt_of_le old first.size)).trans (first.old c old)
  fresh c new := by
    by_cases inside : c.index < h'.cells.size
    · rw [second.old c inside]
      exact first.fresh c new
    · exact second.fresh c (Nat.le_of_not_lt inside)
  slots l i c found := by
    rcases second.slots l i c found with before | new
    · exact first.slots l i c before
    · exact .inr (Nat.le_trans first.size new)
  apart l l' i i' c new here there := by
    by_cases inside : c.index < h'.cells.size
    · have before := fun k j found => (second.slots k j c found).resolve_right (by omega)
      exact first.apart l l' i i' c new (before l i here) (before l' i' there)
    · exact second.apart l l' i i' c (Nat.le_of_not_lt inside) here there

/-- One more variable, in no slot yet. -/
theorem supplies_alloc (wired : h.Wired) (v : Value) : h.Supplies (h.alloc (.fresh v)).2 where
  size := by simp
  old c old := (grows_alloc h _).cells c old
  fresh c new := by
    by_cases last : c.index = h.cells.size
    · exact ⟨v, by simp [alloc, read, Array.getD, last]⟩
    · exact ⟨_, read_of_size_le (by rw [size_alloc]; omega)⟩
  slots _ _ _ found := .inl found
  apart _ _ _ _ c new found _ := absurd (wired _ c (mem_of_slot? found)) (by omega)

/-! ## Variables in stock -/

/-- Distinct variables, none of them among the first `base` ones or in a slot. -/
structure Stock (h : Heap) (base : Nat) (cells : Array CellId) : Prop where
  nodup : cells.toList.Nodup
  new : ∀ c ∈ cells, base ≤ c.index
  inHeap : ∀ c ∈ cells, c.index < h.cells.size
  loose : ∀ c ∈ cells, ∀ l, c ∉ h.elements l

theorem stock_empty (h : Heap) (base : Nat) : h.Stock base #[] :=
  ⟨List.nodup_nil, by simp, by simp, by simp⟩

/-- Additions do not use what is in stock. -/
theorem Stock.supplies (stock : h.Stock base cells) (supplies : h.Supplies h') :
    h'.Stock base cells where
  nodup := stock.nodup
  new := stock.new
  inHeap c member := Nat.lt_of_lt_of_le (stock.inHeap c member) supplies.size
  loose c member l used := by
    obtain ⟨i, found⟩ := exists_slot? used
    have inside := stock.inHeap c member
    rcases supplies.slots l i c found with before | new
    · exact stock.loose c member l (mem_of_slot? before)
    · omega

theorem Stock.alloc (stock : h.Stock base cells) (wired : h.Wired) (reached : base ≤ h.cells.size)
    (v : Value) : (h.alloc (.fresh v)).2.Stock base (cells.push (h.alloc (.fresh v)).1) := by
  have kept := stock.supplies (supplies_alloc wired v)
  have apart : (h.alloc (.fresh v)).1 ∉ cells.toList := by
    intro member
    have inside := stock.inHeap _ (Array.mem_toList_iff.mp member)
    simp [Heap.alloc] at inside
  refine ⟨?_, ?_, ?_, ?_⟩
  · rw [Array.toList_push, ← List.concat_eq_append]
    exact kept.nodup.concat apart
  · intro c member
    rcases Array.mem_push.mp member with before | rfl
    · exact kept.new c before
    · exact reached
  · intro c member
    rcases Array.mem_push.mp member with before | rfl
    · exact kept.inHeap c before
    · simp [Heap.alloc]
  · intro c member l used
    rcases Array.mem_push.mp member with before | rfl
    · exact kept.loose c before l used
    · exact absurd (wired l _ used) (by simp [Heap.alloc])

/-- An empty list gets variables in stock as its elements. -/
theorem Supplies.fill (supplies : h.Supplies h') (stock : h'.Stock h.cells.size cells)
    (empty : h'.elements l = #[]) (sameCells : h''.cells = h'.cells)
    (here : h''.elements l = cells) (elsewhere : ∀ k, k ≠ l → h''.elements k = h'.elements k) :
    h.Supplies h'' := by
  have read : ∀ c, h''.read c = h'.read c := fun c => by rw [Heap.read, sameCells, Heap.read]
  have position : ∀ {i i' : Nat} {c : CellId}, cells[i]? = some c → cells[i']? = some c →
      i = i' := by
    intro i i' c found found'
    obtain ⟨inside, rfl⟩ := Array.getElem?_eq_some_iff.mp found
    obtain ⟨inside', same⟩ := Array.getElem?_eq_some_iff.mp found'
    have same' : cells.toList[i'] = cells.toList[i] := by simpa using same
    exact ((List.Nodup.getElem_inj_iff stock.nodup).mp same').symm
  have slot : ∀ {k : ListId} {i : Nat}, k ≠ l → h''.slot? k i = h'.slot? k i := by
    intro k i other
    rw [slot?, elsewhere k other, slot?]
  have filled : ∀ {i : Nat}, h''.slot? l i = cells[i]? := by
    intro i
    rw [slot?, here]
  -- A variable in stock is in no other slot.
  have loose : ∀ {k : ListId} {i i' : Nat} {c : CellId}, cells[i]? = some c →
      h'.slot? k i' = some c → False := by
    intro k i i' c found used
    exact stock.loose c (Array.mem_of_getElem? found) k (mem_of_slot? used)
  refine ⟨by rw [sameCells]; exact supplies.size, ?_, ?_, ?_, ?_⟩
  · intro c old
    rw [read, supplies.old c old]
  · intro c new
    rw [read]
    exact supplies.fresh c new
  · intro k i c found
    by_cases same : k = l
    · subst same
      exact .inr (stock.new c (Array.mem_of_getElem? (filled ▸ found)))
    · rw [slot same] at found
      exact supplies.slots k i c found
  · intro k k' i i' c new found found'
    by_cases same : k = l <;> by_cases same' : k' = l
    · subst same same'
      exact ⟨rfl, position (filled ▸ found) (filled ▸ found')⟩
    · subst same
      rw [slot same'] at found'
      exact (loose (filled ▸ found) found').elim
    · subst same'
      rw [slot same] at found
      exact (loose (filled ▸ found') found).elim
    · rw [slot same] at found
      rw [slot same'] at found'
      exact supplies.apart k k' i i' c new found found'

theorem Supplies.allocList (supplies : h.Supplies h') (stock : h'.Stock h.cells.size cells) :
    h.Supplies (h'.allocList cells).2 := by
  have outside : h'.elements ⟨h'.lists.size⟩ = #[] := by simp [elements, Array.getD]
  refine supplies.fill (l := ⟨h'.lists.size⟩) stock outside rfl ?_ ?_
  · simp [Heap.allocList, elements, Array.getD]
  · intro k other
    have apart : k.index ≠ h'.lists.size := ListId.index_ne other
    simp only [Heap.allocList, elements, Array.getD, Array.size_push]
    by_cases old : k.index < h'.lists.size
    · simp [old, Nat.lt_succ_of_lt old, Array.getElem_push]
    · have outside : ¬ k.index < h'.lists.size + 1 := by omega
      simp [old, outside]

theorem Supplies.setElements (supplies : h.Supplies h') (stock : h'.Stock h.cells.size cells)
    (old : l.index < h'.lists.size) (empty : h'.elements l = #[]) :
    h.Supplies (h'.setElements l cells) :=
  supplies.fill stock empty rfl (elements_setElements_self old cells) fun _ other =>
    elements_setElements_ne other cells

/-! ## New lists and new elements -/

theorem allocAll_supplies (values : List Value) : ∀ {h : Heap} {cells : Array CellId}, h.Wired →
    base ≤ h.cells.size → h.Stock base cells →
    h.Supplies (h.allocAll values cells).2 ∧
      (h.allocAll values cells).2.Stock base (h.allocAll values cells).1 := by
  induction values with
  | nil => exact fun wired _ stock => ⟨.refl wired, stock⟩
  | cons v rest ih =>
    intro h cells wired reached stock
    have first := supplies_alloc wired v
    obtain ⟨others, stock'⟩ := ih (wired_alloc wired _) (Nat.le_trans reached first.size)
      (stock.alloc wired reached v)
    exact ⟨first.trans others, stock'⟩

theorem supplies_newList (wired : h.Wired) (values : List Value) :
    h.Supplies (h.newList values).2 := by
  obtain ⟨supplies, stock⟩ :=
    allocAll_supplies values wired (Nat.le_refl _) (h.stock_empty h.cells.size)
  exact supplies.allocList stock

theorem supplies_push (wired : h.Wired) (l : ListId) (v : Value) : h.Supplies (h.push l v) := by
  have allocated := supplies_alloc wired v
  by_cases old : l.index < h.lists.size
  · refine ⟨allocated.size, allocated.old, allocated.fresh, ?_, ?_⟩
    · intro k i c found
      by_cases same : k = l
      · subst same
        rw [slot?, elements_push_self old, Array.getElem?_push] at found
        split at found
        · obtain rfl := Option.some.inj found
          exact .inr (Nat.le_refl _)
        · exact .inl found
      · rw [slot?, elements_push_ne same] at found
        exact .inl found
    · -- The new variable is the last element, and no old slot holds it.
      have last : ∀ {k : ListId} {i : Nat} {c : CellId}, h.cells.size ≤ c.index →
          (h.push l v).slot? k i = some c → k = l ∧ i = (h.elements l).size := by
        intro k i c new found
        by_cases same : k = l
        · subst same
          rw [slot?, elements_push_self old, Array.getElem?_push] at found
          split at found
          · exact ⟨rfl, ‹_›⟩
          · exact absurd (wired k c (Array.mem_of_getElem? found)) (by omega)
        · rw [slot?, elements_push_ne same] at found
          exact absurd (wired k c (Array.mem_of_getElem? found)) (by omega)
      intro k k' i i' c new found found'
      obtain ⟨rfl, rfl⟩ := last new found
      obtain ⟨rfl, rfl⟩ := last new found'
      exact ⟨rfl, rfl⟩
  · have same : h.push l v = (h.alloc (.fresh v)).2 := by
      have unchanged : h.lists.modify l.index (·.push ⟨h.cells.size⟩) = h.lists := by
        apply Array.ext
        · simp
        · intro i _ inside
          have apart : l.index ≠ i := by omega
          simp [Array.getElem_modify, apart]
      simp [push, alloc, unchanged]
    rw [same]
    exact allocated

/-! ## Copies -/

/-- Copying only supplies. -/
def CopySupplies (copy : Value → Copying → Value × Copying) : Prop :=
  ∀ v (st : Copying), st.heap.Wired → st.heap.Supplies (copy v st).2.heap

theorem copyAll_supplies {copy : Value → Copying → Value × Copying} (adds : CopyAdds copy)
    (supplies : CopySupplies copy) (values : List Value) :
    ∀ (cells : Array CellId) (st : Copying), st.heap.Wired → base ≤ st.heap.cells.size →
    st.heap.Stock base cells →
    st.heap.Supplies (copyAll copy values cells st).2.heap ∧
      (copyAll copy values cells st).2.heap.Stock base (copyAll copy values cells st).1 := by
  induction values with
  | nil => exact fun _ _ wired _ stock => ⟨.refl wired, stock⟩
  | cons v rest ih =>
    intro cells st wired reached stock
    have copied := supplies v st wired
    have wired' := (adds v st).2 wired
    have reached' := Nat.le_trans reached copied.size
    have stored := supplies_alloc wired' (copy v st).1
    obtain ⟨others, stock'⟩ := ih _
      { (copy v st).2 with heap := ((copy v st).2.heap.alloc (.fresh (copy v st).1)).2 }
      (wired_alloc wired' _) (Nat.le_trans reached' stored.size)
      ((stock.supplies copied).alloc wired' reached' _)
    exact ⟨(copied.trans stored).trans others, stock'⟩

theorem copyWithin_supplies (n : Nat) : CopySupplies (copyWithin n) := by
  induction n with
  | zero => exact fun v st wired => .refl wired
  | succ n ih =>
    intro v st wired
    cases v with
    | list l =>
      unfold copyWithin
      cases st.begun.lookup l with
      | some copy => exact .refl wired
      | none =>
        have opened := (Supplies.refl wired).allocList (st.heap.stock_empty _)
        have wired' : (st.heap.allocList #[]).2.Wired := wired_allocList wired (by simp)
        -- The new list is there, and it stays empty while its elements are made.
        obtain ⟨grows, -, -⟩ := copyAll_adds (copyWithin_adds n) (st.heap.values l) #[]
          { heap := (st.heap.allocList #[]).2, begun := (l, (st.heap.allocList #[]).1) :: st.begun }
          (by simp)
        have inside : st.heap.lists.size < (st.heap.allocList #[]).2.lists.size := by
          simp [Heap.allocList]
        have empty := grows.lists ⟨st.heap.lists.size⟩ inside
        obtain ⟨supplies, stock⟩ := copyAll_supplies (copyWithin_adds n) ih (st.heap.values l) #[]
          { heap := (st.heap.allocList #[]).2, begun := (l, (st.heap.allocList #[]).1) :: st.begun }
          wired' opened.size (stock_empty _ st.heap.cells.size)
        refine (opened.trans supplies).setElements stock (Nat.lt_of_lt_of_le inside grows.count) ?_
        exact empty.trans (by simp [Heap.allocList, elements, Array.getD])
    | none | int | float | bool | str => exact .refl wired

theorem supplies_deepCopy (wired : h.Wired) (v : Value) : h.Supplies (h.deepCopy v).2 :=
  copyWithin_supplies _ v { heap := h } wired

end Heap

end TraceLang
