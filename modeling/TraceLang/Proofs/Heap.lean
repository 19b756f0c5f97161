/-
# TraceLang.Proofs.Heap — what the operations of the heap leave alone

Allocation keeps every variable and every list that was there: `h.Grows h'` says
so, and new lists (`grows_newList`) and copies (`grows_deepCopy`) are cases of
it. Assignments and markings keep all variables but one (`read_modify`).

A heap is wired when the elements of its lists are variables of the heap. Every
operation keeps a heap wired.
-/
import TraceLang.Heap.Copy

namespace TraceLang

set_option autoImplicit false

theorem CellId.index_ne {c d : CellId} (different : c ≠ d) : c.index ≠ d.index :=
  fun same => different (congrArg CellId.mk same)

theorem ListId.index_ne {l k : ListId} (different : l ≠ k) : l.index ≠ k.index :=
  fun same => different (congrArg ListId.mk same)

namespace Heap

variable {h h' h'' : Heap} {c d : CellId} {l : ListId}

/-- All variables and lists of the first heap are in the second, unchanged. -/
structure Grows (h h' : Heap) : Prop where
  size : h.cells.size ≤ h'.cells.size
  cells : ∀ c : CellId, c.index < h.cells.size → h'.read c = h.read c
  count : h.lists.size ≤ h'.lists.size
  lists : ∀ l : ListId, l.index < h.lists.size → h'.elements l = h.elements l

theorem Grows.refl (h : Heap) : h.Grows h :=
  ⟨Nat.le_refl _, fun _ _ => rfl, Nat.le_refl _, fun _ _ => rfl⟩

theorem Grows.trans (first : h.Grows h') (second : h'.Grows h'') : h.Grows h'' where
  size := Nat.le_trans first.size second.size
  cells c old := (second.cells c (Nat.lt_of_lt_of_le old first.size)).trans (first.cells c old)
  count := Nat.le_trans first.count second.count
  lists l old := (second.lists l (Nat.lt_of_lt_of_le old first.count)).trans (first.lists l old)

/-- The elements of all lists are variables of the heap. -/
def Wired (h : Heap) : Prop :=
  ∀ (l : ListId) (c : CellId), c ∈ h.elements l → c.index < h.cells.size

theorem lt_count_of_mem (member : c ∈ h.elements l) : l.index < h.lists.size := by
  by_cases bound : l.index < h.lists.size
  · exact bound
  · simp [elements, Array.getD, bound] at member

/-! ## One variable -/

theorem read_of_size_le (outside : h.cells.size ≤ c.index) : h.read c = .fresh .none := by
  simp [read, Array.getD, Nat.not_lt.mpr outside]

theorem grows_alloc (h : Heap) (v : Variable) : h.Grows (h.alloc v).2 where
  size := by simp [alloc]
  cells c old := by
    simp only [alloc, read, Array.getD, Array.size_push]
    simp [old, Nat.lt_succ_of_lt old, Array.getElem_push]
  count := Nat.le_refl _
  lists _ _ := rfl

@[simp] theorem size_alloc (h : Heap) (v : Variable) :
    (h.alloc v).2.cells.size = h.cells.size + 1 := by
  simp [alloc]

theorem wired_alloc (wired : h.Wired) (v : Variable) : (h.alloc v).2.Wired := by
  intro l c member
  rw [size_alloc]
  exact Nat.lt_succ_of_lt (wired l c member)

@[simp] theorem size_modify (h : Heap) (c : CellId) (f : Variable → Variable) :
    (h.modify c f).cells.size = h.cells.size := by
  simp [modify]

theorem read_alloc_or (h : Heap) (v : Variable) (c : CellId) :
    (h.alloc v).2.read c = h.read c ∨ c = (h.alloc v).1 ∧ (h.alloc v).2.read c = v := by
  simp only [alloc, read, Array.getD, Array.size_push]
  by_cases old : c.index < h.cells.size
  · exact .inl (by simp [old, Nat.lt_succ_of_lt old, Array.getElem_push])
  · by_cases last : c.index = h.cells.size
    · exact .inr ⟨by rw [← last], by simp [last]⟩
    · have outside : ¬ c.index < h.cells.size + 1 := by omega
      exact .inl (by simp [old, outside])

theorem read_modify_self (old : c.index < h.cells.size) (f : Variable → Variable) :
    (h.modify c f).read c = f (h.read c) := by
  simp [modify, read, Array.getD, old, Array.getElem_modify]

theorem read_modify_ne (different : d ≠ c) (f : Variable → Variable) :
    (h.modify c f).read d = h.read d := by
  have apart := CellId.index_ne different.symm
  by_cases old : d.index < h.cells.size
  · simp [modify, read, Array.getD, old, Array.getElem_modify, apart]
  · simp [modify, read, Array.getD, old]

theorem read_modify_or (h : Heap) (c d : CellId) (f : Variable → Variable) :
    (h.modify c f).read d = h.read d ∨ d = c ∧ (h.modify c f).read d = f (h.read c) := by
  by_cases same : d = c
  · subst same
    by_cases old : d.index < h.cells.size
    · exact .inr ⟨rfl, read_modify_self old f⟩
    · exact .inl (by simp [Heap.modify, Heap.read, Array.getD, old])
  · exact .inl (read_modify_ne same f)

theorem wired_modify (wired : h.Wired) (c : CellId) (f : Variable → Variable) :
    (h.modify c f).Wired := by
  intro l d member
  rw [size_modify]
  exact wired l d member

/-! ## Lists -/

theorem grows_allocList (h : Heap) (items : Array CellId) : h.Grows (h.allocList items).2 where
  size := Nat.le_refl _
  cells _ _ := rfl
  count := by simp [allocList]
  lists l old := by
    simp only [allocList, elements, Array.getD, Array.size_push]
    simp [old, Nat.lt_succ_of_lt old, Array.getElem_push]

theorem elements_allocList (h : Heap) (items : Array CellId) (l : ListId) :
    (h.allocList items).2.elements l = h.elements l ∨ (h.allocList items).2.elements l = items := by
  simp only [allocList, elements, Array.getD, Array.size_push]
  by_cases old : l.index < h.lists.size
  · exact .inl (by simp [old, Nat.lt_succ_of_lt old, Array.getElem_push])
  · by_cases last : l.index = h.lists.size
    · exact .inr (by simp [last])
    · have outside : ¬ l.index < h.lists.size + 1 := by omega
      exact .inl (by simp [old, outside])

theorem wired_allocList (wired : h.Wired) {items : Array CellId}
    (valid : ∀ c ∈ items, c.index < h.cells.size) : (h.allocList items).2.Wired := by
  intro l c member
  rcases elements_allocList h items l with same | same
  · exact wired l c (same ▸ member)
  · exact valid c (same ▸ member)

theorem elements_push_self (old : l.index < h.lists.size) (v : Value) :
    (h.push l v).elements l = (h.elements l).push ⟨h.cells.size⟩ := by
  simp [push, alloc, elements, Array.getD, old, Array.getElem_modify]

theorem elements_push_ne {k : ListId} (different : k ≠ l) (v : Value) :
    (h.push l v).elements k = h.elements k := by
  have apart := ListId.index_ne different.symm
  by_cases old : k.index < h.lists.size
  · simp [push, alloc, elements, Array.getD, old, Array.getElem_modify, apart]
  · simp [push, alloc, elements, Array.getD, old]

@[simp] theorem size_push (h : Heap) (l : ListId) (v : Value) :
    (h.push l v).cells.size = h.cells.size + 1 :=
  size_alloc h (.fresh v)

theorem wired_push (wired : h.Wired) (l : ListId) (v : Value) : (h.push l v).Wired := by
  intro k c member
  rw [size_push]
  by_cases same : k = l
  · subst same
    have old : k.index < h.lists.size := by
      simpa [push, alloc] using lt_count_of_mem member
    rw [elements_push_self old, Array.mem_push] at member
    rcases member with inside | rfl
    · exact Nat.lt_succ_of_lt (wired k c inside)
    · exact Nat.lt_succ_self _
  · rw [elements_push_ne same] at member
    exact Nat.lt_succ_of_lt (wired k c member)

theorem read_push_of_lt (old : c.index < h.cells.size) (l : ListId) (v : Value) :
    (h.push l v).read c = h.read c :=
  (grows_alloc h (.fresh v)).cells c old

/-- Cells of the heap and a new one are in the heap with the new one. -/
theorem lt_size_alloc {cells : Array CellId} (valid : ∀ c ∈ cells, c.index < h.cells.size)
    (v : Variable) : ∀ c ∈ cells.push (h.alloc v).1, c.index < (h.alloc v).2.cells.size := by
  intro c member
  rw [size_alloc]
  rcases Array.mem_push.mp member with inside | rfl
  · exact Nat.lt_succ_of_lt (valid c inside)
  · exact Nat.lt_succ_self _

/-- New variables for some values: the heap grows, stays wired, and the cells
handed out are in it. -/
theorem allocAll_spec (values : List Value) : ∀ (h : Heap) (cells : Array CellId),
    (∀ c ∈ cells, c.index < h.cells.size) →
    h.Grows (h.allocAll values cells).2 ∧ (h.Wired → (h.allocAll values cells).2.Wired) ∧
      ∀ c ∈ (h.allocAll values cells).1, c.index < (h.allocAll values cells).2.cells.size := by
  induction values with
  | nil => exact fun h cells valid => ⟨.refl h, id, valid⟩
  | cons v rest ih =>
    intro h cells valid
    obtain ⟨grows, wired, valid'⟩ := ih (h.alloc (.fresh v)).2 _ (lt_size_alloc valid (.fresh v))
    exact ⟨(grows_alloc h _).trans grows, fun w => wired (wired_alloc w _), valid'⟩

theorem grows_newList (h : Heap) (values : List Value) : h.Grows (h.newList values).2 := by
  obtain ⟨grows, -, -⟩ := allocAll_spec values h #[] (by simp)
  exact grows.trans (grows_allocList _ _)

theorem wired_newList (wired : h.Wired) (values : List Value) : (h.newList values).2.Wired := by
  obtain ⟨-, keeps, valid⟩ := allocAll_spec values h #[] (by simp)
  exact wired_allocList (keeps wired) valid

/-! ## Copies -/

theorem elements_setElements_self (old : l.index < h.lists.size) (items : Array CellId) :
    (h.setElements l items).elements l = items := by
  simp [setElements, elements, Array.getD, old, Array.getElem_modify]

theorem elements_setElements_ne {k : ListId} (different : k ≠ l) (items : Array CellId) :
    (h.setElements l items).elements k = h.elements k := by
  have apart := ListId.index_ne different.symm
  by_cases old : k.index < h.lists.size
  · simp [setElements, elements, Array.getD, old, Array.getElem_modify, apart]
  · simp [setElements, elements, Array.getD, old]

/-- A list that was not there before gets its elements. -/
theorem Grows.setElements (grows : h.Grows h') (fresh : h.lists.size ≤ l.index)
    (items : Array CellId) : h.Grows (h'.setElements l items) where
  size := grows.size
  cells := grows.cells
  count := by simpa [Heap.setElements] using grows.count
  lists k old := by
    have apart : k ≠ l := by
      rintro rfl
      omega
    rw [elements_setElements_ne apart, grows.lists k old]

theorem wired_setElements (wired : h.Wired) {items : Array CellId}
    (valid : ∀ c ∈ items, c.index < h.cells.size) : (h.setElements l items).Wired := by
  intro k c member
  by_cases same : k = l
  · subst same
    have old : k.index < h.lists.size := by simpa [setElements] using lt_count_of_mem member
    rw [elements_setElements_self old] at member
    exact valid c member
  · rw [elements_setElements_ne same] at member
    exact wired k c member

/-- Copying only adds to the heap. -/
def CopyAdds (copy : Value → Copying → Value × Copying) : Prop :=
  ∀ v st, st.heap.Grows (copy v st).2.heap ∧ (st.heap.Wired → (copy v st).2.heap.Wired)

theorem copyAll_adds {copy : Value → Copying → Value × Copying} (adds : CopyAdds copy)
    (values : List Value) : ∀ (cells : Array CellId) (st : Copying),
    (∀ c ∈ cells, c.index < st.heap.cells.size) →
    st.heap.Grows (copyAll copy values cells st).2.heap ∧
      (st.heap.Wired → (copyAll copy values cells st).2.heap.Wired) ∧
      ∀ c ∈ (copyAll copy values cells st).1,
        c.index < (copyAll copy values cells st).2.heap.cells.size := by
  induction values with
  | nil => exact fun cells st valid => ⟨.refl _, id, valid⟩
  | cons v rest ih =>
    intro cells st valid
    obtain ⟨grows, wired⟩ := adds v st
    have grows' := grows.trans (grows_alloc (copy v st).2.heap (.fresh (copy v st).1))
    obtain ⟨grows'', wired'', valid''⟩ := ih
      (cells.push ((copy v st).2.heap.alloc (.fresh (copy v st).1)).1)
      { (copy v st).2 with heap := ((copy v st).2.heap.alloc (.fresh (copy v st).1)).2 } (by
        intro c member
        rcases Array.mem_push.mp member with inside | rfl
        · exact Nat.lt_of_lt_of_le (valid c inside) grows'.size
        · simp [alloc])
    exact ⟨grows'.trans grows'', fun w => wired'' (wired_alloc (wired w) _), valid''⟩

theorem copyWithin_adds (n : Nat) : CopyAdds (copyWithin n) := by
  induction n with
  | zero => exact fun v st => ⟨.refl _, id⟩
  | succ n ih =>
    intro v st
    cases v with
    | list l =>
      unfold copyWithin
      cases st.begun.lookup l with
      | some copy => exact ⟨.refl _, id⟩
      | none =>
        obtain ⟨grows, wired, valid⟩ := copyAll_adds ih (st.heap.values l) #[]
          { heap := (st.heap.allocList #[]).2, begun := (l, (st.heap.allocList #[]).1) :: st.begun }
          (by simp)
        refine ⟨?_, fun w => ?_⟩
        · exact ((grows_allocList st.heap #[]).trans grows).setElements (Nat.le_refl _) _
        · exact wired_setElements (wired (wired_allocList w (by simp))) valid
    | none | int | float | bool | str => exact ⟨.refl _, id⟩

theorem grows_deepCopy (h : Heap) (v : Value) : h.Grows (h.deepCopy v).2 :=
  (copyWithin_adds _ v { heap := h }).1

theorem wired_deepCopy (wired : h.Wired) (v : Value) : (h.deepCopy v).2.Wired :=
  (copyWithin_adds _ v { heap := h }).2 wired

/-- The copy of a list is one more list. -/
theorem lists_lt_deepCopy (h : Heap) (l : ListId) :
    h.lists.size < (h.deepCopy (.list l)).2.lists.size := by
  obtain ⟨grows, -⟩ := copyAll_adds (copyWithin_adds h.lists.size) (h.values l) #[]
    { heap := (h.allocList #[]).2, begun := [(l, (h.allocList #[]).1)] } (by simp)
  have opened : h.lists.size < (h.allocList #[]).2.lists.size := by simp [allocList]
  refine Nat.lt_of_lt_of_le opened (Nat.le_trans grows.count (Nat.le_of_eq ?_))
  simp [deepCopy, copyWithin, setElements]

/-- The copy of an empty list is a new one. -/
theorem deepCopy_of_empty (empty : h.elements l = #[]) : h.deepCopy (.list l) = h.newList [] := by
  have kept : (h.allocList #[]).2.setElements ⟨h.lists.size⟩ #[] = (h.allocList #[]).2 := by
    have same : (h.lists.push #[]).modify h.lists.size (fun _ => #[]) = h.lists.push #[] := by
      refine Array.ext (by simp) fun i _ _ => ?_
      rw [Array.getElem_modify]
      split
      · rename_i last
        subst last
        simp
      · rfl
    simp only [setElements, allocList, same]
  simp only [deepCopy, copyWithin, values, empty, copyAll, newList, allocAll, List.map_nil,
    List.lookup_nil]
  exact congrArg (Prod.mk (Value.list ⟨h.lists.size⟩)) kept

/-! ## The registered list -/

/-- The registered list is there, and it is empty. -/
structure Pristine (h : Heap) : Prop where
  there : ListId.registered.index < h.lists.size
  empty : h.elements .registered = #[]

theorem elements_new (l : ListId) : elements {} l = #[] := by
  obtain ⟨_ | i⟩ := l <;> rfl

theorem pristine_new : Pristine {} :=
  ⟨by decide, rfl⟩

theorem Pristine.kept (pristine : h.Pristine) (count : h.lists.size ≤ h'.lists.size)
    (same : h'.elements .registered = h.elements .registered) : h'.Pristine :=
  ⟨Nat.lt_of_lt_of_le pristine.there count, same.trans pristine.empty⟩

theorem Pristine.grows (pristine : h.Pristine) (grows : h.Grows h') : h'.Pristine :=
  pristine.kept grows.count (grows.lists _ pristine.there)

theorem Pristine.push (pristine : h.Pristine) (other : l ≠ .registered) (v : Value) :
    (h.push l v).Pristine :=
  pristine.kept (by simp [Heap.push, Heap.alloc]) (elements_push_ne other.symm v)

/-- Changes of variables only. -/
theorem Pristine.revalue (pristine : h.Pristine) (lists : h'.lists = h.lists) : h'.Pristine :=
  pristine.kept (Nat.le_of_eq (congrArg Array.size lists.symm)) (by rw [elements, elements, lists])

/-- A list that is not there yet is another one. -/
theorem Pristine.ne_registered (pristine : h.Pristine) (new : h.lists.size ≤ l.index) :
    l ≠ .registered := by
  rintro rfl
  exact absurd pristine.there (Nat.not_lt.mpr new)

/-- The default of lists is a new empty list as long as the registered one is empty. -/
theorem Pristine.default?_list (pristine : h.Pristine) :
    h.default? .list = some (h.newList []) :=
  congrArg some (deepCopy_of_empty pristine.empty)

end Heap

end TraceLang
