/-
# TraceLang.Proofs.Grounding — no variable holds a list that does not exist

A heap is grounded if the lists that its variables hold are all there. What a
grounded heap shows cannot change by additions: a snapshot stays as it is when
the heap grows (`Grounded.snapshot_eq`).

No program makes a heap ungrounded, if the values that it computes hold lists that
are there (`groundedness_lawful`).
-/
import TraceLang.Proofs.Coupling.Diagonal

namespace TraceLang

set_option autoImplicit false

/-- If the value is a list, it is one of the first `n`. -/
abbrev Value.Within (n : Nat) (v : Value) : Prop :=
  v.Fits (·.index < n)

/-! ## Grounded heaps -/

namespace Heap

variable {h h' : Heap} {c : CellId} {v : Value}

/-- All lists that variables hold are there. -/
def Grounded (h : Heap) : Prop :=
  ∀ c, (h.read c).value.Within h.lists.size

theorem Grounded.values (grounded : h.Grounded) (l : ListId) :
    ∀ v ∈ h.values l, v.Within h.lists.size := by
  intro v member
  obtain ⟨c, -, rfl⟩ := List.mem_map.mp member
  exact grounded c

/-- More lists do no harm. -/
theorem Grounded.lists (grounded : h.Grounded) (same : h'.cells = h.cells)
    (count : h.lists.size ≤ h'.lists.size) : h'.Grounded := by
  intro c
  have read : h'.read c = h.read c := by rw [Heap.read, same, Heap.read]
  rw [read]
  exact (grounded c).mono fun _ old => Nat.lt_of_lt_of_le old count

theorem Grounded.alloc (grounded : h.Grounded) {v : Variable}
    (within : v.value.Within h.lists.size) : (h.alloc v).2.Grounded := by
  intro c
  rcases h.read_alloc_or v c with same | ⟨-, new⟩
  · rw [same]
    exact grounded c
  · rw [new]
    exact within

theorem Grounded.modify (grounded : h.Grounded) (c : CellId) {f : Variable → Variable}
    (within : (f (h.read c)).value.Within h.lists.size) : (h.modify c f).Grounded := by
  intro d
  rcases h.read_modify_or c d f with same | ⟨-, changed⟩
  · rw [same]
    exact grounded d
  · rw [changed]
    exact within

theorem Grounded.push (grounded : h.Grounded) (l : ListId) (within : v.Within h.lists.size) :
    (h.push l v).Grounded :=
  (grounded.alloc within).lists rfl (by simp [Heap.push, Heap.alloc])

/-! ## What a grounded heap shows -/

/-- Every variable and every list of the heap as itself. -/
def itself (h : Heap) : Pairing :=
  ⟨fun c c' => c' = c ∧ c.index < h.cells.size,
    fun l l' => l' = l ∧ l.index < h.lists.size⟩

theorem Grounded.paired (grounded : h.Grounded) (wired : h.Wired) : h.Paired False h.itself h where
  cells_unique := ⟨fun _ _ _ p q => p.1.symm.trans q.1, fun _ _ _ p q => p.1.trans q.1.symm⟩
  lists_unique := ⟨fun _ _ _ p q => p.1.symm.trans q.1, fun _ _ _ p q => p.1.trans q.1.symm⟩
  cells_lt := by
    rintro c _ ⟨rfl, old⟩
    exact ⟨old, old⟩
  lists_lt := by
    rintro l _ ⟨rfl, old⟩
    exact ⟨old, old⟩
  read := by
    rintro c _ ⟨rfl, -⟩
    exact ⟨rfl, rfl, Value.like_self.mpr ⟨rfl, grounded _⟩, fun _ => rfl, fun _ => rfl⟩
  elements := by
    rintro l _ ⟨rfl, -⟩
    exact List.forall₂_same.mpr fun c member => ⟨rfl, wired _ c (Array.mem_toList_iff.mp member)⟩

/-- Additions to a grounded heap do not change what it shows. -/
theorem Grounded.snapshot_eq (grounded : h.Grounded) (wired : h.Wired) (shows : h.Shows h')
    {v : Value} (within : v.Within h.lists.size) : h'.snapshot v = h.snapshot v :=
  (((grounded.paired wired).left shows).snapshot (Value.like_self.mpr ⟨rfl, within⟩)).symm

end Heap

/-! ## Programs keep the heap grounded -/

/-- Groundedness as a property to keep up: the lists that are there are fit. -/
def groundedness : Upkeep where
  inv := Heap.Grounded
  fit h l := l.index < h.lists.size

/-- A change after which no list is missing. -/
theorem groundedness_keeps {h h' : Heap} (grounded : h'.Grounded)
    (count : h.lists.size ≤ h'.lists.size) : groundedness.Keeps h h' :=
  ⟨grounded, fun _ old => Nat.lt_of_lt_of_le old count⟩

theorem groundedness_lawful : groundedness.Lawful where
  read grounded _ := grounded _
  values grounded := grounded.values _
  alloc grounded _ fits := groundedness_keeps (grounded.alloc fits) (Nat.le_refl _)
  allocList {h cells} grounded _ := by
    have more := (Heap.grows_allocList h cells).count
    exact ⟨groundedness_keeps (grounded.lists rfl more) more, by simp [groundedness, Heap.allocList]⟩
  setElements {h l cells} grounded _ _ := by
    have count : h.lists.size ≤ (h.setElements l cells).lists.size := by simp [Heap.setElements]
    exact groundedness_keeps (grounded.lists rfl count) count
  push {h l v} grounded _ fits := by
    exact groundedness_keeps (grounded.push l fits) (by simp [Heap.push, Heap.alloc])
  assign {_} c {_} grounded fits :=
    groundedness_keeps (Heap.Grounded.modify grounded c fits) (Nat.le_refl _)
  mark c grounded :=
    groundedness_keeps (Heap.Grounded.modify grounded c (grounded c)) (Nat.le_refl _)
  reserve {h} ty name grounded pristine := by
    have alloc : ∀ {h₁ : Heap} {v : Value}, h₁.Grounded → v.Within h₁.lists.size →
        h.lists.size ≤ h₁.lists.size →
        groundedness.Keeps h (h₁.alloc { value := v, assigned := false, name := some name }).2 :=
      fun grounded fits count => groundedness_keeps (grounded.alloc fits) count
    cases ty with
    | list =>
      simp only [Heap.reserve, pristine.default?_list]
      have more := (Heap.grows_allocList h #[]).count
      refine alloc (grounded.lists rfl more) (Value.fits_list ?_) more
      simp [Heap.newList, Heap.allocAll, Heap.allocList]
    | int | float | bool | string | none | auto =>
      refine alloc grounded ?_ (Nat.le_refl _)
      rintro _ ⟨⟩

/-- A run of a program whose instructions have the property, held against
itself. -/
abbrev grounding (p : Instr → Prop) : Coupling :=
  groundedness.coupling p

namespace Machine

/-- The heap is grounded, and the functions are those of a program whose
instructions have the property. -/
abbrev Grounded (p : Instr → Prop) (m : Machine) : Prop :=
  m.Upkept groundedness p

end Machine

end TraceLang
