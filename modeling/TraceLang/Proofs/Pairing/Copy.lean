/-
# TraceLang.Proofs.Pairing.Copy — copies in paired heaps

Copies of corresponding values correspond (`Paired.deepCopy`). The two copies
proceed in step: the lists begun so far correspond, and so do their copies. The
pairing grows with each new variable and list, but what is copied belongs to the
heaps as they were at the start and corresponds in the pairing of then
(`Copies.original`). As with texts, the bound on the depth never shows.
-/
import TraceLang.Proofs.Pairing.Views

namespace TraceLang

set_option autoImplicit false

namespace Heap

variable {strict : Prop} {ρ σ : Pairing} {h h' : Heap} {n n' : Nat} {st st' : Copying}

/-- The values of a list whose elements are there stay when the heap grows. -/
theorem Grows.values (grows : h.Grows h') {l : ListId} (old : l.index < h.lists.size)
    (wired : ∀ c ∈ h.elements l, c.index < h.cells.size) : h'.values l = h.values l := by
  unfold Heap.values
  rw [grows.lists l old]
  refine List.map_congr_left fun c member => ?_
  rw [grows.cells c (wired c (by simpa using member))]

/-- Two copies in progress, out of heaps that were `h` and `h'` at the start. -/
structure Copies (strict : Prop) (ρ : Pairing) (h h' : Heap) (n n' : Nat) (σ : Pairing)
    (st st' : Copying) : Prop where
  start : h.Paired strict ρ h'
  adds : ρ.Adds h h' σ
  paired : st.heap.Paired strict σ st'.heap
  grows : h.Grows st.heap
  grows' : h'.Grows st'.heap
  begun : List.Forall₂ (fun p p' => ρ.lists p.1 p'.1 ∧ σ.lists p.2 p'.2) st.begun st'.begun
  nodup : (st.begun.map Prod.fst).Nodup
  room : h.lists.size < st.begun.length + n
  room' : h'.lists.size < st'.begun.length + n'

namespace Copies

theorem keys (copies : Copies strict ρ h h' n n' σ st st') :
    List.Forall₂ ρ.lists (st.begun.map Prod.fst) (st'.begun.map Prod.fst) :=
  List.forall₂_map_left_iff.mpr (List.forall₂_map_right_iff.mpr
    (copies.begun.imp fun _ _ => And.left))

theorem positive (copies : Copies strict ρ h h' n n' σ st st') : 0 < n ∧ 0 < n' := by
  refine Opened.positive copies.start.resembles ⟨copies.keys, copies.nodup, ?_, ?_⟩
  · simpa using copies.room
  · simpa using copies.room'

/-- What is copied shows what it did at the start. -/
theorem original (copies : Copies strict ρ h h' n n' σ st st') {l l' : ListId}
    (lists : ρ.lists l l') :
    List.Forall₂ (Value.Like ρ.lists) (st.heap.values l) (st'.heap.values l') := by
  obtain ⟨old, old'⟩ := copies.start.lists_lt lists
  have elements := copies.start.elements lists
  have wired := forall_of_forall₂_left elements fun _ _ cells => (copies.start.cells_lt cells).1
  have wired' := forall_of_forall₂_left elements.flip
    fun _ _ cells => (copies.start.cells_lt cells).2
  rw [copies.grows.values old (by simpa using wired),
    copies.grows'.values old' (by simpa using wired')]
  exact copies.start.values lists

/-- A list has been begun on both sides or on neither. -/
theorem lookup (copies : Copies strict ρ h h' n n' σ st st') {l l' : ListId}
    (lists : ρ.lists l l') :
    Option.Rel σ.lists (st.begun.lookup l) (st'.begun.lookup l') := by
  have begun := copies.begun
  generalize st.begun = pairs, st'.begun = pairs' at begun ⊢
  induction begun with
  | nil => exact .none
  | @cons p p' _ _ both _ ih =>
    obtain ⟨k, copy⟩ := p
    obtain ⟨k', copy'⟩ := p'
    have same : l' = k' ↔ l = k :=
      ⟨fun same => copies.start.lists_unique.left lists (same ▸ both.1),
        fun same => copies.start.lists_unique.right lists (same ▸ both.1)⟩
    simp only [lookup_entry, same]
    split
    · exact .some both.2
    · exact ih

theorem succ (copies : Copies strict ρ h h' n n' σ st st') :
    Copies strict ρ h h' (n + 1) (n' + 1) σ st st' :=
  { copies with
    room := Nat.lt_succ_of_lt copies.room
    room' := Nat.lt_succ_of_lt copies.room' }

/-- A new variable for a copied value. -/
theorem alloc (copies : Copies strict ρ h h' n n' σ st st') {v v' : Value}
    (like : v.Like σ.lists v') :
    Copies strict ρ h h' n n' (σ.withCell ⟨st.heap.cells.size⟩ ⟨st'.heap.cells.size⟩)
      { st with heap := (st.heap.alloc (.fresh v)).2 }
      { st' with heap := (st'.heap.alloc (.fresh v')).2 } :=
  { copies with
    adds := copies.adds.withCell _ _
    paired := copies.paired.alloc (Variable.like_fresh like)
    grows := copies.grows.trans (grows_alloc _ _)
    grows' := copies.grows'.trans (grows_alloc _ _) }

/-- A list that was not begun before is begun on both sides. -/
theorem begin (copies : Copies strict ρ h h' (n + 1) (n' + 1) σ st st') {l l' : ListId}
    (lists : ρ.lists l l') (new : st.begun.lookup l = none) :
    Copies strict ρ h h' n n' (σ.withList ⟨st.heap.lists.size⟩ ⟨st'.heap.lists.size⟩)
      { heap := (st.heap.allocList #[]).2, begun := (l, (st.heap.allocList #[]).1) :: st.begun }
      { heap := (st'.heap.allocList #[]).2
        begun := (l', (st'.heap.allocList #[]).1) :: st'.begun } where
  start := copies.start
  adds := copies.adds.withList copies.grows.count copies.grows'.count
  paired := copies.paired.allocList .nil
  grows := copies.grows.trans (grows_allocList _ _)
  grows' := copies.grows'.trans (grows_allocList _ _)
  begun := .cons ⟨lists, .inr ⟨rfl, rfl⟩⟩ (copies.begun.imp fun _ _ => .imp_right .inl)
  nodup := List.nodup_cons.mpr ⟨not_mem_of_lookup new, copies.nodup⟩
  room := by have := copies.room; simp only [List.length_cons]; omega
  room' := by have := copies.room'; simp only [List.length_cons]; omega

/-- A list that was not there at the start gets its elements. -/
theorem setElements (copies : Copies strict ρ h h' n n' σ st st') {l l' : ListId}
    (lists : σ.lists l l') (fresh : h.lists.size ≤ l.index) (fresh' : h'.lists.size ≤ l'.index)
    {items items' : Array CellId} (like : List.Forall₂ σ.cells items.toList items'.toList) :
    Copies strict ρ h h' n n' σ { st with heap := st.heap.setElements l items }
      { st' with heap := st'.heap.setElements l' items' } :=
  { copies with
    paired := copies.paired.setElements lists like
    grows := copies.grows.setElements fresh items
    grows' := copies.grows'.setElements fresh' items' }

end Copies

/-- The results of two copies: corresponding values, and copies in progress. -/
def Copied (strict : Prop) (ρ : Pairing) (h h' : Heap) (n n' : Nat) (σ : Pairing)
    (result result' : Value × Copying) : Prop :=
  ∃ τ, σ.Le τ ∧ Copies strict ρ h h' n n' τ result.2 result'.2 ∧ result.1.Like τ.lists result'.1

theorem copyAll_copied {copy copy' : Value → Copying → Value × Copying}
    (copied : ∀ {σ st st' v v'}, Copies strict ρ h h' n n' σ st st' → v.Like ρ.lists v' →
      Copied strict ρ h h' n n' σ (copy v st) (copy' v' st'))
    {values values' : List Value} (like : List.Forall₂ (Value.Like ρ.lists) values values') :
    ∀ {σ : Pairing} {st st' : Copying} {cells cells' : Array CellId},
      Copies strict ρ h h' n n' σ st st' → List.Forall₂ σ.cells cells.toList cells'.toList →
      ∃ τ, σ.Le τ ∧
        Copies strict ρ h h' n n' τ (copyAll copy values cells st).2
          (copyAll copy' values' cells' st').2 ∧
        List.Forall₂ τ.cells (copyAll copy values cells st).1.toList
          (copyAll copy' values' cells' st').1.toList := by
  induction like with
  | nil => exact fun {σ _ _ _ _} copies cells => ⟨σ, .refl σ, copies, cells⟩
  | @cons v v' _ _ first _ ih =>
    intro σ st st' cells cells' copies items
    obtain ⟨τ, more, copies₁, value⟩ := copied copies first
    have items₁ : List.Forall₂ (τ.withCell ⟨(copy v st).2.heap.cells.size⟩
        ⟨(copy' v' st').2.heap.cells.size⟩).cells
        (cells.push ⟨(copy v st).2.heap.cells.size⟩).toList
        (cells'.push ⟨(copy' v' st').2.heap.cells.size⟩).toList := by
      rw [Array.toList_push, Array.toList_push]
      exact List.rel_append (items.imp fun _ _ cells => .inl (more.cells cells))
        (.cons (.inr ⟨rfl, rfl⟩) .nil)
    obtain ⟨υ, more', rest⟩ := ih (copies₁.alloc value) items₁
    exact ⟨υ, (more.trans (τ.le_withCell _ _)).trans more', rest⟩

theorem copyWithin_copied {v v' : Value} (copies : Copies strict ρ h h' n n' σ st st')
    (like : v.Like ρ.lists v') :
    Copied strict ρ h h' n n' σ (copyWithin n v st) (copyWithin n' v' st') := by
  induction n generalizing n' σ st st' v v' with
  | zero => exact absurd copies.positive.1 (Nat.lt_irrefl 0)
  | succ n ih =>
    obtain ⟨n', rfl⟩ := Nat.exists_eq_succ_of_ne_zero (Nat.ne_of_gt copies.positive.2)
    cases like with
    | @list l l' lists =>
      have found := copies.lookup lists
      unfold copyWithin
      cases begun : st.begun.lookup l with
      | some copy =>
        rw [begun] at found
        cases begun' : st'.begun.lookup l' with
        | none => rw [begun'] at found; cases found
        | some copy' =>
          rw [begun'] at found
          cases found with
          | some paired => exact ⟨σ, .refl σ, copies, .list paired⟩
      | none =>
        rw [begun] at found
        cases begun' : st'.begun.lookup l' with
        | some copy' => rw [begun'] at found; cases found
        | none =>
          have none : List.Forall₂ (σ.withList ⟨st.heap.lists.size⟩ ⟨st'.heap.lists.size⟩).cells
              (#[] : Array CellId).toList (#[] : Array CellId).toList := .nil
          obtain ⟨τ, more, copies', cells⟩ := copyAll_copied ih (copies.original lists)
            (copies.begin lists begun) none
          have paired : τ.lists ⟨st.heap.lists.size⟩ ⟨st'.heap.lists.size⟩ :=
            more.lists (.inr ⟨rfl, rfl⟩)
          refine ⟨τ, (σ.le_withList _ _).trans more, ?_, .list paired⟩
          exact (copies'.setElements paired copies.grows.count copies.grows'.count cells).succ
    | _ => exact ⟨σ, .refl σ, copies, by constructor⟩

/-- Copies of corresponding values correspond. -/
theorem Paired.deepCopy (paired : h.Paired strict ρ h') {v v' : Value} (like : v.Like ρ.lists v') :
    ∃ σ : Pairing, ρ.Adds h h' σ ∧ (h.deepCopy v).2.Paired strict σ (h'.deepCopy v').2 ∧
      (h.deepCopy v).1.Like σ.lists (h'.deepCopy v').1 := by
  have copies : Copies strict ρ h h' (h.lists.size + 1) (h'.lists.size + 1) ρ { heap := h }
      { heap := h' } :=
    ⟨paired, .refl h h' ρ, paired, .refl h, .refl h', .nil, List.nodup_nil, by simp, by simp⟩
  obtain ⟨σ, -, copies', value⟩ := copyWithin_copied copies like
  exact ⟨σ, copies'.adds, copies'.paired, value⟩

end Heap

end TraceLang
