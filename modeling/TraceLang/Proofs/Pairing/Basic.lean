/-
# TraceLang.Proofs.Pairing.Basic — heaps that hold the same, under other identities

A pairing says which variables and which lists of two heaps correspond to each
other. The heaps are paired (`h.Paired strict ρ h'`) if the correspondence is one to
one, and if what corresponds shows the same: variables with the same name, state
and value, lists with corresponding elements. Whether variables are watched and how
often they were assigned counts too where the pairing is `strict`. Either heap may
hold more than what corresponds.

Doing the same on both sides keeps two heaps paired, under a pairing that knows
of the new variables and lists (`Paired.alloc`, `Paired.newList`,
`Paired.modify`, `Paired.push`). A change of one side that touches nothing that
can be seen keeps them paired as they are (`Paired.left`).
-/
import Mathlib.Logic.Relator
import TraceLang.Proofs.Coupling.Scopes
import TraceLang.Proofs.Heap

namespace TraceLang

set_option autoImplicit false

/-- Which variables and which lists of two heaps correspond. -/
structure Pairing where
  cells : CellId → CellId → Prop
  lists : ListId → ListId → Prop

namespace Pairing

/-- What corresponds in the first pairing does so in the second. -/
structure Le (ρ σ : Pairing) : Prop where
  cells : ∀ {c c' : CellId}, ρ.cells c c' → σ.cells c c'
  lists : ∀ {l l' : ListId}, ρ.lists l l' → σ.lists l l'

theorem Le.refl (ρ : Pairing) : ρ.Le ρ :=
  ⟨id, id⟩

theorem Le.trans {ρ σ τ : Pairing} (first : ρ.Le σ) (second : σ.Le τ) : ρ.Le τ :=
  ⟨second.cells ∘ first.cells, second.lists ∘ first.lists⟩

/-- Nothing corresponds. -/
def empty : Pairing :=
  ⟨fun _ _ => False, fun _ _ => False⟩

/-- Two more variables correspond. -/
def withCell (ρ : Pairing) (c c' : CellId) : Pairing :=
  { ρ with cells := fun d d' => ρ.cells d d' ∨ (d = c ∧ d' = c') }

/-- Two more lists correspond. -/
def withList (ρ : Pairing) (l l' : ListId) : Pairing :=
  { ρ with lists := fun k k' => ρ.lists k k' ∨ (k = l ∧ k' = l') }

theorem le_withCell (ρ : Pairing) (c c' : CellId) : ρ.Le (ρ.withCell c c') :=
  ⟨.inl, id⟩

theorem le_withList (ρ : Pairing) (l l' : ListId) : ρ.Le (ρ.withList l l') :=
  ⟨id, .inl⟩

/-- The pairing the other way round. -/
def flip (ρ : Pairing) : Pairing :=
  ⟨fun c c' => ρ.cells c' c, fun l l' => ρ.lists l' l⟩

/-- What corresponds in the first pairing does so in the second. The lists that correspond
only then are not in the heaps yet. -/
structure Adds (h h' : Heap) (ρ σ : Pairing) : Prop extends ρ.Le σ where
  new : ∀ {l l' : ListId}, σ.lists l l' →
    ρ.lists l l' ∨ (h.lists.size ≤ l.index ∧ h'.lists.size ≤ l'.index)

section

variable {h h' : Heap} {ρ σ : Pairing}

theorem Adds.refl (h h' : Heap) (ρ : Pairing) : ρ.Adds h h' ρ :=
  { Le.refl ρ with new := .inl }

theorem Adds.withCell (adds : ρ.Adds h h' σ) (c c' : CellId) : ρ.Adds h h' (σ.withCell c c') :=
  { adds.toLe.trans (σ.le_withCell c c') with new := adds.new }

theorem Adds.withList (adds : ρ.Adds h h' σ) {l l' : ListId} (new : h.lists.size ≤ l.index)
    (new' : h'.lists.size ≤ l'.index) : ρ.Adds h h' (σ.withList l l') where
  toLe := adds.toLe.trans (σ.le_withList l l')
  new := by
    rintro k k' (before | ⟨rfl, rfl⟩)
    · exact adds.new before
    · exact .inr ⟨new, new'⟩

end

/-- A correspondence stays one to one when it gets a new pair. -/
theorem biUnique_insert {α : Type} {r : α → α → Prop} {a a' : α} (unique : Relator.BiUnique r)
    (fresh : ∀ b b', r b b' → b ≠ a ∧ b' ≠ a') :
    Relator.BiUnique fun b b' => r b b' ∨ (b = a ∧ b' = a') := by
  constructor
  · rintro b c b' (first | ⟨rfl, rfl⟩) (second | ⟨rfl, same⟩)
    · exact unique.left first second
    · exact absurd same (fresh _ _ first).2
    · exact absurd rfl (fresh _ _ second).2
    · rfl
  · rintro b b' c' (first | ⟨rfl, rfl⟩) (second | ⟨same, rfl⟩)
    · exact unique.right first second
    · exact absurd same (fresh _ _ first).1
    · exact absurd rfl (fresh _ _ second).1
    · rfl

end Pairing

/-- The variables show the same name, state and value. Whether they are watched
and how often they were assigned counts only if `strict` holds. -/
structure Variable.Like (strict : Prop) (lists : ListId → ListId → Prop) (v v' : Variable) :
    Prop where
  name : v'.name = v.name
  assigned : v'.assigned = v.assigned
  value : v.value.Like lists v'.value
  traced : strict → v'.traced = v.traced
  version : strict → v'.version = v.version

namespace Variable

variable {strict : Prop} {lists lists' : ListId → ListId → Prop} {v v' : Variable}

theorem Like.mono (like : v.Like strict lists v') (more : ∀ l l', lists l l' → lists' l l') :
    v.Like strict lists' v' :=
  { like with value := like.value.mono more }

theorem Like.flip (like : v.Like strict lists v') :
    v'.Like strict (fun l l' => lists l' l) v :=
  ⟨like.name.symm, like.assigned.symm, like.value.flip, fun yes => (like.traced yes).symm,
    fun yes => (like.version yes).symm⟩

theorem like_fresh {a a' : Value} (like : a.Like lists a') :
    (Variable.fresh a).Like strict lists (.fresh a') :=
  ⟨rfl, rfl, like, fun _ => rfl, fun _ => rfl⟩

theorem Like.assign (like : v.Like strict lists v') {a a' : Value} (value : a.Like lists a') :
    (v.assign a).Like strict lists (v'.assign a') :=
  ⟨like.name, rfl, value, like.traced, fun yes => congrArg (· + 1) (like.version yes)⟩

end Variable

namespace Heap

variable {strict : Prop} {ρ σ : Pairing} {h h' h₂ : Heap} {c c' : CellId} {l l' : ListId}

/-- The heaps hold the same in what corresponds. -/
structure Paired (strict : Prop) (ρ : Pairing) (h h' : Heap) : Prop where
  cells_unique : Relator.BiUnique ρ.cells
  lists_unique : Relator.BiUnique ρ.lists
  cells_lt : ∀ {c c' : CellId}, ρ.cells c c' →
    c.index < h.cells.size ∧ c'.index < h'.cells.size
  lists_lt : ∀ {l l' : ListId}, ρ.lists l l' → l.index < h.lists.size ∧ l'.index < h'.lists.size
  read : ∀ {c c' : CellId}, ρ.cells c c' → (h.read c).Like strict ρ.lists (h'.read c')
  elements : ∀ {l l' : ListId}, ρ.lists l l' →
    List.Forall₂ ρ.cells (h.elements l).toList (h'.elements l').toList

theorem paired_empty (h h' : Heap) : h.Paired strict .empty h' where
  cells_unique := ⟨fun _ _ _ => nofun, fun _ _ _ => nofun⟩
  lists_unique := ⟨fun _ _ _ => nofun, fun _ _ _ => nofun⟩
  cells_lt := nofun
  lists_lt := nofun
  read := nofun
  elements := nofun

theorem Paired.flip (paired : h.Paired strict ρ h') : h'.Paired strict ρ.flip h where
  cells_unique := ⟨fun _ _ _ first second => paired.cells_unique.right first second,
    fun _ _ _ first second => paired.cells_unique.left first second⟩
  lists_unique := ⟨fun _ _ _ first second => paired.lists_unique.right first second,
    fun _ _ _ first second => paired.lists_unique.left first second⟩
  cells_lt cells := (paired.cells_lt cells).symm
  lists_lt lists := (paired.lists_lt lists).symm
  read cells := (paired.read cells).flip
  elements lists := (paired.elements lists).flip

theorem Paired.values (paired : h.Paired strict ρ h') (lists : ρ.lists l l') :
    List.Forall₂ (Value.Like ρ.lists) (h.values l) (h'.values l') :=
  List.rel_map (fun c c' (cells : ρ.cells c c') => (paired.read cells).value)
    (paired.elements lists)

/-! ## Changes of one side -/

/-- Whatever the first heap shows, the second one shows too. -/
structure Shows (h h' : Heap) : Prop where
  size : h.cells.size ≤ h'.cells.size
  read : ∀ c : CellId, c.index < h.cells.size → (h'.read c).name = (h.read c).name ∧
    (h'.read c).assigned = (h.read c).assigned ∧ (h'.read c).value = (h.read c).value
  count : h.lists.size ≤ h'.lists.size
  elements : ∀ l : ListId, l.index < h.lists.size → h'.elements l = h.elements l

theorem Grows.shows (grows : h.Grows h') : h.Shows h' where
  size := grows.size
  read c old := by simp [grows.cells c old]
  count := grows.count
  elements := grows.lists

/-- A mark shows only that a variable is watched. -/
theorem shows_mark (h : Heap) (c : CellId) :
    h.Shows (h.modify c fun v => { v with traced := true }) where
  size := by simp
  read d old := by
    by_cases same : d = c
    · subst same
      simp [read_modify_self old]
    · simp [read_modify_ne same]
  count := Nat.le_refl _
  elements _ _ := rfl

theorem Shows.trans (first : h.Shows h') (second : h'.Shows h₂) : h.Shows h₂ where
  size := Nat.le_trans first.size second.size
  read c old := by
    obtain ⟨name, assigned, value⟩ := first.read c old
    obtain ⟨name', assigned', value'⟩ := second.read c (Nat.lt_of_lt_of_le old first.size)
    exact ⟨name'.trans name, assigned'.trans assigned, value'.trans value⟩
  count := Nat.le_trans first.count second.count
  elements l old :=
    (second.elements l (Nat.lt_of_lt_of_le old first.count)).trans (first.elements l old)

theorem Paired.left (paired : h.Paired False ρ h') (shows : h.Shows h₂) :
    h₂.Paired False ρ h' where
  cells_unique := paired.cells_unique
  lists_unique := paired.lists_unique
  cells_lt cells := (paired.cells_lt cells).imp_left fun old => Nat.lt_of_lt_of_le old shows.size
  lists_lt lists := (paired.lists_lt lists).imp_left fun old => Nat.lt_of_lt_of_le old shows.count
  read cells := by
    obtain ⟨name, assigned, value⟩ := shows.read _ (paired.cells_lt cells).1
    have like := paired.read cells
    exact ⟨like.name.trans name.symm, like.assigned.trans assigned.symm, value ▸ like.value,
      False.elim, False.elim⟩
  elements lists := by
    rw [shows.elements _ (paired.lists_lt lists).1]
    exact paired.elements lists

/-! ## New variables and lists -/

theorem read_alloc_new (h : Heap) (v : Variable) : (h.alloc v).2.read ⟨h.cells.size⟩ = v := by
  simp [alloc, read, Array.getD]

theorem elements_allocList_new (h : Heap) (items : Array CellId) :
    (h.allocList items).2.elements ⟨h.lists.size⟩ = items := by
  simp [allocList, elements, Array.getD]

theorem Paired.alloc (paired : h.Paired strict ρ h') {v v' : Variable}
    (like : v.Like strict ρ.lists v') :
    (h.alloc v).2.Paired strict (ρ.withCell ⟨h.cells.size⟩ ⟨h'.cells.size⟩) (h'.alloc v').2 where
  cells_unique := by
    refine Pairing.biUnique_insert paired.cells_unique fun c c' cells => ?_
    obtain ⟨old, old'⟩ := paired.cells_lt cells
    exact ⟨fun same => by simp [same] at old, fun same => by simp [same] at old'⟩
  lists_unique := paired.lists_unique
  cells_lt := by
    rintro c c' (cells | ⟨rfl, rfl⟩)
    · obtain ⟨old, old'⟩ := paired.cells_lt cells
      simp only [size_alloc]
      omega
    · simp
  lists_lt := paired.lists_lt
  read := by
    rintro c c' (cells | ⟨rfl, rfl⟩)
    · obtain ⟨old, old'⟩ := paired.cells_lt cells
      rw [(grows_alloc h v).cells c old, (grows_alloc h' v').cells c' old']
      exact paired.read cells
    · rw [read_alloc_new, read_alloc_new]
      exact like
  elements lists := (paired.elements lists).imp fun _ _ => .inl

theorem Paired.allocList (paired : h.Paired strict ρ h') {items items' : Array CellId}
    (like : List.Forall₂ ρ.cells items.toList items'.toList) :
    (h.allocList items).2.Paired strict (ρ.withList ⟨h.lists.size⟩ ⟨h'.lists.size⟩)
      (h'.allocList items').2 where
  cells_unique := paired.cells_unique
  lists_unique := by
    refine Pairing.biUnique_insert paired.lists_unique fun l l' lists => ?_
    obtain ⟨old, old'⟩ := paired.lists_lt lists
    exact ⟨fun same => by simp [same] at old, fun same => by simp [same] at old'⟩
  cells_lt := paired.cells_lt
  lists_lt := by
    rintro l l' (lists | ⟨rfl, rfl⟩)
    · obtain ⟨old, old'⟩ := paired.lists_lt lists
      simp only [Heap.allocList, Array.size_push]
      omega
    · simp [Heap.allocList]
  read cells := (paired.read cells).mono fun _ _ => .inl
  elements := by
    rintro l l' (lists | ⟨rfl, rfl⟩)
    · obtain ⟨old, old'⟩ := paired.lists_lt lists
      rw [(grows_allocList h items).lists l old, (grows_allocList h' items').lists l' old']
      exact paired.elements lists
    · rw [elements_allocList_new, elements_allocList_new]
      exact like

/-- New variables for corresponding values. -/
theorem Paired.allocAll {values values' : List Value}
    (like : List.Forall₂ (Value.Like ρ.lists) values values') :
    ∀ {ρ₁ : Pairing} {h h' : Heap} {cells cells' : Array CellId}, h.Paired strict ρ₁ h' →
      ρ₁.lists = ρ.lists → List.Forall₂ ρ₁.cells cells.toList cells'.toList →
      ∃ σ : Pairing, ρ₁.Le σ ∧ σ.lists = ρ.lists ∧
        (h.allocAll values cells).2.Paired strict σ (h'.allocAll values' cells').2 ∧
        List.Forall₂ σ.cells (h.allocAll values cells).1.toList
          (h'.allocAll values' cells').1.toList := by
  induction like with
  | nil => exact fun {ρ₁ _ _ _ _} paired same cells => ⟨ρ₁, .refl ρ₁, same, paired, cells⟩
  | @cons v v' _ _ first _ ih =>
    intro ρ₁ h h' cells cells' paired same items
    have allocated := paired.alloc (Variable.like_fresh (same ▸ first))
    have items' : List.Forall₂ (ρ₁.withCell ⟨h.cells.size⟩ ⟨h'.cells.size⟩).cells
        (cells.push ⟨h.cells.size⟩).toList (cells'.push ⟨h'.cells.size⟩).toList := by
      rw [Array.toList_push, Array.toList_push]
      exact List.rel_append (items.imp fun _ _ => .inl) (.cons (.inr ⟨rfl, rfl⟩) .nil)
    obtain ⟨σ, more, rest⟩ := ih allocated same items'
    exact ⟨σ, (ρ₁.le_withCell _ _).trans more, rest⟩

theorem Paired.newList (paired : h.Paired strict ρ h') {values values' : List Value}
    (like : List.Forall₂ (Value.Like ρ.lists) values values') :
    ∃ σ : Pairing, ρ.Adds h h' σ ∧
      (h.newList values).2.Paired strict σ (h'.newList values').2 ∧
      (h.newList values).1.Like σ.lists (h'.newList values').1 := by
  have none : List.Forall₂ ρ.cells (#[] : Array CellId).toList (#[] : Array CellId).toList := .nil
  obtain ⟨σ, more, same, paired', cells⟩ := Paired.allocAll like paired rfl none
  have adds : ρ.Adds h h' σ := { more with new := fun lists => .inl (same ▸ lists) }
  obtain ⟨grows, -⟩ := allocAll_spec values h #[] (by simp)
  obtain ⟨grows', -⟩ := allocAll_spec values' h' #[] (by simp)
  exact ⟨_, adds.withList grows.count grows'.count, paired'.allocList cells,
    .list (.inr ⟨rfl, rfl⟩)⟩

/-! ## Changed variables and lists -/

theorem Paired.modify (paired : h.Paired strict ρ h') (cells : ρ.cells c c')
    {f f' : Variable → Variable} (like : (f (h.read c)).Like strict ρ.lists (f' (h'.read c'))) :
    (h.modify c f).Paired strict ρ (h'.modify c' f') where
  cells_unique := paired.cells_unique
  lists_unique := paired.lists_unique
  cells_lt cells := by simpa using paired.cells_lt cells
  lists_lt := paired.lists_lt
  read {d d'} others := by
    obtain ⟨old, old'⟩ := paired.cells_lt cells
    by_cases same : d = c
    · subst same
      obtain rfl := paired.cells_unique.right cells others
      rw [read_modify_self old, read_modify_self old']
      exact like
    · have different : d' ≠ c' := fun same' =>
        same (paired.cells_unique.left others (same' ▸ cells))
      rw [read_modify_ne same, read_modify_ne different]
      exact paired.read others
  elements := paired.elements

theorem elements_modify_self (old : l.index < h.lists.size) (f : Array CellId → Array CellId) :
    elements { h with lists := h.lists.modify l.index f } l = f (h.elements l) := by
  simp [elements, Array.getD, old, Array.getElem_modify]

theorem elements_modify_ne {k : ListId} (different : k ≠ l) (f : Array CellId → Array CellId) :
    elements { h with lists := h.lists.modify l.index f } k = h.elements k := by
  have apart := ListId.index_ne different.symm
  by_cases old : k.index < h.lists.size
  · simp [elements, Array.getD, old, Array.getElem_modify, apart]
  · simp [elements, Array.getD, old]

theorem Paired.modifyList (paired : h.Paired strict ρ h') (lists : ρ.lists l l')
    {f f' : Array CellId → Array CellId}
    (like : List.Forall₂ ρ.cells (f (h.elements l)).toList (f' (h'.elements l')).toList) :
    Paired strict ρ { h with lists := h.lists.modify l.index f }
      { h' with lists := h'.lists.modify l'.index f' } where
  cells_unique := paired.cells_unique
  lists_unique := paired.lists_unique
  cells_lt := paired.cells_lt
  lists_lt lists := by simpa using paired.lists_lt lists
  read := paired.read
  elements {k k'} others := by
    obtain ⟨old, old'⟩ := paired.lists_lt lists
    by_cases same : k = l
    · subst same
      obtain rfl := paired.lists_unique.right lists others
      rw [elements_modify_self old, elements_modify_self old']
      exact like
    · have different : k' ≠ l' := fun same' =>
        same (paired.lists_unique.left others (same' ▸ lists))
      rw [elements_modify_ne same, elements_modify_ne different]
      exact paired.elements others

theorem Paired.assign (paired : h.Paired strict ρ h') (cells : ρ.cells c c') {v v' : Value}
    (like : v.Like ρ.lists v') : (h.assign c v).Paired strict ρ (h'.assign c' v') :=
  paired.modify cells ((paired.read cells).assign like)

theorem Paired.setElements (paired : h.Paired strict ρ h') (lists : ρ.lists l l')
    {items items' : Array CellId} (like : List.Forall₂ ρ.cells items.toList items'.toList) :
    (h.setElements l items).Paired strict ρ (h'.setElements l' items') :=
  paired.modifyList lists like

theorem Paired.push (paired : h.Paired strict ρ h') (lists : ρ.lists l l') {v v' : Value}
    (like : v.Like ρ.lists v') :
    (h.push l v).Paired strict (ρ.withCell ⟨h.cells.size⟩ ⟨h'.cells.size⟩) (h'.push l' v') := by
  have allocated := paired.alloc (Variable.like_fresh like)
  refine allocated.modifyList lists ?_
  rw [Array.toList_push, Array.toList_push]
  exact List.rel_append (allocated.elements lists) (.cons (.inr ⟨rfl, rfl⟩) .nil)

end Heap

end TraceLang
