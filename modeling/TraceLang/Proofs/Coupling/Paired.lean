/-
# TraceLang.Proofs.Coupling.Paired — runs whose heaps are paired

Where two runs give their variables and lists other identities, a world is a pairing. The
heaps correspond if they are paired, apart from their registered lists, and if these are
empty: to those no computed value leads (`Aligned`). All that expressions need follows
(`paired_tends`). What a comparison says beyond the heaps are its terms: how notes
correspond, which instructions are left out, and which faults end it.
-/
import TraceLang.Proofs.Coupling.Expressions
import TraceLang.Proofs.Pairing.Copy

namespace TraceLang

set_option autoImplicit false

namespace Coupling

/-- What a coupling says beyond the heaps, where a world is a pairing. -/
structure Terms where
  notes : Pairing → Nat → Tracer → Nat → Tracer → Prop
  notes_mono : ∀ {ρ σ : Pairing} {s s' : Nat} {t t' : Tracer}, ρ.Le σ → notes ρ s t s' t' →
    notes σ s t s' t'
  drop : Instr → Bool := fun _ => false
  admits : Instr → Prop := fun _ => True
  excused : Fault → Prop := fun _ => False
  excused_locate : ∀ {f : Fault} (span : Span), excused f → excused (f.locate span) := by
    exact fun _ never => never
  excused_trace : ∀ {f : Fault} (c : Context), excused f → excused (f.trace c) := by
    exact fun _ never => never

end Coupling

/-! ## Apart from the registered lists -/

namespace Heap

/-- The heaps are paired apart from their registered lists, and these are empty. -/
structure Aligned (strict : Prop) (ρ : Pairing) (h h' : Heap) : Prop
    extends h.Paired strict ρ h' where
  pristine : h.Pristine
  pristine' : h'.Pristine
  apart : ∀ {l l' : ListId}, ρ.lists l l' → l ≠ .registered ∧ l' ≠ .registered

variable {strict : Prop} {ρ σ : Pairing} {h h' g g' : Heap}

theorem aligned_empty (pristine : h.Pristine) (pristine' : h'.Pristine) :
    h.Aligned strict .empty h' :=
  ⟨paired_empty h h', pristine, pristine', nofun⟩

theorem Aligned.flip (aligned : h.Aligned strict ρ h') : h'.Aligned strict ρ.flip h :=
  ⟨aligned.toPaired.flip, aligned.pristine', aligned.pristine,
    fun lists => (aligned.apart lists).symm⟩

/-- Additions on both sides: the new lists are not the registered ones. -/
theorem Aligned.grows (aligned : h.Aligned strict ρ h') (adds : ρ.Adds h h' σ)
    (paired : g.Paired strict σ g') (grows : h.Grows g) (grows' : h'.Grows g') :
    g.Aligned strict σ g' where
  toPaired := paired
  pristine := aligned.pristine.grows grows
  pristine' := aligned.pristine'.grows grows'
  apart lists := by
    rcases adds.new lists with before | ⟨new, new'⟩
    · exact aligned.apart before
    · exact ⟨aligned.pristine.ne_registered new, aligned.pristine'.ne_registered new'⟩

/-- Changes of variables only. -/
theorem Aligned.revalue (aligned : h.Aligned strict ρ h') (paired : g.Paired strict ρ g')
    (lists : g.lists = h.lists) (lists' : g'.lists = h'.lists) : g.Aligned strict ρ g' where
  toPaired := paired
  pristine := aligned.pristine.revalue lists
  pristine' := aligned.pristine'.revalue lists'
  apart := aligned.apart

theorem Aligned.left (aligned : h.Aligned False ρ h') (shows : h.Shows g) :
    g.Aligned False ρ h' where
  toPaired := aligned.toPaired.left shows
  pristine := aligned.pristine.kept shows.count (shows.elements _ aligned.pristine.there)
  pristine' := aligned.pristine'
  apart := aligned.apart

theorem Aligned.push (aligned : h.Aligned strict ρ h') {l l' : ListId} {v v' : Value}
    (lists : ρ.lists l l') (like : v.Like ρ.lists v') :
    (h.push l v).Aligned strict (ρ.withCell ⟨h.cells.size⟩ ⟨h'.cells.size⟩) (h'.push l' v') where
  toPaired := aligned.toPaired.push lists like
  pristine := aligned.pristine.push (aligned.apart lists).1 v
  pristine' := aligned.pristine'.push (aligned.apart lists).2 v'
  apart := aligned.apart

theorem Aligned.alloc (aligned : h.Aligned strict ρ h') {v v' : Value}
    (like : v.Like ρ.lists v') (assigned : Bool) (name : String) :
    ∃ σ : Pairing, ρ.Le σ ∧
      (h.alloc { value := v, assigned, name := some name }).2.Aligned strict σ
        (h'.alloc { value := v', assigned, name := some name }).2 ∧
      σ.cells (h.alloc { value := v, assigned, name := some name }).1
        (h'.alloc { value := v', assigned, name := some name }).1 :=
  ⟨_, ρ.le_withCell _ _,
    aligned.grows ((Pairing.Adds.refl h h' ρ).withCell _ _)
      (aligned.toPaired.alloc ⟨rfl, rfl, like, fun _ => rfl, fun _ => rfl⟩) (grows_alloc _ _)
      (grows_alloc _ _),
    .inr ⟨rfl, rfl⟩⟩

theorem Aligned.newList (aligned : h.Aligned strict ρ h') {values values' : List Value}
    (like : List.Forall₂ (Value.Like ρ.lists) values values') :
    ∃ σ : Pairing, ρ.Le σ ∧ (h.newList values).2.Aligned strict σ (h'.newList values').2 ∧
      (h.newList values).1.Like σ.lists (h'.newList values').1 := by
  obtain ⟨σ, adds, paired, value⟩ := aligned.toPaired.newList like
  exact ⟨σ, adds.toLe, aligned.grows adds paired (grows_newList _ _) (grows_newList _ _), value⟩

theorem Aligned.deepCopy (aligned : h.Aligned strict ρ h') {v v' : Value}
    (like : v.Like ρ.lists v') :
    ∃ σ : Pairing, ρ.Le σ ∧ (h.deepCopy v).2.Aligned strict σ (h'.deepCopy v').2 ∧
      (h.deepCopy v).1.Like σ.lists (h'.deepCopy v').1 := by
  obtain ⟨σ, adds, paired, value⟩ := aligned.toPaired.deepCopy like
  exact ⟨σ, adds.toLe, aligned.grows adds paired (grows_deepCopy _ _) (grows_deepCopy _ _), value⟩

end Heap

namespace Coupling

/-- The heaps are paired, apart from their registered lists. -/
def paired (strict : Prop) (terms : Terms) : Coupling where
  World := Pairing
  le := Pairing.Le
  refl := .refl
  trans := .trans
  cells ρ := ρ.cells
  cells_mono more := more.cells
  lists ρ := ρ.lists
  lists_mono more := more.lists
  heaps ρ h h' := h.Aligned strict ρ h'
  notes := terms.notes
  notes_mono := terms.notes_mono
  drop := terms.drop
  admits := terms.admits
  excused := terms.excused
  excused_locate := terms.excused_locate
  excused_trace := terms.excused_trace

variable {strict : Prop} {terms : Terms}

theorem paired_tends : (paired strict terms).Tends where
  pristine heap := ⟨heap.pristine, heap.pristine'⟩
  read heap cells :=
    have like := heap.toPaired.read cells
    ⟨like.name, like.assigned, fun _ => like.value⟩
  elements heap lists := heap.toPaired.elements lists
  values heap lists := heap.toPaired.values lists
  text heap like := heap.toPaired.text like
  equal heap left right := heap.toPaired.equal left right
  newList heap like := heap.newList like
  copy heap like := heap.deepCopy like
  push {ρ _ _ _ _ _ _} heap lists like := ⟨_, ρ.le_withCell _ _, heap.push lists like⟩
  assign {ρ _ _ _ _ _ _} heap cells like :=
    ⟨ρ, .refl ρ, heap.revalue (heap.toPaired.assign cells like) rfl rfl⟩
  alloc name heap like := heap.alloc like true name
  reserve ty name heap :=
    reserve_like (k := paired strict terms) heap ty name ⟨heap.pristine, heap.pristine'⟩
      (heap.newList .nil) fun heap like => heap.alloc like false name

end Coupling

end TraceLang
