/-
# TraceLang.Proofs.Pairing.Views — paired heaps look the same

Texts, snapshots and equality follow the lists of a value, and each is bounded
by the number of lists in the whole heap, which may differ between two paired
heaps. The bound never shows: a list is opened only if it is not open already,
so no more lists can be open than there are (`length_le_of_lt`), and as long as
there is room for the others the answer does not depend on the bound. Hence
corresponding values have the same text (`Paired.text`) and the same snapshot
(`Paired.snapshot`), and they are equal to the same values (`Paired.equal`). Where
marks and versions count, they have the same full account too (`Paired.detail`).

Texts and snapshots are both summaries: they say what to do with a scalar, with
a list that is open already, and with the items of a list. They see values only, so
less than a pairing is enough for them: `h.Resembles lists h'` says that corresponding
lists hold corresponding values.
-/
import Mathlib.Data.List.Nodup
import Mathlib.Data.List.ProdSigma
import TraceLang.Heap.Equality
import TraceLang.Heap.Snapshot
import TraceLang.Heap.Text
import TraceLang.Proofs.Pairing.Basic

namespace TraceLang

set_option autoImplicit false

namespace Heap

/-! ## Summaries -/

section

variable {α : Type} (leaf : Value → α) (mark : α) (node : List α → α)

/-- What is made of a value inside the lists `opened`, at most `n` lists deep. -/
def summary (h : Heap) : (n : Nat) → (opened : List ListId) → Value → α
  | 0, _, .list _ => mark
  | n + 1, opened, .list l =>
    if l ∈ opened then mark else node ((h.values l).map (summary h n (l :: opened)))
  | _, _, v => leaf v

end

/-- The text of a scalar inside a list. -/
def leafText : Value → String
  | .str s => quoted s
  | v => v.scalarText

theorem nestedText_eq (h : Heap) (n : Nat) (opened : List ListId) (v : Value) :
    h.nestedText n opened v =
      h.summary leafText "[...]" (fun items => "[" ++ ", ".intercalate items ++ "]") n opened
        v := by
  induction n generalizing opened v with
  | zero => cases v <;> rfl
  | succ n ih =>
    cases v with
    | list l =>
      simp only [nestedText, summary]
      rw [funext (ih (l :: opened))]
    | _ => rfl

/-- The snapshot of a scalar. -/
def leafSnapshot : Value → Snapshot
  | .none | .list _ => .none
  | .int n => .int n
  | .float x => .float x
  | .bool b => .bool b
  | .str s => .str s

theorem capture_eq (h : Heap) (n : Nat) (opened : List ListId) (v : Value) :
    h.capture n opened v = h.summary leafSnapshot (.str "[...]") .list n opened v := by
  induction n generalizing opened v with
  | zero => cases v <;> rfl
  | succ n ih =>
    cases v with
    | list l =>
      simp only [capture, summary]
      rw [funext (ih (l :: opened))]
    | _ => rfl

/-- The full account of an element inside the lists `opened`. -/
def itemDetail (h : Heap) (n : Nat) (opened : List ListId) (c : CellId) : Option String := do
  let value ← h.valueDetail n opened (h.read c).value
  return "RefCell \x7b value: " ++ variableDetail (h.read c) value ++ " \x7d"

-- The equations that come with the definition take long to prove.
theorem valueDetail_list (h : Heap) (n : Nat) (opened : List ListId) (l : ListId) :
    h.valueDetail (n + 1) opened (.list l) =
      if l ∈ opened then none
      else do
        let items ← (h.elements l).toList.mapM (h.itemDetail n (l :: opened))
        return "List(RefCell \x7b value: [" ++ ", ".intercalate items ++ "] \x7d)" := by
  conv => lhs; unfold valueDetail
  rfl

/-! ## Room -/

variable {strict : Prop} {ρ : Pairing} {lists : ListId → ListId → Prop} {h h' : Heap} {n n' : Nat}

/-- Different lists of a heap are no more than there are. -/
theorem length_le_of_lt {lists : List ListId} {size : Nat} (nodup : lists.Nodup)
    (valid : ∀ l ∈ lists, l.index < size) : lists.length ≤ size := by
  have apart : (lists.map ListId.index).Nodup :=
    nodup.map fun l k same => by cases l; cases k; exact congrArg ListId.mk same
  have inside : lists.map ListId.index ⊆ List.range size := by
    intro i member
    obtain ⟨l, listed, rfl⟩ := List.mem_map.mp member
    exact List.mem_range.mpr (valid l listed)
  simpa using apart.length_le_of_subset inside

/-- Lists correspond one to one, and corresponding lists hold corresponding values. -/
structure Resembles (lists : ListId → ListId → Prop) (h h' : Heap) : Prop where
  unique : Relator.BiUnique lists
  lt : ∀ {l l' : ListId}, lists l l' → l.index < h.lists.size ∧ l'.index < h'.lists.size
  values : ∀ {l l' : ListId}, lists l l' →
    List.Forall₂ (Value.Like lists) (h.values l) (h'.values l')

theorem Paired.resembles (paired : h.Paired strict ρ h') : h.Resembles ρ.lists h' :=
  ⟨paired.lists_unique, paired.lists_lt, paired.values⟩

/-- The lists that are open on both sides, and room for the others. -/
structure Opened (lists : ListId → ListId → Prop) (h h' : Heap) (n n' : Nat)
    (opened opened' : List ListId) : Prop where
  like : List.Forall₂ lists opened opened'
  nodup : opened.Nodup
  room : h.lists.size < opened.length + n
  room' : h'.lists.size < opened'.length + n'

theorem forall_of_forall₂_left {α β : Type} {r : α → β → Prop} {p : α → Prop} {as : List α}
    {bs : List β} (like : List.Forall₂ r as bs) (imp : ∀ a b, r a b → p a) : ∀ a ∈ as, p a := by
  induction like with
  | nil => exact fun _ => nofun
  | cons first _ ih => exact List.forall_mem_cons.mpr ⟨imp _ _ first, ih⟩

theorem Opened.positive (resembles : h.Resembles lists h') {opened opened' : List ListId}
    (opens : Opened lists h h' n n' opened opened') : 0 < n ∧ 0 < n' := by
  have bound := length_le_of_lt opens.nodup
    (forall_of_forall₂_left opens.like fun _ _ both => (resembles.lt both).1)
  have nodup' : opened'.Nodup := (List.rel_nodup resembles.unique opens.like).mp opens.nodup
  have bound' := length_le_of_lt nodup'
    (forall_of_forall₂_left opens.like.flip fun _ _ both => (resembles.lt both).2)
  have := opens.room
  have := opens.room'
  omega

theorem Opened.cons {opened opened' : List ListId} {l l' : ListId}
    (opens : Opened lists h h' (n + 1) (n' + 1) opened opened') (both : lists l l')
    (new : l ∉ opened) : Opened lists h h' n n' (l :: opened) (l' :: opened') where
  like := .cons both opens.like
  nodup := List.nodup_cons.mpr ⟨new, opens.nodup⟩
  room := by have := opens.room; simp only [List.length_cons]; omega
  room' := by have := opens.room'; simp only [List.length_cons]; omega

theorem Resembles.summary {α : Type} {leaf : Value → α} {mark : α} {node : List α → α}
    (resembles : h.Resembles lists h') {opened opened' : List ListId} {v v' : Value}
    (opens : Opened lists h h' n n' opened opened') (like : v.Like lists v') :
    h'.summary leaf mark node n' opened' v' = h.summary leaf mark node n opened v := by
  induction n generalizing n' opened opened' v v' with
  | zero => exact absurd (opens.positive resembles).1 (Nat.lt_irrefl 0)
  | succ n ih =>
    obtain ⟨n', rfl⟩ := Nat.exists_eq_succ_of_ne_zero (Nat.ne_of_gt (opens.positive resembles).2)
    cases like with
    | @list l l' both =>
      have known : l' ∈ opened' ↔ l ∈ opened :=
        (List.rel_mem resembles.unique both opens.like).symm
      simp only [Heap.summary, known]
      split
      · rfl
      · rename_i new
        have items : List.Forall₂ (· = ·)
            ((h.values l).map (h.summary leaf mark node n (l :: opened)))
            ((h'.values l').map (h'.summary leaf mark node n' (l' :: opened'))) :=
          List.rel_map (fun v v' (like : Value.Like lists v v') =>
            (ih (opens.cons both new) like).symm) (resembles.values both)
        rw [List.forall₂_eq_eq_eq] at items
        rw [items]
    | _ => rfl

/-- At the start no list is open and there is room for all. -/
theorem opened_nil (lists : ListId → ListId → Prop) (h h' : Heap) :
    Opened lists h h' (h.lists.size + 1) (h'.lists.size + 1) [] [] :=
  ⟨.nil, List.nodup_nil, by simp, by simp⟩

theorem Resembles.text (resembles : h.Resembles lists h') {v v' : Value} (like : v.Like lists v') :
    h'.text v' = h.text v := by
  cases like with
  | list both =>
    simp only [Heap.text, nestedText_eq]
    exact resembles.summary (opened_nil lists h h') (.list both)
  | _ => rfl

theorem Resembles.snapshot (resembles : h.Resembles lists h') {v v' : Value}
    (like : v.Like lists v') : h'.snapshot v' = h.snapshot v := by
  simp only [Heap.snapshot, capture_eq]
  exact resembles.summary (opened_nil lists h h') like

/-- Corresponding values have the same text. -/
theorem Paired.text (paired : h.Paired strict ρ h') {v v' : Value} (like : v.Like ρ.lists v') :
    h'.text v' = h.text v :=
  paired.resembles.text like

/-- Corresponding values have the same snapshot. -/
theorem Paired.snapshot (paired : h.Paired strict ρ h') {v v' : Value} (like : v.Like ρ.lists v') :
    h'.snapshot v' = h.snapshot v :=
  paired.resembles.snapshot like

theorem mapM_eq_of_forall₂ {α β γ : Type} {r : α → β → Prop} {f : α → Option γ}
    {g : β → Option γ} {as : List α} {bs : List β} (like : List.Forall₂ r as bs)
    (same : ∀ a b, r a b → f a = g b) : as.mapM f = bs.mapM g := by
  induction like with
  | nil => rfl
  | cons first _ ih => rw [List.mapM_cons, List.mapM_cons, same _ _ first, ih]

theorem Paired.valueDetail (paired : h.Paired True ρ h') {opened opened' : List ListId}
    {v v' : Value} (opens : Opened ρ.lists h h' n n' opened opened') (like : v.Like ρ.lists v') :
    h'.valueDetail n' opened' v' = h.valueDetail n opened v := by
  induction n generalizing n' opened opened' v v' with
  | zero => exact absurd (opens.positive paired.resembles).1 (Nat.lt_irrefl 0)
  | succ n ih =>
    obtain ⟨n', rfl⟩ :=
      Nat.exists_eq_succ_of_ne_zero (Nat.ne_of_gt (opens.positive paired.resembles).2)
    cases like with
    | @list l l' lists =>
      have known : l' ∈ opened' ↔ l ∈ opened :=
        (List.rel_mem paired.lists_unique lists opens.like).symm
      rw [valueDetail_list, valueDetail_list]
      simp only [known]
      split
      · rfl
      · rename_i new
        have item : ∀ c c', ρ.cells c c' →
            h.itemDetail n (l :: opened) c = h'.itemDetail n' (l' :: opened') c' := by
          intro c c' cells
          have shown := paired.read cells
          have value := ih (opens.cons lists new) shown.value
          unfold itemDetail variableDetail
          rw [value, shown.assigned, shown.name, shown.traced trivial, shown.version trivial]
        rw [mapM_eq_of_forall₂ (paired.elements lists) item]
    | none | int | float | bool | str =>
      unfold Heap.valueDetail
      with_reducible rfl

/-- Corresponding values have the same full account. -/
theorem Paired.detail (paired : h.Paired True ρ h') {v v' : Value} (like : v.Like ρ.lists v') :
    h'.detail (.fresh v') = h.detail (.fresh v) :=
  congrArg (Option.map (variableDetail (.fresh .none)))
    (paired.valueDetail (opened_nil ρ.lists h h') like)

/-! ## Equality -/

/-- Pairs of lists that correspond. -/
def PairsLike (ρ : Pairing) (p p' : ListId × ListId) : Prop :=
  ρ.lists p.1 p'.1 ∧ ρ.lists p.2 p'.2

theorem pairsLike_unique (unique : Relator.BiUnique ρ.lists) : Relator.BiUnique (PairsLike ρ) :=
  ⟨fun _ _ _ first second =>
      Prod.ext (unique.left first.1 second.1) (unique.left first.2 second.2),
    fun _ _ _ first second =>
      Prod.ext (unique.right first.1 second.1) (unique.right first.2 second.2)⟩

theorem pairs_length_le_of_lt {pairs : Pairs} {size : Nat} (nodup : pairs.Nodup)
    (valid : ∀ p ∈ pairs, p.1.index < size ∧ p.2.index < size) : pairs.length ≤ size * size := by
  have apart : (pairs.map fun p => (p.1.index, p.2.index)).Nodup := by
    refine nodup.map fun p q same => ?_
    obtain ⟨⟨_⟩, ⟨_⟩⟩ := p
    obtain ⟨⟨_⟩, ⟨_⟩⟩ := q
    simp_all
  have inside : (pairs.map fun p => (p.1.index, p.2.index)) ⊆
      List.range size ×ˢ List.range size := by
    intro i member
    obtain ⟨p, listed, rfl⟩ := List.mem_map.mp member
    exact List.mem_product.mpr
      ⟨List.mem_range.mpr (valid p listed).1, List.mem_range.mpr (valid p listed).2⟩
  simpa [List.length_product] using apart.length_le_of_subset inside

/-- The pairs of lists whose comparison has begun on both sides, and room for
the others. -/
structure Begun (ρ : Pairing) (h h' : Heap) (n n' : Nat) (pairs pairs' : Pairs) : Prop where
  like : List.Forall₂ (PairsLike ρ) pairs pairs'
  nodup : pairs.Nodup
  room : h.lists.size * h.lists.size < pairs.length + n
  room' : h'.lists.size * h'.lists.size < pairs'.length + n'

theorem Begun.positive (paired : h.Paired strict ρ h') {pairs pairs' : Pairs}
    (begun : Begun ρ h h' n n' pairs pairs') : 0 < n ∧ 0 < n' := by
  have bound := pairs_length_le_of_lt begun.nodup (forall_of_forall₂_left begun.like
    fun _ _ lists => ⟨(paired.lists_lt lists.1).1, (paired.lists_lt lists.2).1⟩)
  have nodup' : pairs'.Nodup :=
    (List.rel_nodup (pairsLike_unique paired.lists_unique) begun.like).mp begun.nodup
  have bound' := pairs_length_le_of_lt nodup' (forall_of_forall₂_left begun.like.flip
    fun _ _ lists => ⟨(paired.lists_lt lists.1).2, (paired.lists_lt lists.2).2⟩)
  have := begun.room
  have := begun.room'
  omega

theorem Begun.cons {pairs pairs' : Pairs} {p p' : ListId × ListId}
    (begun : Begun ρ h h' (n + 1) (n' + 1) pairs pairs') (lists : PairsLike ρ p p')
    (new : p ∉ pairs) : Begun ρ h h' n n' (p :: pairs) (p' :: pairs') where
  like := .cons lists begun.like
  nodup := List.nodup_cons.mpr ⟨new, begun.nodup⟩
  room := by have := begun.room; simp only [List.length_cons]; omega
  room' := by have := begun.room'; simp only [List.length_cons]; omega

theorem Begun.succ {pairs pairs' : Pairs} (begun : Begun ρ h h' n n' pairs pairs') :
    Begun ρ h h' (n + 1) (n' + 1) pairs pairs' :=
  ⟨begun.like, begun.nodup, Nat.lt_succ_of_lt begun.room, Nat.lt_succ_of_lt begun.room'⟩

/-- The answers of two comparisons: both the same, with corresponding pairs begun. -/
def Agree (ρ : Pairing) (h h' : Heap) (n n' : Nat) (answer answer' : Bool × Pairs) : Prop :=
  answer'.1 = answer.1 ∧ Begun ρ h h' n n' answer.2 answer'.2

theorem compareAll_agree {compare compare' : Pairs → Value → Value → Bool × Pairs}
    (agree : ∀ {pairs pairs' a a' b b'}, Begun ρ h h' n n' pairs pairs' → a.Like ρ.lists a' →
      b.Like ρ.lists b' → Agree ρ h h' n n' (compare pairs a b) (compare' pairs' a' b'))
    {as as' : List Value} (left : List.Forall₂ (Value.Like ρ.lists) as as') :
    ∀ {bs bs' : List Value} {pairs pairs' : Pairs}, List.Forall₂ (Value.Like ρ.lists) bs bs' →
      Begun ρ h h' n n' pairs pairs' →
      Agree ρ h h' n n' (compareAll compare pairs as bs) (compareAll compare' pairs' as' bs') := by
  induction left with
  | nil => exact fun _ begun => ⟨rfl, begun⟩
  | @cons a a' _ _ first _ ih =>
    intro bs bs' pairs pairs' right begun
    cases right with
    | nil => exact ⟨rfl, begun⟩
    | @cons b b' _ _ second others =>
      have answers := agree begun first second
      simp only [compareAll]
      generalize compare pairs a b = answer, compare' pairs' a' b' = answer' at answers ⊢
      obtain ⟨same, pairs₁⟩ := answer
      obtain ⟨same', pairs₁'⟩ := answer'
      obtain ⟨rfl, begun₁⟩ := answers
      cases same' with
      | true => exact ih others begun₁
      | false => exact ⟨rfl, begun₁⟩

theorem Paired.compare (paired : h.Paired strict ρ h') {pairs pairs' : Pairs} {a a' b b' : Value}
    (begun : Begun ρ h h' n n' pairs pairs') (left : a.Like ρ.lists a')
    (right : b.Like ρ.lists b') :
    Agree ρ h h' n n' (h.compare n pairs a b) (h'.compare n' pairs' a' b') := by
  induction n generalizing n' pairs pairs' a a' b b' with
  | zero => exact absurd (begun.positive paired).1 (Nat.lt_irrefl 0)
  | succ n ih =>
    obtain ⟨n', rfl⟩ := Nat.exists_eq_succ_of_ne_zero (Nat.ne_of_gt (begun.positive paired).2)
    cases left <;> cases right
    case list.list l l' lists k k' lists' =>
      have same : l' = k' ↔ l = k :=
        ⟨fun same => paired.lists_unique.left lists (same ▸ lists'),
          fun same => paired.lists_unique.right lists (same ▸ lists')⟩
      have both : PairsLike ρ (l, k) (l', k') := ⟨lists, lists'⟩
      have known : (l', k') ∈ pairs' ↔ (l, k) ∈ pairs :=
        (List.rel_mem (pairsLike_unique paired.lists_unique) both begun.like).symm
      have sizes : (h'.elements l').size = (h.elements l).size := by
        simpa using (paired.elements lists).length_eq.symm
      have sizes' : (h'.elements k').size = (h.elements k).size := by
        simpa using (paired.elements lists').length_eq.symm
      simp only [Heap.compare, same, known, sizes, sizes']
      split
      · exact ⟨rfl, begun⟩
      · split
        · exact ⟨rfl, begun⟩
        · rename_i new
          have begun' := begun.cons both new
          split
          · have answers := compareAll_agree (fun begun left right => ih begun left right)
              (paired.values lists) (paired.values lists') begun'
            exact ⟨answers.1, answers.2.succ⟩
          · exact ⟨rfl, begun'.succ⟩
    all_goals exact ⟨rfl, begun⟩

/-- Corresponding values are equal on both sides or on neither. -/
theorem Paired.equal (paired : h.Paired strict ρ h') {a a' b b' : Value} (left : a.Like ρ.lists a')
    (right : b.Like ρ.lists b') : h'.equal a' b' = h.equal a b :=
  (paired.compare ⟨.nil, List.nodup_nil, by simp, by simp⟩ left right).1

end Heap

end TraceLang
