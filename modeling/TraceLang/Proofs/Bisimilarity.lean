/-
# TraceLang.Proofs.Bisimilarity — equal lists are lists that cannot be told apart

Lists can contain themselves, so their equality cannot be defined by going down
to their leaves. It is coinductive: two lists are equal if there is a relation
that holds of them and in which every two lists are one and the same, or have the
same length and elements that are equal scalars or related again
(`Heap.Bisimulation`). `equal_iff_bisimilar` says that the comparison of values
decides this, and that it is symmetric.

The pairs whose comparison has begun are such a relation when the comparison has
succeeded. A pair is never taken back, so a pair that is met again is used
although its own comparison may not be over; but if a comparison fails then all of
them fail, and otherwise every pair has been settled at the end
(`Extends.settled`). Conversely, in the walk through two related lists no
difference can be found (`Compares.of_bisimulation`).
-/
import TraceLang.Proofs.Walks

namespace TraceLang

set_option autoImplicit false

/-! ## Scalars -/

/-- Numbers of one sign are compared by their exponents and then by their mantissas. -/
theorem Binary64.magnitude_swap (m n : Nat) (e f : Int) :
    (compare f e).then (compare n m) = ((compare e f).then (compare m n)).swap := by
  rw [Ordering.swap_then, ← Std.OrientedOrd.eq_swap, ← Std.OrientedOrd.eq_swap]

theorem Binary64.compare_swap (a b : Float.Model.UnpackedFloat) :
    b.compare a = (a.compare b).map Ordering.swap := by
  cases a with
  | finite s m e =>
    cases b with
    | finite t n f =>
      cases s <;> cases t
      case negative.negative =>
        exact congrArg (fun order => some order.swap) (magnitude_swap m n e f)
      case positive.positive => exact congrArg some (magnitude_swap m n e f)
      all_goals rfl
    | infinity t => cases t <;> rfl
    | zero | notANumber => cases s <;> rfl
  | infinity s =>
    cases b with
    | infinity t => cases s <;> cases t <;> rfl
    | zero | notANumber | finite => cases s <;> rfl
  | zero =>
    cases b with
    | infinity t | finite t => cases t <;> rfl
    | zero | notANumber => rfl
  | notANumber => cases b <;> rfl

theorem Binary64.eq_comm (x y : Binary64) : x.eq y = y.eq x := by
  show (x.toFloat.toModel.unpack.compare y.toFloat.toModel.unpack == some .eq) =
    (y.toFloat.toModel.unpack.compare x.toFloat.toModel.unpack == some .eq)
  rw [compare_swap]
  cases y.toFloat.toModel.unpack.compare x.toFloat.toModel.unpack with
  | none => rfl
  | some order => cases order <;> rfl

namespace Value

theorem scalarEq_comm (a b : Value) : a.scalarEq b = b.scalarEq a := by
  cases a <;> cases b <;> simp only [scalarEq, Binary64.eq_comm, eq_comm]

/-- Only what is no list is equal as a scalar. -/
theorem not_isList_of_scalarEq {a b : Value} (equal : a.scalarEq b) :
    a.isList = false ∧ b.isList = false := by
  cases a with
  | list l => cases b <;> cases equal
  | none | int | float | bool | str =>
    cases b with
    | list k => cases equal
    | none | int | float | bool | str => exact ⟨rfl, rfl⟩

/-- The values are equal scalars or related lists. -/
inductive Matches (R : ListId → ListId → Prop) : Value → Value → Prop
  | scalars {a b : Value} (equal : a.scalarEq b) : Matches R a b
  | lists {l k : ListId} (related : R l k) : Matches R (.list l) (.list k)

variable {R S : ListId → ListId → Prop} {a b : Value}

theorem Matches.mono (is : a.Matches R b) (more : ∀ l k, R l k → S l k) : a.Matches S b := by
  cases is with
  | scalars equal => exact .scalars equal
  | lists related => exact .lists (more _ _ related)

theorem Matches.flip (is : a.Matches R b) : b.Matches (fun l k => R k l) a := by
  cases is with
  | scalars equal => exact .scalars (scalarEq_comm a b ▸ equal)
  | lists related => exact .lists related

theorem Matches.related {l k : ListId} (is : (Value.list l).Matches R (.list k)) : R l k := by
  cases is with
  | scalars equal => cases equal
  | lists related => exact related

end Value

namespace Heap

/-- Every two related lists are one list, or their elements are equal scalars or
related lists, pair by pair and as many on one side as on the other. -/
def Bisimulation (h : Heap) (R : ListId → ListId → Prop) : Prop :=
  ∀ l k, R l k → l = k ∨ List.Forall₂ (Value.Matches R) (h.values l) (h.values k)

/-- The values are equal scalars, or lists that some bisimulation relates. -/
inductive Bisimilar (h : Heap) : Value → Value → Prop
  | scalars {a b : Value} (left : a.isList = false) (right : b.isList = false)
    (equal : a.scalarEq b) : Bisimilar h a b
  | lists {R : ListId → ListId → Prop} {l k : ListId} (bisimulation : h.Bisimulation R)
    (related : R l k) : Bisimilar h (.list l) (.list k)

variable {h : Heap} {R : ListId → ListId → Prop} {pairs pairs' pairs'' : Pairs} {a b : Value}

theorem length_values (h : Heap) (l : ListId) : (h.values l).length = (h.elements l).size := by
  simp [values]

theorem Bisimulation.flip (bisimulation : h.Bisimulation R) :
    h.Bisimulation fun l k => R k l := by
  intro l k related
  rcases bisimulation k l related with same | items
  · exact .inl same.symm
  · exact .inr (items.flip.imp fun _ _ is => is.flip)

theorem Bisimilar.symm (similar : h.Bisimilar a b) : h.Bisimilar b a := by
  cases similar with
  | scalars left right equal => exact .scalars right left (Value.scalarEq_comm a b ▸ equal)
  | lists bisimulation related => exact .lists bisimulation.flip related

/-! ## Comparisons that succeed -/

/-- The lists are one list, or their comparison has begun. -/
def Joined (pairs : Pairs) (l k : ListId) : Prop :=
  l = k ∨ (l, k) ∈ pairs

/-- The elements of the two lists match, as far as the pairs go. -/
def Settled (h : Heap) (pairs : Pairs) (p : ListId × ListId) : Prop :=
  List.Forall₂ (Value.Matches (Joined pairs)) (h.values p.1) (h.values p.2)

theorem Joined.mono {l k : ListId} (joined : Joined pairs l k) (more : pairs ⊆ pairs') :
    Joined pairs' l k :=
  joined.imp_right fun begun => more begun

theorem Settled.mono {p : ListId × ListId} (settled : Settled h pairs p) (more : pairs ⊆ pairs') :
    Settled h pairs' p :=
  settled.imp fun _ _ is => is.mono fun _ _ joined => joined.mono more

/-- What a comparison that succeeds adds to the pairs is settled when it is over. -/
structure Extends (h : Heap) (pairs pairs' : Pairs) : Prop where
  more : pairs ⊆ pairs'
  settled : ∀ p ∈ pairs', p ∈ pairs ∨ Settled h pairs' p

theorem Extends.refl (h : Heap) (pairs : Pairs) : Extends h pairs pairs :=
  ⟨List.Subset.refl pairs, fun _ begun => .inl begun⟩

theorem Extends.trans (first : Extends h pairs pairs') (second : Extends h pairs' pairs'') :
    Extends h pairs pairs'' where
  more := List.Subset.trans first.more second.more
  settled p begun := by
    rcases second.settled p begun with before | settled
    · exact (first.settled p before).imp_right fun settled => settled.mono second.more
    · exact .inr settled

/-- A pair that was begun is settled once its elements have been compared. -/
theorem Extends.close {p : ListId × ListId} (inside : Extends h (p :: pairs) pairs')
    (items : Settled h pairs' p) : Extends h pairs pairs' where
  more := List.Subset.trans (List.subset_cons_self p pairs) inside.more
  settled q begun := by
    rcases inside.settled q begun with before | settled
    · rcases List.mem_cons.mp before with rfl | before
      · exact .inr items
      · exact .inl before
    · exact .inr settled

mutual

theorem Compares.extends {pairs : Pairs} {a b : Value} {answer : Bool × Pairs} :
    Compares h pairs a b answer → answer.1 = true →
      Extends h pairs answer.2 ∧ a.Matches (Joined answer.2) b
  | .scalar _, equal => ⟨.refl h _, .scalars equal⟩
  | .same, _ => ⟨.refl h _, .lists (.inl rfl)⟩
  | .begun begun, _ => ⟨.refl h _, .lists (.inr begun)⟩
  | .items _ _ sizes inside, equal => by
    rw [← length_values, ← length_values] at sizes
    obtain ⟨extension, items⟩ := inside.extends sizes equal
    exact ⟨extension.close items, .lists (.inr (extension.more (List.mem_cons_self ..)))⟩

theorem ComparesAll.extends {pairs : Pairs} {as bs : List Value} {answer : Bool × Pairs} :
    ComparesAll h pairs as bs answer → as.length = bs.length → answer.1 = true →
      Extends h pairs answer.2 ∧ List.Forall₂ (Value.Matches (Joined answer.2)) as bs
  | .done ended, lengths, _ => by
    obtain ⟨rfl, rfl⟩ : as = [] ∧ bs = [] := by
      rcases ended with rfl | rfl
      · exact ⟨rfl, List.length_eq_zero_iff.mp lengths.symm⟩
      · exact ⟨List.length_eq_zero_iff.mp lengths, rfl⟩
    exact ⟨.refl h _, .nil⟩
  | .agree first others, lengths, equal => by
    obtain ⟨extension, item⟩ := first.extends rfl
    obtain ⟨extension', items⟩ := others.extends (Nat.succ.inj lengths) equal
    exact ⟨extension.trans extension',
      .cons (item.mono fun _ _ joined => joined.mono extension'.more) items⟩

end

/-- The pairs of a comparison that succeeds are a bisimulation. -/
theorem Extends.bisimulation (extension : Extends h [] pairs) : h.Bisimulation (Joined pairs) := by
  rintro l k (same | begun)
  · exact .inl same
  · exact .inr ((extension.settled (l, k) begun).resolve_left List.not_mem_nil)

/-! ## Comparisons of related lists -/

mutual

/-- No difference is found between related lists. -/
theorem Compares.of_bisimulation (bisimulation : h.Bisimulation R) {pairs : Pairs} {a b : Value}
    {answer : Bool × Pairs} : Compares h pairs a b answer → a.Matches R b → answer.1 = true
  | .scalar _, .scalars equal => equal
  | .same, _ | .begun _, _ => rfl
  | .sizes apart _ sizes, is => by
    have items := (bisimulation _ _ is.related).resolve_left apart
    rw [← length_values, ← length_values] at sizes
    exact absurd items.length_eq sizes
  | .items apart _ _ inside, is =>
    inside.of_bisimulation bisimulation ((bisimulation _ _ is.related).resolve_left apart)

theorem ComparesAll.of_bisimulation (bisimulation : h.Bisimulation R) {pairs : Pairs}
    {as bs : List Value} {answer : Bool × Pairs} :
    ComparesAll h pairs as bs answer → List.Forall₂ (Value.Matches R) as bs → answer.1 = true
  | .done _, _ => rfl
  | .differ first, .cons is _ => first.of_bisimulation bisimulation is
  | .agree _ others, .cons _ items => others.of_bisimulation bisimulation items

end

/-! ## Equality -/

theorem exists_compares (h : Heap) (a b : Value) :
    ∃ pairs, h.Compares [] a b (h.equal a b, pairs) :=
  ⟨_, (compares a b (undertaken_nil h)).1⟩

theorem bisimilar_of_equal (equal : h.equal a b) : h.Bisimilar a b := by
  obtain ⟨pairs, comparison⟩ := h.exists_compares a b
  obtain ⟨extension, is⟩ := comparison.extends equal
  cases is with
  | scalars equal =>
    obtain ⟨left, right⟩ := Value.not_isList_of_scalarEq equal
    exact .scalars left right equal
  | lists joined => exact .lists extension.bisimulation joined

theorem equal_of_bisimilar (similar : h.Bisimilar a b) : h.equal a b := by
  obtain ⟨pairs, comparison⟩ := h.exists_compares a b
  cases similar with
  | scalars _ _ equal =>
    have nothing : h.Bisimulation fun _ _ => False := fun _ _ => False.elim
    exact comparison.of_bisimulation nothing (.scalars equal)
  | lists bisimulation related => exact comparison.of_bisimulation bisimulation (.lists related)

/-- In every heap the comparison of two values comes to an end without any bound on its
length, and the values are found equal if and only if they are bisimilar. So it does not
matter which of them stands on the left. -/
theorem equal_iff_bisimilar (h : Heap) (a b : Value) :
    (∃ pairs, h.Compares [] a b (h.equal a b, pairs)) ∧ (h.equal a b ↔ h.Bisimilar a b) ∧
      h.equal a b = h.equal b a := by
  have decides : ∀ a b, h.equal a b ↔ h.Bisimilar a b := fun a b =>
    ⟨bisimilar_of_equal, equal_of_bisimilar⟩
  refine ⟨h.exists_compares a b, decides a b, Bool.eq_iff_iff.mpr ?_⟩
  rw [decides, decides]
  exact ⟨Bisimilar.symm, Bisimilar.symm⟩

/-- Two lists of two elements that contain each other crosswise are equal, although every
comparison of their elements meets pairs that are not settled yet; and a list with a
number that equals no number is equal to itself only. -/
example :
    let nan : Value := .float .invalid
    let h : Heap :=
      { cells := #[.fresh (.list ⟨0⟩), .fresh (.list ⟨1⟩), .fresh (.list ⟨1⟩), .fresh (.list ⟨0⟩),
          .fresh nan, .fresh nan]
        lists := #[#[⟨0⟩, ⟨1⟩], #[⟨2⟩, ⟨3⟩], #[⟨4⟩], #[⟨5⟩]] }
    h.equal (.list ⟨0⟩) (.list ⟨1⟩) ∧ h.equal (.list ⟨2⟩) (.list ⟨2⟩) ∧
      ¬ h.equal (.list ⟨2⟩) (.list ⟨3⟩) := by decide +kernel

end Heap

end TraceLang
