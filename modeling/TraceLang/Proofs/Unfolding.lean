/-
# TraceLang.Proofs.Unfolding — lists without cycles are trees

Texts and snapshots keep account of the lists they are in, to stop where a list
contains itself. For a value that reaches no cycle there is nothing to stop: its
lists unfold to a finite tree, without regard to what is open (`Unfolds`), and every
summary is made along this tree (`unfolds_summary`). A list that is reached on two
ways stands in the tree twice, so the tree does not tell what is shared.

Equality does not tell either. `equal_eq_same_snapshot` says that for values without
cycles and without floating-point numbers the equality of values and the comparison of
their snapshots are one relation: lists with the same tree are bisimilar, and bisimilar
lists have the same tree. Floating-point numbers are compared by their value in one case
and bit by bit in the other.
-/
import TraceLang.Proofs.Bisimilarity
import TraceLang.Proofs.Detachment
import TraceLang.Proofs.Tracing

namespace TraceLang

set_option autoImplicit false

namespace Heap

variable {h : Heap} {v w u : Value} {l k : ListId}

/-! ## What a value contains -/

/-- The value itself and the elements of all lists that it reaches. -/
def Contains (h : Heap) (v w : Value) : Prop :=
  w = v ∨ ∃ l, h.Reaches v l ∧ w ∈ h.values l

/-- No list that the value reaches is reached again from one of its elements. -/
def Acyclic (h : Heap) (v : Value) : Prop :=
  ∀ l, h.Reaches v l → ∀ w ∈ h.values l, ¬ h.Reaches w l

/-- There is no floating-point number in the value. -/
def FloatFree (h : Heap) (v : Value) : Prop :=
  ∀ x, ¬ h.Contains v (.float x)

theorem Reaches.of_mem (reached : h.Reaches w k) (member : w ∈ h.values l) :
    h.Reaches (.list l) k := by
  induction reached with
  | here isList => exact .inside (.here rfl) (isList ▸ member)
  | inside _ holds ih => exact .inside ih holds

theorem Reaches.inside_cases (reached : h.Reaches (.list l) k) :
    k = l ∨ ∃ w ∈ h.values l, h.Reaches w k := by
  induction reached with
  | here isList =>
    cases isList
    exact .inl rfl
  | inside _ holds ih =>
    rcases ih with rfl | ⟨w, member, reached⟩
    · exact .inr ⟨_, holds, .here rfl⟩
    · exact .inr ⟨w, member, .inside reached holds⟩

theorem not_reaches_of_scalar (scalar : v.isList = false) : ¬ h.Reaches v l := by
  intro reached
  induction reached with
  | here isList => simp [isList, Value.isList] at scalar
  | inside _ _ ih => exact ih

theorem Contains.self (h : Heap) (v : Value) : h.Contains v v :=
  .inl rfl

theorem Contains.of_mem (contained : h.Contains w u) (member : w ∈ h.values l) :
    h.Contains (.list l) u := by
  rcases contained with rfl | ⟨k, reached, inside⟩
  · exact .inr ⟨l, .here rfl, member⟩
  · exact .inr ⟨k, reached.of_mem member, inside⟩

theorem Acyclic.of_mem (acyclic : h.Acyclic (.list l)) (member : w ∈ h.values l) : h.Acyclic w :=
  fun k reached => acyclic k (reached.of_mem member)

/-- A list of values without cycles is in none of them: an element that reached the list
would reach itself through it. -/
theorem acyclic_list (items : ∀ w ∈ h.values l, h.Acyclic w) : h.Acyclic (.list l) := by
  intro k reached w member again
  rcases reached.inside_cases with rfl | ⟨u, inside, reached'⟩
  · exact items w member k again w member again
  · exact items u inside k reached' w member again

theorem FloatFree.of_mem (free : h.FloatFree (.list l)) (member : w ∈ h.values l) :
    h.FloatFree w :=
  fun x contained => free x (contained.of_mem member)

/-- Lists whose elements are scalars or lists with smaller identities. -/
def Descends (h : Heap) (lists : List ListId) : Prop :=
  ∀ l ∈ lists, ∀ w ∈ h.values l, w.isList = false ∨ ∃ k ∈ lists, w = .list k ∧ k.index < l.index

instance (h : Heap) (lists : List ListId) : Decidable (h.Descends lists) :=
  inferInstanceAs (Decidable (∀ l ∈ lists, ∀ w ∈ h.values l,
    w.isList = false ∨ ∃ k ∈ lists, w = .list k ∧ k.index < l.index))

variable {lists : List ListId}

theorem Descends.item (descends : h.Descends lists) (listed : l ∈ lists)
    (holds : .list k ∈ h.values l) : k ∈ lists ∧ k.index < l.index := by
  rcases descends l listed _ holds with scalar | ⟨k', listed', same, less⟩
  · cases scalar
  · cases same
    exact ⟨listed', less⟩

theorem Descends.reached (descends : h.Descends lists) (listed : l ∈ lists)
    (reached : h.Reaches (.list l) k) : k ∈ lists ∧ k.index ≤ l.index := by
  induction reached with
  | here isList =>
    cases isList
    exact ⟨listed, Nat.le_refl _⟩
  | inside _ holds ih =>
    have item := descends.item ih.1 holds
    exact ⟨item.1, Nat.le_trans (Nat.le_of_lt item.2) ih.2⟩

theorem Descends.acyclic (descends : h.Descends lists) (listed : l ∈ lists) :
    h.Acyclic (.list l) := by
  intro k reached w member again
  have known := (descends.reached listed reached).1
  rcases descends k known w member with scalar | ⟨j, known', rfl, less⟩
  · exact not_reaches_of_scalar scalar again
  · have back := (descends.reached known' again).2
    omega

theorem Descends.contained (descends : h.Descends lists) (listed : l ∈ lists)
    (contained : h.Contains (.list l) w) : w = .list l ∨ ∃ k ∈ lists, w ∈ h.values k :=
  contained.imp_right fun ⟨k, reached, member⟩ => ⟨k, (descends.reached listed reached).1, member⟩

/-! ## Trees -/

section

variable {α β : Type} (leaf : Value → α) (node : List α → α)

mutual

/-- What is made of a value along its lists. -/
inductive Unfolds (h : Heap) : Value → α → Prop
  | scalar {v : Value} (scalar : v.isList = false) : Unfolds h v (leaf v)
  | items {l : ListId} {parts : List α} (inside : UnfoldsAll h (h.values l) parts) :
    Unfolds h (.list l) (node parts)

/-- What is made of some values along their lists. -/
inductive UnfoldsAll (h : Heap) : List Value → List α → Prop
  | nil : UnfoldsAll h [] []
  | cons {v : Value} {rest : List Value} {part : α} {parts : List α} (first : Unfolds h v part)
    (others : UnfoldsAll h rest parts) : UnfoldsAll h (v :: rest) (part :: parts)

end

variable {leaf node}

mutual

theorem Unfolds.unique {v : Value} {a b : α} :
    Unfolds leaf node h v a → Unfolds leaf node h v b → a = b
  | .scalar _, .scalar _ => rfl
  | .items inside, .items inside' => congrArg node (inside.unique inside')
  | .scalar isScalar, .items _ | .items _, .scalar isScalar => Bool.noConfusion isScalar

theorem UnfoldsAll.unique {values : List Value} {as bs : List α} :
    UnfoldsAll leaf node h values as → UnfoldsAll leaf node h values bs → as = bs
  | .nil, .nil => rfl
  | .cons first others, .cons first' others' => by
    rw [first.unique first', others.unique others']

end

mutual

/-- A map that respects leaves and nodes leads from one unfolding to another. -/
theorem Unfolds.map {f : α → β} {leaf' : Value → β} {node' : List β → β}
    (ofNode : ∀ parts, f (node parts) = node' (parts.map f)) {v : Value} {a : α} :
    Unfolds leaf node h v a →
      (∀ w, h.Contains v w → w.isList = false → f (leaf w) = leaf' w) →
      Unfolds leaf' node' h v (f a)
  | .scalar isScalar, ofLeaf => ofLeaf _ (.self h _) isScalar ▸ .scalar isScalar
  | .items inside, ofLeaf => by
    rw [ofNode]
    exact .items (inside.map ofNode fun w member u contained =>
      ofLeaf u (contained.of_mem member))

theorem UnfoldsAll.map {f : α → β} {leaf' : Value → β} {node' : List β → β}
    (ofNode : ∀ parts, f (node parts) = node' (parts.map f)) {values : List Value} {as : List α} :
    UnfoldsAll leaf node h values as →
      (∀ v ∈ values, ∀ w, h.Contains v w → w.isList = false → f (leaf w) = leaf' w) →
      UnfoldsAll leaf' node' h values (as.map f)
  | .nil, _ => .nil
  | .cons first others, ofLeaves => by
    obtain ⟨ofFirst, ofOthers⟩ := List.forall_mem_cons.mp ofLeaves
    exact .cons (first.map ofNode ofFirst) (others.map ofNode ofOthers)

end

mutual

/-- Only values without cycles unfold. -/
theorem Unfolds.acyclic {v : Value} {a : α} : Unfolds leaf node h v a → h.Acyclic v
  | .scalar isScalar => fun _ reached => absurd reached (not_reaches_of_scalar isScalar)
  | .items inside => acyclic_list inside.acyclic

theorem UnfoldsAll.acyclic {values : List Value} {as : List α} :
    UnfoldsAll leaf node h values as → ∀ w ∈ values, h.Acyclic w
  | .nil => by simp
  | .cons first others => List.forall_mem_cons.mpr ⟨first.acyclic, others.acyclic⟩

end

theorem unfoldsAll_map {f : Value → α} {values : List Value}
    (each : ∀ v ∈ values, Unfolds leaf node h v (f v)) :
    UnfoldsAll leaf node h values (values.map f) := by
  induction values with
  | nil => exact .nil
  | cons v rest ih =>
    obtain ⟨first, others⟩ := List.forall_mem_cons.mp each
    exact .cons first (ih others)

/-- The summary of a value without cycles is made along its tree: no list that is open is
met again, and a list that is opened is there, or has nothing in it. -/
theorem unfolds_summary (mark : α) {n : Nat} {opened : List ListId} (entered : Entered h n opened)
    (acyclic : h.Acyclic v) (apart : ∀ l ∈ opened, ¬ h.Reaches v l) :
    Unfolds leaf node h v (h.summary leaf mark node n opened v) := by
  induction n generalizing opened v with
  | zero => exact absurd entered.positive (Nat.lt_irrefl 0)
  | succ n ih =>
    cases v with
    | list l =>
      have new : l ∉ opened := fun isOpen => apart l isOpen (.here rfl)
      rw [summary, if_neg new]
      refine .items (unfoldsAll_map fun w member => ?_)
      obtain ⟨c, element, -⟩ := List.mem_map.mp member
      have there : l.index < h.lists.size := lt_count_of_mem (Array.mem_toList_iff.mp element)
      refine ih (entered.cons new there) (acyclic.of_mem member) fun k isOpen reached => ?_
      rcases List.mem_cons.mp isOpen with rfl | before
      · exact acyclic k (.here rfl) w member reached
      · exact apart k before (reached.of_mem member)
    | none | int | float | bool | str => exact .scalar rfl

end

/-- The tree of a value. -/
abbrev HasTree (h : Heap) (v : Value) (t : Snapshot) : Prop :=
  Unfolds leafSnapshot .list h v t

/-- The snapshot of a value without cycles is its tree. -/
theorem Acyclic.hasTree (acyclic : h.Acyclic v) : h.HasTree v (h.snapshot v) := by
  rw [snapshot, capture_eq]
  exact unfolds_summary _ (entered_nil h) acyclic (by simp)

theorem Unfolds.snapshot_eq {t : Snapshot} (tree : h.HasTree v t) : h.snapshot v = t :=
  tree.acyclic.hasTree.unique tree

/-- The text of a list from those of its items. -/
def bracketed (items : List String) : String :=
  "[" ++ ", ".intercalate items ++ "]"

/-- The text of a value without cycles, as it stands inside a list, is made along its tree. -/
theorem Acyclic.unfolds_nestedText (acyclic : h.Acyclic v) :
    Unfolds leafText bracketed h v (h.nestedText (h.lists.size + 1) [] v) := by
  rw [nestedText_eq]
  exact unfolds_summary _ (entered_nil h) acyclic (by simp)

/-! ## Scalars -/

theorem eq_of_leafSnapshot (left : v.isList = false) (right : w.isList = false)
    (same : leafSnapshot v = leafSnapshot w) : v = w := by
  cases v <;> cases w <;> simp_all [leafSnapshot, Value.isList]

theorem leafSnapshot_ne_list {trees : List Snapshot} : leafSnapshot v ≠ .list trees := by
  cases v <;> simp [leafSnapshot]

theorem eq_of_scalarEq (left : h.FloatFree v) (right : h.FloatFree w) (equal : v.scalarEq w) :
    v = w := by
  have plain : ∀ x, v ≠ .float x := fun x is => left x (.inl is.symm)
  have plain' : ∀ x, w ≠ .float x := fun x is => right x (.inl is.symm)
  cases v <;> cases w <;> simp_all [Value.scalarEq]

theorem scalarEq_self (free : h.FloatFree v) (scalar : v.isList = false) : v.scalarEq v := by
  cases v with
  | float x => exact absurd (.self h _) (free x)
  | list l => cases scalar
  | none | int | bool | str => simp [Value.scalarEq]

/-! ## Trees and equality -/

/-- Lists with one and the same tree. -/
def SameTree (h : Heap) (l k : ListId) : Prop :=
  ∃ t, h.HasTree (.list l) t ∧ h.HasTree (.list k) t ∧ h.FloatFree (.list l)

theorem matches_of_hasTree {t t' : Snapshot} (left : h.HasTree v t) (right : h.HasTree w t')
    (same : t = t') (free : h.FloatFree v) : v.Matches h.SameTree w := by
  cases left with
  | scalar isScalar =>
    cases right with
    | scalar isScalar' =>
      obtain rfl := eq_of_leafSnapshot isScalar isScalar' same
      exact .scalars (scalarEq_self free isScalar)
    | items => exact absurd same leafSnapshot_ne_list
  | items inside =>
    cases right with
    | scalar => exact absurd same.symm leafSnapshot_ne_list
    | items inside' => exact .lists ⟨_, .items inside, same ▸ .items inside', free⟩

theorem forall₂_of_unfoldsAll {as bs : List Value} {ts : List Snapshot}
    (left : UnfoldsAll leafSnapshot .list h as ts) (right : UnfoldsAll leafSnapshot .list h bs ts)
    (free : ∀ a ∈ as, h.FloatFree a) : List.Forall₂ (Value.Matches h.SameTree) as bs := by
  induction ts generalizing as bs with
  | nil =>
    cases left
    cases right
    exact .nil
  | cons t ts ih =>
    cases left with
    | cons first others =>
      cases right with
      | cons first' others' =>
        obtain ⟨freeFirst, freeOthers⟩ := List.forall_mem_cons.mp free
        exact .cons (matches_of_hasTree first first' rfl freeFirst) (ih others others' freeOthers)

theorem sameTree_bisimulation (h : Heap) : h.Bisimulation h.SameTree := by
  rintro l k ⟨t, left, right, free⟩
  cases left with
  | scalar isScalar => cases isScalar
  | items inside =>
    cases right with
    | items inside' =>
      exact .inr (forall₂_of_unfoldsAll inside inside' fun _ member => free.of_mem member)

variable {R : ListId → ListId → Prop}

mutual

/-- Values that a bisimulation cannot tell apart have the same tree. -/
theorem Unfolds.eq_of_matches (bisimulation : h.Bisimulation R) {v w : Value} {t t' : Snapshot} :
    h.HasTree v t → h.HasTree w t' → v.Matches R w → h.FloatFree v → h.FloatFree w → t = t'
  | .scalar isScalar, right, .scalars equal, free, free' => by
    obtain rfl := eq_of_scalarEq free free' equal
    exact Unfolds.unique (.scalar isScalar) right
  | .items inside, .items inside', .lists related, free, free' => by
    rcases bisimulation _ _ related with rfl | items
    · rw [inside.unique inside']
    · rw [inside.eq_of_matches bisimulation inside' items (fun _ member => free.of_mem member)
        fun _ member => free'.of_mem member]

theorem UnfoldsAll.eq_of_matches (bisimulation : h.Bisimulation R) {as bs : List Value}
    {ts ts' : List Snapshot} :
    UnfoldsAll leafSnapshot .list h as ts → UnfoldsAll leafSnapshot .list h bs ts' →
      List.Forall₂ (Value.Matches R) as bs → (∀ a ∈ as, h.FloatFree a) →
      (∀ b ∈ bs, h.FloatFree b) → ts = ts'
  | .nil, .nil, _, _, _ => rfl
  | .cons first others, .cons first' others', .cons is items, free, free' => by
    obtain ⟨freeFirst, freeOthers⟩ := List.forall_mem_cons.mp free
    obtain ⟨freeFirst', freeOthers'⟩ := List.forall_mem_cons.mp free'
    rw [first.eq_of_matches bisimulation first' is freeFirst freeFirst',
      others.eq_of_matches bisimulation others' items freeOthers freeOthers']

end

/-- Values with the same tree are equal. -/
theorem equal_of_hasTree {t : Snapshot} (left : h.HasTree v t) (right : h.HasTree w t)
    (free : h.FloatFree v) : h.equal v w := by
  apply equal_of_bisimilar
  cases matches_of_hasTree left right rfl free with
  | scalars equal =>
    obtain ⟨isScalar, isScalar'⟩ := Value.not_isList_of_scalarEq equal
    exact .scalars isScalar isScalar' equal
  | lists related => exact .lists (sameTree_bisimulation h) related

/-- Equal values have the same tree. -/
theorem hasTree_eq_of_equal {t t' : Snapshot} (left : h.HasTree v t) (right : h.HasTree w t')
    (free : h.FloatFree v) (free' : h.FloatFree w) (equal : h.equal v w) : t = t' := by
  cases bisimilar_of_equal equal with
  | scalars _ _ equal =>
    have nothing : h.Bisimulation fun _ _ => False := fun _ _ => False.elim
    exact left.eq_of_matches nothing right (.scalars equal) free free'
  | lists bisimulation related =>
    exact left.eq_of_matches bisimulation right (.lists related) free free'

/-- Two values that reach no cycle and hold no floating-point number are equal exactly if
their snapshots are the same, whatever lists they share, inside each other or between them.
The rest of the heap may hold cycles. -/
theorem equal_eq_same_snapshot {a b : Value} (acyclic : h.Acyclic a) (acyclic' : h.Acyclic b)
    (free : h.FloatFree a) (free' : h.FloatFree b) :
    h.equal a b = (h.snapshot a).same (h.snapshot b) := by
  rw [Bool.eq_iff_iff, Snapshot.same_iff]
  constructor
  · exact hasTree_eq_of_equal acyclic.hasTree acyclic'.hasTree free free'
  · intro same
    exact equal_of_hasTree acyclic.hasTree (same ▸ acyclic'.hasTree) free

/-- The first list of a heap: `[1, "[...]"]`. The second holds it twice, the fourth holds it
and the third, which looks like it. The fifth list contains itself. -/
theorem equal_eq_same_snapshot_shared :
    let item : Value := .str "[...]"
    let h : Heap :=
      { cells := #[.fresh (.int 1), .fresh item, .fresh (.list ⟨0⟩), .fresh (.list ⟨0⟩),
          .fresh (.int 1), .fresh item, .fresh (.list ⟨0⟩), .fresh (.list ⟨2⟩), .fresh (.list ⟨4⟩)]
        lists := #[#[⟨0⟩, ⟨1⟩], #[⟨2⟩, ⟨3⟩], #[⟨4⟩, ⟨5⟩], #[⟨6⟩, ⟨7⟩], #[⟨8⟩]] }
    ¬ h.Acyclic (.list ⟨4⟩) ∧ (h.snapshot (.list ⟨1⟩)).same (h.snapshot (.list ⟨3⟩)) ∧
      h.equal (.list ⟨1⟩) (.list ⟨3⟩) := by
  intro item h
  have descends : h.Descends [⟨0⟩, ⟨1⟩, ⟨2⟩, ⟨3⟩] := by decide +kernel
  have free : ∀ l ∈ [⟨0⟩, ⟨1⟩, ⟨2⟩, ⟨3⟩], h.FloatFree (.list l) := by
    intro l listed x contained
    have plain : ∀ l ∈ [⟨0⟩, ⟨1⟩, ⟨2⟩, ⟨3⟩], ∀ w ∈ h.values l, w.ty ≠ .float := by decide +kernel
    rcases descends.contained listed contained with same | ⟨k, known, member⟩
    · cases same
    · exact plain k known _ member rfl
  have same : (h.snapshot (.list ⟨1⟩)).same (h.snapshot (.list ⟨3⟩)) := by decide +kernel
  refine ⟨fun acyclic => ?_, same, ?_⟩
  · have holds : .list ⟨4⟩ ∈ h.values ⟨4⟩ := by decide +kernel
    exact acyclic ⟨4⟩ (.here rfl) _ holds (.here rfl)
  · rw [equal_eq_same_snapshot (descends.acyclic (by simp)) (descends.acyclic (by simp))
      (free _ (by simp)) (free _ (by simp))]
    exact same

/-- Neither condition can be left out: a number that equals no number has a snapshot like any
other, and a list that contains itself has the snapshot of a list of one string. -/
example :
    let nan : Value := .float .invalid
    let h : Heap :=
      { cells := #[.fresh nan, .fresh nan, .fresh (.list ⟨2⟩), .fresh (.str "[...]")]
        lists := #[#[⟨0⟩], #[⟨1⟩], #[⟨2⟩], #[⟨3⟩]] }
    ¬ h.equal (.list ⟨0⟩) (.list ⟨1⟩) ∧ (h.snapshot (.list ⟨0⟩)).same (h.snapshot (.list ⟨1⟩)) ∧
      ¬ h.equal (.list ⟨2⟩) (.list ⟨3⟩) ∧
      (h.snapshot (.list ⟨2⟩)).same (h.snapshot (.list ⟨3⟩)) := by decide +kernel

end Heap

end TraceLang
