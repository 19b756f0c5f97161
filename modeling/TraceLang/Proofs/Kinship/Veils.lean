/-
# TraceLang.Proofs.Kinship.Veils — heaps that differ in secret payloads only

A variable can be secret between two heaps: it has no value yet, it is an element
of no list, and what it happens to hold in one heap and in the other is some
scalar each time. `h.Veils secret h'` says that two heaps differ at most in the
payloads of secret variables.

Nothing that follows the lists of a value can tell such heaps apart
(`Veils.text`, `Veils.equal`, `Veils.snapshot`), and no operation of the heap can:
it answers the same and leaves heaps that differ as little (`Veils.newList`,
`Veils.deepCopy`, ...). An assignment makes its variable known to both.

Between tracers the same holds, apart from the baselines of secret variables that
are watched. No change of such a variable is ever recorded.
-/
import TraceLang.Proofs.Tracing
import TraceLang.Proofs.Walks

namespace TraceLang

set_option autoImplicit false

namespace Heap

variable {secret : CellId → Prop} {h h' k k' : Heap}

theorem read_alloc (h : Heap) (v : Variable) (c : CellId) :
    (h.alloc v).2.read c = if c.index = h.cells.size then v else h.read c := by
  rcases Nat.lt_trichotomy c.index h.cells.size with old | new | outside
  · rw [if_neg (Nat.ne_of_lt old), (grows_alloc h v).cells c old]
  · simp [alloc, read, Array.getD, new]
  · have beyond : ¬ c.index < h.cells.size + 1 := by omega
    simp [alloc, read, Array.getD, beyond, Nat.ne_of_gt outside, Nat.not_lt_of_gt outside]

/-- The payload of the variable may differ between the heaps without harm. -/
structure Secret (h h' : Heap) (c : CellId) : Prop where
  old : c.index < h.cells.size
  unassigned : (h.read c).assigned = false
  same : h'.read c = { h.read c with value := (h'.read c).value }
  scalar : (h.read c).value.isList = false
  scalar' : (h'.read c).value.isList = false
  loose : ∀ l, c ∉ h.elements l

theorem Secret.congr {c : CellId} (kept : h.Secret h' c) (size : h.cells.size ≤ k.cells.size)
    (read : k.read c = h.read c) (read' : k'.read c = h'.read c) (loose : ∀ l, c ∉ k.elements l) :
    k.Secret k' c where
  old := Nat.lt_of_lt_of_le kept.old size
  unassigned := by rw [read, kept.unassigned]
  same := by rw [read, read', ← kept.same]
  scalar := by rw [read, kept.scalar]
  scalar' := by rw [read', kept.scalar']
  loose := loose

/-- The heaps differ at most in the payloads of the secret variables. -/
structure Veils (secret : CellId → Prop) (h h' : Heap) : Prop where
  lists : h'.lists = h.lists
  size : h'.cells.size = h.cells.size
  shown : ∀ c, ¬ secret c → h'.read c = h.read c
  kept : ∀ c, secret c → h.Secret h' c

namespace Veils

theorem refl (h : Heap) : h.Veils (fun _ => False) h :=
  ⟨rfl, rfl, fun _ _ => rfl, fun _ none => none.elim⟩

/-- Where nothing is secret, the heaps are the same. -/
theorem eq (veils : h.Veils secret h') (nothing : ∀ c, ¬ secret c) : h' = h := by
  obtain ⟨cells, lists⟩ := h
  obtain ⟨cells', lists'⟩ := h'
  obtain ⟨rfl, size, shown, -⟩ := veils
  congr 1
  refine Array.ext size fun i inside' inside => ?_
  have read := shown ⟨i⟩ (nothing _)
  simpa [Heap.read, Array.getD, inside, inside'] using read

variable (veils : h.Veils secret h')

include veils

/-! ## What can be seen of a heap -/

theorem elements (l : ListId) : h'.elements l = h.elements l := by
  rw [Heap.elements, veils.lists, Heap.elements]

theorem read_element {l : ListId} {c : CellId} (member : c ∈ h.elements l) :
    h'.read c = h.read c :=
  veils.shown c fun isSecret => (veils.kept c isSecret).loose l member

theorem values (l : ListId) : h'.values l = h.values l := by
  unfold Heap.values
  rw [veils.elements l]
  refine List.map_congr_left fun c member => ?_
  rw [veils.read_element (Array.mem_toList_iff.mp member)]

theorem summary {α : Type} (leaf : Value → α) (mark : α) (node : List α → α) (n : Nat)
    (opened : List ListId) (v : Value) :
    h'.summary leaf mark node n opened v = h.summary leaf mark node n opened v := by
  induction n generalizing opened v with
  | zero => cases v <;> rfl
  | succ n ih =>
    cases v with
    | list l =>
      simp only [Heap.summary]
      rw [veils.values l, funext (ih (l :: opened))]
    | _ => rfl

theorem snapshot (v : Value) : h'.snapshot v = h.snapshot v := by
  simp only [Heap.snapshot, capture_eq, veils.lists, veils.summary]

theorem text (v : Value) : h'.text v = h.text v := by
  cases v with
  | list l => simp only [Heap.text, nestedText_eq, veils.lists, veils.summary]
  | _ => rfl

theorem valueDetail (n : Nat) (opened : List ListId) (v : Value) :
    h'.valueDetail n opened v = h.valueDetail n opened v := by
  induction n generalizing opened v with
  | zero => cases v <;> (unfold Heap.valueDetail; with_reducible rfl)
  | succ n ih =>
    cases v with
    | list l =>
      have each : List.Forall₂ (fun c c' => c' = c ∧ c ∈ h.elements l) (h.elements l).toList
          (h.elements l).toList :=
        List.forall₂_same.mpr fun c member => ⟨rfl, Array.mem_toList_iff.mp member⟩
      rw [valueDetail_list, valueDetail_list, veils.elements, mapM_eq_of_forall₂ each]
      rintro c _ ⟨rfl, member⟩
      unfold itemDetail
      rw [veils.read_element member, ih]
    | none | int | float | bool | str =>
      unfold Heap.valueDetail
      with_reducible rfl

theorem detail (v : Variable) : h'.detail v = h.detail v := by
  simp only [Heap.detail, veils.lists, veils.valueDetail]

theorem compare (n : Nat) : h'.compare n = h.compare n := by
  induction n with
  | zero =>
    funext pairs a b
    cases a <;> cases b <;> rfl
  | succ n ih =>
    funext pairs a b
    cases a <;> cases b
    case list.list l k =>
      simp only [Heap.compare, veils.elements, veils.values, ih]
    all_goals rfl

theorem equal (a b : Value) : h'.equal a b = h.equal a b := by
  simp only [Heap.equal, veils.lists, veils.compare]

/-! ## Additions -/

/-- No secret variable is one that is still to be made. -/
theorem not_secret_of_le {c : CellId} (new : h.cells.size ≤ c.index) : ¬ secret c :=
  fun isSecret => Nat.not_lt_of_ge new (veils.kept c isSecret).old

/-- Other lists in both heaps, without secret variables among their elements. -/
theorem withLists (lists : Array (Array CellId))
    (loose : ∀ c, secret c → ∀ l, c ∉ ({ h with lists } : Heap).elements l) :
    ({ h with lists } : Heap).Veils secret { h' with lists } where
  lists := rfl
  size := veils.size
  shown := veils.shown
  kept c isSecret := (veils.kept c isSecret).congr (Nat.le_refl _) rfl rfl (loose c isSecret)

theorem alloc (v : Variable) :
    (h'.alloc v).1 = (h.alloc v).1 ∧ (h.alloc v).2.Veils secret (h'.alloc v).2 := by
  refine ⟨congrArg CellId.mk veils.size, veils.lists, ?_,
    fun c notSecret => ?_, fun c isSecret => ?_⟩
  · rw [size_alloc, size_alloc, veils.size]
  · rw [read_alloc, read_alloc, veils.size, veils.shown c notSecret]
  · have kept := veils.kept c isSecret
    have grows' := grows_alloc h' v
    exact kept.congr (grows_alloc h v).size ((grows_alloc h v).cells c kept.old)
      (grows'.cells c (veils.size ▸ kept.old)) kept.loose

theorem allocList (items : Array CellId) (apart : ∀ c ∈ items, ¬ secret c) :
    (h'.allocList items).1 = (h.allocList items).1 ∧
      (h.allocList items).2.Veils secret (h'.allocList items).2 := by
  have sameLists : h'.lists.push items = h.lists.push items := by rw [veils.lists]
  refine ⟨by simp only [Heap.allocList, veils.lists], ?_⟩
  simp only [Heap.allocList, sameLists]
  refine veils.withLists _ fun c isSecret l member => ?_
  rcases elements_allocList h items l with same | same
  · exact (veils.kept c isSecret).loose l (same ▸ member)
  · exact apart c (same ▸ member) isSecret

theorem setElements (l : ListId) {items : Array CellId} (apart : ∀ c ∈ items, ¬ secret c) :
    (h.setElements l items).Veils secret (h'.setElements l items) := by
  simp only [Heap.setElements, veils.lists]
  refine veils.withLists _ fun c isSecret j member => ?_
  by_cases same : j = l
  · subst same
    have old : j.index < h.lists.size := by
      simpa [Heap.setElements] using lt_count_of_mem (h := h.setElements j items) member
    exact apart c (elements_setElements_self old items ▸ member) isSecret
  · exact (veils.kept c isSecret).loose j (elements_setElements_ne same items ▸ member)

theorem push (l : ListId) (v : Value) : (h.push l v).Veils secret (h'.push l v) := by
  obtain ⟨sameCell, more⟩ := veils.alloc (.fresh v)
  have shape : h'.push l v =
      { (h'.alloc (.fresh v)).2 with lists := (h.push l v).lists } := by
    simp only [Heap.push, sameCell]
    simp only [Heap.alloc, veils.lists]
  rw [shape]
  refine more.withLists _ fun c isSecret j member => ?_
  change c ∈ (h.push l v).elements j at member
  have kept := veils.kept c isSecret
  by_cases same : j = l
  · subst same
    have old : j.index < h.lists.size := by
      simpa [Heap.push, Heap.alloc] using lt_count_of_mem member
    rw [elements_push_self old, Array.mem_push] at member
    rcases member with inside | rfl
    · exact kept.loose j inside
    · exact Nat.lt_irrefl _ kept.old
  · exact kept.loose j (elements_push_ne same v ▸ member)

omit veils in
theorem allocAll (values : List Value) : ∀ {h h' : Heap} (cells : Array CellId),
    h.Veils secret h' → (∀ c ∈ cells, ¬ secret c) →
    (h'.allocAll values cells).1 = (h.allocAll values cells).1 ∧
      (h.allocAll values cells).2.Veils secret (h'.allocAll values cells).2 ∧
      ∀ c ∈ (h.allocAll values cells).1, ¬ secret c := by
  induction values with
  | nil => exact fun _ veils apart => ⟨rfl, veils, apart⟩
  | cons v rest ih =>
    intro h h' cells veils apart
    obtain ⟨sameCell, more⟩ := veils.alloc (.fresh v)
    simp only [Heap.allocAll, sameCell]
    refine ih _ more fun c member => ?_
    rcases Array.mem_push.mp member with inside | rfl
    · exact apart c inside
    · exact veils.not_secret_of_le (Nat.le_refl _)

theorem newList (values : List Value) :
    (h'.newList values).1 = (h.newList values).1 ∧
      (h.newList values).2.Veils secret (h'.newList values).2 := by
  obtain ⟨sameCells, more, apart⟩ := allocAll values #[] veils (by simp)
  obtain ⟨sameList, more'⟩ := more.allocList _ apart
  simp only [Heap.newList, sameCells]
  exact ⟨congrArg Value.list sameList, more'⟩

end Veils

end Heap

/-! ## Copies -/

/-- Two copies have proceeded alike. -/
structure Copying.Veils (secret : CellId → Prop) (st st' : Copying) : Prop where
  begun : st'.begun = st.begun
  heap : st.heap.Veils secret st'.heap

namespace Heap

variable {secret : CellId → Prop} {h h' : Heap}

/-- The copy of a value is the same and leaves copies that have proceeded alike. -/
def CopiesAlike (secret : CellId → Prop) (copy : Value → Copying → Value × Copying) : Prop :=
  ∀ v (st st' : Copying), st.Veils secret st' →
    (copy v st').1 = (copy v st).1 ∧ (copy v st).2.Veils secret (copy v st').2

theorem copyAll_alike {copy : Value → Copying → Value × Copying} (alike : CopiesAlike secret copy)
    (values : List Value) : ∀ (cells : Array CellId) (st st' : Copying), st.Veils secret st' →
    (∀ c ∈ cells, ¬ secret c) →
    (copyAll copy values cells st').1 = (copyAll copy values cells st).1 ∧
      (copyAll copy values cells st).2.Veils secret (copyAll copy values cells st').2 ∧
      ∀ c ∈ (copyAll copy values cells st).1, ¬ secret c := by
  induction values with
  | nil => exact fun _ _ _ veils apart => ⟨rfl, veils, apart⟩
  | cons v rest ih =>
    intro cells st st' veils apart
    obtain ⟨sameValue, copied⟩ := alike v st st' veils
    obtain ⟨sameCell, more⟩ := copied.heap.alloc (.fresh (copy v st).1)
    simp only [copyAll, sameValue, sameCell]
    refine ih _ _ _ ⟨copied.begun, more⟩ fun c member => ?_
    rcases Array.mem_push.mp member with inside | rfl
    · exact apart c inside
    · exact copied.heap.not_secret_of_le (Nat.le_refl _)

theorem copyWithin_alike (n : Nat) : CopiesAlike secret (copyWithin n) := by
  induction n with
  | zero => exact fun v st st' veils => ⟨rfl, veils⟩
  | succ n ih =>
    intro v st st' veils
    cases v with
    | list l =>
      unfold copyWithin
      rw [veils.begun]
      cases st.begun.lookup l with
      | some copy => exact ⟨rfl, veils⟩
      | none =>
        obtain ⟨sameList, more⟩ := veils.heap.allocList #[] (by simp)
        simp only [sameList, veils.heap.values]
        obtain ⟨sameCells, copied, apart⟩ := copyAll_alike ih (st.heap.values l) #[]
          ⟨(st.heap.allocList #[]).2, (l, (st.heap.allocList #[]).1) :: st.begun⟩
          ⟨(st'.heap.allocList #[]).2, (l, (st.heap.allocList #[]).1) :: st.begun⟩
          ⟨rfl, more⟩ (by simp)
        refine ⟨trivial, copied.begun, ?_⟩
        simp only [sameCells]
        exact copied.heap.setElements _ apart
    | none | int | float | bool | str => exact ⟨rfl, veils⟩

theorem Veils.deepCopy (veils : h.Veils secret h') (v : Value) :
    (h'.deepCopy v).1 = (h.deepCopy v).1 ∧ (h.deepCopy v).2.Veils secret (h'.deepCopy v).2 := by
  obtain ⟨sameValue, copied⟩ :=
    copyWithin_alike (h.lists.size + 1) v { heap := h } { heap := h' } ⟨rfl, veils⟩
  simp only [Heap.deepCopy, veils.lists]
  exact ⟨sameValue, copied.heap⟩

theorem Veils.default? (veils : h.Veils secret h') (ty : Ty) :
    ((h'.default? ty).getD (.none, h')).1 = ((h.default? ty).getD (.none, h)).1 ∧
      ((h.default? ty).getD (.none, h)).2.Veils secret ((h'.default? ty).getD (.none, h')).2 := by
  unfold Heap.default?
  cases ty.registered? with
  | none => exact ⟨rfl, veils⟩
  | some v => exact veils.deepCopy v

/-! ## Changes of one variable -/

theorem Veils.read_modify (veils : h.Veils secret h') (c d : CellId) (f : Variable → Variable) :
    (h.modify c f).read d = h.read d ∧ (h'.modify c f).read d = h'.read d ∨
      d = c ∧ (h.modify c f).read d = f (h.read d) ∧ (h'.modify c f).read d = f (h'.read d) := by
  by_cases same : d = c
  · subst same
    by_cases old : d.index < h.cells.size
    · exact .inr ⟨rfl, read_modify_self old f, read_modify_self (veils.size ▸ old) f⟩
    · have old' : ¬ d.index < h'.cells.size := veils.size ▸ old
      exact .inl (by simp [Heap.modify, Heap.read, Array.getD, old, old'])
  · exact .inl ⟨read_modify_ne same f, read_modify_ne same f⟩

theorem Veils.mark (veils : h.Veils secret h') (c : CellId) :
    (h.modify c fun v => { v with traced := true }).Veils secret
      (h'.modify c fun v => { v with traced := true }) where
  lists := veils.lists
  size := by simp [veils.size]
  shown d notSecret := by
    rcases veils.read_modify c d fun v => { v with traced := true } with
      ⟨read, read'⟩ | ⟨-, read, read'⟩
    all_goals rw [read, read', veils.shown d notSecret]
  kept d isSecret := by
    have kept := veils.kept d isSecret
    rcases veils.read_modify c d fun v => { v with traced := true } with
      ⟨read, read'⟩ | ⟨-, read, read'⟩
    · exact kept.congr (by simp) read read' kept.loose
    · refine ⟨by simpa using kept.old, ?_, ?_, ?_, ?_, kept.loose⟩
      · rw [read, kept.unassigned]
      · rw [read, read', kept.same]
      · rw [read, kept.scalar]
      · rw [read', kept.scalar']

/-- An assigned variable is no secret. -/
theorem Veils.assign (veils : h.Veils secret h') (c : CellId) (v : Value) :
    (h.assign c v).Veils (fun d => secret d ∧ d ≠ c) (h'.assign c v) where
  lists := veils.lists
  size := by simp [Heap.assign, veils.size]
  shown d notSecret := by
    unfold Heap.assign
    by_cases isSecret : secret d
    · have same : d = c := by_contra fun different => notSecret ⟨isSecret, different⟩
      have kept := veils.kept d isSecret
      subst same
      rw [read_modify_self kept.old, read_modify_self (veils.size ▸ kept.old), kept.same]
      rfl
    · rcases veils.read_modify c d (·.assign v) with ⟨read, read'⟩ | ⟨-, read, read'⟩
      all_goals rw [read, read', veils.shown d isSecret]
  kept d isSecret := by
    have kept := veils.kept d isSecret.1
    exact kept.congr (by simp [Heap.assign]) (read_modify_ne isSecret.2 _)
      (read_modify_ne isSecret.2 _) kept.loose

/-- The snapshot of a scalar does not depend on the heap. -/
theorem snapshot_scalar {v : Value} (scalar : v.isList = false) (h k : Heap) :
    k.snapshot v = h.snapshot v := by
  cases v with
  | list => cases scalar
  | none | int | float | bool | str => rfl

end Heap

/-! ## Histories -/

namespace Watched

variable {secret : CellId → Prop} {h h' k k' : Heap} {w w' : Watched}

/-- The notes about a watched variable are the same, unless the variable is
secret: then the payload last seen may differ, and nothing has happened since. -/
structure Veils (secret : CellId → Prop) (h h' : Heap) (w w' : Watched) : Prop where
  shown : ¬ secret w.cell → w' = w
  same : w' = { w with seen := w'.seen }
  quiet : secret w.cell → w.change? h = none
  quiet' : secret w.cell → w'.change? h' = none

/-- Whether a variable with a scalar has changed depends on the variable only. -/
theorem change?_congr (scalar : (h.read w.cell).value.isList = false)
    (value : (k.read w.cell).value = (h.read w.cell).value)
    (version : (k.read w.cell).version = (h.read w.cell).version) :
    w.change? k = w.change? h := by
  simp only [change?, value, version, Heap.snapshot_scalar scalar h k]

/-- Secret variables that keep value and version keep the notes about them as
they are. -/
theorem Veils.congr (veils : w.Veils secret h h' w')
    (kept : ∀ c, secret c → h.Secret h' c)
    (reads : ∀ c, secret c → (k.read c).value = (h.read c).value ∧
      (k.read c).version = (h.read c).version)
    (reads' : ∀ c, secret c → (k'.read c).value = (h'.read c).value ∧
      (k'.read c).version = (h'.read c).version) : w.Veils secret k k' w' where
  shown := veils.shown
  same := veils.same
  quiet isSecret := by
    obtain ⟨value, version⟩ := reads _ isSecret
    rw [change?_congr (kept _ isSecret).scalar value version, veils.quiet isSecret]
  quiet' isSecret := by
    have cell : w'.cell = w.cell := by rw [veils.same]
    obtain ⟨value, version⟩ := reads' _ isSecret
    rw [change?_congr (h := h') (by rw [cell]; exact (kept _ isSecret).scalar')
      (by rw [cell]; exact value) (by rw [cell]; exact version), veils.quiet' isSecret]

/-- A variable that is no secret, with the same notes about it. -/
theorem veils_self (notSecret : ¬ secret w.cell) : w.Veils secret h h' w :=
  ⟨fun _ => rfl, rfl, fun isSecret => absurd isSecret notSecret,
    fun isSecret => absurd isSecret notSecret⟩

/-- The notes agree, or they are about a variable that has been assigned to and is
a secret no longer. -/
def Pending (secret : CellId → Prop) (h h' : Heap) (w w' : Watched) : Prop :=
  w.Veils secret h h' w' ∨
    ¬ secret w.cell ∧ w' = { w with seen := w'.seen } ∧ (h.read w.cell).version ≠ w.seenVersion

theorem seenVersion_of_quiet (quiet : w.change? h = none) :
    w.seenVersion = (h.read w.cell).version := by
  by_contra ahead
  have different : ¬ (h.read w.cell).version = w.seenVersion := fun same => ahead same.symm
  simp only [change?, different, false_and, if_false, reduceCtorEq] at quiet

/-- An assignment makes a secret variable known: its notes wait for an observation. -/
theorem Veils.assign (notes : w.Veils secret h h' w') (heaps : h.Veils secret h') (c : CellId)
    (v : Value) :
    w.Pending (fun d => secret d ∧ d ≠ c) (h.assign c v) (h'.assign c v) w' := by
  by_cases isSecret : secret w.cell
  · by_cases same : w.cell = c
    · refine .inr ⟨fun both => both.2 same, notes.same, ?_⟩
      have counted : ((h.assign c v).read w.cell).version = (h.read w.cell).version + 1 := by
        rw [← same, Heap.assign, Heap.read_modify_self (heaps.kept _ isSecret).old]
        rfl
      have seen := seenVersion_of_quiet (notes.quiet isSecret)
      omega
    · have apart (h : Heap) (d : CellId) (other : d ≠ c) : (h.assign c v).read d = h.read d :=
        Heap.read_modify_ne other _
      have before : w.Veils (fun d => secret d ∧ d ≠ c) h h' w' :=
        ⟨fun shown => absurd ⟨isSecret, same⟩ shown, notes.same, fun both => notes.quiet both.1,
          fun both => notes.quiet' both.1⟩
      refine .inl (before.congr (fun d both => heaps.kept d both.1) (fun d both => ?_)
        fun d both => ?_)
      · rw [apart h d both.2]
        exact ⟨rfl, rfl⟩
      · rw [apart h' d both.2]
        exact ⟨rfl, rfl⟩
  · rw [notes.shown isSecret]
    exact .inl (veils_self fun both => isSecret both.1)

/-- An observation is the same, and after it the notes agree. -/
theorem Pending.observe (pending : w.Pending secret h h' w') (veils : h.Veils secret h')
    (step : Nat) (span : Span) :
    (w'.observe h' step span).1 = (w.observe h step span).1 ∧
      (w.observe h step span).2.Veils secret h h' (w'.observe h' step span).2 := by
  by_cases isSecret : secret w.cell
  · rcases pending with notes | ⟨notSecret, -⟩
    · simp only [Watched.observe, notes.quiet isSecret, notes.quiet' isSecret]
      exact ⟨trivial, notes⟩
    · exact absurd isSecret notSecret
  · have read := veils.shown _ isSecret
    rcases pending with notes | ⟨-, same, ahead⟩
    · -- The notes are the same, and so is all that can be seen.
      have change : w.change? h' = w.change? h := by
        simp only [change?, read, veils.snapshot]
      rw [notes.shown isSecret]
      simp only [Watched.observe, change, read]
      refine ⟨trivial, veils_self ?_⟩
      cases w.change? h <;> exact isSecret
    · have change : w.change? h = some (h.snapshot (h.read w.cell).value) := by
        simp only [change?, ahead, false_and, if_false]
      have change' : w'.change? h' = some (h.snapshot (h.read w.cell).value) := by
        rw [same]
        simp only [change?, read, veils.snapshot, ahead, false_and, if_false]
      simp only [Watched.observe, change, change']
      rw [same]
      simp only [read]
      exact ⟨trivial, veils_self isSecret⟩

end Watched

namespace Tracer

variable {secret : CellId → Prop} {h h' k k' : Heap} {t t' : Tracer}

/-- The notes about all watched variables agree. -/
def Veils (secret : CellId → Prop) (h h' : Heap) (t t' : Tracer) : Prop :=
  List.Forall₂ (Watched.Veils secret h h') t.watched.toList t'.watched.toList

theorem Veils.congr (veils : t.Veils secret h h' t') (kept : ∀ c, secret c → h.Secret h' c)
    (reads : ∀ c, secret c → (k.read c).value = (h.read c).value ∧
      (k.read c).version = (h.read c).version)
    (reads' : ∀ c, secret c → (k'.read c).value = (h'.read c).value ∧
      (k'.read c).version = (h'.read c).version) : t.Veils secret k k' t' :=
  List.Forall₂.imp (fun _ _ notes => notes.congr kept reads reads') veils

/-- Variables that are not watched can differ without a trace. -/
theorem veils_of_unwatched (unwatched : ∀ c, secret c → t.isWatching c = false) :
    t.Veils secret h h' t := by
  refine List.forall₂_same.mpr fun w member => Watched.veils_self fun isSecret => ?_
  have watching : t.isWatching w.cell := by
    simp only [isWatching, ← Array.any_toList, List.any_eq_true, decide_eq_true_eq]
    exact ⟨w, member, rfl⟩
  rw [unwatched _ isSecret] at watching
  cases watching

/-- Where nothing is secret, the notes are the same. -/
theorem Veils.eq (veils : t.Veils secret h h' t') (nothing : ∀ c, ¬ secret c) : t' = t := by
  have same : List.Forall₂ Eq t.watched.toList t'.watched.toList :=
    List.Forall₂.imp (fun w w' notes => (notes.shown (nothing _)).symm) veils
  obtain ⟨watched⟩ := t
  obtain ⟨watched'⟩ := t'
  rw [List.forall₂_eq_eq_eq] at same
  exact congrArg Tracer.mk (Array.toList_inj.mp same.symm)

theorem Veils.echoLines (veils : t.Veils secret h h' t') (step : Nat) :
    t'.watched.toList.filterMap (Machine.echoLine? step) =
      t.watched.toList.filterMap (Machine.echoLine? step) := by
  unfold Veils at veils
  generalize t.watched.toList = ws, t'.watched.toList = ws' at veils
  induction veils with
  | nil => rfl
  | @cons w w' _ _ notes _ ih =>
    have line : Machine.echoLine? step w' = Machine.echoLine? step w := by
      rw [notes.same]
      rfl
    simp only [List.filterMap_cons, line, ih]

/-- An update records the same changes in both, and after it the notes agree. -/
theorem update_alike
    (pending : List.Forall₂ (Watched.Pending secret h h') t.watched.toList t'.watched.toList)
    (veils : h.Veils secret h') (step : Nat) (span : Span) :
    (t'.update h' step span).1 = (t.update h step span).1 ∧
      (t.update h step span).2.Veils secret h h' (t'.update h' step span).2 := by
  obtain ⟨⟨ws⟩⟩ := t
  obtain ⟨⟨ws'⟩⟩ := t'
  simp only [update, Veils, List.map_toArray, List.countP_toArray]
  simp only at pending
  induction pending with
  | nil => exact ⟨rfl, .nil⟩
  | cons first _ ih =>
    obtain ⟨count, notes⟩ := ih
    obtain ⟨changed, notes'⟩ := first.observe veils step span
    simp only [List.map_cons, List.countP_cons, changed, count]
    exact ⟨trivial, .cons notes' notes⟩

theorem watch_alike (veils : t.Veils secret h h' t') (heaps : h.Veils secret h') (c : CellId)
    (label : String) :
    (t.watch h c label).Veils secret h h' (t'.watch h' c label) := by
  have count : t'.watched.size = t.watched.size := by
    simpa using (List.Forall₂.length_eq veils).symm
  unfold Veils watch
  simp only [Array.toList_push]
  refine List.rel_append veils (.cons ?_ .nil)
  have quiet (h : Heap) (id : Nat) (label : String) : Watched.change?
      { id, label, cell := c, seenVersion := (h.read c).version,
        seen := h.snapshot (h.read c).value } h = none := by
    simp only [Watched.change?, Snapshot.same_iff, and_self, if_true]
  refine ⟨fun notSecret => ?_, ?_, fun _ => quiet h _ label, fun _ => quiet h' _ label⟩
  · simp only [count, heaps.shown c notSecret, heaps.snapshot]
  · by_cases isSecret : secret c
    · simp only [count]
      rw [(heaps.kept c isSecret).same]
    · simp only [count, heaps.shown c isSecret]

end Tracer

end TraceLang
