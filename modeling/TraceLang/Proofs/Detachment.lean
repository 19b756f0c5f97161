/-
# TraceLang.Proofs.Detachment — copies share nothing and look the same

A copy is taken list by list: a new list is entered into a table while it is still
empty, and gets its elements when these have been copied. Meanwhile the copies of its
elements may refer to it. So a table entry is either open or finished, and what can be
said of one copying step is that all entries it adds are finished when it is over
(`Advances`); those that were open before are as they were. At the end none is open,
and the table is a one-to-one correspondence between the lists that the value reaches
and those that its copy reaches (`Reproduces`).

What a value shows depends on what it reaches and on nothing else. Value and copy reach
nothing in common, so a change of one is no change of the other: `Write.Hits` says which
changes concern a value, and what no change concerns stays as it is (`Keeps`).
-/
import TraceLang.Proofs.Supply
import TraceLang.Proofs.Walks

namespace TraceLang

set_option autoImplicit false

theorem exists_of_forall₂ {α β : Type} {r : α → β → Prop} {as : List α} {bs : List β}
    (like : List.Forall₂ r as bs) {a : α} (member : a ∈ as) : ∃ b ∈ bs, r a b := by
  induction like with
  | nil => cases member
  | @cons a' b _ _ first _ ih =>
    rcases List.mem_cons.mp member with rfl | later
    · exact ⟨b, List.mem_cons_self, first⟩
    · obtain ⟨b', member', related⟩ := ih later
      exact ⟨b', List.mem_cons_of_mem b member', related⟩

/-- The second list is the copy of the first, finished or not. -/
def Copying.Maps (st : Copying) (l l' : ListId) : Prop :=
  (l, l') ∈ st.begun

/-- The copy after a list has been begun, whose copy is empty so far. -/
abbrev Copying.begin (st : Copying) (l : ListId) : Copying where
  heap := (st.heap.allocList #[]).2
  begun := (l, (st.heap.allocList #[]).1) :: st.begun

theorem Value.like_of_scalar {lists : ListId → ListId → Prop} {v : Value}
    (scalar : v.isList = false) : v.Like lists v := by
  cases v with
  | list => cases scalar
  | none | int | float | bool | str => constructor

namespace Heap

variable {h h' : Heap} {lists : ListId → ListId → Prop} {v v' : Value} {c : CellId}
  {l l' : ListId} {st st' st'' : Copying}

/-! ## What a value reaches -/

/-- The lists that are reached from a value by going from lists to their elements. -/
inductive Reaches (h : Heap) (v : Value) : ListId → Prop
  | here {l : ListId} (isList : v = .list l) : Reaches h v l
  | inside {l k : ListId} (reached : Reaches h v l) (holds : .list k ∈ h.values l) : Reaches h v k

/-- The variables in the lists that are reached. -/
def ReachesCell (h : Heap) (v : Value) (c : CellId) : Prop :=
  ∃ l, h.Reaches v l ∧ c ∈ h.elements l

theorem Reaches.lt (grounded : h.Grounded) (within : v.Within h.lists.size)
    (reached : h.Reaches v l) : l.index < h.lists.size := by
  induction reached with
  | here isList => exact within _ isList
  | inside _ holds _ => exact grounded.values _ _ holds _ rfl

theorem Reaches.fits (reached : h.Reaches v l) : ∀ w ∈ h.values l, w.Fits (h.Reaches v) := by
  rintro _ holds k rfl
  exact .inside reached holds

theorem Resembles.flip (resembles : h.Resembles lists h') :
    h'.Resembles (fun l l' => lists l' l) h where
  unique := ⟨fun _ _ _ first second => resembles.unique.right first second,
    fun _ _ _ first second => resembles.unique.left first second⟩
  lt both := (resembles.lt both).symm
  values both := (resembles.values both).flip.imp fun _ _ like => like.flip

/-- What is reached on one side corresponds to something reached on the other. -/
theorem Resembles.reaches (resembles : h.Resembles lists h') (like : v.Like lists v')
    (reached : h.Reaches v l) : ∃ l', lists l l' ∧ h'.Reaches v' l' := by
  induction reached with
  | here isList =>
    subst isList
    cases like with
    | list both => exact ⟨_, both, .here rfl⟩
  | inside _ holds ih =>
    obtain ⟨l', both, reached'⟩ := ih
    obtain ⟨w', holds', like'⟩ := exists_of_forall₂ (resembles.values both) holds
    cases like' with
    | list both' => exact ⟨_, both', .inside reached' holds'⟩

/-! ## Copies in progress -/

/-- A copy out of the heap `h`: every list has one copy, which was not there before. -/
structure Progress (h : Heap) (st : Copying) : Prop where
  grows : h.Grows st.heap
  wired : st.heap.Wired
  originals : (st.begun.map Prod.fst).Nodup
  copies : (st.begun.map Prod.snd).Nodup
  old : ∀ {l l' : ListId}, st.Maps l l' → l.index < h.lists.size
  new : ∀ {l l' : ListId}, st.Maps l l' → h.lists.size ≤ l'.index
  there : ∀ {l l' : ListId}, st.Maps l l' → l'.index < st.heap.lists.size

theorem progress_start (wired : h.Wired) : Progress h { heap := h } where
  grows := .refl h
  wired := wired
  originals := List.nodup_nil
  copies := List.nodup_nil
  old begun := absurd begun List.not_mem_nil
  new begun := absurd begun List.not_mem_nil
  there begun := absurd begun List.not_mem_nil

theorem Progress.unique (progress : Progress h st) : Relator.BiUnique st.Maps where
  left _ _ _ first second :=
    congrArg Prod.fst (List.inj_on_of_nodup_map progress.copies first second rfl)
  right _ _ _ first second :=
    congrArg Prod.snd (List.inj_on_of_nodup_map progress.originals first second rfl)

/-- A list that was not begun before is begun. -/
theorem Progress.begin (progress : Progress h st) (new : st.begun.lookup l = none)
    (old : l.index < h.lists.size) : Progress h (st.begin l) where
  grows := progress.grows.trans (grows_allocList _ _)
  wired := wired_allocList progress.wired (by simp)
  originals := List.nodup_cons.mpr ⟨not_mem_of_lookup new, progress.originals⟩
  copies := by
    refine List.nodup_cons.mpr ⟨fun member => ?_, progress.copies⟩
    obtain ⟨p, listed, same⟩ := List.mem_map.mp member
    have inside := progress.there listed
    rw [same] at inside
    exact absurd inside (Nat.lt_irrefl _)
  old {k k'} begun := by
    rcases List.mem_cons.mp begun with same | before
    · cases same
      exact old
    · exact progress.old before
  new {k k'} begun := by
    rcases List.mem_cons.mp begun with same | before
    · cases same
      exact progress.grows.count
    · exact progress.new before
  there {k k'} begun := by
    have larger : (st.heap.allocList #[]).2.lists.size = st.heap.lists.size + 1 := by
      simp [allocList]
    rw [larger]
    rcases List.mem_cons.mp begun with same | before
    · cases same
      exact Nat.lt_succ_self _
    · exact Nat.lt_succ_of_lt (progress.there before)

/-- A copy gets its elements. -/
theorem Progress.setElements (progress : Progress h st) (begun : st.Maps l l')
    {cells : Array CellId} (valid : ∀ c ∈ cells, c.index < st.heap.cells.size) :
    Progress h { st with heap := st.heap.setElements l' cells } :=
  { progress with
    grows := progress.grows.setElements (progress.new begun) cells
    wired := wired_setElements progress.wired valid
    there := fun other => by simpa [Heap.setElements] using progress.there other }

/-- The copy holds the same scalars as the list, and copies of its lists. -/
def Finished (h : Heap) (st : Copying) (p : ListId × ListId) : Prop :=
  List.Forall₂ (Value.Like st.Maps) (h.values p.1) (st.heap.values p.2)

/-- A step of a copy that adds only lists with the property `reach`, and finishes all that
it adds. -/
structure Advances (h : Heap) (reach : ListId → Prop) (st st' : Copying) : Prop where
  progress : Progress h st'
  grows : st.heap.Grows st'.heap
  more : ∀ {l l' : ListId}, st.Maps l l' → st'.Maps l l'
  added : ∀ p ∈ st'.begun, p ∈ st.begun ∨ Finished h st' p ∧ reach p.1

variable {reach : ListId → Prop}

theorem Advances.refl (progress : Progress h st) : Advances h reach st st :=
  ⟨progress, .refl _, id, fun _ begun => .inl begun⟩

theorem Advances.trans (first : Advances h reach st st') (second : Advances h reach st' st'') :
    Advances h reach st st'' where
  progress := second.progress
  grows := first.grows.trans second.grows
  more begun := second.more (first.more begun)
  added p begun := by
    refine (second.added p begun).elim (fun before => ?_) .inr
    refine (first.added p before).imp_right fun ⟨finished, reached⟩ => ⟨?_, reached⟩
    have same := second.grows.values (first.progress.there before) (first.progress.wired p.2)
    unfold Finished
    rw [same]
    exact finished.imp fun _ _ like => like.mono fun _ _ => second.more

/-- A new variable for an element. -/
theorem Advances.alloc (progress : Progress h st) (v : Variable) :
    Advances h reach st { st with heap := (st.heap.alloc v).2 } where
  progress :=
    { progress with
      grows := progress.grows.trans (grows_alloc _ _)
      wired := wired_alloc progress.wired v }
  grows := grows_alloc _ _
  more := id
  added _ begun := .inl begun

/-- The variables hold copies of the values. -/
def Stores (st : Copying) (values : List Value) (cells : List CellId) : Prop :=
  List.Forall₂ (fun v c => c.index < st.heap.cells.size ∧ v.Like st.Maps (st.heap.read c).value)
    values cells

theorem Stores.values {values : List Value} {cells : List CellId}
    (stores : Stores st values cells) :
    List.Forall₂ (Value.Like st.Maps) values (cells.map fun c => (st.heap.read c).value) :=
  List.forall₂_map_right_iff.mpr (stores.imp fun _ _ both => both.2)

/-- A list that was begun is finished once its copy has got its elements. -/
theorem Advances.close {cells : Array CellId} (reached : reach l)
    (inside : Advances h reach (st.begin l) st') (items : Stores st' (h.values l) cells.toList) :
    Advances h reach st
      { st' with heap := st'.heap.setElements (st.heap.allocList #[]).1 cells } := by
  have begun : st'.Maps l (st.heap.allocList #[]).1 := inside.more (List.mem_cons_self ..)
  have valid : ∀ c ∈ cells, c.index < st'.heap.cells.size := fun c member =>
    forall_of_forall₂_left items.flip (fun _ _ both => both.1) c (Array.mem_toList_iff.mpr member)
  refine ⟨inside.progress.setElements begun valid, ?_, fun before => ?_, fun p started => ?_⟩
  · exact ((grows_allocList st.heap #[]).trans inside.grows).setElements (Nat.le_refl _) cells
  · exact inside.more (List.mem_cons_of_mem _ before)
  · by_cases same : p = (l, (st.heap.allocList #[]).1)
    · subst same
      refine .inr ⟨?_, reached⟩
      unfold Finished Heap.values
      rw [elements_setElements_self (inside.progress.there begun)]
      exact items.values
    · rcases inside.added p started with before | ⟨finished, reached'⟩
      · exact .inl ((List.mem_cons.mp before).resolve_left same)
      · have other : p.2 ≠ (st.heap.allocList #[]).1 := fun equal =>
          same (List.inj_on_of_nodup_map inside.progress.copies started begun equal)
        refine .inr ⟨?_, reached'⟩
        unfold Finished Heap.values
        rw [elements_setElements_ne other]
        exact finished

/-- A new variable holds a copy, and keeps it. -/
theorem Stores.cons {values : List Value} {cells : List CellId} (like : v.Like st.Maps v')
    (others : Advances h reach { st with heap := (st.heap.alloc (.fresh v')).2 } st')
    (stores : Stores st' values cells) :
    Stores st' (v :: values) ((st.heap.alloc (.fresh v')).1 :: cells) := by
  have there : (st.heap.alloc (.fresh v')).1.index <
      (st.heap.alloc (.fresh v')).2.cells.size := by simp [Heap.alloc]
  refine List.Forall₂.cons ⟨Nat.lt_of_lt_of_le there others.grows.size, ?_⟩ stores
  have stored : st'.heap.read (st.heap.alloc (.fresh v')).1 = .fresh v' :=
    (others.grows.cells _ there).trans (read_alloc_new st.heap _)
  rw [stored]
  exact like.mono fun _ _ => others.more

/-- The lists with the property `reach` are there, and they hold only such lists. -/
structure Domain (h : Heap) (reach : ListId → Prop) : Prop where
  there : ∀ l, reach l → l.index < h.lists.size
  closed : ∀ l, reach l → ∀ w ∈ h.values l, w.Fits reach

mutual

/-- The copy of a value is finished when the copying is over, up to the lists that were
begun before. -/
theorem Duplicates.advances (wired : h.Wired) (domain : h.Domain reach) {v : Value}
    {st : Copying} {result : Value × Copying} :
    Duplicates v st result → Progress h st → v.Fits reach →
    Advances h reach st result.2 ∧ v.Like result.2.Maps result.1
  | .scalar scalar, progress, _ => ⟨.refl progress, Value.like_of_scalar scalar⟩
  | .begun begun, progress, _ => ⟨.refl progress, .list (mem_of_lookup begun)⟩
  | .items (l := l) new items, progress, fits => by
    have old := domain.there l (fits l rfl)
    -- Copying leaves the original alone, so it can be read out of the first heap.
    have same := progress.grows.values old (wired l)
    obtain ⟨advances, cells, added, stores⟩ :=
      items.advances wired domain (progress.begin new old) (same ▸ domain.closed l (fits l rfl))
    rw [same] at stores
    rw [Array.toList_empty, List.nil_append] at added
    rw [← added] at stores
    exact ⟨advances.close (fits l rfl) stores, .list (advances.more (List.mem_cons_self ..))⟩

/-- The copies of some values are in new variables. -/
theorem DuplicatesAll.advances (wired : h.Wired) (domain : h.Domain reach) {values : List Value}
    {cells : Array CellId} {st : Copying} {result : Array CellId × Copying} :
    DuplicatesAll values cells st result → Progress h st → (∀ v ∈ values, v.Fits reach) →
    Advances h reach st result.2 ∧
      ∃ new, result.1.toList = cells.toList ++ new ∧ Stores result.2 values new
  | .nil, progress, _ => ⟨.refl progress, [], (List.append_nil _).symm, .nil⟩
  | .cons first others, progress, fits => by
    obtain ⟨fits, fits'⟩ := List.forall_mem_cons.mp fits
    obtain ⟨advances, like⟩ := first.advances wired domain progress fits
    have stored (v : Variable) := advances.trans (.alloc advances.progress v)
    obtain ⟨advances', new, added, stores⟩ :=
      others.advances wired domain (stored (.fresh _)).progress fits'
    rw [Array.toList_push, List.append_assoc] at added
    exact ⟨(stored _).trans advances', _, added, stores.cons like advances'⟩

end

/-! ## Finished copies -/

/-- The second value is a copy of the first one: the lists that they reach correspond one
to one, hold the same scalars and refer to each other in the same way. The lists and
variables of the copy are new, each variable is in one slot, and it is as new variables
are. -/
structure Reproduces (h : Heap) (v : Value) (copyOf : ListId → ListId → Prop) (h' : Heap)
    (v' : Value) : Prop where
  unique : Relator.BiUnique copyOf
  value : v.Like copyOf v'
  reached : ∀ l, h.Reaches v l ↔ ∃ l', copyOf l l'
  reached' : ∀ l', h'.Reaches v' l' ↔ ∃ l, copyOf l l'
  values : ∀ {l l' : ListId}, copyOf l l' →
    List.Forall₂ (Value.Like copyOf) (h.values l) (h'.values l')
  lists : ∀ l', h'.Reaches v' l' → h.lists.size ≤ l'.index ∧ l'.index < h'.lists.size
  cells : ∀ c, h'.ReachesCell v' c →
    h.cells.size ≤ c.index ∧ c.index < h'.cells.size ∧ ∃ w, h'.read c = .fresh w
  apart : ∀ c, h'.ReachesCell v' c → ∀ (l k : ListId) (i j : Nat),
    h'.slot? l i = some c → h'.slot? k j = some c → l = k ∧ i = j

/-- A copy in which nothing is open. -/
theorem Advances.resembles (advances : Advances h reach { heap := h } st) :
    h.Resembles st.Maps st.heap where
  unique := advances.progress.unique
  lt begun := ⟨advances.progress.old begun, advances.progress.there begun⟩
  values begun := ((advances.added _ begun).resolve_left List.not_mem_nil).1

theorem Advances.reproduces (supplies : h.Supplies st.heap)
    (advances : Advances h (h.Reaches v) { heap := h } st) (like : v.Like st.Maps v') :
    h.Reproduces v st.Maps st.heap v' := by
  have resembles := advances.resembles
  have original : ∀ {l l'}, st.Maps l l' → h.Reaches v l := fun begun =>
    ((advances.added _ begun).resolve_left List.not_mem_nil).2
  have copied : ∀ {l'}, st.heap.Reaches v' l' → ∃ l, st.Maps l l' := fun reached' =>
    (resembles.flip.reaches like.flip reached').imp fun _ both => both.1
  have new : ∀ c, st.heap.ReachesCell v' c → h.cells.size ≤ c.index := by
    rintro c ⟨l', reached', member⟩
    obtain ⟨l, begun⟩ := copied reached'
    obtain ⟨i, found⟩ := exists_slot? member
    refine (supplies.slots l' i c found).resolve_left fun before => ?_
    have old := lt_count_of_mem (mem_of_slot? before)
    exact absurd old (Nat.not_lt.mpr (advances.progress.new begun))
  constructor
  case unique => exact resembles.unique
  case value => exact like
  case values => exact resembles.values
  case reached =>
    refine fun l => ⟨fun reached => ?_, fun ⟨l', begun⟩ => original begun⟩
    exact (resembles.reaches like reached).imp fun _ both => both.1
  case reached' =>
    refine fun l' => ⟨copied, fun ⟨l, begun⟩ => ?_⟩
    obtain ⟨k', begun', reached'⟩ := resembles.reaches like (original begun)
    rwa [resembles.unique.right begun begun']
  case lists =>
    intro l' reached'
    obtain ⟨l, begun⟩ := copied reached'
    exact ⟨advances.progress.new begun, advances.progress.there begun⟩
  case cells =>
    intro c reached'
    have isNew := new c reached'
    obtain ⟨l', -, member⟩ := reached'
    exact ⟨isNew, advances.progress.wired l' c member, supplies.fresh c isNew⟩
  case apart => exact fun c reached' l k i j => supplies.apart l k i j c (new c reached')

/-- A value that is there has a finished copy. -/
theorem exists_reproduces (grounded : h.Grounded) (wired : h.Wired)
    (within : v.Within h.lists.size) :
    ∃ begun, Duplicates v { heap := h } ((h.deepCopy v).1, { heap := (h.deepCopy v).2, begun }) ∧
      ∃ copyOf, h.Resembles copyOf (h.deepCopy v).2 ∧
        h.Reproduces v copyOf (h.deepCopy v).2 (h.deepCopy v).1 := by
  have ends : Duplicates v { heap := h } (copyWithin (h.lists.size + 1) v { heap := h }) :=
    (duplicates grounded wired ⟨.refl h, entered_nil h⟩ within).1
  have domain : h.Domain (h.Reaches v) :=
    ⟨fun _ => Reaches.lt grounded within, fun _ => Reaches.fits⟩
  obtain ⟨advances, like⟩ := ends.advances wired domain (progress_start wired) fun _ => .here
  exact ⟨_, ends, _, advances.resembles,
    advances.reproduces (supplies_deepCopy wired v) like⟩

/-! ## Writes -/

/-- A change of the heap. All that programs do to variables and lists consists of such
changes. -/
inductive Write
  | modify (c : CellId) (f : Variable → Variable)
  | setElements (l : ListId) (cells : Array CellId)
  | push (l : ListId) (v : Value)
  | alloc (v : Variable)
  | allocList (cells : Array CellId)

/-- The heap after a change. -/
def write (h : Heap) : Write → Heap
  | .modify c f => h.modify c f
  | .setElements l cells => h.setElements l cells
  | .push l v => h.push l v
  | .alloc v => (h.alloc v).2
  | .allocList cells => (h.allocList cells).2

/-- The heap after some changes. -/
def writeAll (h : Heap) (writes : List Write) : Heap :=
  writes.foldl write h

/-- The change is one of a variable or a list that the value reaches. -/
def Write.Hits (h : Heap) (w : Value) : Write → Prop
  | .modify c _ => h.ReachesCell w c
  | .setElements l _ | .push l _ => h.Reaches w l
  | .alloc _ | .allocList _ => False

/-- All that a value reaches is as it was. -/
structure Keeps (h : Heap) (w : Value) (h' : Heap) : Prop where
  size : h.cells.size ≤ h'.cells.size
  count : h.lists.size ≤ h'.lists.size
  elements : ∀ l, h.Reaches w l → h'.elements l = h.elements l
  read : ∀ c, h.ReachesCell w c → h'.read c = h.read c

variable {w : Value}

theorem Keeps.refl (h : Heap) (w : Value) : h.Keeps w h :=
  ⟨Nat.le_refl _, Nat.le_refl _, fun _ _ => rfl, fun _ _ => rfl⟩

/-- Additions keep what was there. -/
theorem Grows.keeps (grows : h.Grows h') (wired : h.Wired)
    (there : ∀ l, h.Reaches w l → l.index < h.lists.size) : h.Keeps w h' where
  size := grows.size
  count := grows.count
  elements l reached := grows.lists l (there l reached)
  read c := by
    rintro ⟨l, -, member⟩
    exact grows.cells c (wired l c member)

theorem Keeps.values (keeps : h.Keeps w h') (reached : h.Reaches w l) :
    h'.values l = h.values l := by
  unfold Heap.values
  rw [keeps.elements l reached]
  refine List.map_congr_left fun c member => ?_
  rw [keeps.read c ⟨l, reached, Array.mem_toList_iff.mp member⟩]

theorem Keeps.reaches_iff (keeps : h.Keeps w h') : h'.Reaches w l ↔ h.Reaches w l := by
  constructor
  · intro reached'
    induction reached' with
    | here isList => exact .here isList
    | inside _ holds ih => exact .inside ih (keeps.values ih ▸ holds)
  · intro reached
    induction reached with
    | here isList => exact .here isList
    | inside before holds ih => exact .inside ih (keeps.values before ▸ holds)

theorem Keeps.reachesCell (keeps : h.Keeps w h') (reached' : h'.ReachesCell w c) :
    h.ReachesCell w c := by
  obtain ⟨l, reached', member⟩ := reached'
  have reached := keeps.reaches_iff.mp reached'
  exact ⟨l, reached, keeps.elements l reached ▸ member⟩

/-- A value that is kept looks the same. -/
theorem Keeps.resembles (keeps : h.Keeps w h')
    (there : ∀ l, h.Reaches w l → l.index < h.lists.size) :
    h.Resembles (fun l l' => l' = l ∧ h.Reaches w l) h' where
  unique := ⟨fun _ _ _ p q => p.1.symm.trans q.1, fun _ _ _ p q => p.1.trans q.1.symm⟩
  lt := by
    rintro l _ ⟨rfl, reached⟩
    exact ⟨there _ reached, Nat.lt_of_lt_of_le (there _ reached) keeps.count⟩
  values := by
    rintro l _ ⟨rfl, reached⟩
    exact Value.forall₂_like_self.mpr ⟨keeps.values reached, reached.fits⟩

/-- A change that does not hit a value keeps it. -/
theorem Keeps.write (keeps : h.Keeps w h') (wired : h.Wired)
    (there : ∀ l, h.Reaches w l → l.index < h.lists.size) {x : Write} (misses : ¬ x.Hits h w) :
    h.Keeps w (h'.write x) := by
  have grown {h'' : Heap} (grows : h'.Grows h'') : h.Keeps w h'' := by
    refine ⟨Nat.le_trans keeps.size grows.size, Nat.le_trans keeps.count grows.count, ?_, ?_⟩
    · intro l reached
      have old := Nat.lt_of_lt_of_le (there l reached) keeps.count
      rw [grows.lists l old, keeps.elements l reached]
    · rintro c ⟨l, reached, member⟩
      have old := Nat.lt_of_lt_of_le (wired l c member) keeps.size
      rw [grows.cells c old, keeps.read c ⟨l, reached, member⟩]
  cases x with
  | modify c f =>
    refine { keeps with
      size := by simpa [Heap.write] using keeps.size
      read := fun d reached => ?_ }
    have other : d ≠ c := by
      rintro rfl
      exact misses reached
    exact (read_modify_ne other f).trans (keeps.read d reached)
  | setElements l cells =>
    refine { keeps with
      count := by simpa [Heap.write, Heap.setElements] using keeps.count
      elements := fun k reached => ?_ }
    have other : k ≠ l := by
      rintro rfl
      exact misses reached
    exact (elements_setElements_ne other cells).trans (keeps.elements k reached)
  | push l v =>
    refine ⟨?_, by simpa [Heap.write, Heap.push, Heap.alloc] using keeps.count, ?_, ?_⟩
    · exact Nat.le_trans keeps.size (by simp [Heap.write])
    · intro k reached
      have other : k ≠ l := by
        rintro rfl
        exact misses reached
      exact (elements_push_ne other v).trans (keeps.elements k reached)
    · rintro c ⟨k, reached, member⟩
      have old := Nat.lt_of_lt_of_le (wired k c member) keeps.size
      exact (read_push_of_lt old l v).trans (keeps.read c ⟨k, reached, member⟩)
  | alloc v => exact grown (grows_alloc h' v)
  | allocList cells => exact grown (grows_allocList h' cells)

theorem keeps_writeAll (wired : h.Wired) (there : ∀ l, h.Reaches w l → l.index < h.lists.size)
    {writes : List Write} (misses : ∀ x ∈ writes, ¬ x.Hits h w) :
    h.Keeps w (h.writeAll writes) := by
  suffices kept : ∀ h', h.Keeps w h' → h.Keeps w (h'.writeAll writes) from kept h (.refl h w)
  induction writes with
  | nil => exact fun _ keeps => keeps
  | cons x rest ih =>
    obtain ⟨first, others⟩ := List.forall_mem_cons.mp misses
    exact fun h' keeps => ih others _ (keeps.write wired there first)

/-! ## Copies are detached -/

/-- What is reached from the copy is new, and what is reached from the value is not. -/
theorem Reproduces.misses {copyOf : ListId → ListId → Prop}
    (reproduces : h.Reproduces v copyOf h' v') (keeps : h.Keeps v h') (wired : h.Wired)
    (there : ∀ l, h.Reaches v l → l.index < h.lists.size) (x : Write) :
    ¬ (x.Hits h' v ∧ x.Hits h' v') := by
  have lists (l : ListId) (left : h'.Reaches v l) (right : h'.Reaches v' l) : False := by
    have old := there l (keeps.reaches_iff.mp left)
    exact absurd old (Nat.not_lt.mpr (reproduces.lists l right).1)
  rintro ⟨left, right⟩
  cases x with
  | modify c f =>
    obtain ⟨l, -, member⟩ := keeps.reachesCell left
    exact absurd (wired l c member) (Nat.not_lt.mpr (reproduces.cells c right).1)
  | setElements l cells => exact lists l left right
  | push l w => exact lists l left right
  | alloc v => exact left
  | allocList cells => exact left

/-- The copy of a value in a heap without dangling identities comes to an end and leaves
all that there is alone. It reproduces the value in new lists with new variables, so it
has the same text and the same snapshot. No later change hits both of them, and changes
that do not hit one of them leave it with all that it reaches as it is. -/
theorem deepCopy_detached (grounded : h.Grounded) (wired : h.Wired)
    (within : v.Within h.lists.size) (copied : h.deepCopy v = (v', h')) :
    (∃ begun, Duplicates v { heap := h } (v', { heap := h', begun })) ∧ h.Grows h' ∧
      (∃ copyOf, h.Reproduces v copyOf h' v') ∧
      h'.text v' = h.text v ∧ h'.snapshot v' = h.snapshot v ∧
      (∀ x : Write, ¬ (x.Hits h' v ∧ x.Hits h' v')) ∧
      ∀ w, w = v ∨ w = v' → ∀ writes : List Write, (∀ x ∈ writes, ¬ x.Hits h' w) →
        h'.Keeps w (h'.writeAll writes) ∧ (h'.writeAll writes).text w = h'.text w ∧
          (h'.writeAll writes).snapshot w = h'.snapshot w := by
  obtain ⟨begun, ends, copyOf, resembles, reproduces⟩ := exists_reproduces grounded wired within
  have grows := h.grows_deepCopy v
  have wired' := wired_deepCopy wired v
  rw [copied] at ends resembles reproduces grows wired'
  have there : ∀ l, h.Reaches v l → l.index < h.lists.size := fun _ => Reaches.lt grounded within
  have keeps := grows.keeps wired there
  refine ⟨⟨begun, ends⟩, grows, ⟨copyOf, reproduces⟩, resembles.text reproduces.value,
    resembles.snapshot reproduces.value, reproduces.misses keeps wired there, ?_⟩
  intro w side writes misses
  have there' : ∀ l, h'.Reaches w l → l.index < h'.lists.size := by
    intro l reached'
    rcases side with rfl | rfl
    · exact Nat.lt_of_lt_of_le (there l (keeps.reaches_iff.mp reached')) grows.count
    · exact (reproduces.lists l reached').2
  have kept := keeps_writeAll wired' there' misses
  have like : w.Like (fun l l' => l' = l ∧ h'.Reaches w l) w :=
    Value.like_self.mpr ⟨rfl, fun _ => .here⟩
  exact ⟨kept, (kept.resembles there').text like, (kept.resembles there').snapshot like⟩

/-- A list that contains itself and, twice, another one. Changes of both lists do not
show in the copy, even if one of them puts the copy into the list that was copied. -/
theorem deepCopy_detached_cyclic :
    let h : Heap :=
      { cells := #[{ value := .int 1, traced := true, version := 2 }, .fresh (.list ⟨0⟩),
          .fresh (.list ⟨1⟩), .fresh (.list ⟨1⟩), .fresh (.str "x")]
        lists := #[#[⟨0⟩, ⟨1⟩, ⟨2⟩, ⟨3⟩], #[⟨4⟩]] }
    let h' := (h.deepCopy (.list ⟨0⟩)).2
    h.Grounded ∧ h.Wired ∧ h.deepCopy (.list ⟨0⟩) = (.list ⟨2⟩, h') ∧
      (∃ copyOf, h.Reproduces (.list ⟨0⟩) copyOf h' (.list ⟨2⟩)) ∧
      h'.text (.list ⟨2⟩) = h.text (.list ⟨0⟩) ∧
      (h'.writeAll [.modify ⟨4⟩ (·.assign (.int 7)), .push ⟨0⟩ (.list ⟨2⟩)]).text (.list ⟨2⟩) =
        h'.text (.list ⟨2⟩) := by
  intro h h'
  have grounded : h.Grounded := by
    rintro ⟨_ | _ | _ | _ | _ | i⟩ l isList
    all_goals cases isList
    all_goals decide
  have wired : h.Wired := by
    rintro ⟨_ | _ | l⟩ c member
    · exact (by decide : ∀ c ∈ h.elements ⟨0⟩, c.index < h.cells.size) c member
    · exact (by decide : ∀ c ∈ h.elements ⟨1⟩, c.index < h.cells.size) c member
    · simp [h, Heap.elements] at member
  have copied : h.deepCopy (.list ⟨0⟩) = (.list ⟨2⟩, h') := rfl
  obtain ⟨-, -, reproduces, text, -, apart, kept⟩ :=
    deepCopy_detached grounded wired (Value.fits_list (by decide)) copied
  refine ⟨grounded, wired, copied, reproduces, text, (kept _ (.inr rfl) _ ?_).2.1⟩
  have reached : h'.Reaches (.list ⟨0⟩) ⟨1⟩ := .inside (.here rfl) (by decide +kernel)
  refine List.forall_mem_cons.mpr ⟨fun hits => apart _ ⟨?_, hits⟩,
    List.forall_mem_singleton.mpr fun hits => apart _ ⟨?_, hits⟩⟩
  · exact ⟨⟨1⟩, reached, by decide +kernel⟩
  · exact .here rfl

end Heap

end TraceLang
