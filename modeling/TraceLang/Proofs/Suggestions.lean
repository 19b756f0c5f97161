/-
# TraceLang.Proofs.Suggestions — a proposed name is the nearest one

An edit inserts, deletes or replaces one character anywhere in a text, and the
distance of two texts is the least number of edits that lead from one to the other.
Between the edits and the rows of the computation stands a recurrence on texts
written backwards (`distance`), so that what a row adds to a prefix is added to a
head.

* The rows follow the recurrence: `extend_row`, `editDistance_eq`.
* The recurrence can be carried out: `edits_distance`.
* It cannot be beaten, since one edit changes it by one at most (`Edit.nearby`). An
  edit may stand behind any number of characters; these are put in front of it one by
  one (`Nearby.cons`).
-/
import Mathlib.Order.Bounds.Defs
import TraceLang.Suggest

namespace TraceLang

set_option autoImplicit false

namespace EditDistance

/-- One character is inserted, deleted or replaced. -/
inductive Edit : List Char → List Char → Prop
  | insert (before after : List Char) (c : Char) : Edit (before ++ after) (before ++ c :: after)
  | delete (before after : List Char) (c : Char) : Edit (before ++ c :: after) (before ++ after)
  | replace (before after : List Char) (c d : Char) :
    Edit (before ++ c :: after) (before ++ d :: after)

/-- Edits one after another, with their number. -/
inductive Edits : Nat → List Char → List Char → Prop
  | none (xs : List Char) : Edits 0 xs xs
  | more {n : Nat} {xs ys zs : List Char} (first : Edit xs ys) (others : Edits n ys zs) :
    Edits (n + 1) xs zs

variable {n : Nat} {xs xs' ys : List Char}

theorem Edit.append (edit : Edit xs ys) (zs : List Char) : Edit (zs ++ xs) (zs ++ ys) := by
  cases edit with
  | insert before after c => simpa using Edit.insert (zs ++ before) after c
  | delete before after c => simpa using Edit.delete (zs ++ before) after c
  | replace before after c d => simpa using Edit.replace (zs ++ before) after c d

theorem Edit.reverse (edit : Edit xs ys) : Edit xs.reverse ys.reverse := by
  cases edit with
  | insert before after c => simpa using Edit.insert after.reverse before.reverse c
  | delete before after c => simpa using Edit.delete after.reverse before.reverse c
  | replace before after c d => simpa using Edit.replace after.reverse before.reverse c d

theorem Edits.cons (edits : Edits n xs ys) (x : Char) : Edits n (x :: xs) (x :: ys) := by
  induction edits with
  | none xs => exact .none _
  | more first others ih => exact .more (first.append [x]) ih

theorem Edits.reverse (edits : Edits n xs ys) : Edits n xs.reverse ys.reverse := by
  induction edits with
  | none xs => exact .none _
  | more first others ih => exact .more first.reverse ih

theorem edits_reverse_iff : Edits n xs.reverse ys.reverse ↔ Edits n xs ys :=
  ⟨fun edits => by simpa using edits.reverse, .reverse⟩

theorem Edits.min {m : Nat} (first : Edits m xs ys) (second : Edits n xs ys) :
    Edits (min m n) xs ys := by
  rw [Nat.min_def]
  split
  · exact first
  · exact second

theorem edits_nil_left (ys : List Char) : Edits ys.length [] ys := by
  -- The last character is inserted first.
  induction ys with
  | nil => exact .none []
  | cons y ys ih => exact .more (.insert [] [] y) (ih.cons y)

theorem edits_nil_right (xs : List Char) : Edits xs.length xs [] := by
  induction xs with
  | nil => exact .none []
  | cons x xs ih => exact .more (.delete [] xs x) ih

/-! ## The recurrence -/

/-- The cost of having the second character where the first one was. -/
def swapCost (x y : Char) : Nat :=
  if x = y then 0 else 1

theorem swapCost_le_one (x y : Char) : swapCost x y ≤ 1 := by
  unfold swapCost
  split <;> decide

/-- The distance of two texts, both written backwards. -/
def distance : List Char → List Char → Nat
  | [], ys => ys.length
  | xs, [] => xs.length
  | x :: xs, y :: ys =>
    min (min (distance xs (y :: ys) + 1) (distance (x :: xs) ys + 1))
      (distance xs ys + swapCost x y)
termination_by xs ys => xs.length + ys.length

@[simp] theorem distance_nil_left (ys : List Char) : distance [] ys = ys.length := by
  rw [distance]

@[simp] theorem distance_nil_right (xs : List Char) : distance xs [] = xs.length := by
  cases xs with
  | nil => rw [distance]
  | cons x xs =>
    rw [distance]
    simp

theorem distance_cons (x y : Char) (xs ys : List Char) :
    distance (x :: xs) (y :: ys) =
      min (min (distance xs (y :: ys) + 1) (distance (x :: xs) ys + 1))
        (distance xs ys + swapCost x y) := by
  rw [distance]

/-- As many edits are enough. -/
theorem edits_distance (xs ys : List Char) : Edits (distance xs ys) xs ys := by
  fun_induction distance xs ys with
  | case1 ys => exact edits_nil_left ys
  | case2 xs => exact edits_nil_right xs
  | case3 x xs y ys delete insert swap =>
    have deleted : Edits (distance xs (y :: ys) + 1) (x :: xs) (y :: ys) :=
      .more (.delete [] xs x) delete
    have inserted : Edits (distance (x :: xs) ys + 1) (x :: xs) (y :: ys) :=
      .more (.insert [] (x :: xs) y) (insert.cons y)
    have swapped : Edits (distance xs ys + swapCost x y) (x :: xs) (y :: ys) := by
      unfold swapCost
      split
      · next same => exact same ▸ swap.cons x
      · exact .more (.replace [] xs x y) (swap.cons y)
    exact (deleted.min inserted).min swapped

/-! ## One edit -/

/-- Wherever the texts are to lead, the first needs one edit more at most. -/
def Nearby (xs xs' : List Char) : Prop :=
  ∀ ys, distance xs ys ≤ distance xs' ys + 1

theorem distance_cons_left_le (x : Char) (xs ys : List Char) :
    distance (x :: xs) ys ≤ distance xs ys + 1 := by
  cases ys with
  | nil => simp
  | cons y ys =>
    rw [distance_cons]
    omega

theorem distance_cons_right_le (y : Char) (xs ys : List Char) :
    distance xs (y :: ys) ≤ distance xs ys + 1 := by
  cases xs with
  | nil => simp
  | cons x xs =>
    rw [distance_cons]
    omega

theorem nearby_insert (c : Char) (xs : List Char) : Nearby xs (c :: xs) := by
  intro ys
  induction ys with
  | nil =>
    simp only [distance_nil_right, List.length_cons]
    omega
  | cons y ys ih =>
    have right := distance_cons_right_le y xs ys
    rw [distance_cons]
    omega

theorem nearby_delete (c : Char) (xs : List Char) : Nearby (c :: xs) xs :=
  distance_cons_left_le c xs

theorem nearby_replace (c d : Char) (xs : List Char) : Nearby (c :: xs) (d :: xs) := by
  intro ys
  induction ys with
  | nil => simp
  | cons y ys ih =>
    have cheap := swapCost_le_one c y
    rw [distance_cons, distance_cons]
    omega

theorem Nearby.cons (nearby : Nearby xs xs') (x : Char) : Nearby (x :: xs) (x :: xs') := by
  intro ys
  induction ys with
  | nil => simpa using nearby []
  | cons y ys ih =>
    have longer := nearby (y :: ys)
    have shorter := nearby ys
    rw [distance_cons, distance_cons]
    omega

theorem Nearby.append (nearby : Nearby xs xs') (before : List Char) :
    Nearby (before ++ xs) (before ++ xs') := by
  induction before with
  | nil => exact nearby
  | cons x before ih => exact ih.cons x

theorem Edit.nearby (edit : Edit xs xs') : Nearby xs xs' := by
  cases edit with
  | insert before after c => exact (nearby_insert c after).append before
  | delete before after c => exact (nearby_delete c after).append before
  | replace before after c d => exact (nearby_replace c d after).append before

theorem distance_self (xs : List Char) : distance xs xs = 0 := by
  induction xs with
  | nil => simp
  | cons x xs ih =>
    rw [distance_cons, ih, swapCost, if_pos rfl]
    exact Nat.min_zero _

/-- Fewer edits are not enough. -/
theorem Edits.distance_le (edits : Edits n xs ys) : distance xs ys ≤ n := by
  induction edits with
  | none xs => exact Nat.le_of_eq (distance_self xs)
  | more first others ih => exact Nat.le_trans (first.nearby _) (Nat.succ_le_succ ih)

theorem distance_isLeast (xs ys : List Char) : IsLeast {n | Edits n xs ys} (distance xs ys) :=
  ⟨edits_distance xs ys, fun _ edits => edits.distance_le⟩

/-! ## The rows -/

/-- The distances of a text to the texts that begin with `ys` and take up more and
more characters of the word. All but the word are written backwards. -/
def row (xs : List Char) : (ys word : List Char) → List Nat
  | ys, [] => [distance xs ys]
  | ys, y :: word => distance xs ys :: row xs (y :: ys) word

theorem row_eq_cons (xs ys word : List Char) :
    row xs ys word = distance xs ys :: (row xs ys word).tail := by
  cases word <;> rfl

theorem nextRow_row (c : Char) (xs ys word : List Char) :
    nextRow c (distance (c :: xs) ys) word (row xs ys word) = (row (c :: xs) ys word).tail := by
  induction word generalizing ys with
  | nil => rfl
  | cons y word ih =>
    have entry : min (min (distance xs (y :: ys) + 1) (distance (c :: xs) ys + 1))
        (distance xs ys + if c = y then 0 else 1) = distance (c :: xs) (y :: ys) :=
      (distance_cons c y xs ys).symm
    have others := ih (y :: ys)
    rw [row_eq_cons xs (y :: ys) word] at others
    rw [row, row_eq_cons xs (y :: ys) word, nextRow, entry, others, row, List.tail_cons,
      ← row_eq_cons]

/-- The row of a prefix gives that of a prefix with one more character. -/
theorem extend_row (c : Char) (xs word : List Char) :
    extend word (row xs [] word) c = row (c :: xs) [] word := by
  have first : (row xs [] word).headD 0 + 1 = distance (c :: xs) [] := by
    rw [row_eq_cons, List.headD_cons, distance_nil_right, distance_nil_right, List.length_cons]
  rw [extend, first, nextRow_row, ← row_eq_cons]

theorem foldl_extend_row (cs xs word : List Char) :
    cs.foldl (extend word) (row xs [] word) = row (cs.reverse ++ xs) [] word := by
  induction cs generalizing xs with
  | nil => rfl
  | cons c cs ih => rw [List.foldl_cons, extend_row, ih, List.reverse_cons, List.append_assoc]; rfl

theorem row_nil (ys word : List Char) :
    row [] ys word = List.range' ys.length (word.length + 1) := by
  induction word generalizing ys with
  | nil => simp [row]
  | cons y word ih => rw [row, ih, distance_nil_left, List.length_cons, List.length_cons]; rfl

theorem getLastD_row (xs ys word : List Char) :
    (row xs ys word).getLastD 0 = distance xs (word.reverse ++ ys) := by
  induction word generalizing ys with
  | nil => rfl
  | cons y word ih =>
    rw [List.reverse_cons, List.append_assoc, List.singleton_append, ← ih, row, row_eq_cons]
    rfl

end EditDistance

open EditDistance

theorem editDistance_eq (a b : String) :
    editDistance a b = distance a.toList.reverse b.toList.reverse := by
  have start : List.range (b.toList.length + 1) = row [] [] b.toList := by
    rw [row_nil, List.range_eq_range']
    rfl
  rw [editDistance, start, foldl_extend_row, getLastD_row, List.append_nil, List.append_nil]

theorem editDistance_isLeast (a b : String) :
    IsLeast {n | Edits n a.toList b.toList} (editDistance a b) := by
  have least := distance_isLeast a.toList.reverse b.toList.reverse
  simp only [edits_reverse_iff] at least
  rwa [editDistance_eq]

/-! ## The choice of a name -/

theorem nearest_eq_none_iff {found : List (Nat × String)} : nearest found = none ↔ found = [] := by
  cases found with
  | nil => simp [nearest]
  | cons first rest =>
    simp only [nearest, reduceCtorEq, iff_false]
    split
    · exact Option.some_ne_none _
    · split <;> exact Option.some_ne_none _

/-- All before the nearest are farther, and none behind it is nearer. -/
theorem split_of_nearest {found : List (Nat × String)} {best : Nat × String}
    (chosen : nearest found = some best) : ∃ before after, found = before ++ best :: after ∧
      (∀ other ∈ before, best.1 < other.1) ∧ ∀ other ∈ after, best.1 ≤ other.1 := by
  induction found generalizing best with
  | nil => cases chosen
  | cons first rest ih =>
    simp only [nearest] at chosen
    split at chosen
    · next nothing =>
      cases chosen
      exact ⟨[], rest, rfl, by simp, by simp [nearest_eq_none_iff.mp nothing]⟩
    · next d' name' later =>
      obtain ⟨before, after, rfl, farther, nowhere⟩ := ih later
      split at chosen
      · next nearer =>
        cases chosen
        refine ⟨[], _, rfl, by simp, fun other mem => Nat.le_trans nearer ?_⟩
        rcases List.mem_append.mp mem with mem | mem
        · exact Nat.le_of_lt (farther other mem)
        · rcases List.mem_cons.mp mem with rfl | mem
          · exact Nat.le_refl _
          · exact nowhere other mem
      · next farthest =>
        cases chosen
        refine ⟨first :: before, after, rfl, ?_, nowhere⟩
        rintro other (_ | ⟨_, mem⟩)
        · exact Nat.lt_of_not_le farthest
        · exact farther other mem

theorem nearest_of_split {before after : List (Nat × String)} {best : Nat × String}
    (farther : ∀ other ∈ before, best.1 < other.1) (nowhere : ∀ other ∈ after, best.1 ≤ other.1) :
    nearest (before ++ best :: after) = some best := by
  induction before with
  | nil =>
    simp only [List.nil_append, nearest]
    split
    · rfl
    · next d' name' later =>
      obtain ⟨_, _, rfl, -, -⟩ := split_of_nearest later
      exact if_pos (nowhere (d', name') (by simp))
  | cons first before ih =>
    have chosen := ih fun other mem => farther other (.tail _ mem)
    simp only [List.cons_append, nearest, chosen]
    exact if_neg (Nat.not_le_of_lt (farther first (.head _)))

/-- A candidate with its distance, if that is within the threshold. -/
def within (name : String) (threshold : Nat) (candidate : String) : Option (Nat × String) :=
  if editDistance name candidate ≤ threshold then some (editDistance name candidate, candidate)
  else none

theorem similarName_eq (name : String) (candidates : List String) (threshold : Nat) :
    similarName name candidates threshold =
      (nearest (candidates.filterMap (within name threshold))).map (·.2) :=
  rfl

section Within

variable {name candidate : String} {candidates : List String} {threshold : Nat}

theorem within_eq_none_iff :
    within name threshold candidate = none ↔ threshold < editDistance name candidate := by
  simp [within]

theorem within_eq_some_iff {near : Nat × String} : within name threshold candidate = some near ↔
    editDistance name candidate ≤ threshold ∧ near = (editDistance name candidate, candidate) := by
  simp [within, eq_comm]

/-- What holds of all distances beyond the threshold holds of all candidates if it holds
of those within it. -/
theorem forall_within_iff {P : Nat → Prop} (beyond : ∀ d, threshold < d → P d) :
    (∀ near ∈ candidates.filterMap (within name threshold), P near.1) ↔
      ∀ candidate ∈ candidates, P (editDistance name candidate) := by
  simp only [List.mem_filterMap, within_eq_some_iff]
  constructor
  · intro near candidate mem
    by_cases close : editDistance name candidate ≤ threshold
    · exact near _ ⟨candidate, mem, close, rfl⟩
    · exact beyond _ (Nat.lt_of_not_le close)
  · rintro all _ ⟨candidate, mem, -, rfl⟩
    exact all candidate mem

theorem similarName_eq_none_iff : similarName name candidates threshold = none ↔
    ∀ candidate ∈ candidates, threshold < editDistance name candidate := by
  simp only [similarName_eq, Option.map_eq_none_iff, nearest_eq_none_iff,
    List.filterMap_eq_nil_iff, within_eq_none_iff]

theorem similarName_eq_some_iff {found : String} :
    similarName name candidates threshold = some found ↔
      editDistance name found ≤ threshold ∧ ∃ before after,
        candidates = before ++ found :: after ∧
        (∀ other ∈ before, editDistance name found < editDistance name other) ∧
        ∀ other ∈ after, editDistance name found ≤ editDistance name other := by
  rw [similarName_eq, Option.map_eq_some_iff]
  constructor
  · rintro ⟨best, chosen, rfl⟩
    obtain ⟨before, after, whole, farther, nowhere⟩ := split_of_nearest chosen
    obtain ⟨first, others, rfl, rfl, split⟩ := List.filterMap_eq_append_iff.mp whole
    obtain ⟨dropped, found, rest, rfl, none, some, rfl⟩ := List.filterMap_eq_cons_iff.mp split
    obtain ⟨close, rfl⟩ := within_eq_some_iff.mp some
    refine ⟨close, first ++ dropped, rest, by simp, ?_, ?_⟩
    · intro other mem
      rcases List.mem_append.mp mem with mem | mem
      · exact (forall_within_iff fun d => Nat.lt_of_le_of_lt close).mp farther other mem
      · exact Nat.lt_of_le_of_lt close (within_eq_none_iff.mp (none other mem))
    · exact (forall_within_iff fun d far => Nat.le_trans close (Nat.le_of_lt far)).mp nowhere
  · rintro ⟨close, before, after, rfl, farther, nowhere⟩
    refine ⟨(editDistance name found, found), ?_, rfl⟩
    rw [List.filterMap_append, List.filterMap_cons, within_eq_some_iff.mpr ⟨close, rfl⟩]
    refine nearest_of_split ?_ ?_
    · exact (forall_within_iff fun d => Nat.lt_of_le_of_lt close).mpr farther
    · exact (forall_within_iff fun d far => Nat.le_trans close (Nat.le_of_lt far)).mpr nowhere

end Within

/-- The distance of two texts is the least number of edits. So a name is proposed unless all
candidates need more edits than the threshold, and it is the first of those that need the
fewest. -/
theorem similarName_needs_fewest :
    (∀ a b : String, IsLeast {n | Edits n a.toList b.toList} (editDistance a b)) ∧
    ∀ (name : String) (candidates : List String) (threshold : Nat),
      (similarName name candidates threshold = none ↔
        ∀ candidate ∈ candidates, threshold < editDistance name candidate) ∧
      ∀ found, similarName name candidates threshold = some found ↔
        editDistance name found ≤ threshold ∧ ∃ before after,
          candidates = before ++ found :: after ∧
          (∀ other ∈ before, editDistance name found < editDistance name other) ∧
          ∀ other ∈ after, editDistance name found ≤ editDistance name other :=
  ⟨editDistance_isLeast, fun _ _ _ => ⟨similarName_eq_none_iff, fun _ => similarName_eq_some_iff⟩⟩

/-- Two names are one edit away, and the first is proposed. -/
example : similarName "ab" ["xyz", "ax", "ay"] 1 = some "ax" := by
  decide

end TraceLang
