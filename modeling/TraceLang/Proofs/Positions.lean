/-
# TraceLang.Proofs.Positions — lines and columns stand for bytes

A place in a source is a byte offset, and a person is told a line and a column instead.
Going over the text, each character moves the pair on by `Span.next`, and this always
makes it larger: a line break goes to the next line, and everything else to the next
column. So the pairs are in the order of the offsets.

The pair that comes out has a simple form (`lineColumn_eq_count`): the line counts the line
breaks before the place, and the column the characters since the last of them.

Nothing is lost either. `Span.reach` goes the other way, over so many line breaks and then
so many characters, and comes back to the byte the pair was made from.
-/
import Mathlib.Data.List.Induction
import TraceLang.Proofs.Syntax.Partition

namespace TraceLang

set_option autoImplicit false

namespace Span

open Lexer (byteLength byteLength_cons byteLength_append utf8ByteSize_ofList)

/-- The span begins between two characters of the text, or at one of its ends. -/
def BeginsIn (s : Span) (source : String) : Prop :=
  String.Pos.Raw.IsValid source ⟨s.start⟩

/-- The first of two pairs of a line and a column comes earlier: in a line before, or in the
same line. -/
def Before (place place' : Nat × Nat) : Prop :=
  place.1 < place'.1 ∨ place.1 = place'.1 ∧ place.2 < place'.2

/-- The byte behind so many line breaks and then so many characters of a line; none if the
text or the line is too short. -/
def reach : (breaks columns : Nat) → List Char → Option Nat
  | 0, 0, _ => some 0
  | _, _, [] => none
  | 0, columns + 1, c :: rest =>
    if c = '\n' then none else (reach 0 columns rest).map (c.utf8Size + ·)
  | breaks + 1, columns, c :: rest =>
    (reach (if c = '\n' then breaks else breaks + 1) columns rest).map (c.utf8Size + ·)

/-- The byte at a line and a column. -/
def offsetAt (source : String) (line column : Nat) : Option Nat :=
  reach (line - 1) (column - 1) source.toList

/-! ## One character -/

/-- The line and the column behind a character. -/
def next (place : Nat × Nat) (c : Char) : Nat × Nat :=
  if c = '\n' then (place.1 + 1, 1) else (place.1, place.2 + 1)

theorem before_next (place : Nat × Nat) (c : Char) : Before place (next place c) := by
  unfold next
  split
  · exact .inl (Nat.lt_succ_self _)
  · exact .inr ⟨rfl, Nat.lt_succ_self _⟩

theorem Before.trans {place place' place'' : Nat × Nat} (first : Before place place')
    (second : Before place' place'') : Before place place'' := by
  unfold Before at *
  omega

theorem walk_cons {c : Char} {rest : List Char} {left : Nat} (fits : c.utf8Size ≤ left)
    (place : Nat × Nat) :
    walk (c :: rest) left place.1 place.2 =
      walk rest (left - c.utf8Size) (next place c).1 (next place c).2 := by
  obtain ⟨n, rfl⟩ : ∃ n, left = n + 1 :=
    Nat.exists_eq_add_one.mpr (Nat.lt_of_lt_of_le c.utf8Size_pos fits)
  rw [walk, if_pos fits, next]
  split <;> rfl

/-! ## Whole texts -/

variable {cs before after : List Char} {place : Nat × Nat}

/-- A walk over whole characters goes from place to place. -/
theorem walk_append (before after : List Char) (place : Nat × Nat) :
    walk (before ++ after) (byteLength before) place.1 place.2 = some (before.foldl next place) := by
  induction before generalizing place with
  | nil => cases after <;> rfl
  | cons c before ih =>
    rw [byteLength_cons, List.cons_append, walk_cons (Nat.le_add_right _ _), Nat.add_sub_cancel_left,
      ih, List.foldl_cons]

/-- A walk beyond the end stays there. -/
theorem walk_past {left : Nat} (past : byteLength cs ≤ left) (place : Nat × Nat) :
    walk cs left place.1 place.2 = some (cs.foldl next place) := by
  induction cs generalizing left place with
  | nil => cases left <;> rfl
  | cons c cs ih =>
    rw [byteLength_cons] at past
    rw [walk_cons (Nat.le_of_add_right_le past), ih (Nat.le_sub_of_add_le' past), List.foldl_cons]

theorem before_foldl (nonempty : cs ≠ []) : Before place (cs.foldl next place) := by
  induction cs generalizing place with
  | nil => exact absurd rfl nonempty
  | cons c cs ih =>
    rw [List.foldl_cons]
    cases cs with
    | nil => exact before_next place c
    | cons d ds =>
      exact (before_next place c).trans (ih (List.cons_ne_nil d ds))

/-- Going over a text, one stays in the line, or else the column counts from the last line
break. The same number of line breaks and characters leads back to the end of the text. -/
theorem reach_foldl (before after : List Char) (line column : Nat) :
    (∃ more, before.foldl next (line, column) = (line, column + more) ∧
      reach 0 more (before ++ after) = some (byteLength before)) ∨
    ∃ breaks columns, before.foldl next (line, column) = (line + (breaks + 1), columns + 1) ∧
      reach (breaks + 1) columns (before ++ after) = some (byteLength before) := by
  induction before generalizing line column with
  | nil => exact .inl ⟨0, rfl, by rw [reach]; rfl⟩
  | cons c before ih =>
    rw [List.foldl_cons, next, byteLength_cons, List.cons_append]
    by_cases isBreak : c = '\n'
    · rw [if_pos isBreak]
      rcases ih (line + 1) 1 with ⟨more, place, found⟩ | ⟨breaks, columns, place, found⟩
      · refine .inr ⟨0, more, by rw [place, Nat.add_comm 1], ?_⟩
        rw [reach, if_pos isBreak, found, Option.map_some]
      · refine .inr ⟨breaks + 1, columns, by rw [place]; congr 1; omega, ?_⟩
        rw [reach, if_pos isBreak, found, Option.map_some]
    · rw [if_neg isBreak]
      rcases ih line (column + 1) with ⟨more, place, found⟩ | ⟨breaks, columns, place, found⟩
      · refine .inl ⟨more + 1, by rw [place]; congr 1; omega, ?_⟩
        rw [reach, if_neg isBreak, found, Option.map_some]
      · refine .inr ⟨breaks, columns, place, ?_⟩
        rw [reach, if_neg isBreak, found, Option.map_some]

/-! ## Spans -/

variable {s s' : Span} {source : String}

/-- The text before a span. -/
theorem BeginsIn.split (begins : s.BeginsIn source) :
    ∃ before after, source.toList = before ++ after ∧ s.start = byteLength before := by
  obtain ⟨before, after, rfl, start⟩ := String.Pos.Raw.isValid_iff_exists_append.mp begins
  refine ⟨before.toList, after.toList, String.toList_append, ?_⟩
  rw [← utf8ByteSize_ofList, String.ofList_toList]
  exact congrArg String.Pos.Raw.byteIdx start

theorem lineColumn_split (chars : source.toList = before ++ after)
    (start : s.start = byteLength before) :
    s.lineColumn source = some (before.foldl next (1, 1)) := by
  rw [lineColumn, chars, start]
  exact walk_append before after (1, 1)

theorem lineColumn_past (past : source.utf8ByteSize ≤ s.start) :
    s.lineColumn source = some (source.toList.foldl next (1, 1)) := by
  have size : byteLength source.toList = source.utf8ByteSize := by
    rw [← utf8ByteSize_ofList, String.ofList_toList]
  exact walk_past (size ▸ past) (1, 1)

theorem foldl_next_eq (before : List Char) :
    before.foldl next (1, 1) =
      (before.count '\n' + 1, (before.reverse.takeWhile (· ≠ '\n')).length + 1) := by
  induction before using List.reverseRecOn with
  | nil => rfl
  | append_singleton before c ih =>
    rw [List.foldl_append, ih, List.foldl_cons, List.foldl_nil, next]
    by_cases isBreak : c = '\n' <;> simp [isBreak]

/-- The line is one more than the line breaks before the place, and the column is one more
than the characters since the last of them. A place behind the end is the end. -/
theorem lineColumn_eq_count (chars : source.toList = before ++ after)
    (start : min s.start source.utf8ByteSize = byteLength before) :
    s.lineColumn source =
      some (before.count '\n' + 1, (before.reverse.takeWhile (· ≠ '\n')).length + 1) := by
  rw [← foldl_next_eq]
  rcases Nat.le_total s.start source.utf8ByteSize with inside | past
  · exact lineColumn_split chars (Nat.min_eq_left inside ▸ start)
  · have size : byteLength source.toList = source.utf8ByteSize := by
      rw [← utf8ByteSize_ofList, String.ofList_toList]
    rw [Nat.min_eq_right past, ← size, chars, byteLength_append] at start
    have empty : after = [] := by
      cases after with
      | nil => rfl
      | cons c rest =>
        have positive := c.utf8Size_pos
        rw [byteLength_cons] at start
        omega
    rw [lineColumn_past past, chars, empty, List.append_nil]

/-- What stands before the earlier of two bytes stands before the later one, and more. -/
theorem exists_between {before' after' : List Char} (same : before ++ after = before' ++ after')
    (less : byteLength before < byteLength before') :
    ∃ between, before' = before ++ between ∧ between ≠ [] := by
  rcases List.append_eq_append_iff.mp same with ⟨between, rfl, -⟩ | ⟨between, rfl, -⟩
  · refine ⟨between, rfl, ?_⟩
    rintro rfl
    rw [List.append_nil] at less
    exact absurd less (Nat.lt_irrefl _)
  · rw [byteLength_append] at less
    exact absurd less (by omega)

end Span

open TraceLang.Span in
/-- Line and column are given for every place between characters, in the order of the places,
and they count from one. The line and the column of a place lead back to it. Places behind the
end have the line and the column of the end. -/
theorem lineColumn_strictly_monotone (source : String) :
    (∀ s s' : Span, s.BeginsIn source → s'.BeginsIn source → s.start < s'.start →
      ∃ place place', s.lineColumn source = some place ∧ s'.lineColumn source = some place' ∧
        Before place place') ∧
    (∀ s : Span, s.BeginsIn source → ∃ line column, s.lineColumn source = some (line, column) ∧
      1 ≤ line ∧ 1 ≤ column ∧ offsetAt source line column = some s.start) ∧
    ∀ s s' : Span, source.utf8ByteSize ≤ s.start → s'.start = source.utf8ByteSize →
      s.lineColumn source = s'.lineColumn source := by
  refine ⟨fun s s' begins begins' less => ?_, fun s begins => ?_, fun s s' past atEnd => ?_⟩
  · obtain ⟨before, after, chars, start⟩ := begins.split
    obtain ⟨before', after', chars', start'⟩ := begins'.split
    have less' : Lexer.byteLength before < Lexer.byteLength before' := start ▸ start' ▸ less
    obtain ⟨between, rfl, nonempty⟩ := exists_between (chars.symm.trans chars') less'
    refine ⟨_, _, lineColumn_split chars start, lineColumn_split chars' start', ?_⟩
    rw [List.foldl_append]
    exact before_foldl nonempty
  · obtain ⟨before, after, chars, start⟩ := begins.split
    have place := lineColumn_split chars start
    rcases reach_foldl before after 1 1 with ⟨more, same, found⟩ | ⟨breaks, columns, same, found⟩
    · refine ⟨1, 1 + more, same ▸ place, Nat.le_refl 1, Nat.le_add_right 1 more, ?_⟩
      rw [offsetAt, chars, start, Nat.add_sub_cancel_left]
      exact found
    · refine ⟨1 + (breaks + 1), columns + 1, same ▸ place, Nat.le_add_right 1 _,
        Nat.le_add_left 1 columns, ?_⟩
      rw [offsetAt, chars, start, Nat.add_sub_cancel_left, Nat.add_sub_cancel]
      exact found
  · rw [lineColumn_past past, lineColumn_past (Nat.le_of_eq atEnd.symm)]

/-- Characters of two and three bytes before and behind a line break, a place at the break and
one behind the end. -/
theorem lineColumn_strictly_monotone_accented :
    let source := "é€\nü"
    let s : Span := { start := 5, stop := 6 }
    let s' : Span := { start := 6, stop := 8 }
    s.BeginsIn source ∧ s'.BeginsIn source ∧ s.start < s'.start ∧
      (∃ place place', s.lineColumn source = some place ∧ s'.lineColumn source = some place' ∧
        Span.Before place place') ∧
      (∃ line column, s'.lineColumn source = some (line, column) ∧ 1 ≤ line ∧ 1 ≤ column ∧
        Span.offsetAt source line column = some 6) ∧
      Span.lineColumn { start := 100, stop := 101 } source =
        Span.lineColumn { start := 8, stop := 8 } source := by
  intro source s s'
  have begins : s.BeginsIn source :=
    String.Pos.Raw.isValid_iff_exists_append.mpr ⟨"é€", "\nü", by decide, by decide⟩
  have begins' : s'.BeginsIn source :=
    String.Pos.Raw.isValid_iff_exists_append.mpr ⟨"é€\n", "ü", by decide, by decide⟩
  obtain ⟨ordered, found, past⟩ := lineColumn_strictly_monotone source
  exact ⟨begins, begins', by decide, ordered s s' begins begins' (by decide), found s' begins',
    past _ _ (by decide) (by decide)⟩

end TraceLang
