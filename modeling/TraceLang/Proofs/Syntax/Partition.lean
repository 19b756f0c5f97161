/-
# TraceLang.Proofs.Syntax.Partition — a text is its tokens and what stands between them

The lexer leaves nothing out. A source that it accepts is cut, between characters, into
the texts of its tokens and the gaps before, between and after them. The gaps hold
`Padding` only: white space, and comments that go to the end of their line. And the cuts
do not depend on what surrounds them: the text of a token, read alone, is that token
(`munch_alone`).

`Parts before cs ts` says this of a text `cs` that stands behind `before`. It is found by
collecting the blanks in front of each token of a `Scans`.

A text can also be one token and nothing else. Those that are one identifier are the texts
that may name a variable, and no others (`isValidName_iff_tokenize`): the table of reserved
words has what the lexer takes for a keyword or a type.
-/
import TraceLang.Proofs.Syntax.Spelling

namespace TraceLang

set_option autoImplicit false

/-- The span cuts the source, between characters, into these three texts. -/
structure Span.Cuts (s : Span) (source before text after : String) : Prop where
  whole : source = before ++ text ++ after
  start : s.start = before.utf8ByteSize
  stop : s.stop = before.utf8ByteSize + text.utf8ByteSize

/-- The places that the lexemes leave free between two bytes. -/
def Lexeme.gaps (start : Nat) : List Lexeme → (stop : Nat) → List Span
  | [], stop => [{ start, stop }]
  | l :: ls, stop => { start, stop := l.span.start } :: gaps l.span.stop ls stop

namespace Lexer

/-- Text without tokens, in front of the text `after`. A comment goes to the end of its
line. -/
inductive Padding (after : List Char) : List Char → Prop
  | done : Padding after []
  | space {c : Char} {cs : List Char} (isSpace : c ∈ [' ', '\t', '\n', '\r'])
    (others : Padding after cs) : Padding after (c :: cs)
  | comment {opening : String} {line cs : List Char} (opens : opening = "//" ∨ opening = "#")
    (inLine : '\n' ∉ line) (toEnd : ∀ c ∈ (cs ++ after).head?, c = '\n')
    (others : Padding after cs) : Padding after (opening.toList ++ line ++ cs)

variable {c : Char} {cs rest text after before : List Char} {t : Token} {more : Nat}
  {ts : List Lexeme}

theorem utf8ByteSize_ofList (cs : List Char) : (String.ofList cs).utf8ByteSize = byteLength cs := by
  induction cs with
  | nil => rfl
  | cons c cs ih =>
    rw [String.ofList_cons, String.utf8ByteSize_append, String.utf8ByteSize_singleton, ih,
      byteLength_cons]

/-! ## Tokens alone -/

theorem takeWhile_takeWhile (p : Char → Bool) (cs : List Char) :
    (cs.takeWhile p).takeWhile p = cs.takeWhile p ∧ (cs.takeWhile p).dropWhile p = [] := by
  have all : ∀ c ∈ cs.takeWhile p, p c := List.all_eq_true.mp List.all_takeWhile
  have nothing : ∀ c ∈ ([] : List Char).head?, p c = false := fun _ next => by cases next
  have ends := takeWhile_append_stop all nothing
  rwa [List.append_nil] at ends

/-- Where the characters of a kind end, another one or nothing comes. -/
theorem head_dropWhile (p : Char → Bool) (cs : List Char) :
    ∀ c ∈ (cs.dropWhile p).head?, p c = false := by
  intro c next
  have none := List.head?_dropWhile_not p cs
  rw [Option.mem_def.mp next] at none
  simpa using none

/-- The token that is read from the text is already read from its first `more`
characters. -/
def Suffices (read : List Char → Munch) (rest : List Char) (t : Token) (more : Nat) : Prop :=
  ∃ text after, rest = text ++ after ∧ more = text.length ∧ read text = .token t more

theorem munchWord_alone (found : munchWord c rest = .token t more) :
    Suffices (munchWord c) rest t more := by
  refine ⟨rest.takeWhile isWordPart, _, List.takeWhile_append_dropWhile.symm, ?_, ?_⟩
  · cases found
    rfl
  · rw [← found, munchWord, munchWord, (takeWhile_takeWhile isWordPart rest).1]

/-- A text that begins with an exponent: a letter, a sign or none, and digits. -/
structure Exponent (e : Char) (sign digits after : List Char) : Prop where
  letter : e = 'e' ∨ e = 'E'
  isSign : sign = [] ∨ sign = ['+'] ∨ sign = ['-']
  numeric : ∀ d ∈ digits, d.isDigit
  nonempty : digits ≠ []
  stops : ∀ c ∈ after.head?, c.isDigit = false

/-- Without digits there is no exponent. -/
theorem exponentPart_cases (cs : List Char) :
    exponentPart cs = (0, 0) ∨ ∃ e sign digits after,
      cs = e :: (sign ++ digits ++ after) ∧ Exponent e sign digits after := by
  have split (cs : List Char) : cs.takeWhile Char.isDigit ++ cs.dropWhile Char.isDigit = cs :=
    List.takeWhile_append_dropWhile
  have numeric (cs : List Char) : ∀ d ∈ cs.takeWhile Char.isDigit, d.isDigit :=
    List.all_eq_true.mp List.all_takeWhile
  cases cs with
  | nil => exact .inl rfl
  | cons e rest =>
    by_cases letter : e = 'e' ∨ e = 'E'
    · cases rest with
      | nil => exact .inl (by simp [exponentPart])
      | cons s tail =>
        by_cases signed : s = '+' ∨ s = '-'
        · by_cases none : tail.takeWhile Char.isDigit = []
          · exact .inl (by simp [exponentPart, signed, none])
          · refine .inr ⟨e, [s], _, _, by simp [split tail], letter, ?_, numeric tail, none,
              head_dropWhile _ tail⟩
            exact .inr (signed.imp (by rintro rfl; rfl) (by rintro rfl; rfl))
        · by_cases none : (s :: tail).takeWhile Char.isDigit = []
          · exact .inl (by simp [exponentPart, signed, none])
          · exact .inr ⟨e, [], _, _, by rw [List.nil_append, split], letter, .inl rfl,
              numeric (s :: tail), none, head_dropWhile _ _⟩
    · exact .inl (by simp [exponentPart, letter])

/-- Such a text gives its exponent, whatever comes after. -/
theorem Exponent.part_eq {e : Char} {sign digits after : List Char}
    (is : Exponent e sign digits after) :
    exponentPart (e :: (sign ++ digits ++ after)) =
      (if sign = ['-'] then -(natOfDigits digits : Int) else natOfDigits digits,
        1 + sign.length + digits.length) := by
  have ends := takeWhile_append_stop is.numeric is.stops
  have some : digits.isEmpty = false := by simpa using is.nonempty
  rcases is.isSign with rfl | rfl | rfl
  · cases digits with
    | nil => exact absurd rfl is.nonempty
    | cons d ds =>
      have digit : d.isDigit := is.numeric d List.mem_cons_self
      have unsigned : ¬ (d = '+' ∨ d = '-') := by
        rintro (rfl | rfl) <;> exact absurd digit (by decide)
      simp only [List.cons_append] at ends
      simp [exponentPart, is.letter, unsigned, ends]
  · simp [exponentPart, is.letter, ends, is.nonempty]
  · simp [exponentPart, is.letter, ends, is.nonempty]

/-- An exponent is already read from its own characters. -/
theorem exponentPart_alone (cs : List Char) :
    ∃ text after, cs = text ++ after ∧ (exponentPart cs).2 = text.length ∧
      exponentPart text = exponentPart cs := by
  rcases exponentPart_cases cs with none | ⟨e, sign, digits, after, rfl, is⟩
  · exact ⟨[], cs, rfl, by rw [none]; rfl, none.symm⟩
  · have alone : Exponent e sign digits [] := { is with stops := fun _ next => by cases next }
    refine ⟨e :: (sign ++ digits), after, by simp, ?_, ?_⟩
    · rw [is.part_eq]
      simp only [List.length_cons, List.length_append]
      omega
    · rw [is.part_eq, ← alone.part_eq, List.append_nil]

theorem munchInt_eq {digits : List Char} (found : munchInt digits = .token t more) :
    more = digits.length - 1 := by
  simp only [munchInt] at found
  split at found
  · cases found
    rfl
  · cases found

/-- A number with a point and digits on both sides of it. -/
theorem munchNumber_fraction (c : Char) {digits fraction behind : List Char}
    (whole : ∀ d ∈ digits, d.isDigit) (part : ∀ d ∈ fraction, d.isDigit) (nonempty : fraction ≠ [])
    (stops : ∀ c ∈ behind.head?, c.isDigit = false) :
    munchNumber c (digits ++ '.' :: (fraction ++ behind)) =
      .token (.float (readDecimal (c :: digits) fraction (exponentPart behind).1))
        (digits.length + 1 + fraction.length + (exponentPart behind).2) := by
  have point : ∀ c ∈ ('.' :: (fraction ++ behind)).head?, c.isDigit = false := by
    rintro _ ⟨⟩
    rfl
  have ends := takeWhile_append_stop whole point
  have ends' := takeWhile_append_stop part stops
  simp [munchNumber, ends, ends', nonempty]

/-- A number is an integer, or it has a fraction and perhaps an exponent behind it. -/
theorem munchNumber_cases (found : munchNumber c rest = .token t more) :
    munchInt (c :: rest.takeWhile Char.isDigit) = .token t more ∨
    ∃ digits fraction behind, rest = digits ++ '.' :: (fraction ++ behind) ∧
      (∀ d ∈ digits, d.isDigit) ∧ (∀ d ∈ fraction, d.isDigit) ∧ fraction ≠ [] ∧
      ∀ c ∈ behind.head?, c.isDigit = false := by
  have split (cs : List Char) : cs = cs.takeWhile Char.isDigit ++ cs.dropWhile Char.isDigit :=
    List.takeWhile_append_dropWhile.symm
  have numeric (cs : List Char) : ∀ d ∈ cs.takeWhile Char.isDigit, d.isDigit :=
    List.all_eq_true.mp List.all_takeWhile
  by_cases fraction : ∃ after, rest.dropWhile Char.isDigit = '.' :: after ∧
      after.takeWhile Char.isDigit ≠ []
  · obtain ⟨after, point, nonempty⟩ := fraction
    have whole : rest = rest.takeWhile Char.isDigit ++
        '.' :: (after.takeWhile Char.isDigit ++ after.dropWhile Char.isDigit) := by
      rw [← split after, ← point, ← split rest]
    exact .inr ⟨_, _, _, whole, numeric rest, numeric after, nonempty, head_dropWhile _ after⟩
  · refine .inl ?_
    rw [← found, munchNumber]
    split
    · next after point =>
      have none : after.takeWhile Char.isDigit = [] :=
        Decidable.not_not.mp fun some => fraction ⟨after, point, some⟩
      simp [none]
    · rfl

theorem munchNumber_alone (found : munchNumber c rest = .token t more) :
    Suffices (munchNumber c) rest t more := by
  rcases munchNumber_cases found with
    int | ⟨digits, fraction, behind, rfl, whole, part, nonempty, stops⟩
  · refine ⟨_, _, List.takeWhile_append_dropWhile.symm, munchInt_eq int, ?_⟩
    rw [munchNumber, (takeWhile_takeWhile _ _).1, (takeWhile_takeWhile _ _).2]
    exact int
  · obtain ⟨text, after, rfl, length, same⟩ := exponentPart_alone behind
    have stops' : ∀ c ∈ text.head?, c.isDigit = false := by
      intro c next
      refine stops c ?_
      rw [List.head?_append, Option.mem_def.mp next]
      rfl
    rw [munchNumber_fraction c whole part nonempty stops] at found
    refine ⟨digits ++ '.' :: (fraction ++ text), after, by simp, ?_, ?_⟩
    · cases found
      simp only [List.length_append, List.length_cons, length]
      omega
    · rw [munchNumber_fraction c whole part nonempty stops', same]
      exact found

theorem munchString_alone {taken : List Char} {length : Nat}
    (found : munchString taken length rest = .token t more) :
    ∃ text after, rest = text ++ after ∧ more = length + text.length ∧
      munchString taken length text = .token t more := by
  fun_induction munchString taken length rest with
  | case1 => cases found
  | case2 taken length rest =>
    cases found
    exact ⟨['"'], rest, rfl, rfl, rfl⟩
  | case3 => cases found
  | case4 taken length c rest notBreak ih =>
    obtain ⟨text, after, rfl, rfl, alone⟩ := ih found
    refine ⟨'\\' :: c :: text, after, rfl, by simp only [List.length_cons]; omega, ?_⟩
    rw [munchString, if_neg notBreak, alone]
  | case5 => cases found
  | case6 taken length c rest notQuote notEscape plain ih =>
    obtain ⟨text, after, rfl, rfl, alone⟩ := ih found
    refine ⟨c :: text, after, rfl, by simp only [List.length_cons]; omega, ?_⟩
    rw [munchString, if_neg plain, alone]
    · exact notQuote
    · exact fun _ _ escape _ => plain escape

/-- A symbol ends with its first character, or with the next one. -/
theorem munchSymbol_cases {next : Option Char} (found : munchSymbol c next = .token t more) :
    more = 0 ∧ munchSymbol c none = .token t 0 ∨ more = 1 ∧ next = some '=' := by
  unfold munchSymbol at found
  split at found <;> cases found <;> first | exact .inl ⟨rfl, rfl⟩ | exact .inr ⟨rfl, rfl⟩

/-- The text of a token, read alone, is that token. -/
theorem munch_alone (found : munch c rest = .token t more) : Suffices (munch c) rest t more := by
  have alone {read : List Char → Munch} (same : ∀ cs, munch c cs = read cs) :
      Suffices read rest t more → Suffices (munch c) rest t more := by
    rintro ⟨text, after, rfl, rfl, taken⟩
    exact ⟨text, after, rfl, rfl, (same text).trans taken⟩
  by_cases digit : c.isDigit
  · exact alone (munch_digit digit) (munchNumber_alone (munch_digit digit rest ▸ found))
  by_cases start : isWordStart c
  · exact alone (munch_word start) (munchWord_alone (munch_word start rest ▸ found))
  by_cases quote : c = '"'
  · subst quote
    obtain ⟨text, after, rfl, rfl, taken⟩ := munchString_alone found
    exact ⟨text, after, rfl, Nat.zero_add _, taken⟩
  · by_cases blank : isBlank c
    · rw [munch, if_pos blank] at found
      cases found
    by_cases hash : c = '#'
    · rw [munch, if_neg blank, if_pos hash] at found
      cases found
    by_cases comment : c = '/' ∧ rest.head? = some '/'
    · rw [munch, if_neg blank, if_neg hash, if_pos comment] at found
      cases found
    have symbol (cs : List Char) (noComment : cs.head? ≠ some '/') :
        munch c cs = munchSymbol c cs.head? := by
      rw [munch, if_neg blank, if_neg hash, if_neg fun both => noComment both.2, if_neg digit,
        if_neg start, if_neg quote]
    rw [munch, if_neg blank, if_neg hash, if_neg comment, if_neg digit, if_neg start,
      if_neg quote] at found
    rcases munchSymbol_cases found with ⟨rfl, taken⟩ | ⟨rfl, next⟩
    · exact ⟨[], rest, rfl, rfl, (symbol [] (by decide)).trans taken⟩
    · obtain ⟨after, rfl⟩ := List.head?_eq_some_iff.mp next
      exact ⟨['='], after, rfl, rfl, (symbol ['='] (by decide)).trans found⟩

/-- So the lexer reads one lexeme from it, which covers it. -/
theorem Suffices.scans (suffices' : Suffices (munch c) rest t more) :
    Scans 0 (c :: rest.take more)
      [⟨t, { start := 0, stop := byteLength (c :: rest.take more) }⟩] := by
  obtain ⟨text, after, rfl, rfl, alone⟩ := suffices'
  rw [List.take_left]
  have others : Scans (0 + byteLength (c :: text.take text.length)) (text.drop text.length) [] := by
    rw [List.drop_length]
    exact .done
  have all := Scans.token alone others
  rwa [List.take_length, Nat.zero_add] at all

/-! ## Blanks -/

theorem munchNumber_ne_blank : munchNumber c rest ≠ .blank more := by
  have int (digits : List Char) : munchInt digits ≠ .blank more := by
    simp only [munchInt]
    split <;> exact Munch.noConfusion
  simp only [munchNumber]
  split
  · split
    · exact int _
    · exact Munch.noConfusion
  · exact int _

theorem munchString_ne_blank (taken : List Char) (length : Nat) :
    munchString taken length rest ≠ .blank more := by
  fun_induction munchString taken length rest with
  | case1 | case2 | case3 | case5 => exact Munch.noConfusion
  | case4 _ _ _ _ _ ih | case6 _ _ _ _ _ _ _ ih => exact ih

theorem munchSymbol_ne_blank (next : Option Char) : munchSymbol c next ≠ .blank more := by
  unfold munchSymbol
  split <;> exact Munch.noConfusion

/-- What is passed over is one character of white space, or a comment. -/
theorem munch_blank (piece : munch c rest = .blank more) :
    isBlank c ∧ more = 0 ∨
      (c = '#' ∨ c = '/' ∧ rest.head? = some '/') ∧ more = lineLength rest := by
  unfold munch at piece
  split at piece
  · next blank =>
    cases piece
    exact .inl ⟨blank, rfl⟩
  split at piece
  · next hash =>
    cases piece
    exact .inr ⟨.inl hash, rfl⟩
  split at piece
  · next slashes =>
    cases piece
    exact .inr ⟨.inr slashes, rfl⟩
  split at piece
  · exact absurd piece munchNumber_ne_blank
  split at piece
  · cases piece
  split at piece
  · exact absurd piece (munchString_ne_blank _ _)
  · exact absurd piece (munchSymbol_ne_blank _)

/-- A line and what comes after it. -/
theorem take_lineLength (cs : List Char) :
    '\n' ∉ cs.take (lineLength cs) ∧ ∀ c ∈ (cs.drop (lineLength cs)).head?, c = '\n' := by
  have parts : cs.takeWhile (· ≠ '\n') ++ cs.dropWhile (· ≠ '\n') = cs :=
    List.takeWhile_append_dropWhile
  have line : cs.take (lineLength cs) = cs.takeWhile (· ≠ '\n') := by
    rw [lineLength, ← List.prefix_iff_eq_take.mp (List.takeWhile_prefix _)]
  have behind : cs.drop (lineLength cs) = cs.dropWhile (· ≠ '\n') := by
    have whole : cs.takeWhile (· ≠ '\n') ++ cs.drop (lineLength cs) =
        cs.takeWhile (· ≠ '\n') ++ cs.dropWhile (· ≠ '\n') := by
      rw [parts, ← line, List.take_append_drop]
    exact List.append_cancel_left whole
  rw [line, behind]
  refine ⟨fun mem => ?_, fun c next => ?_⟩
  · have other := List.all_eq_true.mp List.all_takeWhile _ mem
    simp at other
  · simpa using head_dropWhile _ cs c next

/-- A blank in front of padding. -/
theorem Padding.of_munch (piece : munch c rest = .blank more)
    (others : Padding after cs) (splits : rest.drop more = cs ++ after) :
    Padding after (c :: rest.take more ++ cs) := by
  rcases munch_blank piece with ⟨blank, rfl⟩ | ⟨rfl | ⟨rfl, next⟩, rfl⟩
  · refine .space ?_ others
    simpa [isBlank, or_assoc] using blank
  · have opens : "#" = "//" ∨ "#" = "#" := .inr rfl
    exact Padding.comment opens (take_lineLength rest).1 (splits ▸ (take_lineLength rest).2) others
  · obtain ⟨line, rfl⟩ := List.head?_eq_some_iff.mp next
    have longer : lineLength ('/' :: line) = lineLength line + 1 := by
      simp [lineLength]
    rw [longer] at splits ⊢
    have opens : "//" = "//" ∨ "//" = "#" := .inl rfl
    exact Padding.comment opens (take_lineLength line).1 (splits ▸ (take_lineLength line).2) others

/-! ## Parts -/

/-- The text, which begins at a byte, is padding and the texts of the lexemes in turn. Each
lexeme is what its text gives alone. -/
inductive Parts : Nat → List Char → List Lexeme → Prop
  | last {offset : Nat} {gap : List Char} (padding : Padding [] gap) : Parts offset gap []
  | token {offset start stop : Nat} {gap text after : List Char} {t : Token} {ts : List Lexeme}
    (padding : Padding (text ++ after) gap) (starts : start = offset + byteLength gap)
    (stops : stop = start + byteLength text)
    (alone : Scans 0 text [⟨t, { start := 0, stop := byteLength text }⟩])
    (others : Parts stop after ts) :
    Parts offset (gap ++ text ++ after) (⟨t, { start, stop }⟩ :: ts)

/-- Padding that is found in pieces. -/
theorem Parts.blank {offset : Nat} (piece : munch c rest = .blank more)
    (parts : Parts (offset + byteLength (c :: rest.take more)) (rest.drop more) ts) :
    Parts offset (c :: rest) ts := by
  have whole : c :: rest = c :: rest.take more ++ rest.drop more := by
    rw [List.cons_append, List.take_append_drop]
  rw [whole]
  generalize behind : rest.drop more = cs at parts
  cases parts with
  | last padding => exact .last (padding.of_munch piece (by rw [behind, List.append_nil]))
  | token padding starts stops alone others =>
    have padded := padding.of_munch piece (by rw [behind, List.append_assoc])
    rw [Nat.add_assoc, ← byteLength_append] at starts
    rw [← List.append_assoc, ← List.append_assoc]
    exact .token padded starts stops alone others

theorem Scans.parts {offset : Nat} (scans : Scans offset cs ts) : Parts offset cs ts := by
  induction scans with
  | done => exact .last .done
  | blank piece others ih => exact .blank piece ih
  | @token offset more t c rest ts piece others ih =>
    have parts := Parts.token .done rfl rfl (munch_alone piece).scans ih
    rwa [List.nil_append, List.cons_append, List.take_append_drop] at parts

/-- The span of a part of a text, if it begins and ends where the part does. -/
theorem cuts_ofList {s : Span} (starts : s.start = byteLength before)
    (stops : s.stop = s.start + byteLength text) :
    s.Cuts (String.ofList (before ++ text ++ after)) (String.ofList before) (String.ofList text)
      (String.ofList after) where
  whole := by simp only [String.ofList_append]
  start := by rw [starts, utf8ByteSize_ofList]
  stop := by rw [stops, starts, utf8ByteSize_ofList, utf8ByteSize_ofList]

/-- The text of each lexeme is cut out of the source and, alone, gives the lexeme. -/
theorem Parts.cuts {offset : Nat} (parts : Parts offset cs ts) {before : List Char}
    (behind : offset = byteLength before) {l : Lexeme} (mem : l ∈ ts) :
    ∃ b s a, l.span.Cuts (String.ofList (before ++ cs)) b s a ∧
      tokenize s = .ok [⟨l.token, { start := 0, stop := s.utf8ByteSize }⟩] := by
  induction parts generalizing before with
  | last => cases mem
  | @token offset start stop gap text after t ts padding starts stops alone others ih =>
    rw [behind, ← byteLength_append] at starts
    rcases List.mem_cons.mp mem with rfl | mem
    · refine ⟨.ofList (before ++ gap), .ofList text, .ofList after, ?_, ?_⟩
      · rw [← List.append_assoc, ← List.append_assoc]
        exact cuts_ofList starts stops
      · rw [tokenize_eq_ok_iff, String.toList_ofList, utf8ByteSize_ofList]
        exact alone
    · rw [starts, ← byteLength_append] at stops
      rw [← List.append_assoc, ← List.append_assoc]
      exact ih stops mem

/-- The text between the lexemes is padding. -/
theorem Parts.padding {offset : Nat} (parts : Parts offset cs ts) {before : List Char}
    (behind : offset = byteLength before) {gap : Span}
    (mem : gap ∈ Lexeme.gaps offset ts (byteLength (before ++ cs))) :
    ∃ b s a, gap.Cuts (String.ofList (before ++ cs)) b s a ∧ Padding a.toList s.toList := by
  induction parts generalizing before with
  | @last offset cs padding =>
    obtain rfl := List.mem_singleton.mp mem
    refine ⟨.ofList before, .ofList cs, .ofList [], ?_, ?_⟩
    · rw [← List.append_nil (before ++ cs)]
      exact cuts_ofList behind (by rw [List.append_nil, byteLength_append, behind])
    · rwa [String.toList_ofList, String.toList_ofList]
  | @token offset start stop filler text after t ts padding starts stops alone others ih =>
    rw [← List.append_assoc, ← List.append_assoc] at mem ⊢
    rcases List.mem_cons.mp mem with rfl | mem
    · refine ⟨.ofList before, .ofList filler, .ofList (text ++ after), ?_, ?_⟩
      · rw [List.append_assoc (before ++ filler)]
        exact cuts_ofList behind starts
      · rwa [String.toList_ofList, String.toList_ofList]
    · rw [behind, ← byteLength_append] at starts
      rw [starts, ← byteLength_append] at stops
      exact ih stops mem

end Lexer

/-- Tokens and padding partition a source. No token is empty, each ends before the next one
begins, all of them begin and end between characters, and the text of each one alone is that
one token. Before, between and behind them there is padding only. -/
theorem tokenize_partitions {source : String} {ts : List Lexeme}
    (lexed : tokenize source = .ok ts) :
    InOrder ts ∧
    (∀ l ∈ ts, ∃ before text after, l.span.Cuts source before text after ∧
      tokenize text = .ok [⟨l.token, { start := 0, stop := text.utf8ByteSize }⟩]) ∧
    ∀ gap ∈ Lexeme.gaps 0 ts source.utf8ByteSize, ∃ before text after,
      gap.Cuts source before text after ∧ Lexer.Padding after.toList text.toList := by
  have parts := (tokenize_eq_ok_iff.mp lexed).parts
  have whole : String.ofList ([] ++ source.toList) = source := String.ofList_toList
  have size : source.utf8ByteSize = Lexer.byteLength ([] ++ source.toList) := by
    rw [← Lexer.utf8ByteSize_ofList, whole]
  refine ⟨tokenize_inOrder lexed, fun l mem => ?_, fun gap mem => ?_⟩
  · exact whole ▸ parts.cuts rfl mem
  · rw [size] at mem
    exact whole ▸ parts.padding rfl mem

/-- Characters of several bytes, in a token and in a comment that nothing ends. -/
theorem tokenize_partitions_accented : ∃ ts,
    tokenize "s = \"é\"; // ü" = .ok ts ∧
      Lexeme.gaps 0 ts "s = \"é\"; // ü".utf8ByteSize =
        [⟨0, 0⟩, ⟨1, 2⟩, ⟨3, 4⟩, ⟨8, 8⟩, ⟨9, 15⟩] ∧
      InOrder ts ∧
      (∀ l ∈ ts, ∃ before text after, l.span.Cuts "s = \"é\"; // ü" before text after ∧
        tokenize text = .ok [⟨l.token, { start := 0, stop := text.utf8ByteSize }⟩]) ∧
      ∀ gap ∈ Lexeme.gaps 0 ts "s = \"é\"; // ü".utf8ByteSize, ∃ before text after,
        gap.Cuts "s = \"é\"; // ü" before text after ∧
          Lexer.Padding after.toList text.toList := by
  have lexed : tokenize "s = \"é\"; // ü" = .ok
      [⟨.ident "s", ⟨0, 1⟩⟩, ⟨.symbol .eq, ⟨2, 3⟩⟩, ⟨.str "é", ⟨4, 8⟩⟩, ⟨.symbol .semi, ⟨8, 9⟩⟩] := by
    rfl
  exact ⟨_, lexed, by decide +kernel, tokenize_partitions lexed⟩

/-! ## Names -/

/-- The lexer takes a valid name as one word, up to its last character. -/
theorem Lexer.munch_of_isValidName {name : String} (valid : isValidName name) :
    ∃ c rest, name.toList = c :: rest ∧ munch c rest = .token (.ident name) rest.length := by
  have ident := ofWord_of_isValidName valid
  unfold isValidName at valid
  cases chars : name.toList with
  | nil => simp [chars] at valid
  | cons c rest =>
    simp only [chars, Bool.and_eq_true] at valid
    obtain ⟨⟨start, parts⟩, -⟩ := valid
    have whole : (rest ++ []).takeWhile isWordPart = rest :=
      (takeWhile_append_stop (List.all_eq_true.mp parts) fun _ next => by cases next).1
    rw [List.append_nil] at whole
    have word : String.ofList (c :: rest) = name := by rw [← chars, String.ofList_toList]
    exact ⟨c, rest, rfl, by rw [munch_word start, munchWord, whole, word, ident]⟩

/-- What is checked for a name and what the lexer reads as an identifier are the same: a text
may name a variable if and only if it is read as that one identifier, which covers it. -/
theorem isValidName_iff_tokenize (name : String) :
    isValidName name ↔
      tokenize name = .ok [⟨.ident name, { start := 0, stop := name.utf8ByteSize }⟩] := by
  constructor
  · intro valid
    obtain ⟨c, rest, chars, piece⟩ := Lexer.munch_of_isValidName valid
    have size : Lexer.byteLength (c :: rest) = name.utf8ByteSize := by
      rw [← chars, ← Lexer.utf8ByteSize_ofList, String.ofList_toList]
    have scans := (Lexer.munch_alone piece).scans
    rw [List.take_length, size, ← chars] at scans
    exact tokenize_eq_ok_iff.mpr scans
  · intro read
    exact tokenize_wellNamed read _ (List.mem_singleton.mpr rfl) name rfl

end TraceLang
