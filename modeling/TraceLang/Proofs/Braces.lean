/-
# TraceLang.Proofs.Braces — the braces of a text and those of its lexemes

An interactive session decides from the braces of a text whether more lines are needed. It
knows strings, but no comments: it goes over a comment as if it were code. For the rest of
a text it agrees with the lexer, piece by piece: white space, words and numbers have neither
braces nor quotes, a string ends where the lexer ends it, and a symbol is a brace or none.

So without its comments a text has the braces of its lexemes (`Scans.depth_uncommented`). With
them it has those in the comments as well, if none of these leaves a quote open
(`Scans.depth_eq`). A comment that does hides what follows, up to the next quote.
-/
import TraceLang.Proofs.Syntax.Partition
import TraceLang.Shell.Interactive

namespace TraceLang

set_option autoImplicit false

/-! ## Texts -/

namespace BraceScan

variable {s : BraceScan} {c : Char} {cs : List Char}

/-- Where the scan stands behind a text. -/
def after : BraceScan → List Char → BraceScan
  | s, [] => s
  | s, c :: rest => after (s.step c).1 rest

theorem depth_append (s : BraceScan) (cs cs' : List Char) :
    s.depth (cs ++ cs') = s.depth cs + (s.after cs).depth cs' := by
  induction cs generalizing s with
  | nil => simp [depth, after]
  | cons c cs ih => rw [List.cons_append, depth, depth, after, ih, Int.add_assoc]

/-- The text has so many braces, and the scan is between strings behind it. -/
structure Counts (cs : List Char) (n : Int) : Prop where
  depth : code.depth cs = n
  after : code.after cs = .code

theorem Counts.depth_append {n : Int} (counts : Counts cs n) (cs' : List Char) :
    code.depth (cs ++ cs') = n + code.depth cs' := by
  rw [BraceScan.depth_append, counts.depth, counts.after]

/-- A character that means nothing to the scan. -/
abbrev Plain (c : Char) : Prop :=
  c ≠ '"' ∧ c ≠ '\x7b' ∧ c ≠ '\x7d'

theorem Plain.step_eq (plain : Plain c) : code.step c = (.code, 0) := by
  obtain ⟨notQuote, notOpen, notClose⟩ := plain
  simp [step, notQuote, notOpen, notClose]

theorem counts_plain (plain : ∀ c ∈ cs, Plain c) : Counts cs 0 := by
  induction cs with
  | nil => exact ⟨rfl, rfl⟩
  | cons c cs ih =>
    have first := (plain c (List.mem_cons_self ..)).step_eq
    have others := ih fun c mem => plain c (List.mem_cons_of_mem _ mem)
    constructor
    · rw [BraceScan.depth, first, others.depth]
      rfl
    · rw [BraceScan.after, first, others.after]

end BraceScan

/-! ## Tokens -/

/-- The change of the depth that a token makes. -/
def Token.brace : Token → Int
  | .symbol .lBrace => 1
  | .symbol .rBrace => -1
  | _ => 0

theorem Token.brace_ofWord (word : String) : (Token.ofWord word).brace = 0 := by
  unfold Token.ofWord
  split
  · rfl
  · split <;> rfl

/-- How many more braces the lexemes open than they close. -/
def braceBalance (ls : List Lexeme) : Int :=
  ls.countP (·.token = .symbol .lBrace) - ls.countP (·.token = .symbol .rBrace)

theorem braceBalance_cons (l : Lexeme) (ls : List Lexeme) :
    braceBalance (l :: ls) = l.token.brace + braceBalance ls := by
  unfold Token.brace
  split <;> simp_all [braceBalance] <;> omega

namespace Lexer

open BraceScan

variable {c : Char} {rest cs : List Char} {t : Token} {more : Nat}

theorem plain_of_class {p : Char → Bool} (is : p c)
    (no : p '"' = false ∧ p '\x7b' = false ∧ p '\x7d' = false) : Plain c := by
  refine ⟨?_, ?_, ?_⟩ <;> rintro rfl <;> simp [no] at is

theorem plain_digit (digit : c.isDigit) : Plain c :=
  plain_of_class digit (by decide)

theorem plain_part (part : isWordPart c) : Plain c :=
  plain_of_class part (by decide)

theorem plain_start (start : isWordStart c) : Plain c :=
  plain_of_class start (by decide)

theorem plain_blank (blank : isBlank c) : Plain c :=
  plain_of_class blank (by decide)

theorem forall_of_takeWhile {p : Char → Bool} (whole : (cs.takeWhile p).length = cs.length) :
    ∀ c ∈ cs, p c := by
  have all : cs.takeWhile p = cs := (List.takeWhile_prefix p).eq_of_length whole
  rw [← all]
  exact List.all_eq_true.mp List.all_takeWhile

theorem munchWord_counts (start : isWordStart c) (found : munchWord c cs = .token t cs.length) :
    Counts (c :: cs) t.brace := by
  simp only [munchWord, Munch.token.injEq] at found
  obtain ⟨rfl, whole⟩ := found
  rw [Token.brace_ofWord]
  refine counts_plain (List.forall_mem_cons.mpr ⟨plain_start start, fun c mem => ?_⟩)
  exact plain_part (forall_of_takeWhile whole c mem)

theorem Exponent.plain {e : Char} {sign digits after : List Char}
    (is : Exponent e sign digits after) : ∀ c ∈ e :: (sign ++ digits), Plain c := by
  obtain ⟨letter, isSign, numeric, -, -⟩ := is
  refine List.forall_mem_cons.mpr ⟨?_, List.forall_mem_append.mpr ⟨?_, ?_⟩⟩
  · rcases letter with rfl | rfl <;> decide
  · rcases isSign with rfl | rfl | rfl <;> simp [Plain]
  · exact fun c mem => plain_digit (numeric c mem)

/-- An exponent that takes a whole text. -/
theorem exponentPart_plain (whole : (exponentPart cs).2 = cs.length) : ∀ c ∈ cs, Plain c := by
  rcases exponentPart_cases cs with none | ⟨e, sign, digits, after, rfl, is⟩
  · rw [none] at whole
    obtain rfl := List.length_eq_zero_iff.mp whole.symm
    rintro c ⟨⟩
  · rw [is.part_eq] at whole
    simp only [List.length_cons, List.length_append] at whole
    obtain rfl : after = [] := List.length_eq_zero_iff.mp (by omega)
    rw [List.append_nil]
    exact is.plain

theorem munchNumber_counts (digit : c.isDigit) (found : munchNumber c cs = .token t cs.length) :
    Counts (c :: cs) t.brace := by
  suffices all : t.brace = 0 ∧ ∀ c ∈ cs, Plain c by
    rw [all.1]
    exact counts_plain (List.forall_mem_cons.mpr ⟨plain_digit digit, all.2⟩)
  rcases munchNumber_cases found with
    int | ⟨digits, fraction, behind, rfl, whole, part, nonempty, stops⟩
  · constructor
    · simp only [munchInt] at int
      split at int
      · obtain ⟨rfl, -⟩ := Munch.token.inj int
        rfl
      · cases int
    · exact fun c mem => plain_digit (forall_of_takeWhile (munchInt_eq int).symm c mem)
  · rw [munchNumber_fraction c whole part nonempty stops] at found
    simp only [Munch.token.injEq, List.length_append, List.length_cons] at found
    obtain ⟨rfl, lengths⟩ := found
    simp only [List.forall_mem_append, List.forall_mem_cons]
    exact ⟨rfl, fun c mem => plain_digit (whole c mem), by decide,
      fun c mem => plain_digit (part c mem), exponentPart_plain (by omega)⟩

/-- A string literal that takes a whole text ends where the scan ends it. -/
theorem munchString_closes {taken : List Char} {length : Nat}
    (found : munchString taken length cs = .token t (length + cs.length)) :
    BraceScan.string.depth cs = 0 ∧ BraceScan.string.after cs = .code ∧ t.brace = 0 := by
  fun_induction munchString taken length cs with
  | case1 | case3 | case5 => cases found
  | case2 taken length rest =>
    simp only [Munch.token.injEq, List.length_cons] at found
    obtain ⟨rfl, ends⟩ := found
    obtain rfl : rest = [] := List.length_eq_zero_iff.mp (by omega)
    exact ⟨rfl, rfl, rfl⟩
  | case4 taken length c rest notBreak ih =>
    have closes := ih (by rw [found, List.length_cons, List.length_cons]; congr 1; omega)
    simpa [BraceScan.depth, BraceScan.after, BraceScan.step] using closes
  | case6 taken length c rest notQuote notEscape plain ih =>
    have closes := ih (by rw [found, List.length_cons]; congr 1; omega)
    have other : c ≠ '"' := notQuote
    simpa [BraceScan.depth, BraceScan.after, BraceScan.step, plain, other] using closes

theorem munchSymbol_counts (found : munchSymbol c cs.head? = .token t cs.length) :
    Counts (c :: cs) t.brace := by
  rcases munchSymbol_cases found with ⟨none, alone⟩ | ⟨one, next⟩
  · obtain rfl := List.length_eq_zero_iff.mp none
    unfold munchSymbol at alone
    split at alone <;> cases alone <;> exact ⟨rfl, rfl⟩
  · obtain ⟨rest, rfl⟩ := List.head?_eq_some_iff.mp next
    obtain rfl : rest = [] := List.length_eq_zero_iff.mp (Nat.succ.inj one)
    unfold munchSymbol at found
    split at found <;> cases found <;> exact ⟨rfl, rfl⟩

/-- The scan counts for the text of a token what the token is, and ends with it. -/
theorem munch_counts (found : munch c cs = .token t cs.length) : Counts (c :: cs) t.brace := by
  unfold munch at found
  -- white space and the two kinds of comments are no tokens
  iterate 3
    split at found
    · cases found
  split at found
  · next digit => exact munchNumber_counts digit found
  split at found
  · next start => exact munchWord_counts start found
  split at found
  · next quote =>
    subst quote
    rw [← Nat.zero_add cs.length] at found
    obtain ⟨depth, after, brace⟩ := munchString_closes found
    rw [brace]
    exact ⟨by simpa [BraceScan.depth, BraceScan.step] using depth, after⟩
  · exact munchSymbol_counts found

theorem munch_token_counts (piece : munch c rest = .token t more) :
    Counts (c :: rest.take more) t.brace := by
  obtain ⟨text, after, rfl, rfl, alone⟩ := munch_alone piece
  rw [List.take_left]
  exact munch_counts alone

theorem munch_space_counts (piece : munch c rest = .blank more) (space : isBlank c) :
    Counts (c :: rest.take more) 0 := by
  rw [munch, if_pos space] at piece
  cases piece
  exact counts_plain fun c mem => List.mem_singleton.mp mem ▸ plain_blank space

/-! ## Comments -/

/-- What the lexer takes from a text at once. -/
structure Piece where
  isComment : Bool
  text : List Char

/-- The pieces of a text, up to the first that begins no token. The first `skip` characters
belong to a piece already read. -/
def piecesFrom (skip : Nat) : List Char → List Piece
  | [] => []
  | c :: rest =>
    match skip with
    | k + 1 => piecesFrom k rest
    | 0 =>
      match munch c rest with
      | .blank more => ⟨!isBlank c, c :: rest.take more⟩ :: piecesFrom more rest
      | .token _ more => ⟨false, c :: rest.take more⟩ :: piecesFrom more rest
      | .bad _ => []

def pieces (cs : List Char) : List Piece :=
  piecesFrom 0 cs

/-- The comments of a text, from the first character of each to the end of the line. -/
def comments (cs : List Char) : List (List Char) :=
  ((pieces cs).filter (·.isComment)).map (·.text)

/-- The text without its comments. -/
def uncommented (cs : List Char) : List Char :=
  ((pieces cs).filter (!·.isComment)).flatMap (·.text)

theorem piecesFrom_eq (skip : Nat) (cs : List Char) :
    piecesFrom skip cs = pieces (cs.drop skip) := by
  induction cs generalizing skip with
  | nil => simp [pieces, piecesFrom]
  | cons c rest ih =>
    cases skip with
    | zero => rfl
    | succ k => rw [piecesFrom, ih, List.drop_succ_cons]

theorem pieces_blank (piece : munch c rest = .blank more) :
    pieces (c :: rest) = ⟨!isBlank c, c :: rest.take more⟩ :: pieces (rest.drop more) := by
  rw [pieces, piecesFrom, piece, ← piecesFrom_eq]

theorem pieces_token (piece : munch c rest = .token t more) :
    pieces (c :: rest) = ⟨false, c :: rest.take more⟩ :: pieces (rest.drop more) := by
  rw [pieces, piecesFrom, piece, ← piecesFrom_eq]

/-! ## Whole texts -/

section

variable {offset : Nat} {ts : List Lexeme}

theorem Scans.depth_uncommented (scans : Scans offset cs ts) :
    code.depth (uncommented cs) = braceBalance ts := by
  induction scans with
  | done => rfl
  | @blank offset more c rest ts piece others ih =>
    by_cases space : isBlank c
    · have kept :
          uncommented (c :: rest) = c :: rest.take more ++ uncommented (rest.drop more) := by
        simp [uncommented, pieces_blank piece, space]
      rw [kept, (munch_space_counts piece space).depth_append, ih, Int.zero_add]
    · have same : uncommented (c :: rest) = uncommented (rest.drop more) := by
        simp [uncommented, pieces_blank piece, space]
      rw [same, ih]
  | @token offset more t c rest ts piece others ih =>
    have kept : uncommented (c :: rest) = c :: rest.take more ++ uncommented (rest.drop more) := by
      simp [uncommented, pieces_token piece]
    rw [kept, (munch_token_counts piece).depth_append, ih, braceBalance_cons]

theorem Scans.depth_eq (scans : Scans offset cs ts)
    (closed : ∀ comment ∈ comments cs, code.after comment = .code) :
    code.depth cs = braceBalance ts + code.depth (comments cs).flatten := by
  induction scans with
  | done => rfl
  | @blank offset more c rest ts piece others ih =>
    have whole : c :: rest = c :: rest.take more ++ rest.drop more := by simp
    by_cases space : isBlank c
    · have same : comments (c :: rest) = comments (rest.drop more) := by
        simp [comments, pieces_blank piece, space]
      rw [same] at closed ⊢
      rw [whole, (munch_space_counts piece space).depth_append, ih closed, Int.zero_add]
    · have first : comments (c :: rest) = (c :: rest.take more) :: comments (rest.drop more) := by
        simp [comments, pieces_blank piece, space]
      rw [first, List.forall_mem_cons] at closed
      have text : Counts (c :: rest.take more) (code.depth (c :: rest.take more)) :=
        ⟨rfl, closed.1⟩
      rw [first, List.flatten_cons, text.depth_append, whole, text.depth_append, ih closed.2]
      omega
  | @token offset more t c rest ts piece others ih =>
    have whole : c :: rest = c :: rest.take more ++ rest.drop more := by simp
    have same : comments (c :: rest) = comments (rest.drop more) := by
      simp [comments, pieces_token piece]
    rw [same] at closed ⊢
    rw [whole, (munch_token_counts piece).depth_append, ih closed, braceBalance_cons, Int.add_assoc]

end

end Lexer

/-! ## Sessions -/

namespace Interactive

variable {g : Engine} {s s' : Interactive} {source : String}

/-- The unfinished block with the line behind it. -/
def collected (s : Interactive) (line : String) : String :=
  if s.pending.isEmpty then line else s.pending ++ "\n" ++ line

theorem foldl_complain (s : Interactive) (lines : List String) :
    ∃ complaints, lines.foldl complain s = { s with complaints } := by
  induction lines generalizing s with
  | nil => exact ⟨s.complaints, rfl⟩
  | cons line lines ih => exact ih (s.complain line)

theorem pending_complaints (s : Interactive) (lines : List String) :
    (lines.foldl complain s).pending = s.pending := by
  obtain ⟨complaints, same⟩ := foldl_complain s lines
  rw [same]

theorem pending_of_runSource (ran : runSource g s source = .ok s') : s'.pending = s.pending := by
  unfold runSource at ran
  split at ran
  · cases ran
  · split at ran
    · cases ran
      rfl
    · cases ran
      exact pending_complaints _ _
    · cases ran
      rfl

theorem pending_input (g : Engine) (s : Interactive) (source : String) :
    (input g s source).pending = s.pending := by
  unfold input
  split
  · next ran => exact pending_of_runSource ran
  · split
    · next ran => exact pending_of_runSource ran
    · rfl

theorem feed_open {line : String} (isOpen : 0 < braceDepth (s.collected line)) :
    s.feed g line = { s with pending := s.collected line } :=
  if_pos isOpen

theorem feed_closed {line : String} (isClosed : ¬0 < braceDepth (s.collected line)) :
    s.feed g line = input g { s with pending := "" } (s.collected line) :=
  if_neg isClosed

end Interactive

/-- The braces in the comments of a text. -/
def commentDepth (source : String) : Int :=
  BraceScan.code.depth (Lexer.comments source.toList).flatten

/-- For a text that the lexer accepts the braces outside of comments are those of its lexemes.
If no comment leaves a quote open, the braces in the comments are all that is added, and lines
are held back as long as a block is open by this count, and run otherwise. -/
theorem braceDepth_eq_balance {source : String} {ts : List Lexeme}
    (lexed : tokenize source = .ok ts) :
    braceDepth (String.ofList (Lexer.uncommented source.toList)) = braceBalance ts ∧
    ((∀ comment ∈ Lexer.comments source.toList, BraceScan.code.after comment = .code) →
      braceDepth source = braceBalance ts + commentDepth source ∧
      ∀ (g : Engine) (s : Interactive) (line : String), s.collected line = source →
        (0 < braceBalance ts + commentDepth source →
          s.feed g line = { s with pending := source }) ∧
        (¬0 < braceBalance ts + commentDepth source →
          s.feed g line = Interactive.input g { s with pending := "" } source ∧
            (s.feed g line).pending = "")) := by
  have scans := tokenize_eq_ok_iff.mp lexed
  refine ⟨?_, fun closed => ?_⟩
  · rw [braceDepth, String.toList_ofList]
    exact scans.depth_uncommented
  have counted : braceDepth source = braceBalance ts + commentDepth source :=
    scans.depth_eq closed
  refine ⟨counted, fun g s line same => ?_⟩
  subst same
  rw [← counted]
  refine ⟨Interactive.feed_open, fun isClosed => ?_⟩
  rw [Interactive.feed_closed isClosed]
  exact ⟨rfl, Interactive.pending_input ..⟩

/-- Braces and quotes in code, in a string and in a comment, which opens one more block. -/
theorem braceDepth_eq_balance_mixed : ∃ source ts,
    source = "if b \x7b s = \"\x7d\\\"\"; # \x7b \"\x7d\"" ∧ tokenize source = .ok ts ∧
    (∀ comment ∈ Lexer.comments source.toList, BraceScan.code.after comment = .code) ∧
    commentDepth source = 1 ∧
    braceDepth (String.ofList (Lexer.uncommented source.toList)) = 1 ∧ braceDepth source = 2 ∧
    ∀ g, Interactive.feed g {} source = { pending := source } := by
  have lexed : tokenize "if b \x7b s = \"\x7d\\\"\"; # \x7b \"\x7d\"" = .ok
      [⟨.keyword .ifWord, ⟨0, 2⟩⟩, ⟨.ident "b", ⟨3, 4⟩⟩, ⟨.symbol .lBrace, ⟨5, 6⟩⟩,
        ⟨.ident "s", ⟨7, 8⟩⟩, ⟨.symbol .eq, ⟨9, 10⟩⟩, ⟨.str "\x7d\"", ⟨11, 16⟩⟩,
        ⟨.symbol .semi, ⟨16, 17⟩⟩] := by
    rfl
  have closed : ∀ comment ∈ Lexer.comments "if b \x7b s = \"\x7d\\\"\"; # \x7b \"\x7d\"".toList,
      BraceScan.code.after comment = .code := by
    decide +kernel
  have inComments : commentDepth "if b \x7b s = \"\x7d\\\"\"; # \x7b \"\x7d\"" = 1 := by
    decide +kernel
  obtain ⟨outside, whole⟩ := braceDepth_eq_balance lexed
  obtain ⟨counted, held⟩ := whole closed
  rw [inComments] at counted held
  exact ⟨_, _, rfl, lexed, closed, inComments, outside, counted,
    fun g => (held g {} _ rfl).1 (by decide)⟩

/-- A brace in a comment holds back a line whose lexemes leave no block open, and a quote in a
comment hides a brace that does. -/
theorem braceDepth_ne_balance :
    (∃ source ts, source = "print(1); # \x7b" ∧ tokenize source = .ok ts ∧ braceBalance ts = 0 ∧
      braceDepth source = 1 ∧ ∀ g, Interactive.feed g {} source = { pending := source }) ∧
    ∃ source ts, source = "# \"\nif b \x7b" ∧ tokenize source = .ok ts ∧ braceBalance ts = 1 ∧
      braceDepth source = 0 := by
  have lexed : tokenize "print(1); # \x7b" = .ok
      [⟨.ident "print", ⟨0, 5⟩⟩, ⟨.symbol .lParen, ⟨5, 6⟩⟩, ⟨.int 1, ⟨6, 7⟩⟩,
        ⟨.symbol .rParen, ⟨7, 8⟩⟩, ⟨.symbol .semi, ⟨8, 9⟩⟩] := by
    rfl
  have lexed' : tokenize "# \"\nif b \x7b" = .ok
      [⟨.keyword .ifWord, ⟨4, 6⟩⟩, ⟨.ident "b", ⟨7, 8⟩⟩, ⟨.symbol .lBrace, ⟨9, 10⟩⟩] := by
    rfl
  have isOpen : 0 < braceDepth (Interactive.collected {} "print(1); # \x7b") := by
    decide +kernel
  exact ⟨⟨_, _, rfl, lexed, by decide, by decide +kernel, fun g => Interactive.feed_open isOpen⟩,
    _, _, rfl, lexed', by decide, by decide +kernel⟩

end TraceLang
