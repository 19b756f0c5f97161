/-
# TraceLang.Proofs.Syntax.Spelling — texts that spell tokens

`Spells next cs ts` says that the lexer reads the tokens `ts` from the characters `cs`
wherever these stand, if what follows them is as `next` asks. A word or a number ends
only where nothing continues it (`Fresh`), most symbols end in any case. Pieces whose
requirements are met can be put together (`Spells.append`), so that a text is read by
reading its parts.

Every token is spelled by its own text, floating-point literals and texts with
characters beyond the printable ones apart. So a sequence of tokens is read back from
their texts with a blank between each two of them (`tokenize_texts`).
-/
import TraceLang.Proofs.Syntax.Lexing
import TraceLang.Proofs.Syntax.Reading

namespace TraceLang

set_option autoImplicit false

namespace Lexer

/-- What follows continues neither a word nor a number nor a symbol. -/
def Fresh (rest : List Char) : Prop :=
  ∀ c ∈ rest.head?, isWordPart c = false ∧ c ≠ '.' ∧ c ≠ '=' ∧ c ≠ '/'

theorem fresh_nil : Fresh [] := by
  rintro c ⟨⟩

theorem fresh_cons {c : Char} {rest : List Char}
    (ends : isWordPart c = false ∧ c ≠ '.' ∧ c ≠ '=' ∧ c ≠ '/') : Fresh (c :: rest) := by
  rintro _ ⟨⟩
  exact ends

/-- Anything may follow. -/
abbrev Anything (_ : List Char) : Prop :=
  True

/-- From these characters the lexer reads these tokens. -/
def Spells (next : List Char → Prop) (cs : List Char) (ts : List Token) : Prop :=
  ∀ (offset : Nat) (rest : List Char) (ls : List Lexeme), next rest →
    Scans (offset + byteLength cs) rest ls →
      ∃ ls', Scans offset (cs ++ rest) (ls' ++ ls) ∧ ls'.map (·.token) = ts

variable {next next' : List Char → Prop} {c : Char} {cs cs' rest : List Char} {t : Token}
  {ts ts' : List Token}

theorem byteLength_append (cs cs' : List Char) :
    byteLength (cs ++ cs') = byteLength cs + byteLength cs' := by
  induction cs with
  | nil => simp
  | cons c cs ih => rw [List.cons_append, byteLength_cons, byteLength_cons, ih, Nat.add_assoc]

theorem Spells.append (first : Spells next cs ts) (second : Spells next' cs' ts')
    (follows : ∀ rest, next' rest → next (cs' ++ rest)) :
    Spells next' (cs ++ cs') (ts ++ ts') := by
  intro offset rest ls allowed scans
  rw [byteLength_append, ← Nat.add_assoc] at scans
  obtain ⟨later, scansLater, rfl⟩ := second _ rest ls allowed scans
  obtain ⟨earlier, scansAll, rfl⟩ := first offset _ _ (follows rest allowed) scansLater
  refine ⟨earlier ++ later, ?_, by simp⟩
  rw [List.append_assoc, List.append_assoc]
  exact scansAll

theorem Spells.mono (spells : Spells next cs ts) (weaker : ∀ rest, next' rest → next rest) :
    Spells next' cs ts :=
  fun offset rest ls allowed scans => spells offset rest ls (weaker rest allowed) scans

/-- A text spells one sequence of tokens at most. -/
theorem Spells.unique (first : Spells next cs ts) (second : Spells next' cs ts') (ends : next [])
    (ends' : next' []) : ts = ts' := by
  obtain ⟨ls, scans, rfl⟩ := first 0 [] [] ends .done
  obtain ⟨ls', scans', rfl⟩ := second 0 [] [] ends' .done
  have same := (scans.scan_eq []).symm.trans (scans'.scan_eq [])
  obtain rfl : ls = ls' := by simpa using same
  rfl

/-- Nothing spells no token. -/
theorem spells_nil : Spells next [] [] :=
  fun _ _ _ _ scans => ⟨[], scans, rfl⟩

/-- One piece that is a token. -/
theorem spells_token (piece : ∀ rest, next rest → munch c (cs ++ rest) = .token t cs.length) :
    Spells next (c :: cs) [t] := by
  intro offset rest ls allowed scans
  have others : Scans (offset + byteLength (c :: (cs ++ rest).take cs.length))
      ((cs ++ rest).drop cs.length) ls := by
    rw [List.take_left, List.drop_left]
    exact scans
  exact ⟨[_], .token (piece rest allowed) others, rfl⟩

/-- A blank is no token. -/
theorem spells_space : Spells Anything [' '] [] := by
  intro offset rest ls _ scans
  have piece : munch ' ' rest = .blank 0 := rfl
  exact ⟨[], Scans.blank piece scans, rfl⟩

/-! ## Symbols -/

theorem Fresh.head_ne (fresh : Fresh rest) :
    rest.head? ≠ some '.' ∧ rest.head? ≠ some '=' ∧ rest.head? ≠ some '/' := by
  refine ⟨fun next => ?_, fun next => ?_, fun next => ?_⟩
  · exact (fresh _ next).2.1 rfl
  · exact (fresh _ next).2.2.1 rfl
  · exact (fresh _ next).2.2.2 rfl

/-- Only three symbols and the beginning of a comment can become longer. -/
theorem munchSymbol_of_ne {next : Option Char} (alone : next ≠ some '=') :
    munchSymbol '=' next = .token (.symbol .eq) 0 ∧
      munchSymbol '<' next = .token (.symbol .lt) 0 ∧
      munchSymbol '>' next = .token (.symbol .gt) 0 := by
  cases next with
  | none => exact ⟨rfl, rfl, rfl⟩
  | some c =>
    have other : c ≠ '=' := fun same => alone (congrArg some same)
    refine ⟨?_, ?_, ?_⟩ <;> unfold munchSymbol <;> split <;> simp_all

theorem spells_symbol (s : Symbol) : Spells Fresh s.text.toList [.symbol s] := by
  cases s with
  | eq => exact spells_token fun rest fresh => (munchSymbol_of_ne fresh.head_ne.2.1).1
  | lt => exact spells_token fun rest fresh => (munchSymbol_of_ne fresh.head_ne.2.1).2.1
  | gt => exact spells_token fun rest fresh => (munchSymbol_of_ne fresh.head_ne.2.1).2.2
  | slash =>
    refine spells_token fun rest fresh => ?_
    have noComment : ¬ (('/' : Char) = '/' ∧ rest.head? = some '/') := fun both =>
      fresh.head_ne.2.2 both.2
    show munch '/' rest = _
    rw [munch, if_neg (by decide), if_neg (by decide), if_neg noComment]
    rfl
  | _ => exact spells_token fun rest _ => rfl

/-- What opens parentheses or brackets and the minus sign end in any case. -/
theorem spells_opening (s : Symbol) (opening : s = .lParen ∨ s = .lBracket ∨ s = .minus) :
    Spells Anything s.text.toList [.symbol s] := by
  rcases opening with rfl | rfl | rfl <;> exact spells_token fun rest _ => rfl

/-! ## Words -/

theorem takeWhile_append_stop {p : Char → Bool} (all : ∀ c ∈ cs, p c)
    (stops : ∀ c ∈ rest.head?, p c = false) :
    (cs ++ rest).takeWhile p = cs ∧ (cs ++ rest).dropWhile p = rest := by
  have none : rest.takeWhile p = [] ∧ rest.dropWhile p = rest := by
    cases rest with
    | nil => exact ⟨rfl, rfl⟩
    | cons c rest => simp [stops c rfl]
  rw [List.takeWhile_append_of_pos all, List.dropWhile_append_of_pos all, none.1, none.2,
    List.append_nil]
  exact ⟨rfl, rfl⟩

theorem not_isDigit_of_isWordStart (start : isWordStart c) : c.isDigit = false := by
  have apart : ¬ c.isDigit := by
    intro digit
    have bounds := Char.isDigit_iff_toNat.mp digit
    have ranges : (decide (c.val ≥ 'A'.val ∧ c.val ≤ 'Z'.val) ||
        (decide (c.val ≥ 'a'.val) && decide (c.val ≤ 'z'.val)) || decide (c = '_')) = true := start
    simp only [ge_iff_le, UInt32.le_iff_toNat_le, Char.toNat_val, Bool.or_eq_true,
      Bool.and_eq_true, decide_eq_true_eq, Char.reduceVal, UInt32.reduceToNat,
      Char.reduceToNat] at ranges bounds
    rcases ranges with (letter | letter) | rfl
    · omega
    · omega
    · exact absurd bounds (by decide)
  simpa using apart

/-- A character that begins a word begins nothing else. -/
theorem munch_word (start : isWordStart c) (rest : List Char) : munch c rest = munchWord c rest := by
  have ne (other : Char) (not : isWordStart other = false) : c ≠ other := by
    rintro rfl
    rw [not] at start
    cases start
  have blank : ¬ isBlank c := by
    simp [isBlank, ne ' ' rfl, ne '\t' rfl, ne '\n' rfl, ne '\r' rfl]
  rw [munch, if_neg blank, if_neg (ne '#' rfl), if_neg fun both => ne '/' rfl both.1,
    if_neg (by simp [not_isDigit_of_isWordStart start]), if_pos start]

theorem spells_word (start : isWordStart c) (parts : cs.all isWordPart) :
    Spells Fresh (c :: cs) [.ofWord (String.ofList (c :: cs))] := by
  refine spells_token fun rest fresh => ?_
  have ends :=
    takeWhile_append_stop (List.all_eq_true.mp parts) fun c next => (fresh c next).1
  rw [munch_word start, munchWord, ends.1]

/-- A valid name is no keyword and no type. -/
theorem ofWord_of_isValidName {name : String} (valid : isValidName name) :
    Token.ofWord name = .ident name := by
  have free : name ∉ reservedWords := by
    unfold isValidName at valid
    split at valid
    · cases valid
    · simp only [Bool.and_eq_true, Bool.not_eq_true'] at valid
      simpa using valid.2
  have keywords : ∀ k : Keyword, k.text ∈ reservedWords := by
    intro k
    cases k <;> decide
  have types : ∀ ty : Ty, ty.keyword ∈ reservedWords := by
    intro ty
    cases ty <;> decide
  have noKeyword : Keyword.ofText? name = none := by
    rw [Keyword.ofText?, List.find?_eq_none]
    intro k _ same
    exact free (of_decide_eq_true same ▸ keywords k)
  have noType : Ty.ofKeyword? name = none := by
    rw [Ty.ofKeyword?, List.find?_eq_none]
    intro ty _ same
    exact free (of_decide_eq_true same ▸ types ty)
  rw [Token.ofWord, noKeyword, noType]

theorem spells_ident {name : String} (valid : isValidName name) :
    Spells Fresh name.toList [.ident name] := by
  have ident := ofWord_of_isValidName valid
  unfold isValidName at valid
  cases chars : name.toList with
  | nil => simp [chars] at valid
  | cons c cs =>
    simp only [chars, Bool.and_eq_true] at valid
    rw [← ident, ← String.ofList_toList (s := name), chars]
    exact spells_word valid.1.1 valid.1.2

theorem spells_keyword (k : Keyword) : Spells Fresh k.text.toList [.keyword k] := by
  cases k <;> exact spells_word (by decide) (by decide)

/-! ## Numbers -/

/-- A digit begins nothing but a number. -/
theorem munch_digit (digit : c.isDigit) (rest : List Char) : munch c rest = munchNumber c rest := by
  have ne (other : Char) (not : other.isDigit = false) : c ≠ other := by
    rintro rfl
    rw [not] at digit
    cases digit
  have blank : ¬ isBlank c := by
    simp [isBlank, ne ' ' rfl, ne '\t' rfl, ne '\n' rfl, ne '\r' rfl]
  rw [munch, if_neg blank, if_neg (ne '#' rfl), if_neg fun both => ne '/' rfl both.1, if_pos digit]

/-- A number ends where neither a digit nor a point follows. -/
theorem spells_digits {digits : List Char} (all : ∀ d ∈ digits, d.isDigit) (nonempty : digits ≠ [])
    (small : (natOfDigits digits : Int) ≤ Int64.maxValue.toInt) :
    Spells Fresh digits [.int (Int64.ofInt (natOfDigits digits))] := by
  obtain ⟨c, cs, rfl⟩ := List.exists_cons_of_ne_nil nonempty
  refine spells_token fun rest fresh => ?_
  have stops : ∀ c ∈ rest.head?, c.isDigit = false := fun c next => by
    have other := (fresh c next).1
    simp only [isWordPart, Char.isAlphanum, Bool.or_eq_false_iff] at other
    exact other.1.2
  have ends := takeWhile_append_stop (fun d mem => all d (List.mem_cons_of_mem c mem)) stops
  have whole : munchInt (c :: cs) =
      .token (.int (Int64.ofInt (natOfDigits (c :: cs)))) cs.length := by
    rw [munchInt, if_pos small]
    rfl
  rw [munch_digit (all c List.mem_cons_self), munchNumber, ends.1, ends.2]
  split
  · exact absurd rfl fresh.head_ne.1
  · exact whole

theorem spells_int {n : Int64} (nonneg : 0 ≤ n.toInt) :
    Spells Fresh (toString n.toInt).toList [.int n] := by
  obtain ⟨k, value⟩ := Int.eq_ofNat_of_zero_le nonneg
  have digits : (toString n.toInt).toList = Nat.toDigits 10 k := by
    rw [value]
    exact Nat.toList_repr
  have number : natOfDigits (Nat.toDigits 10 k) = k := Nat.ofDigitChars_ten_toDigits
  have spells : Spells Fresh (Nat.toDigits 10 k)
      [.int (Int64.ofInt (natOfDigits (Nat.toDigits 10 k)))] := by
    apply spells_digits
    · exact fun d mem => Nat.isDigit_of_mem_toDigits (by decide) (by decide) mem
    · exact Nat.toDigits_ne_nil
    · rw [number, ← value]
      exact n.toInt_le
  rw [number, ← value, Int64.ofInt_toInt] at spells
  rw [digits]
  exact spells

/-! ## Strings -/

/-- A printable character of ASCII, a line break or a tabulator. -/
def isPlain (c : Char) : Bool :=
  c = '\n' || c = '\t' || (0x20 ≤ c.toNat && c.toNat < 0x7f)

/-- A plain character stands between quotes as an escape or for itself, and either way
reads as itself. -/
theorem munchString_escape_one {taken : List Char} {length : Nat} (plain : isPlain c)
    (rest : List Char) :
    munchString taken length (Quoted.escape c ++ rest) =
      munchString (c :: taken) (length + (Quoted.escape c).length) rest := by
  by_cases quote : c = '"'
  · subst quote; rfl
  by_cases backslash : c = '\\'
  · subst backslash; rfl
  by_cases lineBreak : c = '\n'
  · subst lineBreak; rfl
  by_cases tab : c = '\t'
  · subst tab; rfl
  have range : 0x20 ≤ c.toNat ∧ c.toNat < 0x7f := by
    simpa [isPlain, lineBreak, tab] using plain
  have visible : isVisible c := by
    rw [isVisible, if_pos (by omega)]
    simp [range]
  have carriage : c ≠ '\r' := by
    rintro rfl
    exact absurd range (by decide)
  have itself : Quoted.escape c = [c] := by
    rw [Quoted.escape, if_neg quote, if_neg backslash, if_neg lineBreak, if_neg carriage, if_neg tab,
      if_neg (by omega), if_pos visible]
  rw [itself, List.singleton_append,
    munchString.eq_4 taken length c rest quote fun _ _ is _ => backslash is, if_neg backslash]
  rfl

theorem munchString_escape {taken : List Char} {length : Nat} {s : List Char}
    (plain : ∀ c ∈ s, isPlain c) (rest : List Char) :
    munchString taken length (s.flatMap Quoted.escape ++ '"' :: rest) =
      .token (.str (String.ofList (taken.reverse ++ s)))
        (length + (s.flatMap Quoted.escape).length + 1) := by
  induction s generalizing taken length with
  | nil => simp [munchString]
  | cons c s ih =>
    rw [List.flatMap_cons, List.append_assoc, munchString_escape_one (plain c List.mem_cons_self),
      ih fun c mem => plain c (List.mem_cons_of_mem _ mem)]
    simp [Nat.add_assoc]

theorem spells_quoted {s : String} (plain : ∀ c ∈ s.toList, isPlain c) :
    Spells Anything (quoted s).toList [.str s] := by
  rw [quoted, String.toList_ofList, Quoted.chars, List.cons_append]
  refine spells_token fun rest _ => ?_
  show munchString [] 0 _ = _
  rw [List.append_assoc, List.singleton_append, munchString_escape plain]
  simp

/-! ## Tokens -/

end Lexer

/-- The text of the token is read as the token. Where a literal is negative or not a plain
text it is not, and the word `none` is a keyword and not a type. -/
def Token.Spellable : Token → Prop
  | .int n => 0 ≤ n.toInt
  | .float _ => False
  | .str s => ∀ c ∈ s.toList, Lexer.isPlain c
  | .ident name => isValidName name
  | .typeName ty => ty ≠ .none
  | _ => True

theorem Token.spells {t : Token} (spellable : t.Spellable) :
    Lexer.Spells Lexer.Fresh t.text.toList [t] := by
  cases t with
  | keyword k => exact Lexer.spells_keyword k
  | typeName ty =>
    cases ty <;> first | exact absurd rfl spellable |
      exact Lexer.spells_word (by decide) (by decide)
  | int n => exact Lexer.spells_int spellable
  | float x => exact absurd spellable not_false
  | str s => exact (Lexer.spells_quoted spellable).mono fun _ _ => trivial
  | ident name => exact Lexer.spells_ident spellable
  | symbol s => exact Lexer.spells_symbol s

/-! ## Sequences of tokens -/

open Lexer in
/-- A blank continues no token, so each text is read by itself. -/
theorem Token.spells_texts {ts : List Token} (spellable : ∀ t ∈ ts, t.Spellable) :
    Spells Fresh (" ".intercalate (ts.map Token.text)).toList ts := by
  induction ts with
  | nil => exact spells_nil
  | cons t rest ih =>
    obtain ⟨first, others⟩ := List.forall_mem_cons.mp spellable
    cases rest with
    | nil => exact Token.spells first
    | cons t' rest =>
      have behind := spells_space.append (ih others) fun _ _ => trivial
      have whole := (Token.spells first).append behind fun _ _ => fresh_cons (by decide)
      rw [List.map_cons, List.map_cons, String.intercalate_cons_cons, String.toList_append,
        String.toList_append, List.append_assoc]
      exact whole

/-- The texts of some tokens, with a blank between each two of them, are read as these
tokens. -/
theorem tokenize_texts {ts : List Token} (spellable : ∀ t ∈ ts, t.Spellable) :
    (tokenize (" ".intercalate (ts.map Token.text))).map (List.map Lexeme.token) = .ok ts := by
  obtain ⟨ls, scans, tokens⟩ := Token.spells_texts spellable 0 [] [] Lexer.fresh_nil .done
  rw [List.append_nil, List.append_nil] at scans
  rw [tokenize_eq_ok_iff.mpr scans, Except.map, tokens]

/-- A string that ends with backslashes and quotes, names that begin with reserved words, and
symbols that would be one symbol or a comment without the blanks. -/
theorem tokenize_texts_adjacent :
    let ts : List Token :=
      [.str "\n \"\\n\t\"\\\\", .str "", .ident "integer", .ident "_", .typeName .int, .keyword .noneWord,
        .symbol .eq, .symbol .eq, .symbol .lt, .symbol .eqEq, .symbol .slash, .symbol .slash,
        .int Int64.maxValue, .int 0]
    (∀ t ∈ ts, t.Spellable) ∧
      (tokenize (" ".intercalate (ts.map Token.text))).map (List.map Lexeme.token) = .ok ts := by
  intro ts
  have spellable : ∀ t ∈ ts, t.Spellable := by
    simp only [ts, List.forall_mem_cons]
    exact ⟨List.all_eq_true.mp (by decide), List.all_eq_true.mp (by decide), rfl, rfl,
      (by decide : Ty.int ≠ .none), trivial, trivial, trivial, trivial, trivial, trivial, trivial,
      (by decide : 0 ≤ Int64.maxValue.toInt), (by decide : 0 ≤ (0 : Int64).toInt), by simp⟩
  exact ⟨spellable, tokenize_texts spellable⟩

end TraceLang
