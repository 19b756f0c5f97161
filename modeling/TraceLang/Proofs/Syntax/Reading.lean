/-
# TraceLang.Proofs.Syntax.Reading — what a source text can spell

Not every program has a source text. The names in a source are words that are
not reserved, its declarations never replace a variable and stand for the default
value where they have no initializer, and the header of a loop holds a
declaration, an assignment or a call. `Instr.Spelled` says this of one
instruction, and `read_spelled` of all instructions of a program that was read
from a source.

The identifiers among the lexemes are valid names (`tokenize_wellNamed`). A
parser passes this on to what it builds: `p.Yields P` says that `p` gives only
values with the property `P` when the identifiers before it are valid.
-/
import TraceLang.Proofs.Syntax.Program
import TraceLang.Syntax.Parser

namespace TraceLang

set_option autoImplicit false

theorem Except.eq_of_toOption {ε α : Type} {result : Except ε α} {a : α}
    (ok : result.toOption = some a) : result = .ok a := by
  cases result with
  | error e => cases ok
  | ok a => cases ok; rfl

/-! ## Identifiers -/

/-- A token that a source can have: its literals have no sign, and the word `none` is no
type. -/
def Token.Genuine : Token → Prop
  | .int n => 0 ≤ n.toInt
  | .ident name => isValidName name
  | .typeName ty => ty ≠ .none
  | _ => True

/-- If the token is an identifier, it is a valid name. -/
def Token.WellNamed (t : Token) : Prop :=
  ∀ name, t = .ident name → isValidName name

theorem reserved_keyword_or_type : ∀ word ∈ reservedWords,
    (∃ k ∈ Keyword.all, k.text = word) ∨ (∃ t ∈ Ty.all, t.keyword = word) := by
  decide

theorem Token.ident_of_ofWord {word name : String} (ident : Token.ofWord word = .ident name) :
    word = name ∧ word ∉ reservedWords := by
  unfold Token.ofWord at ident
  cases keyword : Keyword.ofText? word with
  | some k => simp [keyword] at ident
  | none =>
    cases type : Ty.ofKeyword? word with
    | some t => simp [keyword, type] at ident
    | none =>
      simp only [keyword, type, Token.ident.injEq] at ident
      refine ⟨ident, fun reserved => ?_⟩
      simp only [Keyword.ofText?, Ty.ofKeyword?, List.find?_eq_none, decide_eq_true_eq]
        at keyword type
      rcases reserved_keyword_or_type word reserved with ⟨k, listed, spells⟩ | ⟨t, listed, spells⟩
      · exact keyword k listed spells
      · exact type t listed spells

theorem Token.ofWord_genuine {word : String} (named : word ∉ reservedWords → isValidName word) :
    (Token.ofWord word).Genuine := by
  cases is : Token.ofWord word with
  | ident name =>
    obtain ⟨rfl, free⟩ := Token.ident_of_ofWord is
    exact named free
  | typeName ty =>
    rintro rfl
    unfold Token.ofWord at is
    split at is
    · cases is
    · next noKeyword =>
      split at is
      · next t found =>
        cases is
        have spelled : Ty.none.keyword = word := by simpa using List.find?_some found
        rw [← spelled] at noKeyword
        exact absurd noKeyword (by decide)
      · cases is
  | int n =>
    unfold Token.ofWord at is
    split at is
    · cases is
    · split at is <;> cases is
  | _ => trivial

namespace Lexer

theorem munchWord_genuine {c : Char} {rest : List Char} {t : Token} {more : Nat}
    (start : isWordStart c) (found : munchWord c rest = .token t more) : t.Genuine := by
  simp only [munchWord, Munch.token.injEq] at found
  rw [← found.1]
  apply Token.ofWord_genuine
  intro free
  have parts : (rest.takeWhile isWordPart).all isWordPart := List.all_takeWhile
  simp only [isValidName, String.toList_ofList, start, parts, Bool.true_and]
  simpa using free

theorem munchInt_genuine {digits : List Char} {t : Token} {more : Nat}
    (found : munchInt digits = .token t more) : t.Genuine := by
  simp only [munchInt] at found
  split at found
  · next small =>
    cases found
    have bound : Int64.maxValue.toInt < 2 ^ 63 := by decide
    have value : (Int64.ofInt (natOfDigits digits)).toInt = natOfDigits digits :=
      Int64.toInt_ofInt_of_le (by omega) (by omega)
    show 0 ≤ (Int64.ofInt (natOfDigits digits)).toInt
    rw [value]
    exact Int.natCast_nonneg _
  · cases found

theorem munchNumber_genuine {c : Char} {rest : List Char} {t : Token} {more : Nat}
    (found : munchNumber c rest = .token t more) : t.Genuine := by
  simp only [munchNumber] at found
  split at found
  · split at found
    · exact munchInt_genuine found
    · cases found
      trivial
  · exact munchInt_genuine found

theorem munchString_genuine {t : Token} {more : Nat} {text : List Char} :
    ∀ {taken : List Char} {length : Nat}, munchString taken length text = .token t more →
      t.Genuine := by
  intro taken length
  fun_induction munchString taken length text with
  | case1 | case3 | case5 => rintro ⟨⟩
  | case2 =>
    rintro ⟨⟩
    trivial
  | case4 _ _ _ _ _ ih | case6 _ _ _ _ _ _ _ ih => exact ih

theorem munchSymbol_genuine {c : Char} {next : Option Char} {t : Token} {more : Nat}
    (found : munchSymbol c next = .token t more) : t.Genuine := by
  unfold munchSymbol at found
  split at found <;> cases found <;> trivial

theorem munch_genuine {c : Char} {rest : List Char} {t : Token} {more : Nat}
    (found : munch c rest = .token t more) : t.Genuine := by
  revert found
  fun_cases munch c rest with
  | case1 | case2 | case3 => rintro ⟨⟩
  | case4 => exact munchNumber_genuine
  | case5 _ _ _ _ start => exact munchWord_genuine start
  | case6 => exact munchString_genuine
  | case7 => exact munchSymbol_genuine

theorem scan_genuine {text : List Char} : ∀ {offset skip : Nat} {found lexemes : List Lexeme},
    (∀ l ∈ found, l.token.Genuine) → scan offset skip found text = .ok lexemes →
    ∀ l ∈ lexemes, l.token.Genuine := by
  induction text with
  | nil =>
    intro offset skip found lexemes before read
    cases read
    simpa using before
  | cons c rest ih =>
    intro offset skip found lexemes before read
    unfold scan at read
    cases skip with
    | succ k => exact ih before read
    | zero =>
      cases munched : munch c rest with
      | blank more =>
        simp only [munched] at read
        exact ih before read
      | token t more =>
        simp only [munched] at read
        exact ih (List.forall_mem_cons.mpr ⟨munch_genuine munched, before⟩) read
      | bad more => simp [munched] at read

end Lexer

theorem tokenize_genuine {source : String} {lexemes : List Lexeme}
    (read : tokenize source = .ok lexemes) : ∀ l ∈ lexemes, l.token.Genuine :=
  Lexer.scan_genuine (fun _ none => by cases none) read

/-- Every identifier of a source is a valid name. -/
theorem tokenize_wellNamed {source : String} {lexemes : List Lexeme}
    (read : tokenize source = .ok lexemes) : ∀ l ∈ lexemes, l.token.WellNamed := by
  intro l mem name is
  have genuine := tokenize_genuine read l mem
  rw [is] at genuine
  exact genuine

/-! ## Parsers -/

/-- The identifiers that are left to parse are valid names. -/
def Cursor.WellNamed (c : Cursor) : Prop :=
  ∀ l ∈ c.rest, l.token.WellNamed

namespace Parser

variable {α β : Type} {P P' : α → Prop} {Q : β → Prop}

/-- The parser gives values with the property only, as long as identifiers are
valid names. -/
def Yields (p : Parser α) (P : α → Prop) : Prop :=
  ∀ (c c' : Cursor) (a : α), c.WellNamed → p c = .ok (a, c') → P a ∧ c'.WellNamed

theorem Yields.mono {p : Parser α} (yields : p.Yields P) (weaker : ∀ a, P a → P' a) :
    p.Yields P' := by
  intro c c' a named read
  obtain ⟨holds, named'⟩ := yields c c' a named read
  exact ⟨weaker a holds, named'⟩

theorem yields_pure {a : α} (holds : P a) : (pure a : Parser α).Yields P := by
  intro c c' a named read
  cases read
  exact ⟨holds, named⟩

theorem yields_bind {p : Parser α} {f : α → Parser β} (first : p.Yields P)
    (second : ∀ a, P a → (f a).Yields Q) : (p >>= f).Yields Q := by
  intro c c' b named read
  change Parser.bind p f c = .ok (b, c') at read
  unfold Parser.bind at read
  cases result : p c with
  | error e => simp [result] at read
  | ok pair =>
    obtain ⟨a, c₁⟩ := pair
    simp only [result] at read
    obtain ⟨holds, named₁⟩ := first c c₁ a named result
    exact second a holds c₁ c' b named₁ read

theorem yields_ite {p : Prop} [Decidable p] {q q' : Parser α} (yes : p → q.Yields P)
    (no : ¬ p → q'.Yields P) : (if p then q else q').Yields P := by
  split
  · exact yes ‹_›
  · exact no ‹_›

/-- Nothing is said about the value. -/
abbrev Passes (p : Parser α) : Prop :=
  p.Yields fun _ => True

theorem Yields.passes {p : Parser α} (yields : p.Yields P) : p.Passes :=
  yields.mono fun _ _ => trivial

/-- After a parser whose value does not matter. -/
theorem Passes.bind {p : Parser α} {f : α → Parser β} (first : p.Passes)
    (second : ∀ a, (f a).Yields Q) : (p >>= f).Yields Q :=
  yields_bind first fun a _ => second a

theorem Passes.discard {p : Parser α} (passes : p.Passes) : (discard p).Passes :=
  passes.bind fun _ => yields_pure trivial

/-! ## Reading lexemes -/

theorem yields_fail (complaint : Complaint) (span : Span) :
    (fail complaint span : Parser α).Yields P :=
  nofun

theorem yields_unexpected (wanted : Wanted) : (unexpected wanted : Parser α).Yields P :=
  nofun

theorem yields_tooDeep : (tooDeep : Parser α).Yields P :=
  nofun

theorem yields_peek : peek.Yields fun t => ∀ name, t = some (.ident name) → isValidName name := by
  intro c c' t named read
  cases read
  refine ⟨fun name next => ?_, named⟩
  cases left : c.rest with
  | nil => simp [left] at next
  | cons l rest =>
    simp only [left, List.head?_cons, Option.map_some, Option.some.injEq] at next
    exact named l (by simp [left]) name next

/-- Looking at what is left changes nothing. -/
theorem look_passes (f : Cursor → α) : Passes fun c => .ok (f c, c) := by
  intro c c' a named read
  cases read
  exact ⟨trivial, named⟩

theorem peekSecond_passes : peekSecond.Passes :=
  look_passes _

theorem here_passes : here.Passes :=
  look_passes _

theorem last_passes : last.Passes :=
  look_passes _

theorem turns_passes : turns.Passes :=
  look_passes _

theorem advance_passes : advance.Passes := by
  intro c c' span named read
  unfold advance at read
  cases left : c.rest with
  | nil =>
    simp only [left, Except.ok.injEq, Prod.mk.injEq] at read
    exact ⟨trivial, read.2 ▸ named⟩
  | cons l rest =>
    simp only [left, Except.ok.injEq, Prod.mk.injEq] at read
    obtain ⟨-, rfl⟩ := read
    exact ⟨trivial, fun l member => named l (by simp [left, member])⟩

theorem check_passes (t : Token) : (check t).Passes :=
  yields_peek.passes.bind fun _ => yields_pure trivial

theorem eat_passes (t : Token) : (eat t).Passes :=
  (check_passes t).bind fun _ => yields_ite
    (fun _ => advance_passes.discard.bind fun _ => yields_pure trivial)
    (fun _ => yields_pure trivial)

theorem expectSymbol_passes (s : Symbol) : (expectSymbol s).Passes :=
  (check_passes _).bind fun _ => yields_ite (fun _ => advance_passes) (fun _ => yields_unexpected _)

theorem expectKeyword_passes (k : Keyword) : (expectKeyword k).Passes :=
  (check_passes _).bind fun _ => yields_ite (fun _ => advance_passes) (fun _ => yields_unexpected _)

theorem yields_expectIdent : expectIdent.Yields fun found => isValidName found.1 := by
  refine yields_bind yields_peek fun t valid => ?_
  split
  · exact advance_passes.bind fun _ => yields_pure (valid _ rfl)
  · exact yields_unexpected _

end Parser

/-! ## Expressions -/

/-- If the expression denotes a place, the name of its variable is valid. -/
def Expr.WellRooted (e : Expr) : Prop :=
  ∀ name, e.rootName? = some name → isValidName name

theorem Expr.rootName?_withSpan (e : Expr) (span : Span) :
    (e.withSpan span).rootName? = e.rootName? := by
  cases e <;> rfl

/-- An expression that denotes no place. -/
theorem Expr.wellRooted_of_none {e : Expr} (rootless : e.rootName? = Option.none) :
    e.WellRooted := by
  intro name root
  rw [rootless] at root
  cases root

namespace Parser

theorem yields_chain {operator : Token → Option BinOp} {operand : Parser Expr}
    (ofOperand : operand.Passes) (n : Nat) :
    ∀ {left : Expr}, left.WellRooted → (chain operator operand n left).Yields Expr.WellRooted := by
  induction n with
  | zero => exact fun rooted => yields_pure rooted
  | succ n ih =>
    intro left rooted
    refine yields_peek.passes.bind fun t => ?_
    split
    · refine advance_passes.discard.bind fun _ => ofOperand.bind fun right => ih ?_
      exact Expr.wellRooted_of_none rfl
    · exact yields_pure rooted

theorem yields_leftAssoc (operator : Token → Option BinOp) {operand : Parser Expr}
    (ofOperand : operand.Yields Expr.WellRooted) :
    (leftAssoc operator operand).Yields Expr.WellRooted :=
  yields_bind ofOperand fun _ rooted => turns_passes.bind fun n =>
    yields_chain ofOperand.passes n rooted

theorem moreItems_passes {expr : Parser Expr} (ofExpr : expr.Passes) (n : Nat) :
    ∀ found : List Expr, (moreItems expr n found).Passes := by
  induction n with
  | zero => exact fun _ => yields_pure trivial
  | succ n ih =>
    intro found
    refine ofExpr.bind fun e => (eat_passes _).bind fun _ => ?_
    exact yields_ite (fun _ => ih _) (fun _ => yields_pure trivial)

theorem itemsUntil_passes {expr : Parser Expr} (ofExpr : expr.Passes) (close : Symbol) :
    (itemsUntil expr close).Passes := by
  have closed : ∀ items : List Expr,
      (expectSymbol close >>= fun stop => pure (items, stop) : Parser _).Passes :=
    fun _ => (expectSymbol_passes close).bind fun _ => yields_pure trivial
  refine (check_passes _).bind fun _ => yields_ite (fun _ => ?_) fun _ => ?_
  · exact Passes.bind (yields_pure trivial) closed
  · exact turns_passes.bind fun n => (moreItems_passes ofExpr n []).bind closed

/-- One lexeme that makes an expression which denotes no place. -/
theorem yields_literal {e : Expr} (rootless : e.rootName? = Option.none) :
    (do discard advance
        return e : Parser Expr).Yields Expr.WellRooted :=
  advance_passes.discard.bind fun _ => yields_pure (Expr.wellRooted_of_none rootless)

theorem yields_primary {expr : Parser Expr} (ofExpr : expr.Yields Expr.WellRooted) :
    (primary expr).Yields Expr.WellRooted := by
  have items := itemsUntil_passes ofExpr.passes
  refine here_passes.bind fun span => yields_bind yields_peek fun next valid => ?_
  rcases next with _ | token
  · exact yields_unexpected _
  cases token with
  | int | float | str => exact yields_literal rfl
  | typeName => exact yields_unexpected _
  | keyword k =>
    cases k with
    | trueWord | falseWord | noneWord => exact yields_literal rfl
    | _ => exact yields_unexpected _
  | ident name =>
    refine peekSecond_passes.bind fun second => advance_passes.discard.bind fun _ => ?_
    refine yields_ite (fun _ => ?_) fun _ => yields_pure ?_
    · exact advance_passes.discard.bind fun _ => (items _).bind fun _ =>
        yields_pure (Expr.wellRooted_of_none rfl)
    · rintro _ ⟨⟩
      exact valid name rfl
  | symbol s =>
    cases s with
    | lBracket =>
      exact advance_passes.discard.bind fun _ => (items _).bind fun _ =>
        yields_pure (Expr.wellRooted_of_none rfl)
    | lParen =>
      refine advance_passes.discard.bind fun _ => yields_bind ofExpr fun inner rooted => ?_
      refine (expectSymbol_passes _).bind fun stop => yields_pure ?_
      rwa [Expr.WellRooted, Expr.rootName?_withSpan]
    | _ => exact yields_unexpected _

theorem yields_indices {expr : Parser Expr} (ofExpr : expr.Passes) (n : Nat) :
    ∀ {base : Expr}, base.WellRooted → (indices expr n base).Yields Expr.WellRooted := by
  induction n with
  | zero => exact fun rooted => yields_pure rooted
  | succ n ih =>
    intro base rooted
    refine (eat_passes _).bind fun _ => yields_ite (fun _ => ?_) fun _ => yields_pure rooted
    exact ofExpr.bind fun position => (expectSymbol_passes _).bind fun stop => ih rooted

theorem yields_indexed {expr : Parser Expr} (ofExpr : expr.Yields Expr.WellRooted) :
    (indexed expr).Yields Expr.WellRooted :=
  yields_bind (yields_primary ofExpr) fun _ rooted => turns_passes.bind fun n =>
    yields_indices ofExpr.passes n rooted

end Parser

/-! ## Instructions -/

/-- The instruction itself, apart from those inside it, is one that a source can
spell. -/
def Instr.Spelled : Instr → Prop
  | .declare _ d => isValidName d.name ∧ d.mode = .mustNotExist ∧
      (d.assigned = false → ∃ place, d = .unassigned d.name d.ty place)
  | .assign _ target _ => target.WellRooted
  | .define _ _ params _ _ => ∀ x ∈ params, isValidName x.name
  | .forLoop _ init step _ _ => init.isSimple ∧ step.isSimple
  | _ => True

theorem Instr.every_withSpan {i : Instr} (span : Span) (every : i.Every Spelled) :
    (i.withSpan span).Every Spelled := by
  cases i <;> exact every

namespace Parser

/-- The parsers of a level give what a source can spell. -/
structure Tower.Spells (t : Tower) : Prop where
  expr : t.expr.Yields Expr.WellRooted
  notOperand : t.notOperand.Passes
  minusOperand : t.minusOperand.Passes
  statement : t.statement.Yields fun i => i.Every Instr.Spelled

theorem since_passes (start : Span) : (since start).Passes :=
  last_passes.bind fun _ => yields_pure trivial

theorem everyOf_reverse {block : List Instr} (every : ∀ i ∈ block, i.Every Instr.Spelled) :
    Instr.EveryOf Instr.Spelled block.reverse :=
  Instr.everyOf_iff.mpr fun i member => every i (List.mem_reverse.mp member)

theorem yields_statements {statement : Parser Instr}
    (ofStatement : statement.Yields fun i => i.Every Instr.Spelled) (n : Nat) :
    ∀ {found : List Instr}, (∀ i ∈ found, i.Every Instr.Spelled) →
      (statements statement n found).Yields (Instr.EveryOf Instr.Spelled) := by
  induction n with
  | zero => exact fun _ => yields_unexpected _
  | succ n ih =>
    intro found before
    refine yields_peek.passes.bind fun next => ?_
    split
    · exact advance_passes.discard.bind fun _ => yields_pure (everyOf_reverse before)
    · exact yields_unexpected _
    · exact yields_bind ofStatement fun i every => ih (List.forall_mem_cons.mpr ⟨every, before⟩)

theorem yields_moreParams (n : Nat) : ∀ {found : List Param}, (∀ x ∈ found, isValidName x.name) →
    (moreParams n found).Yields fun params => ∀ x ∈ params, isValidName x.name := by
  have reversed : ∀ {found : List Param}, (∀ x ∈ found, isValidName x.name) →
      ∀ x ∈ found.reverse, isValidName x.name := fun before x member =>
    before x (List.mem_reverse.mp member)
  induction n with
  | zero => exact fun before => yields_pure (reversed before)
  | succ n ih =>
    intro found before
    refine yields_peek.passes.bind fun next => ?_
    split
    · rename_i ty _
      refine advance_passes.discard.bind fun _ => yields_bind yields_expectIdent ?_
      rintro ⟨name, nameSpan⟩ valid
      have valid' : ∀ x ∈ ⟨name, ty⟩ :: found, isValidName x.name :=
        List.forall_mem_cons.mpr ⟨valid, before⟩
      refine (eat_passes _).bind fun _ => yields_ite (fun _ => ih valid') fun _ => ?_
      exact yields_pure (reversed valid')
    · exact yields_unexpected _

section

variable {t : Tower} (spells : t.Spells)

include spells

theorem yields_signed : (signed t).Yields Expr.WellRooted := by
  refine (check_passes _).bind fun _ => yields_ite (fun _ => ?_) fun _ => yields_indexed spells.expr
  refine advance_passes.bind fun start => spells.minusOperand.bind fun operand => yields_pure ?_
  exact Expr.wellRooted_of_none rfl

theorem yields_sum : (sum t).Yields Expr.WellRooted :=
  yields_leftAssoc _ (yields_leftAssoc _ (yields_signed spells))

theorem yields_compared : (compared t).Yields Expr.WellRooted := by
  refine yields_bind (yields_sum spells) fun left rooted => yields_peek.passes.bind fun next => ?_
  split
  · refine advance_passes.discard.bind fun _ => (yields_sum spells).passes.bind fun right => ?_
    exact yields_pure (Expr.wellRooted_of_none rfl)
  · exact yields_pure rooted

theorem yields_negated : (negated t).Yields Expr.WellRooted := by
  refine (check_passes _).bind fun _ => yields_ite (fun _ => ?_) fun _ => yields_compared spells
  refine advance_passes.bind fun start => spells.notOperand.bind fun operand => yields_pure ?_
  exact Expr.wellRooted_of_none rfl

theorem yields_disjunction : (disjunction t).Yields Expr.WellRooted :=
  yields_leftAssoc _ (yields_leftAssoc _ (yields_negated spells))

theorem yields_simple : (simple t).Yields fun i => i.isSimple ∧ i.Spelled := by
  refine here_passes.bind fun start => yields_peek.passes.bind fun next => ?_
  split
  · refine advance_passes.discard.bind fun _ => yields_bind yields_expectIdent ?_
    rintro ⟨name, nameSpan⟩ valid
    refine (eat_passes _).bind fun _ => yields_ite (fun _ => ?_) fun _ => ?_
    · refine spells.expr.passes.bind fun init => (since_passes start).bind fun span => ?_
      exact yields_pure ⟨rfl, valid, rfl, nofun⟩
    · refine yields_ite (fun _ => yields_fail _ _) fun _ => (since_passes start).bind fun span => ?_
      exact yields_pure ⟨rfl, valid, rfl, fun _ => ⟨nameSpan, rfl⟩⟩
  · refine yields_bind spells.expr fun e rooted => (eat_passes _).bind fun _ => ?_
    refine yields_ite (fun _ => ?_) fun _ => ?_
    · refine yields_ite (fun _ => ?_) fun _ => yields_fail _ _
      refine spells.expr.passes.bind fun value => (since_passes start).bind fun span => ?_
      exact yields_pure ⟨rfl, rooted⟩
    · split
      · exact (since_passes start).bind fun span => yields_pure ⟨rfl, trivial⟩
      · exact yields_fail _ _

theorem yields_block : (block t).Yields (Instr.EveryOf Instr.Spelled) :=
  (expectSymbol_passes _).discard.bind fun _ => turns_passes.bind fun n =>
    yields_statements spells.statement n nofun

theorem yields_conditional (n : Nat) : (conditional t n).Yields fun i => i.Every Instr.Spelled := by
  induction n with
  | zero => exact yields_unexpected _
  | succ n ih =>
    refine (expectKeyword_passes _).bind fun start => spells.expr.passes.bind fun cond => ?_
    refine yields_bind (yields_block spells) fun onTrue inTrue => ?_
    have close : ∀ onFalse : List Instr, Instr.EveryOf Instr.Spelled onFalse →
        (do let span ← since start
            return .conditional span cond onTrue onFalse : Parser Instr).Yields
          fun i => i.Every Instr.Spelled := fun onFalse inFalse =>
      (since_passes start).bind fun span => yields_pure ⟨trivial, inTrue, inFalse⟩
    refine (eat_passes _).bind fun _ => yields_ite (fun _ => ?_) fun _ => ?_
    · refine (check_passes _).bind fun _ => yields_ite (fun _ => ?_) fun _ => ?_
      · refine yields_bind ih fun other inOther => ?_
        exact yields_bind (yields_pure ⟨inOther, trivial⟩) close
      · exact yields_bind (yields_block spells) close
    · exact yields_bind (yields_pure trivial) close

theorem yields_forLoop : (forLoop t).Yields fun i => i.Every Instr.Spelled := by
  refine (expectKeyword_passes _).bind fun start => (expectSymbol_passes _).discard.bind fun _ => ?_
  refine yields_bind (yields_simple spells) fun init ofInit => ?_
  refine (expectSymbol_passes _).discard.bind fun _ => spells.expr.passes.bind fun cond => ?_
  refine (expectSymbol_passes _).discard.bind fun _ => ?_
  refine yields_bind (yields_simple spells) fun step ofStep => ?_
  refine (expectSymbol_passes _).discard.bind fun _ => ?_
  refine yields_bind (yields_block spells) fun body inBody => ?_
  refine (since_passes start).bind fun span => ?_
  exact yields_pure ⟨⟨ofInit.1, ofStep.1⟩, Instr.every_of_simple ofInit.1 ofInit.2,
    Instr.every_of_simple ofStep.1 ofStep.2, inBody⟩

theorem yields_definition : (definition t).Yields fun i => i.Every Instr.Spelled := by
  refine (expectKeyword_passes _).bind fun start => ?_
  refine yields_expectIdent.passes.bind fun ⟨name, _⟩ => ?_
  refine (expectSymbol_passes _).discard.bind fun _ => (check_passes _).bind fun _ => ?_
  have close : ∀ params : List Param, (∀ x ∈ params, isValidName x.name) →
      (do discard (expectSymbol .rParen)
          let body ← block t
          let span ← since start
          return .define span name params body span : Parser Instr).Yields
        fun i => i.Every Instr.Spelled := by
    intro params valid
    refine (expectSymbol_passes _).discard.bind fun _ => ?_
    refine yields_bind (yields_block spells) fun body inBody => ?_
    exact (since_passes start).bind fun span => yields_pure ⟨valid, inBody⟩
  refine yields_ite (fun _ => ?_) fun _ => ?_
  · exact yields_bind (yields_pure (fun _ => nofun)) close
  · exact turns_passes.bind fun n => yields_bind (yields_moreParams n fun _ => nofun) close

theorem yields_instruction : (instruction t).Yields fun i => i.Every Instr.Spelled := by
  refine here_passes.bind fun start => yields_peek.passes.bind fun next => ?_
  split
  · exact yields_definition spells
  · exact turns_passes.bind fun n => yields_conditional spells n
  · refine advance_passes.discard.bind fun _ => spells.expr.passes.bind fun cond => ?_
    refine yields_bind (yields_block spells) fun body inBody => ?_
    exact (since_passes start).bind fun span => yields_pure ⟨trivial, inBody⟩
  · exact yields_forLoop spells
  · refine advance_passes.discard.bind fun _ => (expectSymbol_passes _).discard.bind fun _ => ?_
    refine turns_passes.bind fun n => ?_
    refine (moreItems_passes spells.expr.passes n []).bind fun targets => ?_
    refine (expectSymbol_passes _).discard.bind fun _ => ?_
    refine (expectSymbol_passes _).discard.bind fun _ => ?_
    exact (since_passes start).bind fun span => yields_pure trivial
  · refine advance_passes.discard.bind fun _ => (expectSymbol_passes _).discard.bind fun _ => ?_
    exact (since_passes start).bind fun span => yields_pure trivial
  · refine advance_passes.discard.bind fun _ => (expectSymbol_passes _).discard.bind fun _ => ?_
    exact (since_passes start).bind fun span => yields_pure trivial
  · have close : ∀ value : Option Expr,
        (do discard (expectSymbol .semi)
            return .result (← since start) value : Parser Instr).Yields
          fun i => i.Every Instr.Spelled := fun value =>
      (expectSymbol_passes _).discard.bind fun _ => (since_passes start).bind fun span =>
        yields_pure trivial
    refine advance_passes.discard.bind fun _ => (check_passes _).bind fun _ => ?_
    refine yields_ite (fun _ => ?_) fun _ => ?_
    · exact Passes.bind (yields_pure trivial) close
    · exact Passes.bind (spells.expr.passes.bind fun e => yields_pure trivial) close
  · refine yields_bind (yields_simple spells) fun i holds => ?_
    refine (expectSymbol_passes _).discard.bind fun _ => (since_passes start).bind fun span => ?_
    exact yields_pure (Instr.every_withSpan span (Instr.every_of_simple holds.1 holds.2))

end

/-- Each level is built from parsers that give what a source can spell. -/
theorem tower_spells (n : Nat) : (tower n).Spells := by
  induction n with
  | zero => exact ⟨yields_tooDeep, yields_tooDeep, yields_tooDeep, yields_tooDeep⟩
  | succ n ih =>
    exact ⟨yields_disjunction ih, (yields_negated ih).passes, (yields_signed ih).passes,
      yields_instruction ih⟩

theorem yields_toEnd {statement : Parser Instr}
    (ofStatement : statement.Yields fun i => i.Every Instr.Spelled) (n : Nat) :
    ∀ found : List Instr, (∀ i ∈ found, i.Every Instr.Spelled) →
      (toEnd statement n found).Yields (Instr.EveryOf Instr.Spelled) := by
  induction n with
  | zero => exact fun _ before => yields_pure (everyOf_reverse before)
  | succ n ih =>
    intro found before
    refine yields_peek.passes.bind fun next => ?_
    split
    · exact yields_pure (everyOf_reverse before)
    · exact yields_bind ofStatement fun i every => ih _ (List.forall_mem_cons.mpr ⟨every, before⟩)

end Parser

theorem parse_spelled {size : Nat} {lexemes : List Lexeme} {prog : Program}
    (named : ∀ l ∈ lexemes, l.token.WellNamed) (parsed : parse size lexemes = .ok prog) :
    Instr.EveryOf Instr.Spelled prog.body := by
  simp only [parse, bind, Except.bind] at parsed
  split at parsed
  · cases parsed
  · rename_i pair read
    cases parsed
    have yields := Parser.yields_toEnd (Parser.tower_spells maxNesting).statement
      (lexemes.length + 1) [] nofun
    exact (yields { rest := lexemes, size, count := lexemes.length } pair.2 pair.1 named read).1

/-- Every instruction of a program that was read, at any depth, is one that a
source can spell. -/
theorem read_spelled {source : String} {prog : Program} (read : Program.read source = .ok prog) :
    Instr.EveryOf Instr.Spelled prog.body := by
  unfold Program.read at read
  cases lexed : tokenize source with
  | error e => simp [lexed] at read
  | ok lexemes =>
    cases parsed : parse source.utf8ByteSize lexemes with
    | error e => simp [lexed, parsed] at read
    | ok other =>
      simp only [lexed, parsed, Except.ok.injEq] at read
      subst read
      exact parse_spelled (tokenize_wellNamed lexed) parsed

end TraceLang
