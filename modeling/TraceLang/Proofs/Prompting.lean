/-
# TraceLang.Proofs.Prompting — expressions in an interactive session

An input of a session that is no program is tried again as the argument of `print`. It is the
text of the input, not its lexemes, that is put between the parentheses.

The text behind does not change how the input is read: no token goes on with a closing
parenthesis. But a comment goes on to the end of its line. So the lexemes of the new text are
those of the input and the four around them, unless the input ends in a comment, which then
hides the last two (`tokenize_print`).

An expression is no program, since statements end in other tokens than expressions. So each
expression is printed, and nothing was run before. If it ends in a comment, nothing is run at
all, and the session complains about the input (`input_expression`).
-/
import TraceLang.Proofs.Braces
import TraceLang.Proofs.Syntax.ReadingBack

namespace TraceLang

set_option autoImplicit false

namespace Lexer

variable {c : Char} {cs rest behind : List Char} {t : Token} {more offset : Nat} {ts : List Lexeme}

/-! ## A closing parenthesis behind a text -/

/-- Characters of a kind end at the latest where one of another kind follows. -/
theorem takeWhile_append_cons {p : Char → Bool} (other : p c = false) (cs rest : List Char) :
    (cs ++ c :: rest).takeWhile p = cs.takeWhile p ∧
      (cs ++ c :: rest).dropWhile p = cs.dropWhile p ++ c :: rest := by
  induction cs with
  | nil => simp [other]
  | cons d cs ih => by_cases kind : p d <;> simp [kind, ih]

theorem exponentPart_paren (cs behind : List Char) :
    exponentPart (cs ++ ')' :: behind) = exponentPart cs := by
  have digits (cs : List Char) :
      (cs ++ ')' :: behind).takeWhile Char.isDigit = cs.takeWhile Char.isDigit :=
    (takeWhile_append_cons rfl cs behind).1
  rcases cs with _ | ⟨e, _ | ⟨s, tail⟩⟩
  · simp [exponentPart]
  · have none := digits []
    simp_all [exponentPart]
  · by_cases signed : s = '+' ∨ s = '-'
    · simp [exponentPart, signed, digits]
    · have unsigned := digits (s :: tail)
      rw [List.cons_append] at unsigned
      simp [exponentPart, signed, unsigned]

theorem munchNumber_paren (c : Char) (rest behind : List Char) :
    munchNumber c (rest ++ ')' :: behind) = munchNumber c rest := by
  have split (cs : List Char) := takeWhile_append_cons (p := Char.isDigit) (c := ')') rfl cs behind
  rw [munchNumber, munchNumber, (split rest).1, (split rest).2]
  cases rest.dropWhile Char.isDigit with
  | nil => rfl
  | cons point tail =>
    by_cases isPoint : point = '.'
    · subst isPoint
      simp [split tail, exponentPart_paren]
    · simp [isPoint]

/-- A string ends with its closing quote. -/
theorem munchString_append {taken : List Char} {length : Nat}
    (found : munchString taken length rest = .token t more) (behind : List Char) :
    munchString taken length (rest ++ behind) = .token t more := by
  fun_induction munchString taken length rest with
  | case1 | case3 | case5 => cases found
  | case2 => exact found
  | case4 taken length c rest notBreak ih =>
    rw [List.cons_append, List.cons_append, munchString, if_neg notBreak, ih found]
  | case6 taken length c rest notQuote notEscape plain ih =>
    rw [List.cons_append, munchString, if_neg plain, ih found]
    · exact notQuote
    · exact fun _ _ escape _ => plain escape

theorem munchSymbol_paren (c : Char) : munchSymbol c (some ')') = munchSymbol c none := by
  unfold munchSymbol
  split <;> simp_all

theorem head_paren (rest behind : List Char) :
    (rest ++ ')' :: behind).head? = some '/' ↔ rest.head? = some '/' := by
  cases rest <;> simp

theorem munch_token_paren (found : munch c rest = .token t more) (behind : List Char) :
    munch c (rest ++ ')' :: behind) = .token t more := by
  by_cases digit : c.isDigit
  · rw [munch_digit digit] at found ⊢
    rw [munchNumber_paren, found]
  by_cases start : isWordStart c
  · rw [munch_word start] at found ⊢
    rw [← found, munchWord, munchWord, (takeWhile_append_cons rfl rest behind).1]
  unfold munch at found ⊢
  -- white space and the two kinds of comments are no tokens
  split at found
  · cases found
  split at found
  · cases found
  split at found
  · cases found
  next blank hash slashes =>
  have slashes' : ¬(c = '/' ∧ (rest ++ ')' :: behind).head? = some '/') := by
    rwa [head_paren]
  rw [if_neg blank, if_neg hash, if_neg slashes', if_neg digit, if_neg start]
  split at found
  · next quote => rw [if_pos quote, munchString_append found]
  · next notQuote =>
    rw [if_neg notQuote, ← found]
    cases rest with
    | nil => exact munchSymbol_paren c
    | cons => rfl

/-- White space is one character, and a comment goes on to the end of the line. -/
theorem munch_blank_paren (piece : munch c rest = .blank more) (behind : List Char) :
    munch c (rest ++ ')' :: behind) =
      .blank (if isBlank c then 0 else lineLength (rest ++ ')' :: behind)) := by
  by_cases space : isBlank c
  · rw [munch, if_pos space, if_pos space]
  · rw [if_neg space]
    rcases munch_blank piece with ⟨blank, -⟩ | ⟨rfl | ⟨rfl, next⟩, -⟩
    · exact absurd blank space
    · rw [munch, if_neg space, if_pos rfl]
    · have slashes := (head_paren rest behind).mpr next
      rw [munch, if_neg space, if_neg (by decide), if_pos ⟨rfl, slashes⟩]

/-- A line that ends in a text is the same if more text follows. -/
theorem lineLength_append (ended : cs.drop (lineLength cs) ≠ []) (behind : List Char) :
    lineLength (cs ++ behind) = lineLength cs := by
  induction cs with
  | nil => exact absurd rfl ended
  | cons c cs ih =>
    by_cases lineBreak : c = '\n'
    · simp [lineLength, lineBreak]
    · have longer (cs : List Char) : lineLength (c :: cs) = lineLength cs + 1 := by
        simp [lineLength, lineBreak]
      rw [longer, List.drop_succ_cons] at ended
      rw [List.cons_append, longer, longer, ih ended]

theorem drop_lineLength (inLine : '\n' ∉ cs) : cs.drop (lineLength cs) = [] := by
  cases left : cs.drop (lineLength cs) with
  | nil => rfl
  | cons c rest =>
    have isBreak : c = '\n' := (take_lineLength cs).2 c (by rw [left]; rfl)
    have mem : c ∈ cs := List.mem_of_mem_drop (left ▸ List.mem_cons_self)
    exact absurd (isBreak ▸ mem) inLine

/-! ## Comments at the end -/

/-- The last piece of the text is a comment, which nothing ends. -/
def endsInComment (cs : List Char) : Bool :=
  (pieces cs).getLast?.any (·.isComment)

theorem endsInComment_cons {p : Piece} {tail : List Char} (first : pieces cs = p :: pieces tail)
    (matters : p.isComment = false ∨ pieces tail ≠ []) : endsInComment cs = endsInComment tail := by
  rw [endsInComment, endsInComment, first, List.getLast?_cons]
  cases last : (pieces tail).getLast? with
  | none =>
    have nothing : pieces tail = [] := List.getLast?_eq_none_iff.mp last
    simpa [nothing] using matters
  | some p' => rfl

theorem Scans.pieces_ne_nil (scans : Scans offset cs ts) (nonempty : cs ≠ []) : pieces cs ≠ [] := by
  cases scans with
  | done => exact absurd rfl nonempty
  | blank piece => simp [pieces_blank piece]
  | token piece => simp [pieces_token piece]

section

variable {x : List Char}

theorem Scans.blank_append (piece : munch c (rest ++ x) = .blank more) (short : more ≤ rest.length)
    (others : Scans (offset + byteLength (c :: rest.take more)) (rest.drop more ++ x) ts) :
    Scans offset (c :: rest ++ x) ts := by
  rw [List.cons_append]
  refine Scans.blank piece ?_
  rwa [List.take_append_of_le_length short, List.drop_append_of_le_length short]

theorem Scans.token_append (piece : munch c (rest ++ x) = .token t more) (short : more ≤ rest.length)
    (others : Scans (offset + byteLength (c :: rest.take more)) (rest.drop more ++ x) ts) :
    ∃ place, Scans offset (c :: rest ++ x) (⟨t, place⟩ :: ts) := by
  rw [List.cons_append]
  refine ⟨_, Scans.token piece ?_⟩
  rwa [List.take_append_of_le_length short, List.drop_append_of_le_length short]

end

theorem byteLength_split (more : Nat) (c : Char) (rest : List Char) :
    byteLength (c :: rest) = byteLength (c :: rest.take more) + byteLength (rest.drop more) := by
  rw [← byteLength_append, List.cons_append, List.take_append_drop]

/-- With a closing parenthesis and more of the line behind it, a text has the same tokens and
then those of the line, unless it ends in a comment. -/
theorem Scans.paren (scans : Scans offset cs ts) (inLine : '\n' ∉ behind) {ls : List Lexeme}
    {offset' : Nat} (others : Scans (offset' + byteLength cs) (')' :: behind) ls) :
    ∃ ls', Scans offset' (cs ++ ')' :: behind) ls' ∧ ls'.map (·.token) =
      ts.map (·.token) ++ if endsInComment cs then [] else ls.map (·.token) := by
  induction scans generalizing offset' with
  | done => exact ⟨ls, others, by simp [endsInComment, pieces, piecesFrom]⟩
  | @blank offset more c rest ts piece after ih =>
    have longer := munch_blank_paren piece behind
    rw [byteLength_split more, ← Nat.add_assoc] at others
    by_cases space : isBlank c
    · obtain rfl : more = 0 := by simpa [munch, space] using piece.symm
      obtain ⟨ls', scans', tokens⟩ := ih others
      rw [if_pos space] at longer
      refine ⟨ls', scans'.blank_append longer (Nat.zero_le _), ?_⟩
      rw [tokens, endsInComment_cons (pieces_blank piece) (.inl (by simp [space]))]
    obtain ⟨-, rfl⟩ := (munch_blank piece).resolve_left fun blank => space blank.1
    rw [if_neg space] at longer
    by_cases nothing : rest.drop (lineLength rest) = []
    · -- nothing ends the comment, so what stands behind the text belongs to it
      have noBreak : '\n' ∉ rest ++ ')' :: behind := by
        have inComment := (take_lineLength rest).1
        rw [List.take_of_length_le (List.drop_eq_nil_iff.mp nothing)] at inComment
        simp [inComment, inLine]
      have last : endsInComment (c :: rest) = true := by
        have none : pieces [] = [] := rfl
        simp [endsInComment, pieces_blank piece, nothing, space, none]
      have swallowed : Scans offset' (c :: (rest ++ ')' :: behind)) [] := by
        refine Scans.blank longer ?_
        rw [drop_lineLength noBreak]
        exact .done
      rw [nothing] at after
      cases after
      exact ⟨[], swallowed, by rw [last]; rfl⟩
    · obtain ⟨ls', scans', tokens⟩ := ih others
      rw [lineLength_append nothing] at longer
      refine ⟨ls', scans'.blank_append longer (List.takeWhile_prefix _).length_le, ?_⟩
      rw [tokens, endsInComment_cons (pieces_blank piece) (.inr (after.pieces_ne_nil nothing))]
  | @token offset more t c rest ts piece after ih =>
    have short : more ≤ rest.length := by
      obtain ⟨text, _, rfl, rfl, -⟩ := munch_alone piece
      simp
    rw [byteLength_split more, ← Nat.add_assoc] at others
    obtain ⟨ls', scans', tokens⟩ := ih others
    obtain ⟨place, scans'⟩ := scans'.token_append (munch_token_paren piece behind) short
    refine ⟨_, scans', ?_⟩
    rw [endsInComment_cons (pieces_token piece) (.inl rfl), List.map_cons, tokens]
    rfl

end Lexer

open Lexer in
/-- The tokens of a text between the parentheses of a call of `print`. -/
theorem tokenize_print {source : String} {ls : List Lexeme} (lexed : tokenize source = .ok ls) :
    ∃ ls', tokenize ("print(" ++ source ++ ");") = .ok ls' ∧ ls'.map (·.token) =
      .ident "print" :: .symbol .lParen :: (ls.map (·.token) ++
        if endsInComment source.toList then [] else [.symbol .rParen, .symbol .semi]) := by
  have valid : isValidName "print" := by decide
  have opening : Spells Anything "print(".toList [.ident "print", .symbol .lParen] :=
    (spells_ident valid).append (spells_opening .lParen (.inl rfl)) fun _ _ =>
      fresh_cons (by decide)
  have closing (offset : Nat) : ∃ place place',
      Scans offset ");".toList [⟨.symbol .rParen, place⟩, ⟨.symbol .semi, place'⟩] :=
    ⟨_, _, .token rfl (.token rfl .done)⟩
  obtain ⟨_, _, closed⟩ := closing (0 + byteLength "print(".toList + byteLength source.toList)
  obtain ⟨inner, scans, tokens⟩ := (tokenize_eq_ok_iff.mp lexed).paren (by decide) closed
  obtain ⟨outer, scans, opened⟩ := opening 0 _ _ trivial scans
  refine ⟨outer ++ inner, ?_, by simp [opened, tokens]⟩
  rw [tokenize_eq_ok_iff, String.toList_append, String.toList_append, List.append_assoc]
  exact scans

/-! ## Last tokens -/

namespace Grammar

variable {ls : List Lexeme} {e : Expr} {p : Token → Bool}

/-- The last of the lexemes is such a token. -/
def EndsIn (p : Token → Bool) (ls : List Lexeme) : Prop :=
  ∃ front last, ls = front ++ [last] ∧ p last.token

theorem endsIn_last {last : Lexeme} (is : p last.token) (front : List Lexeme) :
    EndsIn p (front ++ [last]) :=
  ⟨front, last, rfl, is⟩

theorem EndsIn.behind (ends : EndsIn p ls) (front : List Lexeme) : EndsIn p (front ++ ls) := by
  obtain ⟨front', last, rfl, is⟩ := ends
  exact ⟨front ++ front', last, (List.append_assoc ..).symm, is⟩

theorem EndsIn.ne_nil (ends : EndsIn p ls) : ls ≠ [] := by
  obtain ⟨front, last, rfl, -⟩ := ends
  simp

/-- The tokens with which an expression can end. -/
def endsExpression : Token → Bool
  | .int _ | .float _ | .str _ | .ident _ | .symbol .rParen | .symbol .rBracket
  | .keyword .trueWord | .keyword .falseWord | .keyword .noneWord => true
  | _ => false

/-- The tokens with which a statement can end. -/
def endsStatement : Token → Bool
  | .symbol .semi | .symbol .rBrace => true
  | _ => false

theorem Literal.ends {place : Span} {t : Token} (is : Literal place t e) : endsExpression t := by
  cases is <;> rfl

theorem Closed.endsIn {close : Symbol} {es : List Expr} {closed : Span}
    (derived : Closed close ls es closed) (is : p (.symbol close)) : EndsIn p ls := by
  obtain ⟨before, rfl⟩ := derived.ends
  exact endsIn_last is before

/-- An expression has a last token. -/
theorem Expression.ends {layer : Layer} {ls : List Lexeme} {e : Expr} :
    Expression layer ls e → EndsIn endsExpression ls
  | .operand inner | .positive inner | .uncompared inner | .unsigned inner | .unindexed inner =>
    inner.ends
  | .joined _ _ ofRight | .compared _ _ ofRight => (ofRight.ends.behind [_]).behind _
  | .not inner | .minus inner => inner.ends.behind [_]
  | .literal is => endsIn_last is.ends []
  | .var => endsIn_last rfl []
  | .call ofArgs => (ofArgs.endsIn rfl).behind [_, _]
  | .list ofItems => (ofItems.endsIn rfl).behind [_]
  | .indexed _ _ | .paren _ => endsIn_last rfl _

theorem Body.ends {ls : List Lexeme} {body : List Instr} (derived : Body ls body) :
    EndsIn endsStatement ls := by
  cases derived with
  | close => exact endsIn_last rfl []
  | more _ others => exact others.ends.behind _

theorem Block.ends {body : List Instr} (derived : Block ls body) : EndsIn endsStatement ls := by
  obtain ⟨inner⟩ := derived
  exact inner.ends.behind [_]

mutual

theorem Conditional.ends {ls : List Lexeme} {i : Span → Instr} :
    Conditional ls i → EndsIn endsStatement ls
  | .mk _ ofTrue ofFalse => ofFalse.ends _ (ofTrue.ends.behind _)

theorem Otherwise.ends {ls : List Lexeme} {body : List Instr} :
    Otherwise ls body → ∀ front, EndsIn endsStatement front → EndsIn endsStatement (front ++ ls)
  | .nothing, front, ended => (List.append_nil front).symm ▸ ended
  | .block inner, front, _ => (inner.ends.behind [_]).behind front
  | .conditional inner, front, _ => (inner.ends.behind [_]).behind front

end

theorem Statement.ends {i : Span → Instr} (derived : Statement ls i) : EndsIn endsStatement ls := by
  cases derived with
  | simple | result => exact endsIn_last rfl _
  | define _ ofBody | forLoop _ _ _ ofBody => exact (ofBody.ends.behind [_]).behind _
  | conditional inner => exact inner.ends
  | whileLoop _ ofBody => exact ofBody.ends.behind _
  | trace => exact (endsIn_last rfl [_]).behind _
  | leave | again | stop => exact endsIn_last rfl [_]

theorem Statements.ends {body : List Instr} (derived : Statements ls body) (nonempty : ls ≠ []) :
    EndsIn endsStatement ls := by
  induction derived with
  | done => exact absurd rfl nonempty
  | @more ls ls' i rest first others ih =>
    by_cases last : ls' = []
    · rw [last, List.append_nil]
      exact first.ends
    · exact (ih last).behind ls

theorem not_endsStatement {t : Token} (ends : endsExpression t) : endsStatement t = false := by
  unfold endsStatement
  split
  · cases ends
  · cases ends
  · rfl

/-- No program ends in an expression. -/
theorem Expression.not_statements (derived : Expression .whole ls e) (front : List Lexeme)
    (body : List Instr) : ¬Statements (front ++ ls) body := by
  intro program
  have ended := derived.ends.behind front
  obtain ⟨_, last, same, isStatement⟩ := program.ends ended.ne_nil
  obtain ⟨_, last', same', isExpression⟩ := ended
  obtain rfl : last = last' := by simpa using (List.append_inj' (same.symm.trans same') rfl).2
  rw [not_endsStatement isExpression] at isStatement
  cases isStatement

/-- An expression can be printed. -/
theorem Layer.Forms.print {d : Nat} (forms : Layer.whole.Forms d ls e)
    (place opened closed semi : Span) :
    Clause (d + 2)
      (⟨.ident "print", place⟩ :: ⟨.symbol .lParen, opened⟩ ::
        (ls ++ [⟨.symbol .rParen, closed⟩, ⟨.symbol .semi, semi⟩]))
      (.call (place.merge semi) "print" [e]) := by
  have items : ItemsRead (d + 1) ls [e] := itemsRead_one forms.derived.length_pos forms.recognized
  have args : Items ls [e] := .one forms.derived
  have called : Layer.primary.Forms (d + 1)
      (⟨.ident "print", place⟩ :: ⟨.symbol .lParen, opened⟩ :: (ls ++ [⟨.symbol .rParen, closed⟩]))
      (.call (place.merge closed) "print" [e]) :=
    ⟨.call (.items args), recognizes_call (closedRead_items (.inl rfl) args items)⟩
  have derived := Simple.call called.whole.derived
  have read := simpleRead_call called.whole.derived called.whole.recognized
  have whole : Clause (d + 1 + 1) _ (.call (place.merge semi) "print" [e]) :=
    ⟨_, @Statement.simple _ semi _ derived, statementRead_simple derived read, by simp⟩
  simpa using whole

/-- The value of an assignment that was read can be formed by the same tokens elsewhere. The
assignment has two levels more. -/
theorem forms_of_assignment {levels size : Nat} {ts xs : List Lexeme} {name : String}
    {place named : Span} {value : Expr}
    (placed : Spelled ts
      (.ident name :: .symbol .eq :: (ls.map (·.token) ++ [.symbol .semi])))
    (parsed : parseWithin levels size ts = .ok { body := [.assign place (.var named name) value] })
    (alike : Alike xs ls) :
    ∃ d value', Layer.whole.Forms d xs value' ∧ value'.bare = value.bare ∧ d + 2 ≤ levels := by
  obtain ⟨named', _, rfl, behind⟩ := placed.cons
  obtain ⟨equals, _, rfl, rest⟩ := behind.cons
  obtain ⟨ys, _, rfl, same, last⟩ := rest.append
  obtain ⟨semi, rfl⟩ := last.singleton
  have derived := expression_of_assignment (statements_of_parseWithin parsed)
  obtain ⟨d, value', forms, forms', sameValue⟩ := derived.relocate (alike.trans same.symm)
  have phrase : Phrase d ys value := ⟨_, forms⟩
  have program := (phrase.assignment name named' equals semi).programRead
  refine ⟨d, value', forms', sameValue, Nat.not_lt.mp fun isDeep => ?_⟩
  obtain ⟨span, tooDeep⟩ := (parseWithin_of_programRead program levels size).1 isDeep
  cases tooDeep.symm.trans parsed

end Grammar

/-! ## Sessions -/

theorem Program.read_fails {source : String} {ls : List Lexeme} (lexed : tokenize source = .ok ls)
    (none : ∀ body, ¬Grammar.Statements ls body) : ∃ error, Program.read source = .error error := by
  cases read : Program.read source with
  | error error => exact ⟨error, rfl⟩
  | ok prog =>
    obtain ⟨ts, lexed', parsed⟩ := Program.read_eq_ok_iff.mp read
    obtain rfl : ls = ts := Except.ok.inj (lexed.symm.trans lexed')
    exact absurd (statements_of_parse parsed) (none prog.body)

namespace Interactive

variable {source : String} {error error' : SourceError} {prog : Program}

/-- Run one program. Faults are reported. -/
def perform (g : Engine) (s : Interactive) (prog : Program) : Interactive :=
  let programs := s.programs + 1
  match Machine.run g s.programs prog s.machine with
  | .ok () machine => { s with machine, programs }
  | .fault f machine =>
    let s := { s with machine, programs }
    (f.backtrace.map fun frame => "  in " ++ frame.text).foldl complain (s.complain f.report)
  | .outOfFuel => s

theorem runSource_eq (g : Engine) (s : Interactive) (source : String) :
    runSource g s source = (Program.read source).map (s.perform g) := by
  unfold runSource perform
  cases Program.read source with
  | error => rfl
  | ok prog =>
    simp only [Except.map]
    cases Machine.run g s.programs prog s.machine <;> rfl

theorem input_eq_perform (first : Program.read source = .error error)
    (second : Program.read ("print(" ++ source ++ ");") = .ok prog) (g : Engine) (s : Interactive) :
    input g s source = s.perform g prog := by
  simp [input, runSource_eq, first, second, Except.map]

theorem input_eq_complain (first : Program.read source = .error error)
    (second : Program.read ("print(" ++ source ++ ");") = .error error') (g : Engine)
    (s : Interactive) : input g s source = s.complain error.report := by
  simp [input, runSource_eq, first, second, Except.map]

/-- A program that is run is counted, or the session stays as it was. -/
theorem perform_counts (g : Engine) (s : Interactive) (prog : Program) :
    s.perform g prog = s ∨ (s.perform g prog).programs = s.programs + 1 := by
  unfold perform
  cases Machine.run g s.programs prog s.machine with
  | ok _ machine => exact .inr rfl
  | fault f machine =>
    obtain ⟨complaints, same⟩ :=
      foldl_complain ({ s with machine, programs := s.programs + 1 }.complain f.report)
        (f.backtrace.map fun frame => "  in " ++ frame.text)
    exact .inr (congrArg programs same)
  | outOfFuel => exact .inl rfl

theorem perform_ne_complain (g : Engine) (s : Interactive) (prog : Program) (line : String) :
    s.perform g prog ≠ s.complain line := by
  intro same
  rcases perform_counts g s prog with kept | counted
  · have complaints : s.complaints = s.complaints ++ line ++ "\n" :=
      congrArg Interactive.complaints (kept.symm.trans same)
    have length := congrArg String.length complaints
    simp [Nat.add_assoc] at length
  · rw [same] at counted
    exact absurd counted (Nat.succ_ne_self s.programs).symm

end Interactive

/-- An input that is an expression is no program. If a level of nesting is left for the call, it
is run as one call of `print`, with the expression as its argument, whatever stands between the
tokens. Only a comment at its end lets that fail, and then nothing is run. -/
theorem input_expression {source : String} {ls ts : List Lexeme} {size : Nat} {name : String}
    {place named : Span} {value : Expr} (lexed : tokenize source = .ok ls)
    (placed : ts.map (·.token) =
      .ident name :: .symbol .eq :: (ls.map (·.token) ++ [.symbol .semi]))
    (parsed : parseWithin (maxNesting - 1) size ts =
      .ok { body := [.assign place (.var named name) value] }) :
    ∃ error, Program.read source = .error error ∧
      (Lexer.endsInComment source.toList = false → ∃ place' arg, arg.bare = value.bare ∧
        ∀ g s, Interactive.input g s source =
          s.perform g { body := [.call place' "print" [arg]] }) ∧
      (Lexer.endsInComment source.toList = true →
        ∀ g s, Interactive.input g s source = s.complain error.report) := by
  obtain ⟨_, _, alone, -, -⟩ := Grammar.forms_of_assignment placed parsed rfl
  obtain ⟨error, first⟩ := Program.read_fails lexed (alone.derived.not_statements [])
  obtain ⟨ls', lexed', tokens⟩ := tokenize_print lexed
  have spelled : Grammar.Spelled ls' _ := tokens
  obtain ⟨printed, _, rfl, behind⟩ := spelled.cons
  obtain ⟨opened, _, rfl, rest⟩ := behind.cons
  obtain ⟨xs, _, rfl, alike, last⟩ := rest.append
  obtain ⟨d, arg, forms, same, fits⟩ := Grammar.forms_of_assignment placed parsed alike
  refine ⟨error, first, fun code => ?_, fun comment => ?_⟩
  · rw [code, if_neg Bool.false_ne_true] at last
    obtain ⟨closed, _, rfl, ended⟩ := last.cons
    obtain ⟨semi, rfl⟩ := ended.singleton
    have room : d + 2 < maxNesting := by
      have positive : 0 < maxNesting := by decide
      omega
    have parsed' := (forms.print printed opened closed semi).parse_eq room
      ("print(" ++ source ++ ");").utf8ByteSize
    have second := Program.read_eq_ok_iff.mpr ⟨_, lexed', parsed'⟩
    exact ⟨_, arg, same, Interactive.input_eq_perform first second⟩
  · rw [comment, if_pos rfl] at last
    obtain rfl := List.map_eq_nil_iff.mp last
    rw [List.append_nil] at lexed'
    have hidden := forms.derived.not_statements [⟨.ident "print", printed⟩, ⟨.symbol .lParen, opened⟩]
    obtain ⟨error', second⟩ := Program.read_fails lexed' hidden
    exact Interactive.input_eq_complain first second

/-- A comment between the tokens, one behind them, and the end of its line. -/
theorem input_expression_commented : ∃ source ls ts value, ∃ place named : Span,
    source = "a[0] # first\n * 2 // done\n" ∧ tokenize source = .ok ls ∧
    ts.map (·.token) = .ident "x" :: .symbol .eq :: (ls.map (·.token) ++ [.symbol .semi]) ∧
    parseWithin (maxNesting - 1) 0 ts = .ok { body := [.assign place (.var named "x") value] } ∧
    value.text = "a[0] * 2" ∧ Lexer.endsInComment source.toList = false ∧
    ∃ place' arg, arg.bare = value.bare ∧
      ∀ g s, Interactive.input g s source =
        s.perform g { body := [.call place' "print" [arg]] } := by
  have lexed : tokenize "a[0] # first\n * 2 // done\n" = .ok
      [⟨.ident "a", ⟨0, 1⟩⟩, ⟨.symbol .lBracket, ⟨1, 2⟩⟩, ⟨.int 0, ⟨2, 3⟩⟩,
        ⟨.symbol .rBracket, ⟨3, 4⟩⟩, ⟨.symbol .star, ⟨14, 15⟩⟩, ⟨.int 2, ⟨16, 17⟩⟩] := by
    rfl
  have parsed : parseWithin (maxNesting - 1) 0
      [⟨.ident "x", {}⟩, ⟨.symbol .eq, {}⟩, ⟨.ident "a", {}⟩, ⟨.symbol .lBracket, {}⟩,
        ⟨.int 0, {}⟩, ⟨.symbol .rBracket, {}⟩, ⟨.symbol .star, {}⟩, ⟨.int 2, {}⟩,
        ⟨.symbol .semi, {}⟩] =
      .ok { body := [.assign {} (.var {} "x")
        (.binary {} .mul (.index {} (.var {} "a") (.int {} 0)) (.int {} 2))] } := by
    rfl
  have code : Lexer.endsInComment "a[0] # first\n * 2 // done\n".toList = false := by
    decide +kernel
  obtain ⟨error, -, printed, -⟩ := input_expression lexed rfl parsed
  exact ⟨_, _, _, _, _, _, rfl, lexed, rfl, parsed, by decide +kernel, code, printed code⟩

/-- With a comment at its end the sum is not printed, and no other program is run in place of
that. -/
theorem input_expression_unprinted : ∃ source ls ts value, ∃ place named : Span,
    source = "1 + 2 // three" ∧ tokenize source = .ok ls ∧
    ts.map (·.token) = .ident "x" :: .symbol .eq :: (ls.map (·.token) ++ [.symbol .semi]) ∧
    parseWithin (maxNesting - 1) 0 ts = .ok { body := [.assign place (.var named "x") value] } ∧
    (∃ error, Program.read source = .error error) ∧
    ∀ g s prog, Interactive.input g s source ≠ s.perform g prog := by
  have lexed : tokenize "1 + 2 // three" = .ok
      [⟨.int 1, ⟨0, 1⟩⟩, ⟨.symbol .plus, ⟨2, 3⟩⟩, ⟨.int 2, ⟨4, 5⟩⟩] := by
    rfl
  have parsed : parseWithin (maxNesting - 1) 0
      [⟨.ident "x", {}⟩, ⟨.symbol .eq, {}⟩, ⟨.int 1, {}⟩, ⟨.symbol .plus, {}⟩, ⟨.int 2, {}⟩,
        ⟨.symbol .semi, {}⟩] =
      .ok { body := [.assign {} (.var {} "x") (.binary {} .add (.int {} 1) (.int {} 2))] } := by
    rfl
  have fails {source : String} (refused : (Program.read source).toOption.isNone) :
      ∃ error, Program.read source = .error error := by
    cases read : Program.read source with
    | error error => exact ⟨error, rfl⟩
    | ok prog =>
      rw [read] at refused
      cases refused
  obtain ⟨error, first⟩ : ∃ error, Program.read "1 + 2 // three" = .error error :=
    fails (by decide +kernel)
  obtain ⟨error', second⟩ : ∃ error, Program.read ("print(" ++ "1 + 2 // three" ++ ");") =
      .error error := fails (by decide +kernel)
  refine ⟨_, _, _, _, _, _, rfl, lexed, rfl, parsed, ⟨error, first⟩, fun g s prog same => ?_⟩
  rw [Interactive.input_eq_complain first second] at same
  exact s.perform_ne_complain g prog _ same.symm

end TraceLang
