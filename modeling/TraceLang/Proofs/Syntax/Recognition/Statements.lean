/-
# TraceLang.Proofs.Syntax.Recognition.Statements — what follows the grammar is read

The statements of the grammar, on the same terms as the expressions: the lexemes of
a statement are read as what they stand for, unless the levels of nesting run out.
What must not follow a statement is an `else`, and none does, since no statement
begins with one.

A source of `n` lexemes needs no more than `n + 1` levels. So its lexemes form one
program at most (`statements_unique`), whatever the limit on the nesting is.
-/
import TraceLang.Proofs.Syntax.Recognition.Expressions

namespace TraceLang

set_option autoImplicit false

open Grammar

namespace Grammar

open TraceLang.Parser

variable {d d' : Nat} {ls ls' : List Lexeme} {e : Expr}

/-! ## Simple statements -/

theorem asType?_of_starts {t : Token} (starts : Layer.whole.starts t) : t.asType? = none := by
  cases t <;> first | rfl | cases starts

/-- An expression does not begin with a type. -/
theorem Expression.untyped {c : Cursor} {rest : List Lexeme} (derived : Expression .whole ls e)
    (split : c.rest = ls ++ rest) : (c.rest.head?.map (·.token)).bind Token.asType? = none := by
  obtain ⟨l, others, rfl, starts⟩ := derived.starts
  rw [split]
  exact asType?_of_starts starts

/-- A semicolon or a closing parenthesis follows. -/
def Ends (rest : List Lexeme) : Prop :=
  ∃ l others, rest = l :: others ∧ (l.token = .symbol .semi ∨ l.token = .symbol .rParen)

theorem Ends.stops {rest : List Lexeme} (ends : Ends rest) (layer : Layer) : layer.Stops rest := by
  obtain ⟨l, others, rfl, closing⟩ := ends
  refine layer.stops_of_strength ?_
  rcases closing with closing | closing <;> rw [closing] <;> rfl

theorem Ends.head_ne {rest : List Lexeme} (ends : Ends rest) :
    rest.head?.map (·.token) ≠ some (.symbol .eq) := by
  obtain ⟨l, others, rfl, closing⟩ := ends
  rcases closing with closing | closing <;> simp [closing]

/-- The declaration, the assignment or the call is read, if it ends there. -/
def SimpleRead (d : Nat) (ls : List Lexeme) (i : Span → Instr) : Prop :=
  ∀ n, (simple (tower n)).Reads (n < d) ls (i (extent ls)) Ends

theorem simpleRead_declare {place named equals : Span} {ty : Ty} {name : String} {init : Expr}
    (ofInit : Layer.whole.Recognizes d ls init) :
    SimpleRead (d + 1)
      (⟨.typeName ty, place⟩ :: ⟨.ident name, named⟩ :: ⟨.symbol .eq, equals⟩ :: ls)
      fun span => .declare span { name, ty, init } := by
  rintro n ⟨_, last, size, count⟩ rest inside ⟨⟩ ends
  refine agrees_here (agrees_peek (agrees_token rfl ?_))
  refine agrees_then (expectIdent_eq rfl) (agrees_eaten rfl ?_)
  have reads := expr_reads ofInit n _ rest (((inside.token rfl).token rfl).token rfl) rfl
    (ends.stops _)
  refine agrees_last reads (.same ?_)
  simp only [Cursor.past_past]
  rfl

theorem simpleRead_reserve {place named : Span} {ty : Ty} {name : String} (typed : ty ≠ .auto) :
    SimpleRead 0 [⟨.typeName ty, place⟩, ⟨.ident name, named⟩]
      fun span => .declare span (.unassigned name ty named) := by
  rintro n ⟨_, last, size, count⟩ rest inside ⟨⟩ ends
  refine agrees_here (agrees_peek (agrees_token rfl ?_))
  refine agrees_then (expectIdent_eq rfl) (agrees_uneaten ends.head_ne ?_)
  exact agrees_if_neg typed (.of_eq (Nat.not_lt_zero n) rfl)

theorem simpleRead_assign {equals : Span} {target value : Expr}
    (derived : Expression .whole ls target) (location : Location target)
    (ofTarget : Layer.whole.Recognizes d ls target) (ofValue : Layer.whole.Recognizes d' ls' value) :
    SimpleRead (max (d + 1) (d' + 1)) (ls ++ ⟨.symbol .eq, equals⟩ :: ls')
      fun span => .assign span target value := by
  intro n c rest inside split ends
  rw [lt_max_iff]
  rw [List.append_assoc] at split
  refine agrees_here (agrees_peek ?_)
  rw [derived.untyped split]
  have readsTarget := expr_reads ofTarget n c _ inside split (Layer.stops_of_strength _ rfl)
  refine agrees_bind readsTarget (agrees_eaten rfl (agrees_if_pos (location_iff.mp location) ?_))
  have inside' : (Cursor.past _ [⟨.symbol .eq, equals⟩] (ls' ++ rest)).Inside :=
    (inside.past split).token rfl
  refine agrees_last (expr_reads ofValue n _ rest inside' rfl (ends.stops _)) (.same ?_)
  obtain ⟨first, others, rfl, -⟩ := derived.starts
  rw [Cursor.here_of_cons split]
  simp only [Cursor.past_past, List.append_assoc]
  rfl

theorem simpleRead_call {place : Span} {name : String} {args : List Expr}
    (derived : Expression .whole ls (.call place name args))
    (inner : Layer.whole.Recognizes d ls (.call place name args)) :
    SimpleRead (d + 1) ls fun span => .call span name args := by
  intro n c rest inside split ends
  refine agrees_here (agrees_peek ?_)
  rw [derived.untyped split]
  refine agrees_last (expr_reads inner n c rest inside split (ends.stops _)) ?_
  refine agrees_uneaten ends.head_ne (.same ?_)
  obtain ⟨first, others, rfl, -⟩ := derived.starts
  rw [Cursor.here_of_cons split]
  rfl

theorem Simple.read {i : Span → Instr} (derived : Simple ls i) :
    ∃ d ≤ ls.length + 1, SimpleRead d ls i := by
  cases derived with
  | declare ofInit =>
    obtain ⟨d, short, recognized⟩ := ofInit.recognized
    refine ⟨d + 1, ?_, simpleRead_declare recognized⟩
    simp only [List.length_cons]
    omega
  | reserve typed => exact ⟨0, Nat.zero_le _, simpleRead_reserve typed⟩
  | assign ofTarget location ofValue =>
    obtain ⟨d, short, target⟩ := ofTarget.recognized
    obtain ⟨d', short', value⟩ := ofValue.recognized
    refine ⟨max (d + 1) (d' + 1), ?_, simpleRead_assign ofTarget location target value⟩
    simp only [List.length_append, List.length_cons]
    omega
  | call inner =>
    obtain ⟨d, short, recognized⟩ := inner.recognized
    exact ⟨d + 1, Nat.succ_le_succ short, simpleRead_call inner recognized⟩

/-- Parameters are read, if no comma follows. -/
theorem Parameters.reads {params : List Param} (derived : Parameters ls params) :
    ∀ (m : Nat) (found : List Param), ls.length ≤ m →
      (moreParams m found).Reads False ls (found.reverse ++ params)
        fun rest => rest.head?.map (·.token) ≠ some (.symbol .comma) := by
  induction derived with
  | one =>
    rintro (_ | m) found enough ⟨_, last, size, count⟩ rest inside ⟨⟩ noComma
    · cases enough
    refine agrees_peek (agrees_token rfl ?_)
    refine agrees_then (expectIdent_eq rfl) (agrees_uneaten noComma (.same ?_))
    rw [List.reverse_cons]
    rfl
  | more _ ih =>
    rintro (_ | m) found enough ⟨_, last, size, count⟩ rest inside ⟨⟩ noComma
    · cases enough
    refine agrees_peek (agrees_token rfl ?_)
    refine agrees_then (expectIdent_eq rfl) (agrees_eaten rfl ?_)
    simp only [List.length_cons] at enough
    refine (ih m _ (by omega) _ rest (((inside.token rfl).token rfl).token rfl) rfl
      noComma).trans_eq ?_
    simp

/-- No second branch follows. -/
def NoElse (rest : List Lexeme) : Prop :=
  rest.head?.map (·.token) ≠ some (.keyword .elseWord)

/-- The statement is read, if no second branch follows. -/
def StatementRead (d : Nat) (ls : List Lexeme) (i : Span → Instr) : Prop :=
  ∀ n, (instruction (tower n)).Reads (n < d) ls (i (extent ls)) NoElse

/-- The lexemes of a statement decide how many levels it needs. -/
theorem StatementRead.unique {i i' : Span → Instr} (first : StatementRead d ls i)
    (second : StatementRead d' ls i') : d = d' :=
  eq_of_forall_lt_iff fun n => (first n).deep_iff (second n) (by simp [NoElse])

def ConditionalRead (d : Nat) (ls : List Lexeme) (i : Span → Instr) : Prop :=
  ∀ n m, ls.length ≤ m → (conditional (tower n) m).Reads (n < d) ls (i (extent ls)) NoElse

def BlockRead (d : Nat) (ls : List Lexeme) (body : List Instr) : Prop :=
  ∀ n, (block (tower n)).Reads (n < d) ls body fun _ => True

def BodyRead (d : Nat) (ls : List Lexeme) (body : List Instr) : Prop :=
  ∀ n m found, ls.length ≤ m →
    (statements (tower n).statement m found).Reads (n < d) ls (found.reverse ++ body)
      fun _ => True

/-- The second branch of a conditional is read, and what is done with it comes
next. -/
def OtherwiseRead (d : Nat) (ls : List Lexeme) (body : List Instr) : Prop :=
  ∀ {n m : Nat} {next : List Instr → Parser Instr} {c : Cursor} {rest : List Lexeme}
    {r : Except GrammarError (Instr × Cursor)},
    ls.length ≤ m → c.Inside → c.rest = ls ++ rest → NoElse rest →
      next body (c.past ls rest) = r →
      Agrees (n < d) ((do
        if ← eat (.keyword .elseWord) then
          if ← check (.keyword .ifWord) then
            let other ← conditional (tower n) m
            next [other]
          else
            let body ← block (tower n)
            next body
        else next []) c) r

theorem otherwiseRead_nothing : OtherwiseRead 0 [] [] := by
  intro n m next c rest r _ _ split noElse same
  obtain rfl : c.rest = rest := split
  exact agrees_uneaten noElse (.of_eq (Nat.not_lt_zero n) same)

theorem otherwiseRead_block {place : Span} {body : List Instr} (derived : Block ls body)
    (inner : BlockRead d ls body) : OtherwiseRead d (⟨.keyword .elseWord, place⟩ :: ls) body := by
  intro n m next c rest r _ inside split _ same
  refine agrees_eaten split (agrees_missing ?_ ?_)
  · cases derived
    simp [Cursor.past]
  refine agrees_last (inner n _ rest (inside.token split) rfl trivial) (.same ?_)
  rw [Cursor.past_past]
  exact same

theorem otherwiseRead_conditional {place : Span} {i : Span → Instr} (derived : Conditional ls i)
    (inner : ConditionalRead d ls i) :
    OtherwiseRead d (⟨.keyword .elseWord, place⟩ :: ls) [i (extent ls)] := by
  intro n m next c rest r enough inside split noElse same
  rw [List.length_cons] at enough
  have reads := inner n m (by omega) _ rest (inside.token split) rfl noElse
  cases derived with
  | mk =>
    refine agrees_eaten split (agrees_found rfl (agrees_last reads (.same ?_)))
    rw [Cursor.past_past]
    exact same

/-- A block begins with a brace. -/
theorem Block.stops {body : List Instr} {rest : List Lexeme} (derived : Block ls body)
    (layer : Layer) : layer.Stops (ls ++ rest) := by
  cases derived
  exact layer.stops_of_strength rfl

theorem conditionalRead_mk {place : Span} {d'' : Nat} {ls'' : List Lexeme} {cond : Expr}
    {onTrue onFalse : List Instr} (ofCond : Layer.whole.Recognizes d ls cond)
    (derived : Block ls' onTrue) (ofTrue : BlockRead d' ls' onTrue)
    (ofFalse : OtherwiseRead d'' ls'' onFalse) :
    ConditionalRead (max (d + 1) (max d' d'')) (⟨.keyword .ifWord, place⟩ :: ls ++ ls' ++ ls'')
      fun span => .conditional span cond onTrue onFalse := by
  rintro n (_ | m) enough c rest inside split noElse
  · cases enough
  simp only [List.cons_append, List.append_assoc, List.length_cons, List.length_append]
    at split enough ⊢
  rw [lt_max_iff, lt_max_iff]
  refine agrees_then (expectKeyword_eq split) ?_
  have insideCond := inside.token split
  refine agrees_bind (expr_reads ofCond n _ _ insideCond rfl (derived.stops _)) ?_
  have insideTrue : (Cursor.past _ ls (ls' ++ (ls'' ++ rest))).Inside := insideCond.past rfl
  refine agrees_bind (ofTrue n _ (ls'' ++ rest) insideTrue rfl trivial) ?_
  refine ofFalse (by omega) (insideTrue.past rfl) rfl noElse ?_
  simp only [Cursor.past_past, List.append_assoc]
  rfl

theorem bodyRead_close {closed : Span} : BodyRead 0 [⟨.symbol .rBrace, closed⟩] [] := by
  rintro n (_ | m) found enough ⟨_, last, size, count⟩ rest inside ⟨⟩ -
  · cases enough
  refine agrees_peek (agrees_token rfl (.of_eq (Nat.not_lt_zero n) ?_))
  rw [List.append_nil]
  rfl

theorem Statement.head_ne {t : Token} {i : Span → Instr} {rest : List Lexeme}
    (derived : Statement ls i) (never : startsStatement t = false) :
    (ls ++ rest).head?.map (·.token) ≠ some t := by
  obtain ⟨l, others, rfl, starts⟩ := derived.starts
  rintro ⟨⟩
  rw [never] at starts
  cases starts

/-- Behind a statement of a body no second branch follows. -/
theorem Body.noElse {body : List Instr} {rest : List Lexeme} (derived : Body ls body) :
    NoElse (ls ++ rest) := by
  cases derived with
  | close => simp [NoElse]
  | more first others =>
    rw [List.append_assoc]
    exact first.head_ne rfl

theorem Body.length_pos {body : List Instr} (derived : Body ls body) : 0 < ls.length := by
  cases derived with
  | close => exact Nat.succ_pos _
  | more first others =>
    obtain ⟨l, rest, rfl, -⟩ := first.starts
    exact Nat.succ_pos _

theorem statement_reads {i : Span → Instr} (inner : StatementRead d ls i) (n : Nat) :
    (tower n).statement.Reads (n < d + 1) ls (i (extent ls)) NoElse :=
  reads_of_level Tower.statement instruction rfl (fun _ => rfl) inner n

theorem statements_step {statement : Parser Instr} {c : Cursor} {l : Lexeme} {rest : List Lexeme}
    (split : c.rest = l :: rest) (other : l.token ≠ .symbol .rBrace) (m : Nat)
    (found : List Instr) : statements statement (m + 1) found c =
      (statement >>= fun instr => statements statement m (instr :: found)) c := by
  obtain ⟨_, last, size, count⟩ := c
  obtain ⟨token, place⟩ := l
  cases split
  cases token with
  | symbol s => cases s <;> first | rfl | exact absurd rfl other
  | _ => rfl

theorem bodyRead_more {i : Span → Instr} {body : List Instr} (derived : Statement ls i)
    (derivedRest : Body ls' body) (first : StatementRead d ls i) (others : BodyRead d' ls' body) :
    BodyRead (max (d + 1) d') (ls ++ ls') (i (extent ls) :: body) := by
  rintro n m found enough c rest inside split -
  have nonempty := derivedRest.length_pos
  rw [List.length_append] at enough
  rw [List.append_assoc] at split
  rw [lt_max_iff]
  obtain ⟨m, rfl⟩ : ∃ m', m = m' + 1 := ⟨m - 1, by omega⟩
  have readsFirst := statement_reads first n c _ inside split derivedRest.noElse
  have readsOthers := fun enough =>
    others n m (i (extent ls) :: found) enough _ rest (inside.past split) rfl trivial
  obtain ⟨l, behind, rfl, starts⟩ := derived.starts
  have other : l.token ≠ .symbol .rBrace := fun is => by
    rw [is] at starts
    cases starts
  rw [List.length_cons] at enough
  rw [statements_step split other]
  refine agrees_bind readsFirst ((readsOthers (by omega)).trans_eq ?_)
  simp

theorem blockRead_mk {opened : Span} {body : List Instr} (inner : BodyRead d ls body) :
    BlockRead d (⟨.symbol .lBrace, opened⟩ :: ls) body := by
  rintro n c rest inside split -
  have inside' := inside.token split
  refine agrees_symbol split (agrees_turns ?_)
  have reads := inner n (c.count + 1) [] (inside'.length_le rfl) _ rest inside' rfl trivial
  refine reads.trans_eq ?_
  rw [Cursor.past_past]
  rfl

/-! ### Statements by their first token -/

theorem statementRead_simple {semi : Span} {i : Span → Instr} (derived : Simple ls i)
    (inner : SimpleRead d ls i) : StatementRead d (ls ++ [⟨.symbol .semi, semi⟩]) i := by
  rintro n c rest inside split -
  rw [List.append_assoc] at split
  have reads := inner n c _ inside split ⟨_, _, rfl, .inl rfl⟩
  obtain ⟨⟨token, place⟩, others, rfl, starts⟩ := derived.starts
  have led : instruction (tower n) c = (do
      let instr ← simple (tower n)
      discard (expectSymbol .semi)
      return instr.withSpan (← since place) : Parser Instr) c := by
    obtain ⟨_, last, size, count⟩ := c
    cases split
    cases token with
    | keyword k => cases k <;> first | rfl | cases starts
    | _ => rfl
  rw [led]
  refine agrees_last reads (agrees_symbol rfl (.same ?_))
  rw [Cursor.past_past]
  change Except.ok (((i _).withSpan _), _) = _
  rw [derived.withSpan]
  rfl

theorem statementRead_conditional {i : Span → Instr} (derived : Conditional ls i)
    (inner : ConditionalRead d ls i) : StatementRead d ls i := by
  intro n c rest inside split noElse
  have reads := inner n (c.count + 1) (inside.length_le split) c rest inside split noElse
  cases derived with
  | mk =>
    obtain ⟨_, last, size, count⟩ := c
    cases split
    exact reads

theorem statementRead_define {place named opened closed : Span} {name : String}
    {params : List Param} {body : List Instr} (ofParams : ParameterList ls params)
    (ofBody : BlockRead d ls' body) :
    StatementRead d
      (⟨.keyword .func, place⟩ :: ⟨.ident name, named⟩ :: ⟨.symbol .lParen, opened⟩ :: ls ++
        ⟨.symbol .rParen, closed⟩ :: ls')
      fun span => .define span name params body span := by
  rintro n ⟨_, last, size, count⟩ rest inside split -
  simp only [List.cons_append, List.append_assoc] at split ⊢
  subst split
  refine agrees_here (agrees_peek (agrees_then (expectKeyword_eq rfl) ?_))
  refine agrees_then (expectIdent_eq rfl) (agrees_symbol rfl ?_)
  have insideParams := ((inside.token rfl).token rfl).token rfl
  have insideBody : (Cursor.past _ [⟨.symbol .rParen, closed⟩] (ls' ++ rest)).Inside :=
    (insideParams.past rfl).token rfl
  have readsBody := ofBody n _ rest insideBody rfl trivial
  cases ofParams with
  | empty =>
    refine agrees_found rfl (agrees_then rfl (agrees_symbol rfl ?_))
    refine agrees_last readsBody (.same ?_)
    simp only [Cursor.past_past]
    rfl
  | some inner =>
    refine agrees_missing ?_ (agrees_turns ?_)
    · cases inner <;> simp [Cursor.past]
    have reads := inner.reads _ [] (insideParams.length_le rfl) _
      (⟨.symbol .rParen, closed⟩ :: (ls' ++ rest)) insideParams rfl (by simp)
    refine agrees_then (reads.2 not_false) (agrees_symbol rfl ?_)
    refine agrees_last readsBody (.same ?_)
    simp only [Cursor.past_past, List.append_assoc]
    rfl

theorem statementRead_whileLoop {place : Span} {cond : Expr} {body : List Instr}
    (ofCond : Layer.whole.Recognizes d ls cond) (derived : Block ls' body)
    (ofBody : BlockRead d' ls' body) :
    StatementRead (max (d + 1) d') (⟨.keyword .whileWord, place⟩ :: ls ++ ls')
      fun span => .whileLoop span cond body := by
  rintro n ⟨_, last, size, count⟩ rest inside split -
  simp only [List.cons_append, List.append_assoc] at split ⊢
  subst split
  rw [lt_max_iff]
  refine agrees_here (agrees_peek (agrees_token rfl ?_))
  have insideCond := inside.token rfl
  refine agrees_bind (expr_reads ofCond n _ _ insideCond rfl (derived.stops _)) ?_
  refine agrees_last (ofBody n _ rest (insideCond.past rfl) rfl trivial) (.same ?_)
  simp only [Cursor.past_past]
  rfl

theorem statementRead_forLoop {place opened semi semi' closed : Span} {ls'' lsBody : List Lexeme}
    {d'' dBody : Nat} {init step : Span → Instr} {cond : Expr} {body : List Instr}
    (ofInit : SimpleRead d ls init) (ofCond : Layer.whole.Recognizes d' ls' cond)
    (ofStep : SimpleRead d'' ls'' step) (ofBody : BlockRead dBody lsBody body) :
    StatementRead (max d (max (d' + 1) (max d'' dBody)))
      (⟨.keyword .forWord, place⟩ :: ⟨.symbol .lParen, opened⟩ :: ls ++
        ⟨.symbol .semi, semi⟩ :: ls' ++ ⟨.symbol .semi, semi'⟩ :: ls'' ++
        ⟨.symbol .rParen, closed⟩ :: lsBody)
      fun span => .forLoop span (init (extent ls)) (step (extent ls'')) cond body := by
  rintro n ⟨_, last, size, count⟩ rest inside split -
  simp only [List.cons_append, List.append_assoc] at split ⊢
  subst split
  rw [lt_max_iff, lt_max_iff, lt_max_iff]
  refine agrees_here (agrees_peek (agrees_then (expectKeyword_eq rfl) (agrees_symbol rfl ?_)))
  have insideInit := (inside.token rfl).token rfl
  have readsInit := ofInit n _ _ insideInit rfl ⟨_, _, rfl, .inl rfl⟩
  refine agrees_bind readsInit (agrees_symbol rfl ?_)
  have insideCond := (insideInit.past rfl).token rfl
  have readsCond := expr_reads ofCond n _ _ insideCond rfl (Layer.stops_of_strength _ rfl)
  refine agrees_bind readsCond (agrees_symbol rfl ?_)
  have insideStep := (insideCond.past rfl).token rfl
  have readsStep := ofStep n _ _ insideStep rfl ⟨_, _, rfl, .inr rfl⟩
  refine agrees_bind readsStep (agrees_symbol rfl ?_)
  refine agrees_last (ofBody n _ rest ((insideStep.past rfl).token rfl) rfl trivial) (.same ?_)
  simp only [Cursor.past_past, List.append_assoc]
  rfl

theorem statementRead_trace {place opened closed semi : Span} {targets : List Expr}
    (ofTargets : ItemsRead d ls targets) :
    StatementRead d
      (⟨.keyword .trace, place⟩ :: ⟨.symbol .lParen, opened⟩ :: ls ++
        [⟨.symbol .rParen, closed⟩, ⟨.symbol .semi, semi⟩])
      fun span => .trace span targets := by
  rintro n ⟨_, last, size, count⟩ rest inside split -
  simp only [List.cons_append, List.append_assoc] at split ⊢
  subst split
  refine agrees_here (agrees_peek (agrees_token rfl (agrees_symbol rfl (agrees_turns ?_))))
  have inside' := (inside.token rfl).token rfl
  have reads := ofTargets n (count + 1) [] (inside'.length_le rfl) _
    (⟨.symbol .rParen, closed⟩ :: ⟨.symbol .semi, semi⟩ :: rest) inside' rfl
    ⟨Layer.stops_of_strength _ rfl, by simp⟩
  refine agrees_last reads (agrees_symbol rfl (agrees_symbol rfl (.same ?_)))
  simp only [Cursor.past_past, List.append_assoc]
  rfl

theorem statementRead_leave {place semi : Span} :
    StatementRead 0 [⟨.keyword .breakWord, place⟩, ⟨.symbol .semi, semi⟩] .leave := by
  rintro n ⟨_, last, size, count⟩ rest - ⟨⟩ -
  refine agrees_here (agrees_peek (agrees_token rfl (agrees_symbol rfl ?_)))
  exact .of_eq (Nat.not_lt_zero n) rfl

theorem statementRead_again {place semi : Span} :
    StatementRead 0 [⟨.keyword .continueWord, place⟩, ⟨.symbol .semi, semi⟩] .again := by
  rintro n ⟨_, last, size, count⟩ rest - ⟨⟩ -
  refine agrees_here (agrees_peek (agrees_token rfl (agrees_symbol rfl ?_)))
  exact .of_eq (Nat.not_lt_zero n) rfl

theorem statementRead_stop {place semi : Span} :
    StatementRead 0 [⟨.keyword .returnWord, place⟩, ⟨.symbol .semi, semi⟩]
      fun span => .result span none := by
  rintro n ⟨_, last, size, count⟩ rest - ⟨⟩ -
  refine agrees_here (agrees_peek (agrees_token rfl (agrees_found rfl ?_)))
  exact agrees_then rfl (agrees_symbol rfl (.of_eq (Nat.not_lt_zero n) rfl))

theorem statementRead_result {place semi : Span} {value : Expr}
    (derived : Expression .whole ls value) (ofValue : Layer.whole.Recognizes d ls value) :
    StatementRead (d + 1) (⟨.keyword .returnWord, place⟩ :: ls ++ [⟨.symbol .semi, semi⟩])
      fun span => .result span (some value) := by
  rintro n ⟨_, last, size, count⟩ rest inside split -
  simp only [List.cons_append, List.append_assoc] at split ⊢
  subst split
  refine agrees_here (agrees_peek (agrees_token rfl (agrees_missing (derived.head_ne rfl rfl) ?_)))
  have reads := expr_reads ofValue n _ _ (inside.token rfl) rfl (Layer.stops_of_strength _ rfl)
  refine agrees_last (agrees_last reads (.same rfl)) (agrees_symbol rfl (.same ?_))
  simp only [Cursor.past_past, List.append_assoc]
  rfl

mutual

/-- Every statement is read, one case for each rule. -/
theorem Statement.read {ls : List Lexeme} {i : Span → Instr} :
    Statement ls i → ∃ d ≤ ls.length, StatementRead d ls i
  | .simple inner => by
    obtain ⟨d, short, read⟩ := inner.read
    exact ⟨d, by simpa using short, statementRead_simple inner read⟩
  | .define ofParams ofBody => by
    obtain ⟨d, short, read⟩ := ofBody.read
    refine ⟨d, ?_, statementRead_define ofParams read⟩
    simp only [List.length_append, List.length_cons]
    omega
  | .conditional inner => by
    obtain ⟨d, short, read⟩ := inner.read
    exact ⟨d, short, statementRead_conditional inner read⟩
  | .whileLoop ofCond ofBody => by
    obtain ⟨d, short, cond⟩ := ofCond.recognized
    obtain ⟨d', short', body⟩ := ofBody.read
    refine ⟨max (d + 1) d', ?_, statementRead_whileLoop cond ofBody body⟩
    simp only [List.length_append, List.length_cons]
    omega
  | .forLoop ofInit ofCond ofStep ofBody => by
    obtain ⟨d, short, init⟩ := ofInit.read
    obtain ⟨d', short', cond⟩ := ofCond.recognized
    obtain ⟨d'', short'', step⟩ := ofStep.read
    obtain ⟨dBody, shortBody, body⟩ := ofBody.read
    refine ⟨_, ?_, statementRead_forLoop init cond step body⟩
    simp only [List.length_append, List.length_cons]
    omega
  | .trace ofTargets => by
    obtain ⟨d, short, read⟩ := ofTargets.read
    refine ⟨d, ?_, statementRead_trace read⟩
    simp only [List.length_append, List.length_cons]
    omega
  | .leave => ⟨0, Nat.zero_le _, statementRead_leave⟩
  | .again => ⟨0, Nat.zero_le _, statementRead_again⟩
  | .stop => ⟨0, Nat.zero_le _, statementRead_stop⟩
  | .result ofValue => by
    obtain ⟨d, short, value⟩ := ofValue.recognized
    refine ⟨d + 1, ?_, statementRead_result ofValue value⟩
    simp only [List.length_append, List.length_cons]
    omega

theorem Conditional.read {ls : List Lexeme} {i : Span → Instr} :
    Conditional ls i → ∃ d ≤ ls.length, ConditionalRead d ls i
  | .mk ofCond ofTrue ofFalse => by
    obtain ⟨d, short, cond⟩ := ofCond.recognized
    obtain ⟨d', short', onTrue⟩ := ofTrue.read
    obtain ⟨d'', short'', onFalse⟩ := ofFalse.read
    refine ⟨_, ?_, conditionalRead_mk cond ofTrue onTrue onFalse⟩
    simp only [List.length_append, List.length_cons]
    omega

theorem Otherwise.read {ls : List Lexeme} {body : List Instr} :
    Otherwise ls body → ∃ d ≤ ls.length, OtherwiseRead d ls body
  | .nothing => ⟨0, Nat.zero_le _, otherwiseRead_nothing⟩
  | .block inner => by
    obtain ⟨d, short, read⟩ := inner.read
    exact ⟨d, Nat.le_succ_of_le short, otherwiseRead_block inner read⟩
  | .conditional inner => by
    obtain ⟨d, short, read⟩ := inner.read
    exact ⟨d, Nat.le_succ_of_le short, otherwiseRead_conditional inner read⟩

theorem Block.read {ls : List Lexeme} {body : List Instr} :
    Block ls body → ∃ d ≤ ls.length, BlockRead d ls body
  | .mk inner => by
    obtain ⟨d, short, read⟩ := inner.read
    exact ⟨d, Nat.le_succ_of_le short, blockRead_mk read⟩

theorem Body.read {ls : List Lexeme} {body : List Instr} :
    Body ls body → ∃ d ≤ ls.length, BodyRead d ls body
  | .close => ⟨0, Nat.zero_le _, bodyRead_close⟩
  | .more first others => by
    obtain ⟨d, short, read⟩ := first.read
    obtain ⟨d', short', readOthers⟩ := others.read
    have nonempty := others.length_pos
    refine ⟨max (d + 1) d', ?_, bodyRead_more first others read readOthers⟩
    rw [List.length_append]
    omega

end

theorem Statements.noElse {body : List Instr} (derived : Statements ls body) : NoElse ls := by
  cases derived with
  | done => nofun
  | more first others => exact first.head_ne rfl

/-- The statements up to the end of the source are read. -/
def ProgramRead (d : Nat) (ls : List Lexeme) (body : List Instr) : Prop :=
  ∀ (n m : Nat) (found : List Instr) (c : Cursor), ls.length ≤ m → c.Inside → c.rest = ls →
    Agrees (n < d) (toEnd (tower n).statement m found c) (.ok (found.reverse ++ body, c.past ls []))

theorem programRead_done : ProgramRead 0 [] [] := by
  rintro n m found ⟨_, last, size, count⟩ enough inside rfl
  refine .of_eq (Nat.not_lt_zero n) ?_
  cases m <;> simp <;> rfl

theorem programRead_more {i : Span → Instr} {body : List Instr} (derived : Statement ls i)
    (derivedRest : Statements ls' body) (first : StatementRead d ls i)
    (others : ProgramRead d' ls' body) :
    ProgramRead (max (d + 1) d') (ls ++ ls') (i (extent ls) :: body) := by
  intro n m found c enough inside split
  rw [List.length_append] at enough
  rw [lt_max_iff]
  have reads := statement_reads first n c ls' inside split derivedRest.noElse
  have readsOthers := fun m enough =>
    others n m (i (extent ls) :: found) _ enough (inside.past split) rfl
  obtain ⟨l, behind, rfl, -⟩ := derived.starts
  rw [List.length_cons] at enough
  obtain ⟨m, rfl⟩ : ∃ m', m = m' + 1 := ⟨m - 1, by omega⟩
  refine agrees_peek ?_
  rw [split]
  refine agrees_bind reads ((readsOthers m (by omega)).trans_eq ?_)
  simp

theorem Statements.read {body : List Instr} (derived : Statements ls body) :
    ∃ d ≤ ls.length + 1, ProgramRead d ls body := by
  induction derived with
  | done => exact ⟨0, Nat.zero_le _, programRead_done⟩
  | more first others ih =>
    obtain ⟨d, short, read⟩ := first.read
    obtain ⟨d', short', readOthers⟩ := ih
    refine ⟨max (d + 1) d', ?_, programRead_more first others read readOthers⟩
    rw [List.length_append]
    omega

end Grammar

section

variable {d : Nat} {ls : List Lexeme} {body : List Instr}

/-- A program is accepted with the levels it needs, and with no fewer. -/
theorem parseWithin_of_programRead (read : ProgramRead d ls body) (levels size : Nat) :
    Parser.Agrees (levels < d) (parseWithin levels size ls) (.ok { body }) := by
  have agrees := read levels (ls.length + 1) [] { rest := ls, size, count := ls.length }
    (Nat.le_succ _) (Nat.le_refl _) rfl
  refine ⟨fun isDeep => ?_, fun shallow => ?_⟩
  · obtain ⟨span, complains⟩ := agrees.1 isDeep
    exact ⟨span, by simp [parseWithin, complains, bind, Except.bind]⟩
  · simp [parseWithin, agrees.2 shallow, bind, Except.bind, pure, Except.pure]

theorem parse_of_programRead (read : ProgramRead d ls body) (size : Nat) :
    Parser.Agrees (maxNesting < d) (parse size ls) (.ok { body }) :=
  parseWithin_of_programRead read maxNesting size

/-- What follows the grammar is read, unless the levels of nesting run out. -/
theorem parse_of_statements (derived : Statements ls body) (size : Nat) :
    parse size ls = .ok { body } ∨
      maxNesting ≤ ls.length ∧ ∃ span, parse size ls = .error ⟨.tooDeep, span⟩ := by
  obtain ⟨d, short, read⟩ := derived.read
  have agrees := parse_of_programRead read size
  by_cases isDeep : maxNesting < d
  · exact .inr ⟨by omega, agrees.1 isDeep⟩
  · exact .inl (agrees.2 isDeep)

/-- Lexemes form at most one program. -/
theorem statements_unique {body' : List Instr} (derived : Statements ls body)
    (derived' : Statements ls body') : body = body' := by
  -- with a level for each lexeme no complaint about the depth is possible
  have reads {body : List Instr} (derived : Statements ls body) :
      Parser.toEnd (Parser.tower (ls.length + 1)).statement ls.length []
        ⟨ls, {}, 0, ls.length⟩ = .ok (body, Cursor.past ⟨ls, {}, 0, ls.length⟩ ls []) := by
    obtain ⟨d, short, read⟩ := derived.read
    exact (read (ls.length + 1) ls.length [] ⟨ls, {}, 0, ls.length⟩ (Nat.le_refl _) (Nat.le_refl _)
      rfl).2 (Nat.not_lt.mpr short)
  have same := (reads derived).symm.trans (reads derived')
  simpa using same

end

end TraceLang
