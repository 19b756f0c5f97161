/-
# TraceLang.Proofs.Syntax.Acceptance — what is read follows the grammar

`p.Follows c G` says of a parser at one place of a source: if it reads something
there, then it has read a number of lexemes, and these and the result are related
by `G`. A sequence of parsers is followed one by one, each time with what is left
of the relation once the lexemes before are known (`follows_bind`).

Every parser of the language follows its part of the grammar (`tower_obeys`). Most
repetitions may stop early without harm. Those that have just read a comma may
not; they have more turns than there are lexemes.
-/
import TraceLang.Proofs.Syntax.Grammar
import TraceLang.Syntax.Parser

namespace TraceLang

set_option autoImplicit false

open Grammar

theorem Token.eq_of_asType? {t : Token} {ty : Ty} (isType : t.asType? = some ty) :
    t = .typeName ty := by
  cases t <;> simp_all [Token.asType?]

theorem Grammar.location_iff {e : Expr} : Location e ↔ e.isLocation := by
  constructor
  · intro location
    induction location with
    | var => rfl
    | index _ ih => exact ih
  · intro is
    induction e using Expr.isLocation.induct with
    | case1 => exact .var
    | case2 _ _ _ ih => exact .index (ih is)
    | case3 => simp_all [Expr.isLocation]

/-- The cursor behind some lexemes. -/
def Cursor.past (c : Cursor) (ls rest : List Lexeme) : Cursor :=
  { c with rest, last := lastSpan c.last ls }

theorem Cursor.here_of_cons {c : Cursor} {l : Lexeme} {rest : List Lexeme}
    (split : c.rest = l :: rest) : c.here = l.span := by
  rw [Cursor.here, split]

@[simp] theorem Cursor.here_cons (l : Lexeme) (rest : List Lexeme) (last : Span)
    (size count : Nat) : Cursor.here ⟨l :: rest, last, size, count⟩ = l.span :=
  rfl

/-- No more lexemes are left than the source has. -/
def Cursor.Inside (c : Cursor) : Prop :=
  c.rest.length ≤ c.count

theorem Cursor.Inside.past {c : Cursor} (inside : c.Inside) {ls rest : List Lexeme}
    (split : c.rest = ls ++ rest) : (c.past ls rest).Inside := by
  unfold Cursor.Inside at inside
  rw [split, List.length_append] at inside
  exact Nat.le_trans (Nat.le_add_left _ _) inside

namespace Parser

variable {α β : Type} {c : Cursor} {G G' : List Lexeme → α → Prop} {H : List Lexeme → β → Prop}

/-- What the parser reads here is related to the lexemes that it has read. -/
def Follows (p : Parser α) (c : Cursor) (G : List Lexeme → α → Prop) : Prop :=
  c.Inside → ∀ a c', p c = .ok (a, c') →
    ∃ ls rest, c.rest = ls ++ rest ∧ c' = c.past ls rest ∧ G ls a

/-- The parser follows the relation everywhere. -/
def Obeys (p : Parser α) (G : List Lexeme → α → Prop) : Prop :=
  ∀ c : Cursor, p.Follows c G

theorem Follows.mono {p : Parser α} (follows : p.Follows c G) (weaker : ∀ ls a, G ls a → G' ls a) :
    p.Follows c G' := by
  intro inside a c' read
  obtain ⟨ls, rest, split, after, holds⟩ := follows inside a c' read
  exact ⟨ls, rest, split, after, weaker ls a holds⟩

theorem follows_pure {a : α} (holds : G [] a) : (pure a : Parser α).Follows c G := by
  intro _ _ _ read
  cases read
  exact ⟨[], c.rest, rfl, rfl, holds⟩

theorem follows_bind {p : Parser α} {f : α → Parser β} (first : p.Follows c G)
    (second : ∀ a ls rest, c.rest = ls ++ rest → G ls a →
      (f a).Follows (c.past ls rest) fun ls' b => H (ls ++ ls') b) : (p >>= f).Follows c H := by
  intro inside b c' read
  change Parser.bind p f c = .ok (b, c') at read
  unfold Parser.bind at read
  cases result : p c with
  | error e => simp [result] at read
  | ok pair =>
    obtain ⟨a, c₁⟩ := pair
    simp only [result] at read
    obtain ⟨ls, rest, split, rfl, holds⟩ := first inside a c₁ result
    obtain ⟨ls', rest', split', rfl, holds'⟩ :=
      second a ls rest split holds (inside.past split) b c' read
    refine ⟨ls ++ ls', rest', ?_, ?_, holds'⟩
    · rw [split, List.append_assoc, ← split']
      rfl
    · simp [Cursor.past]

theorem follows_map {p : Parser α} {f : α → β} (inner : p.Follows c fun ls a => H ls (f a)) :
    (f <$> p).Follows c H :=
  follows_bind inner fun a ls _ _ holds => follows_pure (by simpa using holds)

theorem follows_fail (complaint : Complaint) (span : Span) :
    (fail complaint span : Parser α).Follows c G :=
  fun _ => nofun

theorem follows_unexpected (wanted : Wanted) : (unexpected wanted : Parser α).Follows c G :=
  fun _ => nofun

/-- After a parser whose result does not matter. -/
theorem follows_discard {p : Parser α} {f : Unit → Parser β} (first : p.Follows c G)
    (second : ∀ a ls rest, c.rest = ls ++ rest → G ls a →
      (f ()).Follows (c.past ls rest) fun ls' b => H (ls ++ ls') b) :
    (discard p >>= f).Follows c H :=
  follows_bind (G := fun ls _ => ∃ a, G ls a)
    (follows_bind first fun a ls _ _ holds => follows_pure ⟨a, by simpa using holds⟩)
    fun _ ls rest split ⟨a, holds⟩ => second a ls rest split holds

/-! ## Reading lexemes -/

/-- The next lexeme is read whatever it is. -/
theorem follows_advance {l : Lexeme} {rest : List Lexeme} (split : c.rest = l :: rest) :
    advance.Follows c fun ls place => ls = [l] ∧ place = l.span := by
  intro _ place c' read
  simp only [advance, split, Except.ok.injEq, Prod.mk.injEq] at read
  obtain ⟨rfl, rfl⟩ := read
  exact ⟨[l], rest, split, rfl, rfl, rfl⟩

theorem follows_token {l : Lexeme} {rest : List Lexeme} {f : Unit → Parser α}
    (split : c.rest = l :: rest)
    (next : (f ()).Follows (c.past [l] rest) fun ls a => G (l :: ls) a) :
    (discard advance >>= f).Follows c G := by
  refine follows_discard (follows_advance split) ?_
  rintro _ _ rest' split' ⟨rfl, -⟩
  obtain rfl : rest = rest' := by simpa [split] using split'
  exact next

/-- The lexeme that is looked at. -/
theorem exists_lexeme {t : Token} (next : c.rest.head?.map (·.token) = some t) :
    ∃ place rest, c.rest = ⟨t, place⟩ :: rest := by
  obtain ⟨⟨_, place⟩, first, rfl⟩ := Option.map_eq_some_iff.mp next
  obtain ⟨rest, split⟩ := List.head?_eq_some_iff.mp first
  exact ⟨place, rest, split⟩

theorem follows_check {t : Token} {p q : Parser α}
    (yes : ∀ place rest, c.rest = ⟨t, place⟩ :: rest → p.Follows c G) (no : q.Follows c G) :
    (check t >>= fun found => if found then p else q).Follows c G := by
  have looked : (if decide (c.rest.head?.map (·.token) = some t) then p else q).Follows c G := by
    split
    · rename_i found
      obtain ⟨place, rest, split⟩ := exists_lexeme (of_decide_eq_true found)
      exact yes place rest split
    · exact no
  exact looked

theorem eat_follows (t : Token) :
    (eat t).Follows c fun ls eaten => if eaten then ∃ place, ls = [⟨t, place⟩] else ls = [] := by
  refine follows_check (fun place rest split => ?_) (follows_pure rfl)
  refine follows_token split ?_
  exact follows_pure ⟨place, rfl⟩

theorem follows_eat {t : Token} {p q : Parser α}
    (yes : ∀ place rest, c.rest = ⟨t, place⟩ :: rest →
      p.Follows (c.past [⟨t, place⟩] rest) fun ls a => G (⟨t, place⟩ :: ls) a)
    (no : q.Follows c G) : (eat t >>= fun eaten => if eaten then p else q).Follows c G := by
  refine follows_bind (eat_follows t) fun eaten ls rest split holds => ?_
  cases eaten with
  | true =>
    obtain ⟨place, rfl⟩ := holds
    exact yes place rest split
  | false =>
    obtain rfl : ls = [] := holds
    obtain rfl : c.rest = rest := split
    exact no

theorem expectSymbol_follows (s : Symbol) :
    (expectSymbol s).Follows c fun ls place => ls = [⟨.symbol s, place⟩] := by
  refine follows_check (fun place rest split => ?_) (follows_unexpected _)
  refine (follows_advance split).mono ?_
  rintro _ _ ⟨rfl, rfl⟩
  rfl

/-- A symbol must follow. -/
theorem follows_symbol {s : Symbol} {f : Unit → Parser α}
    (next : ∀ place rest, (f ()).Follows (c.past [⟨.symbol s, place⟩] rest) fun ls a =>
      G (⟨.symbol s, place⟩ :: ls) a) : (discard (expectSymbol s) >>= f).Follows c G := by
  refine follows_discard (expectSymbol_follows s) ?_
  rintro place _ rest _ rfl
  exact next place rest

theorem expectKeyword_follows (k : Keyword) :
    (expectKeyword k).Follows c fun ls place => ls = [⟨.keyword k, place⟩] := by
  refine follows_check (fun place rest split => ?_) (follows_unexpected _)
  refine (follows_advance split).mono ?_
  rintro _ _ ⟨rfl, rfl⟩
  rfl

theorem follows_peek {f : Option Token → Parser α}
    (looked : (f (c.rest.head?.map (·.token))).Follows c G) : (peek >>= f).Follows c G :=
  looked

theorem follows_peekSecond {f : Option Token → Parser α}
    (looked : (f ((c.rest.drop 1).head?.map (·.token))).Follows c G) :
    (peekSecond >>= f).Follows c G :=
  looked

theorem follows_here {f : Span → Parser α} (looked : (f c.here).Follows c G) :
    (here >>= f).Follows c G :=
  looked

theorem follows_since {start : Span} {f : Span → Parser α}
    (looked : (f (start.merge c.last)).Follows c G) : (since start >>= f).Follows c G :=
  looked

theorem follows_ite {b : Prop} [Decidable b] {p q : Parser α} (yes : b → p.Follows c G)
    (no : ¬ b → q.Follows c G) : (if b then p else q).Follows c G := by
  split
  · exact yes ‹_›
  · exact no ‹_›

theorem expectIdent_follows :
    expectIdent.Follows c fun ls found => ls = [⟨.ident found.1, found.2⟩] := by
  refine follows_peek ?_
  split
  · rename_i name next
    obtain ⟨place, rest, split⟩ := exists_lexeme next
    refine follows_bind (follows_advance split) ?_
    rintro _ _ _ _ ⟨rfl, rfl⟩
    exact follows_pure rfl
  · exact follows_unexpected _

/-- A repetition has more turns than there are lexemes. -/
theorem follows_turns {f : Nat → Parser α} (next : ∀ n, c.rest.length < n → (f n).Follows c G) :
    (turns >>= f).Follows c G :=
  fun inside => next (c.count + 1) (Nat.lt_succ_of_le inside) inside

/-! ## Expressions -/

@[simp] theorem join_eq_joined (op : BinOp) (left right : Expr) :
    join op left right = joined op left right :=
  rfl

/-- Operands are joined to a first one, whose lexemes are known. -/
theorem chain_follows {j : Join} {operand : Parser Expr}
    (ofOperand : operand.Obeys (Expression j.operand)) (n : Nat) :
    ∀ {c : Cursor} {left : Expr} {before : List Lexeme}, Expression (.chain j) before left →
      (chain j.operator operand n left).Follows c fun ls e =>
        Expression (.chain j) (before ++ ls) e := by
  induction n with
  | zero => exact fun ofLeft => follows_pure (by simpa using ofLeft)
  | succ n ih =>
    intro c left before ofLeft
    refine follows_peek ?_
    split
    · rename_i op found
      obtain ⟨t, next, operator⟩ := Option.bind_eq_some_iff.mp found
      obtain ⟨place, rest, split⟩ := exists_lexeme next
      refine follows_token split ?_
      refine follows_bind (ofOperand _) fun right ls _ _ ofRight => ?_
      refine (ih (ofLeft.joined (t := ⟨t, place⟩) operator ofRight)).mono fun ls' e derived => ?_
      simpa using derived
    · exact follows_pure (by simpa using ofLeft)

theorem leftAssoc_obeys {j : Join} {operand : Parser Expr}
    (ofOperand : operand.Obeys (Expression j.operand)) :
    (leftAssoc j.operator operand).Obeys (Expression (.chain j)) := by
  intro c
  refine follows_bind (ofOperand c) fun left ls _ _ ofLeft => follows_turns fun n _ => ?_
  exact chain_follows ofOperand n (.operand ofLeft)

/-- Items behind those that were found before. -/
theorem moreItems_follows {expr : Parser Expr} (ofExpr : expr.Obeys (Expression .whole)) (n : Nat) :
    ∀ {c : Cursor} {found : List Expr}, c.rest.length < n →
      (moreItems expr n found).Follows c fun ls es =>
        ∃ more, Items ls more ∧ es = found.reverse ++ more := by
  induction n with
  | zero => exact fun short => absurd short (Nat.not_lt_zero _)
  | succ n ih =>
    intro c found short
    refine follows_bind (ofExpr c) fun e ls rest split derived => ?_
    have nonempty := derived.length_pos
    rw [split, List.length_append] at short
    refine follows_eat (fun place rest' split' => ?_) (follows_pure ?_)
    · obtain rfl : rest = ⟨.symbol .comma, place⟩ :: rest' := split'
      rw [List.length_cons] at short
      refine (ih (by simp only [Cursor.past]; omega)).mono ?_
      rintro ls' es ⟨more, items, rfl⟩
      exact ⟨e :: more, .more derived items, by simp⟩
    · exact ⟨[e], by simpa using Items.one derived, by simp⟩

theorem itemsUntil_obeys {expr : Parser Expr} (ofExpr : expr.Obeys (Expression .whole))
    (close : Symbol) :
    (itemsUntil expr close).Obeys fun ls found => Closed close ls found.1 found.2 := by
  intro c
  refine follows_check (fun _ _ _ => ?_) (follows_turns fun n enough => ?_)
  · refine follows_bind (G := fun ls es => ls = [] ∧ es = []) (follows_pure ⟨rfl, rfl⟩) ?_
    rintro _ _ _ _ ⟨rfl, rfl⟩
    refine follows_bind (expectSymbol_follows close) ?_
    rintro closed _ _ _ rfl
    exact follows_pure .empty
  · refine follows_bind (moreItems_follows ofExpr n enough) ?_
    rintro _ ls _ _ ⟨es, items, rfl⟩
    refine follows_bind (expectSymbol_follows close) ?_
    rintro closed _ _ _ rfl
    exact follows_pure (by simpa using Closed.items items)

/-- One lexeme that is an expression. -/
theorem literal_follows {t : Token} {place : Span} {rest : List Lexeme} {e : Expr}
    (split : c.rest = ⟨t, place⟩ :: rest) (is : Literal place t e) :
    (do discard advance
        return e : Parser Expr).Follows c (Expression .primary) := by
  refine follows_token split ?_
  exact follows_pure (.literal is)

theorem primary_obeys {expr : Parser Expr} (ofExpr : expr.Obeys (Expression .whole)) :
    (primary expr).Obeys (Expression .primary) := by
  have items := itemsUntil_obeys ofExpr
  rintro ⟨_ | ⟨⟨token, place⟩, rest⟩, last, size, count⟩
  · exact follows_unexpected _
  refine follows_here (follows_peek ?_)
  cases token with
  | int => exact literal_follows rfl .int
  | float => exact literal_follows rfl .float
  | str => exact literal_follows rfl .str
  | typeName => exact follows_unexpected _
  | keyword k =>
    cases k with
    | trueWord => exact literal_follows rfl .yes
    | falseWord => exact literal_follows rfl .no
    | noneWord => exact literal_follows rfl .none
    | _ => exact follows_unexpected _
  | ident name =>
    refine follows_peekSecond (follows_token rfl ?_)
    refine follows_ite (fun second => ?_) fun _ => follows_pure .var
    obtain ⟨opened, rest', next⟩ := exists_lexeme (c := ⟨_, last, size, count⟩) second
    refine follows_token next ?_
    refine follows_bind (items .rParen _) ?_
    rintro ⟨args, closed⟩ ls _ _ derived
    exact follows_pure (by simpa using Expression.call derived)
  | symbol s =>
    cases s with
    | lBracket =>
      refine follows_token rfl ?_
      refine follows_bind (items .rBracket _) ?_
      rintro ⟨es, closed⟩ ls _ _ derived
      exact follows_pure (by simpa using Expression.list derived)
    | lParen =>
      refine follows_token rfl ?_
      refine follows_bind (ofExpr _) fun inner ls _ _ derived => ?_
      refine follows_bind (expectSymbol_follows .rParen) ?_
      rintro closed _ _ _ rfl
      exact follows_pure (by simpa using derived.paren)
    | _ => exact follows_unexpected _

/-- Index brackets behind an expression whose lexemes are known. -/
theorem indices_follows {expr : Parser Expr} (ofExpr : expr.Obeys (Expression .whole)) (n : Nat) :
    ∀ {c : Cursor} {base : Expr} {before : List Lexeme}, Expression .postfixed before base →
      (indices expr n base).Follows c fun ls e => Expression .postfixed (before ++ ls) e := by
  induction n with
  | zero => exact fun ofBase => follows_pure (by simpa using ofBase)
  | succ n ih =>
    intro c base before ofBase
    refine follows_eat (fun opened _ _ => ?_) (follows_pure (by simpa using ofBase))
    refine follows_bind (ofExpr _) fun position ls _ _ ofPosition => ?_
    refine follows_bind (expectSymbol_follows .rBracket) ?_
    rintro closed _ _ _ rfl
    have bracketed : Expression .postfixed
        (before ++ ⟨.symbol .lBracket, opened⟩ :: ls ++ [⟨.symbol .rBracket, closed⟩])
        (.index (base.span.merge closed) base position) := ofBase.indexed ofPosition
    refine (ih bracketed).mono fun ls' e derived => ?_
    simpa using derived

theorem indexed_obeys {expr : Parser Expr} (ofExpr : expr.Obeys (Expression .whole)) :
    (indexed expr).Obeys (Expression .postfixed) := by
  intro c
  refine follows_bind (primary_obeys ofExpr c) fun base ls _ _ ofBase => ?_
  exact follows_turns fun n _ => indices_follows ofExpr n (.unindexed ofBase)

end Parser

/-- An instruction with the extent of its lexemes as its place. -/
def Grammar.Placed (G : List Lexeme → (Span → Instr) → Prop) (ls : List Lexeme) (i : Instr) :
    Prop :=
  ∃ i', G ls i' ∧ i = i' (extent ls)

/-- The parsers of a level follow the grammar. -/
structure Parser.Tower.Obeys (t : Parser.Tower) : Prop where
  expr : t.expr.Obeys (Expression .whole)
  notOperand : t.notOperand.Obeys (Expression .negation)
  minusOperand : t.minusOperand.Obeys (Expression .signed)
  statement : t.statement.Obeys (Placed Statement)

namespace Parser

variable {t : Tower} (obeys : t.Obeys)

include obeys

theorem signed_obeys : (signed t).Obeys (Expression .signed) := by
  intro c
  refine follows_check (fun place rest split => ?_) ?_
  · refine follows_bind (follows_advance split) ?_
    rintro _ _ _ _ ⟨rfl, rfl⟩
    refine follows_bind (obeys.minusOperand _) fun operand ls _ _ derived => ?_
    exact follows_pure (by simpa using derived.minus)
  · exact (indexed_obeys obeys.expr c).mono fun _ _ => .unsigned

theorem sum_obeys : (sum t).Obeys (Expression (.chain .sum)) :=
  leftAssoc_obeys (j := .sum) (leftAssoc_obeys (j := .product) (signed_obeys obeys))

theorem compared_obeys : (compared t).Obeys (Expression .comparison) := by
  intro c
  refine follows_bind (sum_obeys obeys c) fun left ls rest split ofLeft => follows_peek ?_
  split
  · rename_i op found
    obtain ⟨token, next, operator⟩ := Option.bind_eq_some_iff.mp found
    obtain ⟨place, rest', split'⟩ := exists_lexeme next
    refine follows_token split' ?_
    refine follows_bind (sum_obeys obeys _) fun right ls' _ _ ofRight => follows_pure ?_
    simpa using ofLeft.compared (t := ⟨token, place⟩) operator ofRight
  · exact follows_pure (by simpa using ofLeft.uncompared)

theorem negated_obeys : (negated t).Obeys (Expression .negation) := by
  intro c
  refine follows_check (fun place rest split => ?_) ?_
  · refine follows_bind (follows_advance split) ?_
    rintro _ _ _ _ ⟨rfl, rfl⟩
    refine follows_bind (obeys.notOperand _) fun operand ls _ _ derived => ?_
    exact follows_pure (by simpa using derived.not)
  · exact (compared_obeys obeys c).mono fun _ _ => .positive

theorem disjunction_obeys : (disjunction t).Obeys (Expression .whole) :=
  leftAssoc_obeys (j := .or) (leftAssoc_obeys (j := .and) (negated_obeys obeys))

/-! ## Instructions -/

theorem simple_obeys : (simple t).Obeys (Placed Simple) := by
  intro c
  refine follows_here (follows_peek ?_)
  split
  · rename_i ty found
    obtain ⟨token, next, isType⟩ := Option.bind_eq_some_iff.mp found
    obtain rfl := Token.eq_of_asType? isType
    obtain ⟨place, rest, split⟩ := exists_lexeme next
    rw [Cursor.here_of_cons split]
    refine follows_token split ?_
    refine follows_bind expectIdent_follows ?_
    rintro ⟨name, named⟩ _ _ _ rfl
    refine follows_eat (fun equals _ _ => ?_) (follows_ite (fun _ => follows_fail _ _) fun typed => ?_)
    · refine follows_bind (obeys.expr _) fun init ls _ _ derived => ?_
      refine follows_since (follows_pure ⟨_, by simpa using Simple.declare derived, ?_⟩)
      simp [Cursor.past]
    · refine follows_since (follows_pure ⟨_, Simple.reserve typed, ?_⟩)
      simp [Cursor.past]
  · refine follows_bind (obeys.expr c) fun e ls rest split derived => ?_
    obtain ⟨first, others, rfl, -⟩ := derived.starts
    rw [Cursor.here_of_cons split]
    refine follows_eat (fun equals _ _ => follows_ite (fun location => ?_) fun _ => follows_fail _ _) ?_
    · refine follows_bind (obeys.expr _) fun value ls' _ _ derived' => ?_
      refine follows_since (follows_pure ⟨_, by simpa using Simple.assign derived (location_iff.mpr location) derived', ?_⟩)
      simp [Cursor.past]
    · cases e with
      | call place name args =>
        refine follows_since (follows_pure ⟨_, by simpa using Simple.call derived, ?_⟩)
        simp [Cursor.past]
      | _ => exact follows_fail _ _

/-- Statements behind those that were found before. -/
theorem statements_follows (n : Nat) : ∀ {c : Cursor} {found : List Instr},
    (statements t.statement n found).Follows c fun ls is =>
      ∃ more, Body ls more ∧ is = found.reverse ++ more := by
  induction n with
  | zero => exact follows_unexpected _
  | succ n ih =>
    intro c found
    refine follows_peek ?_
    split
    · rename_i next
      obtain ⟨closed, rest, split⟩ := exists_lexeme next
      refine follows_token split ?_
      exact follows_pure ⟨[], .close, by simp⟩
    · exact follows_unexpected _
    · refine follows_bind (obeys.statement c) ?_
      rintro _ ls _ _ ⟨i, derived, rfl⟩
      refine ih.mono ?_
      rintro ls' _ ⟨more, body, rfl⟩
      exact ⟨i (extent ls) :: more, .more derived body, by simp⟩

theorem block_obeys : (block t).Obeys Block := by
  intro c
  refine follows_symbol fun opened _ => ?_
  refine follows_turns fun n _ => (statements_follows obeys n).mono ?_
  rintro ls _ ⟨body, derived, rfl⟩
  exact .mk derived

theorem conditional_obeys (n : Nat) : (conditional t n).Obeys (Placed Conditional) := by
  induction n with
  | zero => exact fun _ => follows_unexpected _
  | succ n ih =>
    intro c
    refine follows_bind (expectKeyword_follows .ifWord) ?_
    rintro place _ _ _ rfl
    refine follows_bind (obeys.expr _) fun cond ls _ _ ofCond => ?_
    refine follows_bind (block_obeys obeys _) fun onTrue ls' _ _ ofTrue => ?_
    have close : ∀ {c : Cursor} {onFalse : List Instr} {ls'' : List Lexeme}
        {G : List Lexeme → Instr → Prop}, Otherwise ls'' onFalse →
        c.last = lastSpan place (ls ++ ls' ++ ls'') →
        (∀ i, Placed Conditional (⟨.keyword .ifWord, place⟩ :: ls ++ ls' ++ ls'') i → G [] i) →
        (do let span ← since place
            return .conditional span cond onTrue onFalse : Parser Instr).Follows c G := by
      intro c onFalse ls'' G ofFalse last placed
      refine follows_since (follows_pure (placed _ ⟨_, .mk ofCond ofTrue ofFalse, ?_⟩))
      simp [last]
    refine follows_eat (fun other _ _ => follows_check (fun _ _ _ => ?_) ?_) ?_
    · refine follows_bind (ih _) ?_
      rintro _ ls'' _ _ ⟨i, derived, rfl⟩
      refine follows_bind (G := fun ls is => ls = [] ∧ is = [i (extent ls'')])
        (follows_pure ⟨rfl, rfl⟩) ?_
      rintro _ _ _ _ ⟨rfl, rfl⟩
      have ofFalse : Otherwise (⟨.keyword .elseWord, other⟩ :: ls'') _ := .conditional derived
      exact close ofFalse (by simp [Cursor.past]) fun i placed => by simpa using placed
    · refine follows_bind (block_obeys obeys _) fun onFalse ls'' _ _ derived => ?_
      have ofFalse : Otherwise (⟨.keyword .elseWord, other⟩ :: ls'') _ := .block derived
      exact close ofFalse (by simp [Cursor.past]) fun i placed => by simpa using placed
    · refine follows_bind (G := fun ls is => ls = [] ∧ is = []) (follows_pure ⟨rfl, rfl⟩) ?_
      rintro _ _ _ _ ⟨rfl, rfl⟩
      exact close .nothing (by simp [Cursor.past]) fun i placed => by simpa using placed

theorem forLoop_obeys : (forLoop t).Obeys (Placed Statement) := by
  intro c
  refine follows_bind (expectKeyword_follows .forWord) ?_
  rintro place _ _ _ rfl
  refine follows_symbol fun opened _ => ?_
  refine follows_bind (simple_obeys obeys _) ?_
  rintro _ ls _ _ ⟨init, ofInit, rfl⟩
  refine follows_symbol fun semi _ => ?_
  refine follows_bind (obeys.expr _) fun cond ls' _ _ ofCond => ?_
  refine follows_symbol fun semi' _ => ?_
  refine follows_bind (simple_obeys obeys _) ?_
  rintro _ ls'' _ _ ⟨step, ofStep, rfl⟩
  refine follows_symbol fun closed _ => ?_
  refine follows_bind (block_obeys obeys _) fun body inBody _ _ ofBody => ?_
  have derived : Statement (⟨.keyword .forWord, place⟩ :: ⟨.symbol .lParen, opened⟩ :: ls ++
      ⟨.symbol .semi, semi⟩ :: ls' ++ ⟨.symbol .semi, semi'⟩ :: ls'' ++
      ⟨.symbol .rParen, closed⟩ :: inBody) _ := .forLoop ofInit ofCond ofStep ofBody
  refine follows_since (follows_pure ⟨_, by simpa using derived, ?_⟩)
  simp [Cursor.past]

omit obeys in
/-- Parameters behind those that were found before. -/
theorem moreParams_follows (n : Nat) : ∀ {c : Cursor} {found : List Param}, c.rest.length < n →
    (moreParams n found).Follows c fun ls params =>
      ∃ more, Parameters ls more ∧ params = found.reverse ++ more := by
  induction n with
  | zero => exact fun short => absurd short (Nat.not_lt_zero _)
  | succ n ih =>
    intro c found short
    refine follows_peek ?_
    split
    · rename_i ty found
      obtain ⟨token, next, isType⟩ := Option.bind_eq_some_iff.mp found
      obtain rfl := Token.eq_of_asType? isType
      obtain ⟨place, rest, split⟩ := exists_lexeme next
      refine follows_token split (follows_bind expectIdent_follows ?_)
      rintro ⟨name, named⟩ _ rest₁ split₁ rfl
      refine follows_eat (fun comma rest₂ split₂ => ?_) (follows_pure ?_)
      · obtain rfl : rest = _ :: rest₁ := split₁
        obtain rfl : rest₁ = _ :: rest₂ := split₂
        simp only [split, List.length_cons] at short
        refine (ih (by simp only [Cursor.past]; omega)).mono ?_
        · rintro ls' _ ⟨more, derived, rfl⟩
          exact ⟨_, .more derived, by simp⟩
      · exact ⟨_, .one, by simp⟩
    · exact follows_unexpected _

theorem definition_obeys : (definition t).Obeys (Placed Statement) := by
  intro c
  refine follows_bind (expectKeyword_follows .func) ?_
  rintro place _ _ _ rfl
  refine follows_bind expectIdent_follows ?_
  rintro ⟨name, named⟩ _ _ _ rfl
  refine follows_symbol fun opened _ => ?_
  have close : ∀ {c : Cursor} {params : List Param} {ls : List Lexeme}
      {G : List Lexeme → Instr → Prop}, ParameterList ls params →
      (∀ closed ls' i, Placed Statement (⟨.keyword .func, place⟩ :: ⟨.ident name, named⟩ ::
        ⟨.symbol .lParen, opened⟩ :: ls ++ ⟨.symbol .rParen, closed⟩ :: ls') i →
        G (⟨.symbol .rParen, closed⟩ :: ls') i) →
      (do discard (expectSymbol .rParen)
          let body ← block t
          let span ← since place
          return .define span name params body span : Parser Instr).Follows c G := by
    intro c params ls G ofParams placed
    refine follows_symbol fun closed _ => ?_
    refine follows_bind (block_obeys obeys _) fun body ls' _ _ ofBody => ?_
    refine follows_since (follows_pure ?_)
    have ends := placed closed ls' _ ⟨_, .define ofParams ofBody, rfl⟩
    simpa [Cursor.past] using ends
  refine follows_check (fun _ _ _ => ?_) (follows_turns fun n enough => ?_)
  · refine follows_bind (G := fun ls params => ls = [] ∧ params = []) (follows_pure ⟨rfl, rfl⟩) ?_
    rintro _ _ _ _ ⟨rfl, rfl⟩
    exact close .empty fun closed ls' i placed => by simpa using placed
  · refine follows_bind (moreParams_follows n enough) ?_
    rintro _ ls _ _ ⟨params, derived, rfl⟩
    exact close (.some derived) fun closed ls' i placed => by simpa using placed

theorem instruction_obeys : (instruction t).Obeys (Placed Statement) := by
  intro c
  refine follows_here (follows_peek ?_)
  split
  · exact definition_obeys obeys c
  · refine follows_turns fun n _ => (conditional_obeys obeys n c).mono ?_
    rintro ls _ ⟨i, derived, rfl⟩
    exact ⟨i, .conditional derived, rfl⟩
  · rename_i next
    obtain ⟨place, rest, split⟩ := exists_lexeme next
    rw [Cursor.here_of_cons split]
    refine follows_token split ?_
    refine follows_bind (obeys.expr _) fun cond ls _ _ ofCond => ?_
    refine follows_bind (block_obeys obeys _) fun body ls' _ _ ofBody => ?_
    refine follows_since (follows_pure ⟨_, by simpa using Statement.whileLoop ofCond ofBody, ?_⟩)
    simp [Cursor.past]
  · exact forLoop_obeys obeys c
  · rename_i next
    obtain ⟨place, rest, split⟩ := exists_lexeme next
    rw [Cursor.here_of_cons split]
    refine follows_token split ?_
    refine follows_symbol fun opened _ => ?_
    refine follows_turns fun n enough => follows_bind (moreItems_follows obeys.expr n enough) ?_
    rintro _ ls _ _ ⟨targets, items, rfl⟩
    refine follows_symbol fun closed _ => ?_
    refine follows_symbol fun semi _ => ?_
    refine follows_since (follows_pure ⟨_, by simpa using Statement.trace items, ?_⟩)
    simp [Cursor.past]
  · rename_i next
    obtain ⟨place, rest, split⟩ := exists_lexeme next
    rw [Cursor.here_of_cons split]
    refine follows_token split ?_
    refine follows_symbol fun semi _ => ?_
    exact follows_since (follows_pure ⟨_, .leave, rfl⟩)
  · rename_i next
    obtain ⟨place, rest, split⟩ := exists_lexeme next
    rw [Cursor.here_of_cons split]
    refine follows_token split ?_
    refine follows_symbol fun semi _ => ?_
    exact follows_since (follows_pure ⟨_, .again, rfl⟩)
  · rename_i next
    obtain ⟨place, rest, split⟩ := exists_lexeme next
    rw [Cursor.here_of_cons split]
    refine follows_token split ?_
    refine follows_check (fun _ _ _ => ?_) ?_
    · refine follows_bind (G := fun ls value => ls = [] ∧ value = none)
        (follows_pure ⟨rfl, rfl⟩) ?_
      rintro _ _ _ _ ⟨rfl, rfl⟩
      refine follows_symbol fun semi _ => ?_
      exact follows_since (follows_pure ⟨_, .stop, rfl⟩)
    · refine follows_bind (G := fun ls value => ∃ e, Expression .whole ls e ∧ value = some e)
        (follows_map ((obeys.expr _).mono fun ls e derived => ⟨e, derived, rfl⟩)) ?_
      rintro _ ls _ _ ⟨e, derived, rfl⟩
      refine follows_symbol fun semi _ => ?_
      refine follows_since (follows_pure ⟨_, by simpa using Statement.result derived, ?_⟩)
      simp [Cursor.past]
  · refine follows_bind (simple_obeys obeys c) ?_
    rintro _ ls rest split ⟨i, derived, rfl⟩
    obtain ⟨first, others, rfl, -⟩ := derived.starts
    rw [Cursor.here_of_cons split]
    refine follows_symbol fun semi _ => ?_
    refine follows_since (follows_pure ⟨_, by simpa using Statement.simple derived, ?_⟩)
    rw [derived.withSpan]
    simp [Cursor.past]

omit obeys

/-- Each level follows the grammar if the one inside it does. -/
theorem tower_obeys (n : Nat) : (tower n).Obeys := by
  induction n with
  | zero => exact ⟨fun _ _ => nofun, fun _ _ => nofun, fun _ _ => nofun, fun _ _ => nofun⟩
  | succ n ih =>
    exact ⟨disjunction_obeys ih, negated_obeys ih, signed_obeys ih, instruction_obeys ih⟩

/-- Statements to the end of the source, behind those that were found before. -/
theorem toEnd_follows {statement : Parser Instr} (ofStatement : statement.Obeys (Placed Statement))
    (n : Nat) : ∀ (c : Cursor) (found : List Instr), c.rest.length < n →
      (toEnd statement n found).Follows c fun ls is =>
        ls = c.rest ∧ ∃ more, Statements ls more ∧ is = found.reverse ++ more := by
  induction n with
  | zero => exact fun _ _ short => absurd short (Nat.not_lt_zero _)
  | succ n ih =>
    intro c found short
    refine follows_peek ?_
    split
    · rename_i next
      have nothing : c.rest = [] := by simpa using next
      exact follows_pure ⟨nothing.symm, [], .done, by simp⟩
    · refine follows_bind (ofStatement c) ?_
      rintro _ ls rest split ⟨i, derived, rfl⟩
      obtain ⟨_, _, rfl, -⟩ := derived.starts
      simp only [split, List.length_append, List.length_cons] at short
      refine (ih _ _ (by simp only [Cursor.past]; omega)).mono ?_
      rintro _ _ ⟨rfl, more, others, rfl⟩
      exact ⟨split.symm, _, .more derived others, by simp⟩

end Parser

/-- The program that the lexemes form, if there may be so many levels of nesting. -/
def parseWithin (levels size : Nat) (lexemes : List Lexeme) : Except GrammarError Program := do
  let count := lexemes.length
  let (body, _) ← Parser.toEnd (Parser.tower levels).statement (count + 1) []
    { rest := lexemes, size, count }
  return { body }

theorem parse_eq_parseWithin (size : Nat) (ls : List Lexeme) :
    parse size ls = parseWithin maxNesting size ls :=
  rfl

/-- A program that is read follows the grammar. -/
theorem statements_of_parseWithin {levels size : Nat} {ls : List Lexeme} {prog : Program}
    (read : parseWithin levels size ls = .ok prog) : Statements ls prog.body := by
  let c : Cursor := { rest := ls, size, count := ls.length }
  cases result : Parser.toEnd (Parser.tower levels).statement (ls.length + 1) [] c with
  | error e => simp [parseWithin, c, bind, Except.bind, result] at read
  | ok pair =>
    obtain ⟨body, c'⟩ := pair
    obtain rfl : { body } = prog := by
      simpa [parseWithin, c, bind, Except.bind, pure, Except.pure, result] using read
    have follows := Parser.toEnd_follows (Parser.tower_obeys levels).statement (ls.length + 1)
      c [] (Nat.lt_succ_self _)
    obtain ⟨_, _, -, -, rfl, more, derived, rfl⟩ := follows (Nat.le_refl _) body c' result
    exact derived

theorem statements_of_parse {size : Nat} {ls : List Lexeme} {prog : Program}
    (read : parse size ls = .ok prog) : Statements ls prog.body :=
  statements_of_parseWithin (parse_eq_parseWithin size ls ▸ read)

end TraceLang
