/-
# TraceLang.Proofs.Syntax.Recognition.Expressions — expressions of the grammar are read

If lexemes form a phrase, the parser of the phrase reads exactly these lexemes and
gives what the phrase stands for, provided that the token behind them does not
continue it. How deep the phrase is nested decides whether the levels of the parser
suffice: with `d` levels or more it reads the phrase, with fewer it always complains
about the depth. No phrase needs more levels than it has lexemes.

`Agrees deep r r'` is the comparison of two outcomes on these terms: if it is `deep`,
the first one is that complaint, and if not, they are equal. The proofs follow the
rules of the grammar. Chains of operands are extended at the end by the rules and
read from the beginning by the parser, so for them it is shown which turn the parser
has reached behind each part of the chain (`Reaches`).
-/
import Mathlib.Order.MinMax
import TraceLang.Proofs.Syntax.Acceptance

namespace TraceLang

set_option autoImplicit false

open Grammar

@[simp] theorem Cursor.past_past (c : Cursor) (ls ls' rest rest' : List Lexeme) :
    (c.past ls rest).past ls' rest' = c.past (ls ++ ls') rest' := by
  simp [Cursor.past]

theorem Cursor.Inside.token {c : Cursor} (inside : c.Inside) {l : Lexeme} {rest : List Lexeme}
    (split : c.rest = l :: rest) : (c.past [l] rest).Inside :=
  inside.past split

/-- A repetition has as many turns as there are lexemes to read. -/
theorem Cursor.Inside.length_le {c : Cursor} (inside : c.Inside) {ls rest : List Lexeme}
    (split : c.rest = ls ++ rest) : ls.length ≤ c.count + 1 := by
  unfold Cursor.Inside at inside
  rw [split, List.length_append] at inside
  omega

namespace Parser

variable {α β : Type} {deep deep' : Prop} {c c₁ : Cursor} {r : Except GrammarError (β × Cursor)}

/-- If it is deep, the first outcome is a complaint about the depth, and else the
outcomes are equal. -/
def Agrees (deep : Prop) (r r' : Except GrammarError α) : Prop :=
  (deep → ∃ span, r = .error { complaint := .tooDeep, span }) ∧ (¬ deep → r = r')

theorem Agrees.of_eq {r r' : Except GrammarError α} (shallow : ¬ deep) (same : r = r') :
    Agrees deep r r' :=
  ⟨fun isDeep => absurd isDeep shallow, fun _ => same⟩

theorem Agrees.same {r r' : Except GrammarError α} (same : r = r') : Agrees False r r' :=
  .of_eq not_false same

theorem Agrees.congr {r r' : Except GrammarError α} (agrees : Agrees deep r r')
    (same : deep ↔ deep') : Agrees deep' r r' := by
  rw [Agrees, ← same]
  exact agrees

theorem Agrees.trans {r r' r'' : Except GrammarError α} (first : Agrees deep r r')
    (second : Agrees deep' r' r'') : Agrees (deep ∨ deep') r r'' := by
  by_cases isDeep : deep
  · exact ⟨fun _ => first.1 isDeep, fun shallow => absurd (.inl isDeep) shallow⟩
  · rw [first.2 isDeep]
    exact second.congr (by simp [isDeep])

theorem Agrees.trans_eq {r r' r'' : Except GrammarError α} (first : Agrees deep r r')
    (second : r' = r'') : Agrees deep r r'' :=
  second ▸ first

/-- Behind a step that succeeds. -/
theorem agrees_then {p : Parser α} {f : α → Parser β} {a : α} (first : p c = .ok (a, c₁))
    (second : Agrees deep (f a c₁) r) : Agrees deep ((p >>= f) c) r := by
  change Agrees deep (Parser.bind p f c) r
  unfold Parser.bind
  rw [first]
  exact second

theorem agrees_bind {p : Parser α} {f : α → Parser β} {a : α}
    (first : Agrees deep (p c) (.ok (a, c₁))) (second : Agrees deep' (f a c₁) r) :
    Agrees (deep ∨ deep') ((p >>= f) c) r := by
  by_cases isDeep : deep
  · obtain ⟨span, complains⟩ := first.1 isDeep
    have stuck : (p >>= f) c = .error { complaint := .tooDeep, span } := by
      change Parser.bind p f c = _
      simp [Parser.bind, complains]
    exact ⟨fun _ => ⟨span, stuck⟩, fun shallow => absurd (.inl isDeep) shallow⟩
  · exact (agrees_then (first.2 isDeep) second).congr (by simp [isDeep])

/-- Only the first step may complain. -/
theorem agrees_last {p : Parser α} {f : α → Parser β} {a : α}
    (first : Agrees deep (p c) (.ok (a, c₁))) (second : Agrees False (f a c₁) r) :
    Agrees deep ((p >>= f) c) r :=
  (agrees_bind first second).congr (by rw [or_false])

/-- The parser reads the lexemes as a value, if what follows them stops it. -/
def Reads (p : Parser α) (deep : Prop) (ls : List Lexeme) (a : α) (stop : List Lexeme → Prop) :
    Prop :=
  ∀ (c : Cursor) (rest : List Lexeme), c.Inside → c.rest = ls ++ rest → stop rest →
    Agrees deep (p c) (.ok (a, c.past ls rest))

/-- Whether the lexemes are nested too deep is not a matter of how they are read. -/
theorem Reads.deep_iff {p : Parser α} {ls : List Lexeme} {a a' : α} {stop : List Lexeme → Prop}
    (reads : p.Reads deep ls a stop) (reads' : p.Reads deep' ls a' stop) (stops : stop []) :
    deep ↔ deep' := by
  have split : ls = ls ++ [] := (List.append_nil ls).symm
  have agrees := reads ⟨ls, {}, 0, ls.length⟩ [] (Nat.le_refl _) split stops
  have agrees' := reads' ⟨ls, {}, 0, ls.length⟩ [] (Nat.le_refl _) split stops
  by_cases isDeep : deep <;> by_cases isDeep' : deep'
  · simp [isDeep, isDeep']
  · obtain ⟨span, complains⟩ := agrees.1 isDeep
    rw [agrees'.2 isDeep'] at complains
    cases complains
  · obtain ⟨span, complains⟩ := agrees'.1 isDeep'
    rw [agrees.2 isDeep] at complains
    cases complains
  · simp [isDeep, isDeep']

/-! ## Reading lexemes -/

section

variable {t : Token} {l : Lexeme} {place : Span} {rest : List Lexeme}

theorem advance_eq (split : c.rest = l :: rest) : advance c = .ok (l.span, c.past [l] rest) := by
  simp [advance, split, Cursor.past]

theorem discard_eq {p : Parser α} {a : α} (first : p c = .ok (a, c₁)) :
    discard p c = .ok ((), c₁) := by
  change Parser.bind p (fun _ => pure ()) c = _
  unfold Parser.bind
  rw [first]
  rfl

theorem agrees_token {f : Unit → Parser β} (split : c.rest = l :: rest)
    (next : Agrees deep (f () (c.past [l] rest)) r) :
    Agrees deep ((discard advance >>= f) c) r :=
  agrees_then (discard_eq (advance_eq split)) next

theorem agrees_peek {f : Option Token → Parser β}
    (next : Agrees deep (f (c.rest.head?.map (·.token)) c) r) :
    Agrees deep ((peek >>= f) c) r :=
  next

theorem agrees_peekSecond {f : Option Token → Parser β}
    (next : Agrees deep (f ((c.rest.drop 1).head?.map (·.token)) c) r) :
    Agrees deep ((peekSecond >>= f) c) r :=
  next

theorem agrees_here {f : Span → Parser β} (next : Agrees deep (f c.here c) r) :
    Agrees deep ((here >>= f) c) r :=
  next

theorem agrees_turns {f : Nat → Parser β} (next : Agrees deep (f (c.count + 1) c) r) :
    Agrees deep ((turns >>= f) c) r :=
  next

theorem agrees_if_pos {b : Prop} [Decidable b] {p q : Parser β} (holds : b)
    (next : Agrees deep (p c) r) : Agrees deep ((if b then p else q) c) r := by
  rw [if_pos holds]
  exact next

theorem agrees_if_neg {b : Prop} [Decidable b] {p q : Parser β} (fails : ¬ b)
    (next : Agrees deep (q c) r) : Agrees deep ((if b then p else q) c) r := by
  rw [if_neg fails]
  exact next

theorem agrees_found {p q : Parser β} (split : c.rest = ⟨t, place⟩ :: rest)
    (next : Agrees deep (p c) r) :
    Agrees deep ((check t >>= fun found => if found then p else q) c) r := by
  have found : check t c = .ok (true, c) := by
    change Except.ok (decide (c.rest.head?.map (·.token) = some t), c) = _
    simp [split]
  exact agrees_then found next

theorem agrees_missing {p q : Parser β} (other : c.rest.head?.map (·.token) ≠ some t)
    (next : Agrees deep (q c) r) :
    Agrees deep ((check t >>= fun found => if found then p else q) c) r := by
  have missing : check t c = .ok (false, c) := by
    change Except.ok (decide (c.rest.head?.map (·.token) = some t), c) = _
    rw [decide_eq_false other]
  exact agrees_then missing next

theorem agrees_eaten {p q : Parser β} (split : c.rest = ⟨t, place⟩ :: rest)
    (next : Agrees deep (p (c.past [⟨t, place⟩] rest)) r) :
    Agrees deep ((eat t >>= fun eaten => if eaten then p else q) c) r := by
  have eaten : Agrees False (eat t c) (.ok (true, c.past [⟨t, place⟩] rest)) :=
    agrees_found split (agrees_token split (.same rfl))
  exact agrees_then (eaten.2 not_false) next

theorem agrees_uneaten {p q : Parser β} (other : c.rest.head?.map (·.token) ≠ some t)
    (next : Agrees deep (q c) r) :
    Agrees deep ((eat t >>= fun eaten => if eaten then p else q) c) r := by
  have uneaten : Agrees False (eat t c) (.ok (false, c)) :=
    agrees_missing other (.same rfl)
  exact agrees_then (uneaten.2 not_false) next

theorem expectSymbol_eq {s : Symbol} (split : c.rest = ⟨.symbol s, place⟩ :: rest) :
    expectSymbol s c = .ok (place, c.past [⟨.symbol s, place⟩] rest) := by
  have found : Agrees False (expectSymbol s c) (.ok (place, c.past [⟨.symbol s, place⟩] rest)) :=
    agrees_found split (.same (advance_eq split))
  exact found.2 not_false

theorem expectKeyword_eq {k : Keyword} (split : c.rest = ⟨.keyword k, place⟩ :: rest) :
    expectKeyword k c = .ok (place, c.past [⟨.keyword k, place⟩] rest) := by
  have found : Agrees False (expectKeyword k c) (.ok (place, c.past [⟨.keyword k, place⟩] rest)) :=
    agrees_found split (.same (advance_eq split))
  exact found.2 not_false

theorem agrees_symbol {s : Symbol} {f : Unit → Parser β}
    (split : c.rest = ⟨.symbol s, place⟩ :: rest)
    (next : Agrees deep (f () (c.past [⟨.symbol s, place⟩] rest)) r) :
    Agrees deep ((discard (expectSymbol s) >>= f) c) r :=
  agrees_then (discard_eq (expectSymbol_eq split)) next

theorem expectIdent_eq {name : String} (split : c.rest = ⟨.ident name, place⟩ :: rest) :
    expectIdent c = .ok ((name, place), c.past [⟨.ident name, place⟩] rest) := by
  have found : Agrees False (expectIdent c)
      (.ok ((name, place), c.past [⟨.ident name, place⟩] rest)) := by
    refine agrees_peek ?_
    rw [split]
    exact agrees_then (advance_eq split) (.same rfl)
  exact found.2 not_false

end

end Parser

/-! ## What stops an expression -/

namespace Grammar

/-- The number of the layer at which a token continues an expression that stands
before it. -/
def strength : Token → Option Nat
  | .symbol .lParen => some 0
  | .symbol .lBracket => some 1
  | .symbol .star | .symbol .slash | .symbol .percent => some 2
  | .symbol .plus | .symbol .minus => some 3
  | .symbol .eqEq | .symbol .notEq | .symbol .lt | .symbol .ltEq | .symbol .gt | .symbol .gtEq =>
    some 4
  | .keyword .andWord => some 5
  | .keyword .orWord => some 6
  | _ => none

def Layer.rank : Layer → Nat
  | .primary => 0
  | .postfixed | .signed => 1
  | .chain .product => 2
  | .chain .sum => 3
  | .comparison | .negation => 4
  | .chain .and => 5
  | .chain .or => 6

/-- What follows does not continue an expression of the layer. -/
def Layer.Stops (layer : Layer) (rest : List Lexeme) : Prop :=
  ∀ l ∈ rest.head?, ∀ k, strength l.token = some k → layer.rank < k

variable {layer layer' : Layer} {rest : List Lexeme} {l : Lexeme} {t : Token} {op : BinOp}

theorem Layer.Stops.mono (stops : layer.Stops rest) (tighter : layer'.rank ≤ layer.rank) :
    layer'.Stops rest :=
  fun l next k found => Nat.lt_of_le_of_lt tighter (stops l next k found)

theorem Layer.stops_of_strength (layer : Layer) (neutral : strength l.token = none) :
    layer.Stops (l :: rest) := by
  rintro _ ⟨⟩ k found
  rw [neutral] at found
  cases found

theorem Layer.stops_of_lt {k : Nat} (found : strength l.token = some k) (tighter : layer.rank < k) :
    layer.Stops (l :: rest) := by
  rintro _ ⟨⟩ k' found'
  rw [found] at found'
  cases found'
  exact tighter

theorem Join.strength_of_operator {j : Join} (found : j.operator t = some op) :
    strength t = some (Layer.chain j).rank := by
  cases j <;> simp only [Join.operator] at found <;> split at found <;> first | rfl | cases found

theorem strength_of_comparison (found : comparison? t = some op) :
    strength t = some Layer.comparison.rank := by
  unfold comparison? at found
  split at found <;> first | rfl | cases found

theorem Join.rank_operand_lt (j : Join) : j.operand.rank < (Layer.chain j).rank := by
  cases j <;> decide

/-- An operator of this strength does not follow. -/
theorem Layer.Stops.operator_eq_none {operator : Token → Option BinOp} (stops : layer.Stops rest)
    (binds : ∀ {t op}, operator t = some op → strength t = some layer.rank) :
    (rest.head?.map (·.token)).bind operator = none := by
  cases rest with
  | nil => rfl
  | cons l rest =>
    cases found : operator l.token with
    | none => exact found
    | some op => exact absurd (stops l rfl _ (binds found)) (Nat.lt_irrefl _)

/-- The parser of a layer. -/
def Layer.parser (t : Parser.Tower) : Layer → Parser Expr
  | .chain .or => Parser.disjunction t
  | .chain .and => Parser.leftAssoc Parser.andOperator (Parser.negated t)
  | .negation => Parser.negated t
  | .comparison => Parser.compared t
  | .chain .sum => Parser.sum t
  | .chain .product => Parser.leftAssoc Parser.multiplicative (Parser.signed t)
  | .signed => Parser.signed t
  | .postfixed => Parser.indexed t.expr
  | .primary => Parser.primary t.expr

theorem Layer.parser_chain (t : Parser.Tower) (j : Join) :
    (Layer.chain j).parser t = Parser.leftAssoc j.operator (j.operand.parser t) := by
  cases j <;> rfl

end Grammar

/-! ## Repetitions and levels -/

section

open TraceLang.Parser

variable {α : Type} {d d' : Nat} {ls ls' : List Lexeme} {e e' : Expr} {start : Tower → Parser Expr}
  {loop : Tower → Nat → Expr → Parser Expr} {stop stop' : List Lexeme → Prop}

/-- A repetition that begins with `start` gets behind the lexemes with this value,
given the levels it needs, and has spent fewer turns than there are lexemes. -/
def Reaches (start : Tower → Parser Expr) (loop : Tower → Nat → Expr → Parser Expr)
    (stop : List Lexeme → Prop) (d : Nat) (ls : List Lexeme) (e : Expr) : Prop :=
  ∃ k, k < ls.length ∧ ∀ (n : Nat) (c : Cursor) (rest : List Lexeme),
    c.Inside → c.rest = ls ++ rest → stop rest →
      Agrees (n < d) (start (tower n) c) (loop (tower n) (c.count + 1 - k) e (c.past ls rest))

theorem Reaches.of_reads (first : Tower → Parser Expr) (nonempty : 0 < ls.length)
    (reads : ∀ n, (first (tower n)).Reads (n < d) ls e stop) :
    Reaches (fun t => do let left ← first t; loop t (← turns) left) loop stop d ls e :=
  ⟨0, nonempty, fun n c rest inside split stops =>
    agrees_last (reads n c rest inside split stops) (.same rfl)⟩

/-- One more turn. -/
theorem Reaches.step (reaches : Reaches start loop stop d ls e) (nonempty : 0 < ls'.length)
    (stops : ∀ rest, stop (ls' ++ rest))
    (turn : ∀ (n m : Nat) (c : Cursor) (rest : List Lexeme),
      c.Inside → c.rest = ls' ++ rest → stop rest →
        Agrees (n < d') (loop (tower n) (m + 1) e c) (loop (tower n) m e' (c.past ls' rest))) :
    Reaches start loop stop (max d d') (ls ++ ls') e' := by
  obtain ⟨k, short, reaches⟩ := reaches
  rw [Reaches, List.length_append]
  refine ⟨k + 1, by omega, fun n c rest inside split stops' => ?_⟩
  rw [List.append_assoc] at split
  have before := reaches n c (ls' ++ rest) inside split (stops rest)
  -- fewer turns are spent than lexemes are read, and there are no more of these than `count`
  have enough : c.count + 1 - k = (c.count + 1 - (k + 1)) + 1 := by
    unfold Cursor.Inside at inside
    rw [split, List.length_append] at inside
    omega
  rw [enough] at before
  have after := turn n (c.count + 1 - (k + 1)) _ rest (inside.past split) rfl stops'
  rw [Cursor.past_past] at after
  rw [lt_max_iff]
  exact before.trans after

/-- The repetition ends where nothing continues it. -/
theorem Reaches.reads (reaches : Reaches start loop stop d ls e)
    (weaker : ∀ rest, stop' rest → stop rest)
    (ends : ∀ (n m : Nat) (c : Cursor), stop' c.rest → loop (tower n) m e c = .ok (e, c)) (n : Nat) :
    (start (tower n)).Reads (n < d) ls e stop' := by
  obtain ⟨k, -, reaches⟩ := reaches
  intro c rest inside split stops
  exact (reaches n c rest inside split (weaker rest stops)).trans_eq (ends n _ _ stops)

/-- A parser that opens a level needs one level more than what it opens. -/
theorem reads_of_level {a : α} (outer inner : Tower → Parser α) (zero : outer (tower 0) = tooDeep)
    (succ : ∀ n, outer (tower (n + 1)) = inner (tower n))
    (reads : ∀ n, (inner (tower n)).Reads (n < d) ls a stop) (n : Nat) :
    (outer (tower n)).Reads (n < d + 1) ls a stop := by
  intro c rest inside split stops
  cases n with
  | zero =>
    rw [zero]
    exact ⟨fun _ => ⟨c.here, rfl⟩, fun shallow => absurd (Nat.succ_pos d) shallow⟩
  | succ n =>
    rw [succ, Nat.succ_lt_succ_iff]
    exact reads n c rest inside split stops

end

/-! ## Expressions -/

namespace Grammar

open TraceLang.Parser

variable {d d' : Nat} {ls ls' : List Lexeme} {e left right : Expr} {es : List Expr}

/-- With `d` levels or more the parser of the layer recognizes the expression. Where it
repeats, this is said of the repetition. -/
def Layer.Recognizes (layer : Layer) (d : Nat) (ls : List Lexeme) (e : Expr) : Prop :=
  match layer with
  | .chain j =>
    Reaches (fun t => leftAssoc j.operator (j.operand.parser t))
      (fun t => Parser.chain j.operator (j.operand.parser t)) j.operand.Stops d ls e
  | .postfixed =>
    Reaches (fun t => indexed t.expr) (fun t => indices t.expr) Layer.primary.Stops d ls e
  | layer => ∀ n, (layer.parser (tower n)).Reads (n < d) ls e layer.Stops

theorem recognizes_chain {j : Join} : (Layer.chain j).Recognizes d ls e ↔
    Reaches (fun t => leftAssoc j.operator (j.operand.parser t))
      (fun t => chain j.operator (j.operand.parser t)) j.operand.Stops d ls e :=
  Iff.rfl

theorem recognizes_postfixed : Layer.postfixed.Recognizes d ls e ↔
    Reaches (fun t => indexed t.expr) (fun t => indices t.expr) Layer.primary.Stops d ls e :=
  Iff.rfl

theorem chain_ends {operator : Token → Option BinOp} {operand : Parser Expr} {c : Cursor}
    (ends : (c.rest.head?.map (·.token)).bind operator = none) (m : Nat) (e : Expr) :
    chain operator operand m e c = .ok (e, c) := by
  cases m with
  | zero => rfl
  | succ m =>
    have agrees : Agrees False (chain operator operand (m + 1) e c) (.ok (e, c)) := by
      rw [chain]
      refine agrees_peek ?_
      rw [ends]
      exact .same rfl
    exact agrees.2 not_false

theorem indices_ends {expr : Parser Expr} {c : Cursor}
    (ends : c.rest.head?.map (·.token) ≠ some (.symbol .lBracket)) (m : Nat) (e : Expr) :
    indices expr m e c = .ok (e, c) := by
  cases m with
  | zero => rfl
  | succ m =>
    have agrees : Agrees False (indices expr (m + 1) e c) (.ok (e, c)) :=
      agrees_uneaten ends (.same rfl)
    exact agrees.2 not_false

/-- A token that would continue the expression does not follow. -/
theorem Layer.Stops.ne_of_strength {layer : Layer} {rest : List Lexeme} {t : Token} {k : Nat}
    (stops : layer.Stops rest) (found : strength t = some k) (weaker : k ≤ layer.rank) :
    rest.head?.map (·.token) ≠ some t := by
  intro next
  obtain ⟨l, first, rfl⟩ := Option.map_eq_some_iff.mp next
  exact absurd (stops l first k found) (Nat.not_lt.mpr weaker)

theorem Layer.Recognizes.reads {layer : Layer} (recognized : layer.Recognizes d ls e) (n : Nat) :
    (layer.parser (tower n)).Reads (n < d) ls e layer.Stops := by
  cases layer with
  | chain j =>
    rw [Layer.parser_chain]
    refine (recognizes_chain.mp recognized).reads (fun rest stops => ?_) (fun n m c stops => ?_) n
    · exact stops.mono (Nat.le_of_lt j.rank_operand_lt)
    · exact chain_ends (stops.operator_eq_none Join.strength_of_operator) m e
  | postfixed =>
    refine (recognizes_postfixed.mp recognized).reads (fun rest stops => ?_) (fun n m c stops => ?_) n
    · exact stops.mono (by decide)
    · exact indices_ends (stops.ne_of_strength rfl (by decide)) m e
  | negation | comparison | signed | primary => exact recognized n

theorem Layer.stops_nil (layer : Layer) : layer.Stops [] := by
  rintro _ ⟨⟩

/-- The lexemes of an expression decide how many levels it needs. -/
theorem Layer.Recognizes.unique {layer : Layer} {e' : Expr} (first : layer.Recognizes d ls e)
    (second : layer.Recognizes d' ls e') : d = d' :=
  eq_of_forall_lt_iff fun n => (first.reads n).deep_iff (second.reads n) layer.stops_nil

theorem expr_reads (recognized : Layer.whole.Recognizes d ls e) (n : Nat) :
    (tower n).expr.Reads (n < d + 1) ls e Layer.whole.Stops :=
  reads_of_level Tower.expr disjunction rfl (fun _ => rfl) recognized.reads n

theorem recognizes_operand {j : Join} (nonempty : 0 < ls.length)
    (inner : j.operand.Recognizes d ls e) : (Layer.chain j).Recognizes d ls e :=
  recognizes_chain.mpr (Reaches.of_reads j.operand.parser nonempty inner.reads)

theorem recognizes_joined {j : Join} {t : Lexeme} {op : BinOp}
    (ofLeft : (Layer.chain j).Recognizes d ls left) (operator : j.operator t.token = some op)
    (ofRight : j.operand.Recognizes d' ls' right) :
    (Layer.chain j).Recognizes (max d d') (ls ++ t :: ls') (joined op left right) := by
  have stops (rest : List Lexeme) : j.operand.Stops (t :: ls' ++ rest) :=
    Layer.stops_of_lt (Join.strength_of_operator operator) j.rank_operand_lt
  rw [recognizes_chain] at ofLeft ⊢
  refine ofLeft.step (Nat.succ_pos _) stops fun n m c rest inside split stops' => ?_
  have next : (c.rest.head?.map (·.token)).bind j.operator = some op := by
    rw [split]
    exact operator
  rw [chain]
  refine agrees_peek ?_
  rw [next]
  exact agrees_token split
    (agrees_last (ofRight.reads n _ rest (inside.token split) rfl stops') (.same rfl))

/-- The first token of an expression is not one with which none begins. -/
theorem Expression.head_ne {layer : Layer} {t : Token} {c : Cursor} {rest : List Lexeme}
    (derived : Expression layer ls e) (split : c.rest = ls ++ rest) (never : layer.starts t = false) :
    c.rest.head?.map (·.token) ≠ some t := by
  obtain ⟨l, others, rfl, starts⟩ := derived.starts
  rw [split]
  rintro ⟨⟩
  rw [never] at starts
  cases starts

/-- An operator before its operand. -/
theorem unary_reads {t : Token} {place : Span} {op : UnOp} {operand other : Parser Expr}
    {deep : Prop} {stop : List Lexeme → Prop} (reads : operand.Reads deep ls e stop) :
    (do
      if ← check t then
        let start ← advance
        let e ← operand
        return .unary (start.merge e.span) op e
      else other : Parser Expr).Reads deep (⟨t, place⟩ :: ls)
        (.unary (place.merge e.span) op e) stop := by
  intro c rest inside split stops
  refine agrees_found split (agrees_then (advance_eq split) ?_)
  refine agrees_last (reads _ rest (inside.token split) rfl stops) (.same ?_)
  rw [Cursor.past_past]
  rfl

theorem recognizes_not {place : Span} (inner : Layer.negation.Recognizes d ls e) :
    Layer.negation.Recognizes (d + 1) (⟨.keyword .notWord, place⟩ :: ls)
      (.unary (place.merge e.span) .not e) :=
  fun n => unary_reads (reads_of_level Tower.notOperand negated rfl (fun _ => rfl) inner n)

theorem recognizes_positive (derived : Expression .comparison ls e)
    (inner : Layer.comparison.Recognizes d ls e) : Layer.negation.Recognizes d ls e :=
  fun n c rest inside split stops =>
    agrees_missing (derived.head_ne split rfl) (inner n c rest inside split stops)

theorem recognizes_compared {t : Lexeme} {op : BinOp}
    (ofLeft : (Layer.chain .sum).Recognizes d ls left)
    (operator : comparison? t.token = some op)
    (ofRight : (Layer.chain .sum).Recognizes d' ls' right) :
    Layer.comparison.Recognizes (max d d') (ls ++ t :: ls') (joined op left right) := by
  intro n c rest inside split stops
  rw [lt_max_iff]
  rw [List.append_assoc] at split
  have stopsLeft : (Layer.chain .sum).Stops (t :: ls' ++ rest) :=
    Layer.stops_of_lt (strength_of_comparison operator) (by decide)
  refine agrees_bind (ofLeft.reads n c _ inside split stopsLeft) (agrees_peek ?_)
  have next : ((c.past ls (t :: ls' ++ rest)).rest.head?.map (·.token)).bind comparison = some op :=
    operator
  rw [next]
  refine agrees_token rfl ?_
  have inside' : (Cursor.past _ [t] (ls' ++ rest)).Inside := (inside.past split).token rfl
  refine agrees_last (ofRight.reads n _ rest inside' rfl (stops.mono (by decide))) (.same ?_)
  simp only [Cursor.past_past, List.append_assoc]
  rfl

theorem recognizes_uncompared (inner : (Layer.chain .sum).Recognizes d ls e) :
    Layer.comparison.Recognizes d ls e := by
  intro n c rest inside split stops
  have ends : ((c.past ls rest).rest.head?.map (·.token)).bind comparison = none :=
    stops.operator_eq_none strength_of_comparison
  refine agrees_last (inner.reads n c rest inside split (stops.mono (by decide))) (agrees_peek ?_)
  rw [ends]
  exact .same rfl

theorem recognizes_minus {place : Span} (inner : Layer.signed.Recognizes d ls e) :
    Layer.signed.Recognizes (d + 1) (⟨.symbol .minus, place⟩ :: ls)
      (.unary (place.merge e.span) .neg e) :=
  fun n => unary_reads (reads_of_level Tower.minusOperand signed rfl (fun _ => rfl) inner n)

theorem recognizes_unsigned (derived : Expression .postfixed ls e)
    (inner : Layer.postfixed.Recognizes d ls e) : Layer.signed.Recognizes d ls e :=
  fun n c rest inside split stops =>
    agrees_missing (derived.head_ne split rfl) (inner.reads n c rest inside split stops)

theorem recognizes_indexed {opened closed : Span} {base position : Expr}
    (ofBase : Layer.postfixed.Recognizes d ls base)
    (ofPosition : Layer.whole.Recognizes d' ls' position) :
    Layer.postfixed.Recognizes (max d (d' + 1))
      (ls ++ ⟨.symbol .lBracket, opened⟩ :: ls' ++ [⟨.symbol .rBracket, closed⟩])
      (.index (base.span.merge closed) base position) := by
  have stops (rest : List Lexeme) : Layer.primary.Stops
      (⟨.symbol .lBracket, opened⟩ :: ls' ++ [⟨.symbol .rBracket, closed⟩] ++ rest) :=
    Layer.stops_of_lt rfl (by decide)
  rw [recognizes_postfixed] at ofBase ⊢
  rw [List.append_assoc]
  refine ofBase.step (Nat.succ_pos _) stops fun n m c rest inside split _ => ?_
  simp only [List.cons_append, List.append_assoc, List.nil_append] at split
  refine agrees_eaten split ?_
  have reads := expr_reads ofPosition n _ (⟨.symbol .rBracket, closed⟩ :: rest)
    (inside.token split) rfl (Layer.stops_of_strength _ rfl)
  refine agrees_last reads (agrees_then (expectSymbol_eq rfl) (.same ?_))
  simp only [Cursor.past_past, List.append_assoc]
  rfl

theorem recognizes_unindexed (nonempty : 0 < ls.length) (inner : Layer.primary.Recognizes d ls e) :
    Layer.postfixed.Recognizes d ls e :=
  recognizes_postfixed.mpr
    (Reaches.of_reads (fun t => primary t.expr) nonempty inner)

theorem recognizes_literal {t : Token} {place : Span} (is : Literal place t e) :
    Layer.primary.Recognizes 0 [⟨t, place⟩] e := by
  rintro n ⟨_, last, size, count⟩ rest - ⟨⟩ -
  cases is <;> exact .of_eq (Nat.not_lt_zero n) rfl

theorem recognizes_var {place : Span} {name : String} :
    Layer.primary.Recognizes 0 [⟨.ident name, place⟩] (.var place name) := by
  rintro n ⟨_, last, size, count⟩ rest - ⟨⟩ stops
  have other : rest.head?.map (·.token) ≠ some (.symbol .lParen) :=
    stops.ne_of_strength rfl (by decide)
  refine agrees_here (agrees_peek (agrees_peekSecond (agrees_token rfl ?_)))
  exact agrees_if_neg other (.of_eq (Nat.not_lt_zero n) rfl)

/-- The expressions between commas are read, if neither a comma nor anything that
continues the last one follows. -/
def ItemsRead (d : Nat) (ls : List Lexeme) (es : List Expr) : Prop :=
  ∀ n m found, ls.length ≤ m →
    (moreItems (tower n).expr m found).Reads (n < d) ls (found.reverse ++ es)
      fun rest => Layer.whole.Stops rest ∧ rest.head?.map (·.token) ≠ some (.symbol .comma)

theorem itemsRead_one (nonempty : 0 < ls.length) (inner : Layer.whole.Recognizes d ls e) :
    ItemsRead (d + 1) ls [e] := by
  intro n m found enough c rest inside split stops
  obtain ⟨m, rfl⟩ : ∃ m', m = m' + 1 := ⟨m - 1, by omega⟩
  have reads := expr_reads inner n c rest inside split stops.1
  refine agrees_last reads (agrees_uneaten stops.2 (.same ?_))
  rw [List.reverse_cons]
  rfl

theorem itemsRead_more {place : Span} (nonempty : 0 < ls.length)
    (first : Layer.whole.Recognizes d ls e) (others : ItemsRead d' ls' es) :
    ItemsRead (max (d + 1) d') (ls ++ ⟨.symbol .comma, place⟩ :: ls') (e :: es) := by
  intro n m found enough c rest inside split stops
  rw [List.length_append, List.length_cons] at enough
  rw [List.append_assoc] at split
  rw [lt_max_iff]
  obtain ⟨m, rfl⟩ : ∃ m', m = m' + 1 := ⟨m - 1, by omega⟩
  have reads := expr_reads first n c _ inside split (Layer.stops_of_strength _ rfl)
  refine agrees_bind reads (agrees_eaten rfl ?_)
  have inside' : (Cursor.past _ [⟨.symbol .comma, place⟩] (ls' ++ rest)).Inside :=
    (inside.past split).token rfl
  refine (others n m (e :: found) (by omega) _ rest inside' rfl stops).trans_eq ?_
  simp

/-- The expressions up to a closing symbol are read with it. -/
def ClosedRead (close : Symbol) (d : Nat) (ls : List Lexeme) (es : List Expr) (closed : Span) :
    Prop :=
  ∀ n, (itemsUntil (tower n).expr close).Reads (n < d) ls (es, closed) fun _ => True

theorem closedRead_empty {close : Symbol} {closed : Span} :
    ClosedRead close 0 [⟨.symbol close, closed⟩] [] closed := by
  intro n c rest inside split _
  refine agrees_found split (agrees_then rfl ?_)
  exact agrees_then (expectSymbol_eq split) (.of_eq (Nat.not_lt_zero n) rfl)

theorem Items.head_ne {t : Token} {c : Cursor} {rest : List Lexeme} (derived : Items ls es)
    (split : c.rest = ls ++ rest) (never : Layer.whole.starts t = false) :
    c.rest.head?.map (·.token) ≠ some t := by
  cases derived with
  | one inner => exact inner.head_ne split never
  | more first others =>
    rw [List.append_assoc] at split
    exact first.head_ne split never

theorem closedRead_items {close : Symbol} {closed : Span}
    (closing : close = .rParen ∨ close = .rBracket) (derived : Items ls es)
    (inner : ItemsRead d ls es) :
    ClosedRead close d (ls ++ [⟨.symbol close, closed⟩]) es closed := by
  intro n c rest inside split _
  rw [List.append_assoc] at split
  have never : Layer.whole.starts (.symbol close) = false := by
    rcases closing with rfl | rfl <;> rfl
  have neutral : strength (.symbol close) = none := by
    rcases closing with rfl | rfl <;> rfl
  have noComma : (Token.symbol close) ≠ .symbol .comma := by
    rcases closing with rfl | rfl <;> decide
  refine agrees_missing (derived.head_ne split never) (agrees_turns ?_)
  have reads := inner n (c.count + 1) [] (inside.length_le split) c _ inside split
    ⟨Layer.stops_of_strength _ neutral, by simpa using noComma⟩
  refine agrees_last reads (agrees_then (expectSymbol_eq rfl) (.same ?_))
  simp only [Cursor.past_past]
  rfl

theorem recognizes_call {place opened closed : Span} {name : String} {args : List Expr}
    (ofArgs : ClosedRead .rParen d ls args closed) :
    Layer.primary.Recognizes d (⟨.ident name, place⟩ :: ⟨.symbol .lParen, opened⟩ :: ls)
      (.call (place.merge closed) name args) := by
  rintro n ⟨_, last, size, count⟩ rest inside ⟨⟩ -
  refine agrees_here (agrees_peek (agrees_peekSecond (agrees_token rfl ?_)))
  refine agrees_token rfl ?_
  refine agrees_last (ofArgs n _ rest ((inside.token rfl).token rfl) rfl trivial) (.same ?_)
  simp only [Cursor.past_past]
  rfl

theorem recognizes_list {opened closed : Span} {items : List Expr}
    (ofItems : ClosedRead .rBracket d ls items closed) :
    Layer.primary.Recognizes d (⟨.symbol .lBracket, opened⟩ :: ls)
      (.list (opened.merge closed) items) := by
  rintro n ⟨_, last, size, count⟩ rest inside ⟨⟩ -
  refine agrees_here (agrees_peek (agrees_token rfl ?_))
  refine agrees_last (ofItems n _ rest (inside.token rfl) rfl trivial) (.same ?_)
  simp only [Cursor.past_past]
  rfl

theorem recognizes_paren {opened closed : Span} (inner : Layer.whole.Recognizes d ls e) :
    Layer.primary.Recognizes (d + 1)
      (⟨.symbol .lParen, opened⟩ :: ls ++ [⟨.symbol .rParen, closed⟩])
      (e.withSpan (opened.merge closed)) := by
  rintro n ⟨_, last, size, count⟩ rest inside split -
  simp only [List.cons_append, List.append_assoc, List.nil_append] at split
  subst split
  refine agrees_here (agrees_peek (agrees_token rfl ?_))
  have reads := expr_reads inner n _ (⟨.symbol .rParen, closed⟩ :: rest) (inside.token rfl) rfl
    (Layer.stops_of_strength _ rfl)
  refine agrees_last reads (agrees_then (expectSymbol_eq rfl) (.same ?_))
  simp only [Cursor.past_past]
  rfl

mutual

/-- Every expression is recognized, one case for each rule. -/
theorem Expression.recognized {layer : Layer} {ls : List Lexeme} {e : Expr} :
    Expression layer ls e → ∃ d ≤ ls.length, layer.Recognizes d ls e
  | .operand inner => by
    obtain ⟨d, short, recognized⟩ := inner.recognized
    exact ⟨d, short, recognizes_operand inner.length_pos recognized⟩
  | .joined ofLeft operator ofRight => by
    obtain ⟨d, short, left⟩ := ofLeft.recognized
    obtain ⟨d', short', right⟩ := ofRight.recognized
    refine ⟨max d d', ?_, recognizes_joined left operator right⟩
    simp only [List.length_append, List.length_cons]
    omega
  | .not inner => by
    obtain ⟨d, short, recognized⟩ := inner.recognized
    exact ⟨d + 1, Nat.succ_le_succ short, recognizes_not recognized⟩
  | .positive inner => by
    obtain ⟨d, short, recognized⟩ := inner.recognized
    exact ⟨d, short, recognizes_positive inner recognized⟩
  | .compared ofLeft operator ofRight => by
    obtain ⟨d, short, left⟩ := ofLeft.recognized
    obtain ⟨d', short', right⟩ := ofRight.recognized
    refine ⟨max d d', ?_, recognizes_compared left operator right⟩
    simp only [List.length_append, List.length_cons]
    omega
  | .uncompared inner => by
    obtain ⟨d, short, recognized⟩ := inner.recognized
    exact ⟨d, short, recognizes_uncompared recognized⟩
  | .minus inner => by
    obtain ⟨d, short, recognized⟩ := inner.recognized
    exact ⟨d + 1, Nat.succ_le_succ short, recognizes_minus recognized⟩
  | .unsigned inner => by
    obtain ⟨d, short, recognized⟩ := inner.recognized
    exact ⟨d, short, recognizes_unsigned inner recognized⟩
  | .indexed ofBase ofPosition => by
    obtain ⟨d, short, base⟩ := ofBase.recognized
    obtain ⟨d', short', position⟩ := ofPosition.recognized
    refine ⟨max d (d' + 1), ?_, recognizes_indexed base position⟩
    simp only [List.length_append, List.length_cons, List.length_nil]
    omega
  | .unindexed inner => by
    obtain ⟨d, short, recognized⟩ := inner.recognized
    exact ⟨d, short, recognizes_unindexed inner.length_pos recognized⟩
  | .literal is => ⟨0, Nat.zero_le _, recognizes_literal is⟩
  | .var => ⟨0, Nat.zero_le _, recognizes_var⟩
  | .call ofArgs => by
    obtain ⟨d, short, read⟩ := ofArgs.read (.inl rfl)
    exact ⟨d, by simp only [List.length_cons]; omega, recognizes_call read⟩
  | .list ofItems => by
    obtain ⟨d, short, read⟩ := ofItems.read (.inr rfl)
    exact ⟨d, Nat.le_succ_of_le short, recognizes_list read⟩
  | .paren inner => by
    obtain ⟨d, short, recognized⟩ := inner.recognized
    refine ⟨d + 1, ?_, recognizes_paren recognized⟩
    simp only [List.length_append, List.length_cons]
    omega

theorem Items.read {ls : List Lexeme} {es : List Expr} :
    Items ls es → ∃ d ≤ ls.length + 1, ItemsRead d ls es
  | .one inner => by
    obtain ⟨d, short, recognized⟩ := inner.recognized
    exact ⟨d + 1, Nat.succ_le_succ short, itemsRead_one inner.length_pos recognized⟩
  | .more first others => by
    obtain ⟨d, short, recognized⟩ := first.recognized
    obtain ⟨d', short', read⟩ := others.read
    refine ⟨max (d + 1) d', ?_, itemsRead_more first.length_pos recognized read⟩
    simp only [List.length_append, List.length_cons]
    omega

theorem Closed.read {close : Symbol} {ls : List Lexeme} {es : List Expr} {closed : Span}
    (closing : close = .rParen ∨ close = .rBracket) :
    Closed close ls es closed → ∃ d ≤ ls.length, ClosedRead close d ls es closed
  | .empty => ⟨0, Nat.zero_le _, closedRead_empty⟩
  | .items inner => by
    obtain ⟨d, short, read⟩ := inner.read
    exact ⟨d, by simpa using short, closedRead_items closing inner read⟩

end

end Grammar

end TraceLang
