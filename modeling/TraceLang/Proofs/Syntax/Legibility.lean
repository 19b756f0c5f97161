/-
# TraceLang.Proofs.Syntax.Legibility — expressions that their texts show

The text of an expression has parentheses around an operand with an operator between two
operands, and nowhere else. That is enough for most expressions, but not for an index
behind an operator, and not for a negation under an operator that binds tighter.
`e.legible` says that neither occurs in `e`.

A legible expression is read from the tokens of its text, wherever they stand
(`Expr.written`). The proof follows the expression, one lemma for each of its shapes, and
counts the levels that the parser needs.
-/
import TraceLang.Proofs.Syntax.Derivation
import TraceLang.Proofs.Syntax.Rendering
import TraceLang.Proofs.Syntax.Spans

namespace TraceLang

set_option autoImplicit false

/-! ## Legible expressions -/

/-- The chain of operands in which an operator stands, unless it is a comparison. -/
def BinOp.join? : BinOp → Option Grammar.Join
  | .or => some .or
  | .and => some .and
  | .add | .sub => some .sum
  | .mul | .div | .mod => some .product
  | _ => none

/-- The operators that bind weaker than a negation. -/
def BinOp.isLogical : BinOp → Bool
  | .and | .or => true
  | _ => false

namespace Expr

/-- An operator stands outermost in the text. -/
def isCompound : Expr → Bool
  | .binary .. | .unary .. => true
  | _ => false

def isNegation : Expr → Bool
  | .unary _ .not _ => true
  | _ => false

mutual

/-- Where the text has no parentheses the grammar needs none. -/
def legible : Expr → Bool
  | .list _ items | .call _ _ items => itemsLegible items
  | .index _ base position => !base.isCompound && base.legible && position.legible
  | .binary _ op left right =>
    (op.isLogical || !left.isNegation && !right.isNegation) && left.legible && right.legible
  | .unary _ op operand => (op = .not || !operand.isNegation) && operand.legible
  | .default .. => false
  | _ => true

def itemsLegible : List Expr → Bool
  | [] => true
  | e :: rest => e.legible && itemsLegible rest

end

@[simp] theorem legible_withSpan (e : Expr) (s : Span) : (e.withSpan s).legible = e.legible := by
  cases e <;> simp [withSpan, legible]

mutual

/-- The number of expressions around the innermost one. -/
def height : Expr → Nat
  | .list _ items | .call _ _ items => itemsHeight items + 1
  | .index _ base position => max base.height position.height + 1
  | .binary _ _ left right => max left.height right.height + 1
  | .unary _ _ operand => operand.height + 1
  | _ => 0

def itemsHeight : List Expr → Nat
  | [] => 0
  | e :: rest => max e.height (itemsHeight rest)

end

/-- The tightest layer that has expressions of this shape. -/
def layer : Expr → Grammar.Layer
  | .binary _ op _ _ => (op.join?.map .chain).getD .comparison
  | .unary _ .not _ => .negation
  | .unary _ .neg _ => .signed
  | .index .. => .postfixed
  | _ => .primary

end Expr

/-! ## Legible expressions are read from their texts -/

namespace Grammar

variable {d d' : Nat} {ls ls' : List Lexeme} {ts ts' : List Token} {t : Token}
  {e left right base position : Expr} {es : List Expr} {op : BinOp} {name : String} {span : Span}

theorem operator_of_join {j : Join} (found : op.join? = some j) : j.operator op.token = some op := by
  cases op <;> cases found <;> rfl

theorem comparison_of_join (found : op.join? = none) : comparison? op.token = some op := by
  cases op <;> first | rfl | cases found

/-- The layers of the operands of an operator, on the left and on the right. -/
def sides (op : BinOp) : Layer × Layer :=
  (op.join?.map fun j => (.chain j, j.operand)).getD (.chain .sum, .chain .sum)

theorem Layer.Forms.binary {place : Span} (ofLeft : (sides op).1.Forms d ls left)
    (ofRight : (sides op).2.Forms d' ls' right) :
    (Grammar.joined op left right).layer.Forms (max d d') (ls ++ ⟨op.token, place⟩ :: ls')
      (Grammar.joined op left right) := by
  unfold sides at ofLeft ofRight
  simp only [Grammar.joined, Expr.layer]
  cases found : op.join? with
  | some j =>
    rw [found] at ofLeft ofRight
    exact Layer.Forms.joined ofLeft (operator_of_join found) ofRight
  | none =>
    rw [found] at ofLeft ofRight
    exact Layer.Forms.compared ofLeft (comparison_of_join found) ofRight

/-- The lexemes have these tokens. -/
def Spelled (ls : List Lexeme) (ts : List Token) : Prop :=
  ls.map (·.token) = ts

theorem Spelled.append (spelled : Spelled ls (ts ++ ts')) :
    ∃ xs ys, ls = xs ++ ys ∧ Spelled xs ts ∧ Spelled ys ts' :=
  List.map_eq_append_iff.mp spelled

theorem Spelled.cons (spelled : Spelled ls (t :: ts)) :
    ∃ place xs, ls = ⟨t, place⟩ :: xs ∧ Spelled xs ts := by
  obtain ⟨⟨_, place⟩, xs, rfl, rfl, rest⟩ := List.map_eq_cons_iff.mp spelled
  exact ⟨place, xs, rfl, rest⟩

theorem Spelled.singleton (spelled : Spelled ls [t]) : ∃ place, ls = [⟨t, place⟩] := by
  obtain ⟨place, xs, rfl, rest⟩ := spelled.cons
  obtain rfl := List.map_eq_nil_iff.mp rest
  exact ⟨place, rfl⟩

/-- Up to `d` levels are enough to read the expression, apart from places, in the layer. -/
def Layer.Writes (layer : Layer) (d : Nat) (ls : List Lexeme) (e : Expr) : Prop :=
  ∃ d' ≤ d, ∃ e', layer.Forms d' ls e' ∧ e'.bare = e.bare

theorem Layer.Writes.raise {layer layer' : Layer} (writes : layer.Writes d ls e)
    (tighter : layer.order ≤ layer'.order) : layer'.Writes d ls e := by
  obtain ⟨d', enough, e', forms, same⟩ := writes
  exact ⟨d', enough, e', forms.raise tighter, same⟩

/-- The levels that reading the expression from the tokens of its text takes at most.
Parentheses take a level, so one is left over for those around a binary operand. -/
def levels (e : Expr) : Nat :=
  e.height - if e.isBinary then 1 else 0

theorem levels_le (e : Expr) : levels e ≤ e.height :=
  Nat.sub_le _ _

/-- Wherever the tokens of its text stand, the expression is read. -/
def Written (e : Expr) : Prop :=
  ∀ ls, Spelled ls e.tokens → e.layer.Writes (levels e) ls e

/-- The layer of an expression as an operand. -/
def operandLayer (e : Expr) : Layer :=
  if e.isBinary then .primary else e.layer

theorem Written.enclosed (written : Written e) (spelled : Spelled ls (e.encloseTokens e.tokens)) :
    (operandLayer e).Writes e.height ls e := by
  unfold Expr.encloseTokens at spelled
  unfold operandLayer
  split
  · next binary =>
    rw [if_pos binary] at spelled
    obtain ⟨xs, ys, rfl, front, back⟩ := spelled.append
    obtain ⟨opened, zs, rfl, inner⟩ := front.cons
    obtain ⟨closed, rfl⟩ := back.singleton
    obtain ⟨d', enough, e', forms, same⟩ := written zs inner
    rw [levels, if_pos binary] at enough
    have positive : 0 < e.height := by
      cases e with
      | binary => simp [Expr.height]
      | _ => cases binary
    exact ⟨d' + 1, by omega, _, forms.whole.paren, by simpa using same⟩
  · next other =>
    rw [if_neg other] at spelled
    obtain ⟨d', enough, e', forms, same⟩ := written ls spelled
    exact ⟨d', Nat.le_trans enough (levels_le e), e', forms, same⟩

theorem order_operandLayer (e : Expr) : (operandLayer e).order ≤ Layer.negation.order := by
  cases e with
  | unary span op operand =>
    cases op <;> simp [operandLayer, Expr.isBinary, Expr.layer, Layer.order]
  | _ => simp [operandLayer, Expr.isBinary, Expr.layer, Layer.order]

theorem order_of_not_negation (other : e.isNegation = false) :
    (operandLayer e).order ≤ Layer.signed.order := by
  cases e with
  | unary span op operand =>
    cases op with
    | neg => simp [operandLayer, Expr.isBinary, Expr.layer, Layer.order]
    | not => cases other
  | _ => simp [operandLayer, Expr.isBinary, Expr.layer, Layer.order]

theorem order_of_not_compound (simple : e.isCompound = false) :
    e.layer.order ≤ Layer.postfixed.order := by
  cases e with
  | binary | unary => cases simple
  | _ => simp [Expr.layer, Layer.order]

theorem order_sides (fits : op.isLogical ∨ e.isNegation = false) :
    (operandLayer e).order ≤ (sides op).1.order ∧ (operandLayer e).order ≤ (sides op).2.order := by
  rcases fits with logical | other
  · have bound := order_operandLayer e
    have weak : Layer.negation.order ≤ (sides op).1.order ∧
        Layer.negation.order ≤ (sides op).2.order := by
      cases op <;> first | decide | cases logical
    omega
  · have bound := order_of_not_negation other
    have weak : Layer.signed.order ≤ (sides op).1.order ∧
        Layer.signed.order ≤ (sides op).2.order := by
      cases op <;> decide
    omega

theorem written_literal (is : Literal span t e) : Written e := by
  intro ls spelled
  rw [is.tokens_eq] at spelled
  obtain ⟨place, rfl⟩ := spelled.singleton
  obtain ⟨e', is', same⟩ := is.relocate place
  have tight : e.layer = .primary := by cases is <;> rfl
  rw [tight]
  exact ⟨0, Nat.zero_le _, e', ⟨.literal is', recognizes_literal is'⟩, same⟩

theorem written_var : Written (.var span name) := by
  intro ls spelled
  rw [Expr.tokens] at spelled
  obtain ⟨place, rfl⟩ := spelled.singleton
  exact ⟨0, Nat.zero_le _, _, ⟨.var, recognizes_var⟩, by simp [Expr.bare]⟩

theorem written_index (ofBase : Written base) (ofPosition : Written position)
    (simple : base.isCompound = false) : Written (.index span base position) := by
  intro ls spelled
  rw [Expr.tokens] at spelled
  obtain ⟨_, _, rfl, front, back⟩ := spelled.append
  obtain ⟨xs, _, rfl, first, second⟩ := front.append
  obtain ⟨opened, ys, rfl, inner⟩ := second.cons
  obtain ⟨closed, rfl⟩ := back.singleton
  obtain ⟨d, enough, base', forms, same⟩ := (ofBase xs first).raise (order_of_not_compound simple)
  obtain ⟨d', enough', position', forms', same'⟩ := ofPosition ys inner
  refine ⟨max d (d' + 1), ?_, _, forms.indexed forms'.whole, by simp [Expr.bare, same, same']⟩
  have ofBase := levels_le base
  have ofPosition := levels_le position
  show _ ≤ (Expr.index span base position).height
  rw [Expr.height]
  omega

theorem written_binary (ofLeft : Written left) (ofRight : Written right)
    (fits : op.isLogical ∨ left.isNegation = false ∧ right.isNegation = false) :
    Written (.binary span op left right) := by
  intro ls spelled
  rw [Expr.tokens] at spelled
  obtain ⟨xs, _, rfl, first, second⟩ := spelled.append
  obtain ⟨place, ys, rfl, inner⟩ := second.cons
  have fitsLeft : op.isLogical ∨ left.isNegation = false := fits.imp_right And.left
  have fitsRight : op.isLogical ∨ right.isNegation = false := fits.imp_right And.right
  obtain ⟨d, enough, left', forms, same⟩ := (ofLeft.enclosed first).raise (order_sides fitsLeft).1
  obtain ⟨d', enough', right', forms', same'⟩ :=
    (ofRight.enclosed inner).raise (order_sides fitsRight).2
  refine ⟨max d d', ?_, _, forms.binary forms', by simp [joined, Expr.bare, same, same']⟩
  show _ ≤ (Expr.binary span op left right).height - 1
  rw [Expr.height]
  omega

theorem written_unary {op : UnOp} (ofOperand : Written e)
    (fits : op = .not ∨ e.isNegation = false) : Written (.unary span op e) := by
  intro ls spelled
  rw [Expr.tokens] at spelled
  obtain ⟨place, xs, rfl, inner⟩ := spelled.cons
  have writes := ofOperand.enclosed inner
  have room : levels (.unary span op e) = e.height + 1 := by
    rw [levels, Expr.height]
    rfl
  rw [room]
  cases op with
  | not =>
    obtain ⟨d, enough, e', forms, same⟩ := writes.raise (order_operandLayer e)
    exact ⟨d + 1, by omega, _, forms.not, by simp [Expr.bare, same]⟩
  | neg =>
    have other : e.isNegation = false := fits.resolve_left (by decide)
    obtain ⟨d, enough, e', forms, same⟩ := writes.raise (order_of_not_negation other)
    exact ⟨d + 1, by omega, _, forms.minus, by simp [Expr.bare, same]⟩

/-- Wherever the tokens of expressions between commas stand, the expressions are read. -/
def ItemsWritten (es : List Expr) : Prop :=
  ∀ ls, Spelled ls (Expr.itemsTokens es) → es = [] ∧ ls = [] ∨
    ∃ d ≤ Expr.itemsHeight es, ∃ es', Items ls es' ∧ ItemsRead (d + 1) ls es' ∧
      Expr.bareAll es' = Expr.bareAll es

theorem ItemsWritten.closed {close : Symbol} (written : ItemsWritten es)
    (closing : close = .rParen ∨ close = .rBracket)
    (spelled : Spelled ls (Expr.itemsTokens es ++ [.symbol close])) :
    ∃ d ≤ Expr.itemsHeight es + 1, ∃ es' closed, Closed close ls es' closed ∧
      ClosedRead close d ls es' closed ∧ Expr.bareAll es' = Expr.bareAll es := by
  obtain ⟨xs, _, rfl, front, back⟩ := spelled.append
  obtain ⟨closed, rfl⟩ := back.singleton
  rcases written xs front with ⟨rfl, rfl⟩ | ⟨d, enough, es', items, read, same⟩
  · exact ⟨0, Nat.zero_le _, [], closed, .empty, closedRead_empty, rfl⟩
  · exact ⟨d + 1, Nat.succ_le_succ enough, es', closed, .items items,
      closedRead_items closing items read, same⟩

theorem written_list (ofItems : ItemsWritten es) : Written (.list span es) := by
  intro ls spelled
  rw [Expr.tokens] at spelled
  obtain ⟨opened, xs, rfl, rest⟩ := spelled.cons
  obtain ⟨d, enough, es', closed, derived, read, same⟩ := ofItems.closed (.inr rfl) rest
  refine ⟨d, ?_, _, ⟨.list derived, recognizes_list read⟩, by simp [Expr.bare, same]⟩
  show d ≤ (Expr.list span es).height
  rw [Expr.height]
  exact enough

theorem written_call (ofArgs : ItemsWritten es) : Written (.call span name es) := by
  intro ls spelled
  rw [Expr.tokens] at spelled
  obtain ⟨place, _, rfl, rest⟩ := spelled.cons
  obtain ⟨opened, xs, rfl, inner⟩ := rest.cons
  obtain ⟨d, enough, es', closed, derived, read, same⟩ := ofArgs.closed (.inl rfl) inner
  refine ⟨d, ?_, _, ⟨.call derived, recognizes_call read⟩, by simp [Expr.bare, same]⟩
  show d ≤ (Expr.call span name es).height
  rw [Expr.height]
  exact enough

theorem itemsWritten_one (written : Written e) : ItemsWritten [e] := by
  intro ls spelled
  rw [Expr.itemsTokens] at spelled
  obtain ⟨d, enough, e', forms, same⟩ := written ls spelled
  have room := Nat.le_trans enough (levels_le e)
  refine .inr ⟨d, ?_, [e'], .one forms.whole.derived, ?_, by simp [Expr.bareAll, same]⟩
  · rw [Expr.itemsHeight]
    omega
  · exact itemsRead_one forms.derived.length_pos forms.whole.recognized

theorem itemsWritten_more {e' : Expr} (written : Written e) (others : ItemsWritten (e' :: es)) :
    ItemsWritten (e :: e' :: es) := by
  intro ls spelled
  rw [Expr.itemsTokens_more] at spelled
  obtain ⟨xs, _, rfl, first, second⟩ := spelled.append
  obtain ⟨comma, ys, rfl, rest⟩ := second.cons
  obtain ⟨d, enough, x, forms, same⟩ := written xs first
  have room := Nat.le_trans enough (levels_le e)
  rcases others ys rest with ⟨absent, -⟩ | ⟨d', enough', es', items, read, same'⟩
  · cases absent
  · refine .inr ⟨max d d', ?_, x :: es', .more forms.whole.derived items, ?_, ?_⟩
    · rw [Expr.itemsHeight]
      omega
    · rw [← Nat.add_max_add_right]
      exact itemsRead_more forms.derived.length_pos forms.whole.recognized read
    · rw [Expr.bareAll, Expr.bareAll, same, same']

end Grammar

namespace Expr

open Grammar

mutual

/-- A legible expression is read from the tokens of its text. -/
theorem written : (e : Expr) → e.legible → Written e
  | .int .., _ => written_literal .int
  | .float .., _ => written_literal .float
  | .bool _ true, _ => written_literal .yes
  | .bool _ false, _ => written_literal .no
  | .str .., _ => written_literal .str
  | .none _, _ => written_literal .none
  | .list _ items, legible => by
    rw [Expr.legible] at legible
    exact written_list (items_written items legible)
  | .var .., _ => written_var
  | .index _ base position, legible => by
    simp only [Expr.legible, Bool.and_eq_true, Bool.not_eq_true'] at legible
    exact written_index (base.written legible.1.2) (position.written legible.2) legible.1.1
  | .binary _ op left right, legible => by
    simp only [Expr.legible, Bool.and_eq_true, Bool.or_eq_true, Bool.not_eq_true'] at legible
    exact written_binary (left.written legible.1.2) (right.written legible.2) legible.1.1
  | .unary _ op operand, legible => by
    simp only [Expr.legible, Bool.and_eq_true, Bool.or_eq_true, Bool.not_eq_true',
      decide_eq_true_eq] at legible
    exact written_unary (operand.written legible.2) legible.1
  | .call _ _ args, legible => by
    rw [Expr.legible] at legible
    exact written_call (items_written args legible)

theorem items_written : (es : List Expr) → itemsLegible es → ItemsWritten es
  | [], _ => fun ls spelled => .inl ⟨rfl, List.map_eq_nil_iff.mp spelled⟩
  | [e], legible => by
    simp only [itemsLegible, Bool.and_eq_true] at legible
    exact itemsWritten_one (e.written legible.1)
  | e :: e' :: rest, legible => by
    rw [itemsLegible, Bool.and_eq_true] at legible
    exact itemsWritten_more (e.written legible.1) (items_written (e' :: rest) legible.2)

end

end Expr

end TraceLang
