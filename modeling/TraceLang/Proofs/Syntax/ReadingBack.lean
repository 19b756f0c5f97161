/-
# TraceLang.Proofs.Syntax.ReadingBack — which labels read back

An expression of a program is shown by its text, which can be read again. It is read as
the same expression exactly if the expression is legible (`readsBack_iff_legible`), so
that the labels of legible expressions tell them apart.

That only legible expressions read back is a matter of cutting tokens at the right place.
Apart from parentheses, the lexemes from which an expression was read are the tokens of
its text (`Expression.resembles`). Where both are the same tokens, the operators stand at
the same place, and so do the operands. The parentheses around an operand are then those
of its text (`Expression.reveals`), and the rules of the grammar ask no more of an
expression than that it is legible.
-/
import TraceLang.Proofs.Syntax.Legibility

namespace TraceLang

set_option autoImplicit false

/-! ## Parentheses -/

def Token.isParen : Token → Bool
  | .symbol .lParen | .symbol .rParen => true
  | _ => false

namespace Parens

/-- The tokens that are not parentheses. -/
def solid (ts : List Token) : List Token :=
  ts.filter (!·.isParen)

/-- How many more parentheses the tokens open than they close. -/
def depth (ts : List Token) : Int :=
  ts.count (.symbol .lParen) - ts.count (.symbol .rParen)

/-- The tokens in so many parentheses. -/
def wrap (n : Nat) (ts : List Token) : List Token :=
  List.replicate n (.symbol .lParen) ++ ts ++ List.replicate n (.symbol .rParen)

variable {as bs as' bs' : List Token} {t t' : Token}

@[simp] theorem solid_append (ts ts' : List Token) : solid (ts ++ ts') = solid ts ++ solid ts' :=
  List.filter_append ..

theorem solid_cons (t : Token) (ts : List Token) :
    solid (t :: ts) = if t.isParen then solid ts else t :: solid ts := by
  cases paren : t.isParen <;> simp [solid, paren]

@[simp] theorem depth_append (ts ts' : List Token) : depth (ts ++ ts') = depth ts + depth ts' := by
  simp only [depth, List.count_append]
  omega

theorem depth_cons (t : Token) (ts : List Token) : depth (t :: ts) = depth [t] + depth ts :=
  depth_append [t] ts

theorem depth_singleton (other : t.isParen = false) : depth [t] = 0 := by
  have opening : t ≠ .symbol .lParen := by rintro rfl; cases other
  have closing : t ≠ .symbol .rParen := by rintro rfl; cases other
  simp [depth, opening, closing]

theorem wrap_paren (n : Nat) (ts : List Token) :
    wrap n (.symbol .lParen :: ts ++ [.symbol .rParen]) = wrap (n + 1) ts := by
  rw [wrap, wrap, List.replicate_succ' (n := n), List.replicate_succ (n := n)]
  simp

/-- Two ways to cut tokens at one that is no parenthesis agree, if the tokens before it do
apart from parentheses. -/
theorem cut_unique (same : as ++ t :: bs = as' ++ t' :: bs') (before : solid as = solid as')
    (here : t.isParen = false) (here' : t'.isParen = false) : as = as' ∧ t = t' ∧ bs = bs' := by
  induction as generalizing as' with
  | nil =>
    cases as' with
    | nil => simpa using same
    | cons x as' =>
      obtain ⟨rfl, -⟩ : t = x ∧ _ := by simpa using same
      simp [solid, here] at before
  | cons x as ih =>
    cases as' with
    | nil =>
      obtain ⟨rfl, -⟩ : x = t' ∧ _ := by simpa using same
      simp [solid, here'] at before
    | cons y as' =>
      simp only [List.cons_append, List.cons.injEq] at same
      obtain ⟨rfl, same⟩ := same
      rw [solid_cons, solid_cons] at before
      have rest : solid as = solid as' := by
        split at before
        · exact before
        · simpa using before
      obtain ⟨rfl, rfl, rfl⟩ := ih same rest
      exact ⟨rfl, rfl, rfl⟩

/-- Two wrapped pieces that are the same token by token are wrapped equally often, if what
stands before the cut is balanced in both. -/
theorem wrap_unique {i j : Nat} (same : wrap i (as ++ t :: bs) = wrap j (as' ++ t' :: bs'))
    (before : solid as = solid as') (balanced : depth as = 0) (balanced' : depth as' = 0)
    (here : t.isParen = false) (here' : t'.isParen = false) :
    i = j ∧ as = as' ∧ t = t' ∧ bs = bs' := by
  have none (n : Nat) : solid (List.replicate n (.symbol .lParen)) = [] := by
    simp [solid, Token.isParen]
  have opened (n : Nat) : depth (List.replicate n (.symbol .lParen)) = n := by
    simp [depth, List.count_replicate]
  simp only [wrap, List.append_assoc, List.cons_append] at same
  rw [← List.append_assoc, ← List.append_assoc _ as'] at same
  obtain ⟨front, rfl, back⟩ := cut_unique same (by simp [none, before]) here here'
  have levels := congrArg depth front
  simp only [depth_append, opened, balanced, balanced'] at levels
  obtain rfl : i = j := by omega
  exact ⟨rfl, List.append_cancel_left front, rfl, List.append_cancel_right back⟩

end Parens

open Parens

/-! ## The lexemes of an expression and the tokens of its text -/

/-- The tokens are the same apart from parentheses, and open and close equally many. -/
structure Resembles (ts ts' : List Token) : Prop where
  solid_eq : solid ts = solid ts'
  depth_eq : depth ts = depth ts'

namespace Resembles

variable {ts ts' us us' : List Token}

theorem refl (ts : List Token) : Resembles ts ts :=
  ⟨rfl, rfl⟩

theorem append (first : Resembles ts ts') (second : Resembles us us') :
    Resembles (ts ++ us) (ts' ++ us') := by
  constructor
  · rw [solid_append, solid_append, first.solid_eq, second.solid_eq]
  · rw [depth_append, depth_append, first.depth_eq, second.depth_eq]

theorem cons (t : Token) (inner : Resembles ts ts') : Resembles (t :: ts) (t :: ts') :=
  (refl [t]).append inner

theorem paren (inner : Resembles ts ts') :
    Resembles (.symbol .lParen :: ts ++ [.symbol .rParen]) ts' := by
  constructor
  · have opening : solid (.symbol .lParen :: ts) = solid ts := rfl
    have closing : solid [.symbol .rParen] = [] := rfl
    rw [solid_append, opening, closing, List.append_nil, inner.solid_eq]
  · rw [depth_append, depth_cons, inner.depth_eq]
    show (1 : Int) + depth ts' + -1 = depth ts'
    omega

theorem symm (resembles : Resembles ts ts') : Resembles ts' ts :=
  ⟨resembles.solid_eq.symm, resembles.depth_eq.symm⟩

theorem trans (first : Resembles ts ts') (second : Resembles ts' us) : Resembles ts us :=
  ⟨first.solid_eq.trans second.solid_eq, first.depth_eq.trans second.depth_eq⟩

theorem enclose (resembles : Resembles ts ts') (e : Expr) : Resembles ts (e.encloseTokens ts') := by
  unfold Expr.encloseTokens
  split
  · exact resembles.trans (refl ts').paren.symm
  · exact resembles

end Resembles

namespace Expr

mutual

/-- In the text of an expression every parenthesis is closed. -/
theorem depth_tokens : (e : Expr) → depth e.tokens = 0
  | .int .. | .float .. | .bool .. | .str .. | .none .. | .var .. => by
    rw [tokens]
    exact depth_singleton rfl
  | .list _ items => by
    rw [tokens, depth_append, depth_cons, items_depth items]
    rfl
  | .index _ base position => by
    rw [tokens, depth_append, depth_append, depth_cons, base.depth_tokens, position.depth_tokens]
    rfl
  | .binary _ op left right => by
    have ofLeft := ((Resembles.refl left.tokens).enclose left).depth_eq
    have ofRight := ((Resembles.refl right.tokens).enclose right).depth_eq
    have operator : depth [op.token] = 0 := depth_singleton (by cases op <;> rfl)
    rw [tokens, depth_append, depth_cons, ← ofLeft, ← ofRight, left.depth_tokens,
      right.depth_tokens, operator]
    rfl
  | .unary _ op operand => by
    have ofOperand := ((Resembles.refl operand.tokens).enclose operand).depth_eq
    have operator : depth [op.token] = 0 := depth_singleton (by cases op <;> rfl)
    rw [tokens, depth_cons, ← ofOperand, operand.depth_tokens, operator]
    rfl
  | .call _ name args => by
    have named : depth [.ident name] = 0 := depth_singleton rfl
    rw [tokens, depth_append, depth_cons (.ident name), depth_cons (.symbol .lParen),
      items_depth args, named]
    rfl
  | .default _ ty => by
    rw [tokens]
    cases ty <;> decide

theorem items_depth : (es : List Expr) → depth (itemsTokens es) = 0
  | [] => rfl
  | [e] => by
    rw [itemsTokens]
    exact e.depth_tokens
  | e :: e' :: rest => by
    rw [itemsTokens_more, depth_append, depth_cons, e.depth_tokens, items_depth (e' :: rest)]
    rfl

end

end Expr

namespace Grammar

variable {ls ls' : List Lexeme}

theorem token_of_operator {j : Join} {t : Token} {op : BinOp}
    (operator : j.operator t = some op) : t = op.token ∧ op.join? = some j := by
  cases j <;> simp only [Join.operator] at operator <;> split at operator <;>
    first | (cases operator; exact ⟨rfl, rfl⟩) | cases operator

theorem token_of_comparison {t : Token} {op : BinOp} (operator : comparison? t = some op) :
    t = op.token ∧ op.join? = none := by
  unfold comparison? at operator
  split at operator <;> first | (cases operator; exact ⟨rfl, rfl⟩) | cases operator

mutual

/-- Apart from parentheses, the lexemes of an expression are the tokens of its text. -/
theorem Expression.resembles {layer : Layer} {ls : List Lexeme} {e : Expr} :
    Expression layer ls e → Resembles (ls.map (·.token)) e.tokens
  | .operand inner | .positive inner | .uncompared inner | .unsigned inner | .unindexed inner =>
    inner.resembles
  | .joined ofLeft operator ofRight => by
    rw [List.map_append, List.map_cons, (token_of_operator operator).1, joined, Expr.tokens]
    exact (ofLeft.resembles.enclose _).append ((ofRight.resembles.enclose _).cons _)
  | .compared ofLeft operator ofRight => by
    rw [List.map_append, List.map_cons, (token_of_comparison operator).1, joined, Expr.tokens]
    exact (ofLeft.resembles.enclose _).append ((ofRight.resembles.enclose _).cons _)
  | .not inner | .minus inner => by
    rw [List.map_cons, Expr.tokens]
    exact (inner.resembles.enclose _).cons _
  | .indexed ofBase ofPosition => by
    rw [List.map_append, List.map_append, List.map_cons, Expr.tokens]
    exact (ofBase.resembles.append (ofPosition.resembles.cons _)).append (.refl _)
  | .literal is => by
    rw [is.tokens_eq]
    exact .refl _
  | .var => by
    rw [Expr.tokens]
    exact .refl _
  | .call ofArgs => by
    rw [List.map_cons, List.map_cons, Expr.tokens]
    exact (ofArgs.resembles.cons _).cons _
  | .list ofItems => by
    rw [List.map_cons, Expr.tokens]
    exact ofItems.resembles.cons _
  | .paren inner => by
    rw [List.map_append, List.map_cons, Expr.tokens_withSpan]
    exact inner.resembles.paren

theorem Items.resembles {ls : List Lexeme} {es : List Expr} :
    Items ls es → Resembles (ls.map (·.token)) (Expr.itemsTokens es)
  | .one inner => by
    rw [Expr.itemsTokens]
    exact inner.resembles
  | .more first others => by
    have ofFirst := first.resembles
    have ofOthers := others.resembles
    cases others with
    | one | more =>
      rw [List.map_append, List.map_cons, Expr.itemsTokens_more]
      exact ofFirst.append (ofOthers.cons _)

theorem Closed.resembles {close : Symbol} {ls : List Lexeme} {es : List Expr} {closed : Span} :
    Closed close ls es closed →
      Resembles (ls.map (·.token)) (Expr.itemsTokens es ++ [.symbol close])
  | .empty => .refl _
  | .items inner => by
    rw [List.map_append]
    exact inner.resembles.append (.refl _)

end

theorem Expression.depth_eq {layer : Layer} {e : Expr} (derived : Expression layer ls e) :
    depth (ls.map (·.token)) = 0 :=
  derived.resembles.depth_eq.trans e.depth_tokens

/-! ## What is read from its own text is legible -/

/-- If the lexemes are the tokens of the text of the expression, up to parentheses around
the one or the other, then the expression is legible, and what is left of the parentheses
stands in the text. Without any the expression is as tight as the layer asks. -/
def Layer.Reveals (layer : Layer) (ls : List Lexeme) (e : Expr) : Prop :=
  ∀ i j, wrap i (ls.map (·.token)) = wrap j e.tokens →
    e.legible ∧ i ≤ j ∧ (i = j → e.layer.order ≤ layer.order)

variable {layer layer' : Layer} {e left right : Expr} {op : BinOp}

theorem Layer.Reveals.raise (revealed : layer.Reveals ls e) (tighter : layer.order ≤ layer'.order) :
    layer'.Reveals ls e := by
  intro i j same
  obtain ⟨legible, fewer, tight⟩ := revealed i j same
  exact ⟨legible, fewer, fun bare => Nat.le_trans (tight bare) tighter⟩

theorem Layer.Reveals.bare (revealed : layer.Reveals ls e) (spelled : ls.map (·.token) = e.tokens) :
    e.legible ∧ e.layer.order ≤ layer.order := by
  have wrapped : wrap 0 (ls.map (·.token)) = wrap 0 e.tokens := by rw [spelled]
  obtain ⟨legible, -, tight⟩ := revealed 0 0 wrapped
  exact ⟨legible, tight rfl⟩

/-- An operand stands in parentheses as it does in the text, or is tight enough. -/
theorem Layer.Reveals.enclosed (revealed : layer.Reveals ls e)
    (spelled : ls.map (·.token) = e.encloseTokens e.tokens) :
    e.legible ∧ (e.isNegation → Layer.negation.order ≤ layer.order) := by
  unfold Expr.encloseTokens at spelled
  split at spelled
  · next binary =>
    have wrapped : wrap 0 (ls.map (·.token)) = wrap 1 e.tokens := by rw [spelled, ← wrap_paren]
    refine ⟨(revealed 0 1 wrapped).1, fun negation => ?_⟩
    cases e with
    | unary => cases binary
    | _ => cases negation
  · obtain ⟨legible, tight⟩ := revealed.bare spelled
    refine ⟨legible, fun negation => ?_⟩
    have order : e.layer = .negation := by
      cases e with
      | unary span op operand =>
        cases op with
        | not => rfl
        | neg => cases negation
      | _ => cases negation
    rw [← order]
    exact tight

/-- Where lexemes and text have a token that is no parenthesis, and what stands before it
is the same apart from parentheses, no further parentheses surround the one or the other. -/
theorem reveals_of_cut {as bs as' bs' : List Token} {t : Token}
    (lexemes : ls.map (·.token) = as ++ t :: bs) (text : e.tokens = as' ++ t :: bs')
    (before : Resembles as as') (balanced : depth as' = 0) (here : t.isParen = false)
    (tight : e.layer.order ≤ layer.order) (parts : as = as' → bs = bs' → e.legible) :
    layer.Reveals ls e := by
  intro i j same
  rw [lexemes, text] at same
  obtain ⟨rfl, front, -, back⟩ := wrap_unique same before.solid_eq (before.depth_eq.trans balanced)
    balanced here here
  exact ⟨parts front back, Nat.le_refl i, fun _ => tight⟩

theorem reveals_of_head {bs bs' : List Token} {t : Token} (lexemes : ls.map (·.token) = t :: bs)
    (text : e.tokens = t :: bs') (here : t.isParen = false) (tight : e.layer.order ≤ layer.order)
    (parts : bs = bs' → e.legible) : layer.Reveals ls e := by
  have cut : ls.map (·.token) = [] ++ t :: bs := lexemes
  have cut' : e.tokens = [] ++ t :: bs' := text
  exact reveals_of_cut cut cut' (.refl []) rfl here tight fun _ back => parts back

/-- The operands of an operator: only one of the weak operators has a negation beside it. -/
theorem reveals_binary {layer'' : Layer} {t : Lexeme} (ofLeft : Expression layer ls left)
    (revealsLeft : layer.Reveals ls left) (revealsRight : layer'.Reveals ls' right)
    (spelled : t.token = op.token) (tight : (joined op left right).layer.order ≤ layer''.order)
    (logical : Layer.negation.order ≤ layer.order ∨ Layer.negation.order ≤ layer'.order →
      op.isLogical) :
    layer''.Reveals (ls ++ t :: ls') (joined op left right) := by
  have operator : op.token.isParen = false := by cases op <;> rfl
  have before := ofLeft.resembles.enclose left
  have lexemes : (ls ++ t :: ls').map (·.token) =
      ls.map (·.token) ++ op.token :: ls'.map (·.token) := by
    rw [List.map_append, List.map_cons, spelled]
  refine reveals_of_cut lexemes (by rw [joined, Expr.tokens]) before ?_ operator tight
    fun front back => ?_
  · rw [← before.depth_eq, ofLeft.depth_eq]
  · obtain ⟨legibleLeft, negatedLeft⟩ := revealsLeft.enclosed front
    obtain ⟨legibleRight, negatedRight⟩ := revealsRight.enclosed back
    rw [joined, Expr.legible, legibleLeft, legibleRight]
    cases weak : op.isLogical with
    | true => rfl
    | false =>
      rw [weak] at logical
      have plainLeft : left.isNegation = false :=
        Bool.eq_false_iff.mpr fun negation => absurd (logical (.inl (negatedLeft negation))) Bool.false_ne_true
      have plainRight : right.isNegation = false :=
        Bool.eq_false_iff.mpr fun negation => absurd (logical (.inr (negatedRight negation))) Bool.false_ne_true
      rw [plainLeft, plainRight]
      rfl

theorem reveals_joined {j : Join} {t : Lexeme} (ofLeft : Expression (.chain j) ls left)
    (operator : j.operator t.token = some op) (revealsLeft : (Layer.chain j).Reveals ls left)
    (revealsRight : j.operand.Reveals ls' right) :
    (Layer.chain j).Reveals (ls ++ t :: ls') (joined op left right) := by
  obtain ⟨spelled, found⟩ := token_of_operator operator
  refine reveals_binary ofLeft revealsLeft revealsRight spelled ?_ fun weak => ?_
  · simp [joined, Expr.layer, found]
  · cases j with
    | or | and => cases op <;> first | rfl | cases found
    | sum | product => exact absurd weak (by decide)

theorem reveals_compared {t : Lexeme} (ofLeft : Expression (.chain .sum) ls left)
    (operator : comparison? t.token = some op) (revealsLeft : (Layer.chain .sum).Reveals ls left)
    (revealsRight : (Layer.chain .sum).Reveals ls' right) :
    Layer.comparison.Reveals (ls ++ t :: ls') (joined op left right) := by
  obtain ⟨spelled, found⟩ := token_of_comparison operator
  refine reveals_binary ofLeft revealsLeft revealsRight spelled ?_ fun weak => ?_
  · simp [joined, Expr.layer, found]
  · exact absurd weak (by decide)

theorem reveals_unary {op : UnOp} {t : Lexeme} {span : Span} (ofOperand : layer.Reveals ls e)
    (spelled : t.token = op.token) (weak : Layer.negation.order ≤ layer.order → op = .not)
    (tight : (Expr.unary span op e).layer.order ≤ layer.order) :
    layer.Reveals (t :: ls) (.unary span op e) := by
  have operator : op.token.isParen = false := by cases op <;> rfl
  have lexemes : (t :: ls).map (·.token) = op.token :: ls.map (·.token) := by
    rw [List.map_cons, spelled]
  refine reveals_of_head lexemes (by rw [Expr.tokens]) operator tight fun back => ?_
  obtain ⟨legible, negated⟩ := ofOperand.enclosed back
  rw [Expr.legible, legible]
  by_cases negation : e.isNegation
  · simp [weak (negated negation)]
  · simp [negation]

theorem not_compound_of_order (tight : e.layer.order ≤ Layer.postfixed.order) :
    e.isCompound = false := by
  cases e with
  | unary span op operand => cases op <;> simp [Expr.layer, Layer.order] at tight
  | binary span op left right => cases op <;> simp [Expr.layer, BinOp.join?, Layer.order] at tight
  | _ => rfl

theorem reveals_indexed {opened closed span : Span} {base position : Expr}
    (ofBase : Expression .postfixed ls base) (revealsBase : Layer.postfixed.Reveals ls base)
    (revealsPosition : Layer.whole.Reveals ls' position) :
    Layer.postfixed.Reveals
      (ls ++ ⟨.symbol .lBracket, opened⟩ :: ls' ++ [⟨.symbol .rBracket, closed⟩])
      (.index span base position) := by
  have lexemes : List.map Lexeme.token
      (ls ++ ⟨.symbol .lBracket, opened⟩ :: ls' ++ [⟨.symbol .rBracket, closed⟩]) =
      ls.map (·.token) ++ .symbol .lBracket :: (ls'.map (·.token) ++ [.symbol .rBracket]) := by
    simp
  have text : (Expr.index span base position).tokens =
      base.tokens ++ .symbol .lBracket :: (position.tokens ++ [.symbol .rBracket]) := by
    simp [Expr.tokens]
  refine reveals_of_cut lexemes text ofBase.resembles base.depth_tokens rfl (Nat.le_refl _)
    fun front back => ?_
  obtain ⟨legibleBase, tight⟩ := revealsBase.bare front
  have legiblePosition := (revealsPosition.bare (List.append_cancel_right back)).1
  simp [Expr.legible, legibleBase, legiblePosition, not_compound_of_order tight]

theorem reveals_literal {place : Span} {t : Token} (is : Literal place t e) :
    Layer.primary.Reveals [⟨t, place⟩] e := by
  refine reveals_of_head rfl is.tokens_eq ?_ ?_ fun _ => ?_ <;> cases is <;> rfl

mutual

/-- One case for each rule. Parentheses are the one rule that takes a level off. -/
theorem Expression.reveals {layer : Layer} {ls : List Lexeme} {e : Expr} :
    Expression layer ls e → layer.Reveals ls e
  | .operand (j := j) inner => inner.reveals.raise (by cases j <;> decide)
  | .positive inner | .uncompared inner | .unsigned inner | .unindexed inner =>
    inner.reveals.raise (by decide)
  | .joined ofLeft operator ofRight =>
    reveals_joined ofLeft operator ofLeft.reveals ofRight.reveals
  | .compared ofLeft operator ofRight =>
    reveals_compared ofLeft operator ofLeft.reveals ofRight.reveals
  | .not inner => reveals_unary inner.reveals rfl (fun _ => rfl) (Nat.le_refl _)
  | .minus inner => reveals_unary inner.reveals rfl (fun weak => absurd weak (by decide)) (Nat.le_refl _)
  | .indexed ofBase ofPosition => reveals_indexed ofBase ofBase.reveals ofPosition.reveals
  | .literal is => reveals_literal is
  | .var => by
    refine reveals_of_head rfl (by rw [Expr.tokens]) rfl (Nat.le_refl _) fun _ => ?_
    simp [Expr.legible]
  | .call ofArgs => by
    refine reveals_of_head rfl (by rw [Expr.tokens]; rfl) rfl (Nat.le_refl _) fun back => ?_
    rw [Expr.legible]
    exact ofArgs.legible (List.tail_eq_of_cons_eq back)
  | .list ofItems => by
    refine reveals_of_head rfl (by rw [Expr.tokens]; rfl) rfl (Nat.le_refl _) fun back => ?_
    rw [Expr.legible]
    exact ofItems.legible back
  | .paren inner => by
    intro i j same
    rw [List.map_append, List.map_cons, List.map_singleton, wrap_paren, Expr.tokens_withSpan] at same
    obtain ⟨legible, fewer, -⟩ := inner.reveals (i + 1) j same
    refine ⟨?_, by omega, by omega⟩
    rw [Expr.legible_withSpan]
    exact legible

theorem Items.legible {ls : List Lexeme} {es : List Expr} :
    Items ls es → ls.map (·.token) = Expr.itemsTokens es → Expr.itemsLegible es
  | .one inner, spelled => by
    rw [Expr.itemsTokens] at spelled
    simp [Expr.itemsLegible, (inner.reveals.bare spelled).1]
  | .more first others, spelled => by
    have legibleOthers := others.legible
    have ofFirst := first.resembles.solid_eq
    cases others with
    | one | more =>
      rw [List.map_append, List.map_cons, Expr.itemsTokens_more] at spelled
      obtain ⟨front, -, back⟩ := cut_unique spelled ofFirst rfl rfl
      rw [Expr.itemsLegible, (first.reveals.bare front).1, legibleOthers back]
      rfl

theorem Closed.legible {close : Symbol} {ls : List Lexeme} {es : List Expr} {closed : Span} :
    Closed close ls es closed → ls.map (·.token) = Expr.itemsTokens es ++ [.symbol close] →
      Expr.itemsLegible es
  | .empty, _ => rfl
  | .items inner, spelled => by
    rw [List.map_append] at spelled
    exact inner.legible (List.append_cancel_right spelled)

end

end Grammar

/-! ## Texts of assignments -/

namespace Expr

theorem isBinary_bare (e : Expr) : e.bare.isBinary = e.isBinary := by
  cases e <;> simp [bare, isBinary]

theorem isCompound_bare (e : Expr) : e.bare.isCompound = e.isCompound := by
  cases e <;> simp [bare, isCompound]

theorem isNegation_bare (e : Expr) : e.bare.isNegation = e.isNegation := by
  cases e with
  | unary span op operand => cases op <;> simp [bare, isNegation]
  | _ => simp [bare, isNegation]

theorem encloseTokens_bare (e : Expr) (ts : List Token) :
    e.bare.encloseTokens ts = e.encloseTokens ts := by
  rw [encloseTokens, isBinary_bare, encloseTokens]

mutual

theorem tokens_bare : (e : Expr) → e.bare.tokens = e.tokens
  | .int .. | .float .. | .bool .. | .str .. | .none .. | .var .. | .default .. => by
    simp [bare, tokens]
  | .list _ items => by simp [bare, tokens, items_tokens_bare items]
  | .index _ base position => by simp [bare, tokens, base.tokens_bare, position.tokens_bare]
  | .binary _ op left right => by
    simp [bare, tokens, encloseTokens_bare, left.tokens_bare, right.tokens_bare]
  | .unary _ op operand => by simp [bare, tokens, encloseTokens_bare, operand.tokens_bare]
  | .call _ name args => by simp [bare, tokens, items_tokens_bare args]

theorem items_tokens_bare : (es : List Expr) → itemsTokens (bareAll es) = itemsTokens es
  | [] => rfl
  | [e] => by simp [bareAll, itemsTokens, e.tokens_bare]
  | e :: e' :: rest => by
    have others := items_tokens_bare (e' :: rest)
    rw [bareAll] at others
    rw [bareAll, bareAll, itemsTokens_more, itemsTokens_more, e.tokens_bare, others]

end

mutual

theorem legible_bare : (e : Expr) → e.bare.legible = e.legible
  | .int .. | .float .. | .bool .. | .str .. | .none .. | .var .. | .default .. => by
    simp [bare, legible]
  | .list _ items => by simp [bare, legible, items_legible_bare items]
  | .index _ base position => by
    simp [bare, legible, isCompound_bare, base.legible_bare, position.legible_bare]
  | .binary _ op left right => by
    simp [bare, legible, isNegation_bare, left.legible_bare, right.legible_bare]
  | .unary _ op operand => by simp [bare, legible, isNegation_bare, operand.legible_bare]
  | .call _ name args => by simp [bare, legible, items_legible_bare args]

theorem items_legible_bare : (es : List Expr) → itemsLegible (bareAll es) = itemsLegible es
  | [] => rfl
  | e :: rest => by simp [bareAll, itemsLegible, e.legible_bare, items_legible_bare rest]

end

end Expr

namespace Grammar

variable {ls : List Lexeme}

/-- Lexemes form at most one expression of a layer. -/
theorem Layer.Forms.unique {layer : Layer} {d d' : Nat} {e e' : Expr} (first : layer.Forms d ls e)
    (second : layer.Forms d' ls e') : e = e' := by
  have split : ls = ls ++ [] := (List.append_nil ls).symm
  have inside : (⟨ls, {}, 0, ls.length⟩ : Cursor).Inside := Nat.le_refl _
  -- with the levels for both, both are the result
  have reads := first.recognized.reads (max d d') _ [] inside split layer.stops_nil
  have reads' := second.recognized.reads (max d d') _ [] inside split layer.stops_nil
  have same := (reads.2 (by omega)).symm.trans (reads'.2 (by omega))
  simpa using same

/-- The value of an assignment to a variable is formed by the lexemes between the two
symbols. -/
theorem expression_of_assignment {named equals semi place named' : Span} {name : String}
    {value : Expr}
    (derived : Statements
      (⟨.ident name, named⟩ :: ⟨.symbol .eq, equals⟩ :: (ls ++ [⟨.symbol .semi, semi⟩]))
      [.assign place (.var named' name) value]) :
    Expression .whole ls value := by
  generalize lexemes : (⟨.ident name, named⟩ :: ⟨.symbol .eq, equals⟩ ::
    (ls ++ [⟨.symbol .semi, semi⟩]) : List Lexeme) = ts at derived
  generalize statements : [Instr.assign place (.var named' name) value] = body at derived
  cases derived with
  | done => cases statements
  | more first others =>
    obtain ⟨instr, rfl⟩ := List.cons.inj statements
    cases others
    rw [List.append_nil] at lexemes
    cases first with
    | @simple _ semi' _ inner =>
      cases inner with
      | @assign equals' xs ys target _ ofTarget location ofValue =>
        cases instr
        have closed : ([⟨.ident name, named⟩] ++ ⟨.symbol .eq, equals⟩ :: ls) ++
            [⟨.symbol .semi, semi⟩] = (xs ++ ⟨.symbol .eq, equals'⟩ :: ys) ++
            [⟨.symbol .semi, semi'⟩] := lexemes
        have unclosed := (List.append_inj' closed rfl).1
        have tokens := congrArg (List.map Lexeme.token) unclosed
        rw [List.map_append, List.map_append, List.map_cons, List.map_cons] at tokens
        have before := ofTarget.resembles.solid_eq
        rw [Expr.tokens] at before
        obtain ⟨front, -, -⟩ := cut_unique tokens before.symm rfl rfl
        obtain ⟨l, rfl⟩ := List.length_eq_one_iff.mp (by simpa using congrArg List.length front.symm)
        obtain ⟨-, -, rfl⟩ : _ ∧ _ ∧ ls = ys := by simpa using unclosed
        exact ofValue
      | _ => cases instr
    | conditional inner =>
      cases inner
      cases instr
    | _ => cases instr

end Grammar

section

open Lexer

variable {source : String} {size : Nat} {ts : List Lexeme} {prog : Program} {e e' : Expr}

/-- The lexemes of the assignment of an expression to `x`. -/
theorem tokenize_assignment (spells : Spells Fresh e.text.toList e.tokens) :
    ∃ named equals ls semi, tokenize ("x = " ++ e.text ++ ";") =
      .ok (⟨.ident "x", named⟩ :: ⟨.symbol .eq, equals⟩ :: (ls ++ [⟨.symbol .semi, semi⟩])) ∧
      Grammar.Spelled ls e.tokens := by
  have blank (rest : List Char) : Fresh ([' '] ++ rest) := fresh_cons (by decide)
  have ended := spells.append (spells_symbol .semi) fun _ _ => fresh_cons (by decide)
  have valued := spells_space.append ended fun _ _ => trivial
  have equated := (spells_symbol .eq).append valued fun _ _ => blank _
  have spaced := spells_space.append equated fun _ _ => trivial
  have valid : isValidName "x" := by decide
  have whole := (spells_ident valid).append spaced fun _ _ => blank _
  obtain ⟨ls, scans, tokens⟩ := whole 0 [] [] fresh_nil .done
  have lexed : tokenize ("x = " ++ e.text ++ ";") = .ok ls := by
    rw [tokenize_eq_ok_iff]
    simpa [Symbol.text] using scans
  have spelled : Grammar.Spelled ls (.ident "x" :: .symbol .eq :: (e.tokens ++ [.symbol .semi])) :=
    tokens
  obtain ⟨named, _, rfl, behind⟩ := spelled.cons
  obtain ⟨equals, _, rfl, rest⟩ := behind.cons
  obtain ⟨ls, _, rfl, value, last⟩ := rest.append
  obtain ⟨semi, rfl⟩ := last.singleton
  exact ⟨named, equals, ls, semi, lexed, value⟩

theorem Program.read_eq_ok_iff : Program.read source = .ok prog ↔
    ∃ ts, tokenize source = .ok ts ∧ parse source.utf8ByteSize ts = .ok prog := by
  unfold Program.read
  cases lexed : tokenize source with
  | error e => simp
  | ok ts =>
    cases parsed : parse source.utf8ByteSize ts with
    | error e => simp [parsed]
    | ok other => simp [parsed]

/-- Read as the value of an assignment to `x`, the text of the expression is the expression,
apart from places. -/
def Expr.ReadsBack (e : Expr) : Prop :=
  ∃ place named value, Program.read ("x = " ++ e.text ++ ";") =
    .ok { body := [.assign place (.var named "x") value] } ∧ value.bare = e.bare

/-- A legible expression is read back, if the levels suffice. -/
theorem Expr.readsBack_of_legible (spells : Spells Fresh e.text.toList e.tokens)
    (legible : e.legible) (shallow : e.height + 2 ≤ maxNesting) : e.ReadsBack := by
  obtain ⟨named, equals, ls, semi, lexed, spelled⟩ := tokenize_assignment spells
  obtain ⟨d, enough, value, forms, same⟩ := e.written legible ls spelled
  have room : d < maxNesting - 1 := by
    have fits := Nat.le_trans enough (Grammar.levels_le e)
    omega
  have parsed := Grammar.Phrase.parse_eq ⟨e.layer, forms⟩ room
    ("x = " ++ e.text ++ ";").utf8ByteSize "x" named equals semi
  exact ⟨_, _, value, Program.read_eq_ok_iff.mpr ⟨_, lexed, parsed⟩, same⟩

theorem Expr.legible_of_readsBack (spells : Spells Fresh e.text.toList e.tokens)
    (reads : e.ReadsBack) : e.legible := by
  obtain ⟨place, named', value, read, same⟩ := reads
  obtain ⟨named, equals, ls, semi, lexed, spelled⟩ := tokenize_assignment spells
  obtain ⟨ts, lexed', parsed⟩ := Program.read_eq_ok_iff.mp read
  obtain rfl : _ = ts := Except.ok.inj (lexed.symm.trans lexed')
  have derived := Grammar.expression_of_assignment (statements_of_parse parsed)
  have tokens : ls.map (·.token) = value.tokens := by
    rw [← value.tokens_bare, same, e.tokens_bare]
    exact spelled
  rw [← e.legible_bare, ← same, value.legible_bare]
  exact (derived.reveals.bare tokens).1

/-- Legible expressions whose texts have the same tokens are the same, apart from places. -/
theorem Expr.bare_eq_of_tokens (legible : e.legible) (legible' : e'.legible)
    (same : e.tokens = e'.tokens) : e.bare = e'.bare := by
  let ls : List Lexeme := e.tokens.map fun t => ⟨t, {}⟩
  have spelled : Grammar.Spelled ls e.tokens := by
    simp [Grammar.Spelled, ls, Function.comp_def]
  have spelled' : Grammar.Spelled ls e'.tokens := by
    rw [← same]
    exact spelled
  obtain ⟨d, -, x, forms, sameFirst⟩ := e.written legible ls spelled
  obtain ⟨d', -, x', forms', sameSecond⟩ := e'.written legible' ls spelled'
  rw [← sameFirst, ← sameSecond, forms.whole.unique forms'.whole]

/-- The value of a source that is one assignment. -/
def assigned? (source : String) : Option Expr :=
  (Program.read source).toOption.bind fun prog => prog.assignment?.map fun parts => parts.2.2

theorem holdsExpr_of_assigned {p : Expr → Bool} (checked : (assigned? source).any p) :
    ∃ prog e, Program.read source = .ok prog ∧ prog.HoldsExpr e ∧ p e := by
  obtain ⟨e, found, holds⟩ := (Option.any_eq_true _ _).mp checked
  obtain ⟨prog, read, found⟩ := Option.bind_eq_some_iff.mp found
  obtain ⟨⟨place, target, value⟩, parts, rfl⟩ := Option.map_eq_some_iff.mp found
  obtain rfl := Program.eq_of_assignment? parts
  exact ⟨_, value, Except.eq_of_toOption read,
    .direct (.top List.mem_cons_self) (by simp [Instr.exprs]), holds⟩

/-- Which expressions of a program read back: the text of an expression with plain literals,
not nested too deep, is read as the expression itself exactly if the expression is legible.
So legible expressions with the same text are the same. -/
theorem readsBack_iff_legible (read : Program.read source = .ok prog) (holds : prog.HoldsExpr e)
    (plain : e.isPlain) :
    (e.height + 2 ≤ maxNesting → (e.ReadsBack ↔ e.legible)) ∧
    ∀ {source' : String} {prog' : Program} {e' : Expr}, Program.read source' = .ok prog' →
      prog'.HoldsExpr e' → e'.isPlain → e.legible → e'.legible → e.text = e'.text →
        e.bare = e'.bare := by
  obtain ⟨ts, lexed, parsed⟩ := Program.read_eq_ok_iff.mp read
  have spells := spells_of_holdsExpr lexed parsed holds plain
  refine ⟨fun shallow => ⟨Expr.legible_of_readsBack spells, fun legible =>
    Expr.readsBack_of_legible spells legible shallow⟩, ?_⟩
  intro source' prog' e' read' holds' plain' legible legible' same
  obtain ⟨ts', lexed', parsed'⟩ := Program.read_eq_ok_iff.mp read'
  have spells' := spells_of_holdsExpr lexed' parsed' holds' plain'
  rw [same] at spells
  exact Expr.bare_eq_of_tokens legible legible' (spells.unique spells' fresh_nil fresh_nil)

/-- Two spellings of one expression with operators of all kinds. -/
theorem readsBack_iff_legible_spellings :
    ∃ prog e prog' e', Program.read "y = not (-a[i + 1] < f(\"q\\n\", none)) and b;" = .ok prog ∧
      prog.HoldsExpr e ∧ e.isPlain ∧ e.height + 2 ≤ maxNesting ∧ e.legible ∧
      e.text = "not (-a[i + 1] < f(\"q\\n\", none)) and b" ∧ e.ReadsBack ∧
      Program.read "z = (not ((-(a[(i+1)]))<f(\"q\n\",none)))and(b);" = .ok prog' ∧
      prog'.HoldsExpr e' ∧ e'.isPlain ∧ e'.legible ∧ e.text = e'.text ∧ e.bare = e'.bare := by
  have checked : (assigned? "y = not (-a[i + 1] < f(\"q\\n\", none)) and b;").any fun e =>
      e.isPlain && decide (e.height + 2 ≤ maxNesting) && e.legible &&
        e.text == "not (-a[i + 1] < f(\"q\\n\", none)) and b" := by
    decide +kernel
  have checked' : (assigned? "z = (not ((-(a[(i+1)]))<f(\"q\n\",none)))and(b);").any fun e =>
      e.isPlain && e.legible && e.text == "not (-a[i + 1] < f(\"q\\n\", none)) and b" := by
    decide +kernel
  obtain ⟨prog, e, read, holds, checked⟩ := holdsExpr_of_assigned checked
  obtain ⟨prog', e', read', holds', checked'⟩ := holdsExpr_of_assigned checked'
  simp only [Bool.and_eq_true, decide_eq_true_eq, beq_iff_eq] at checked checked'
  obtain ⟨⟨⟨plain, shallow⟩, legible⟩, text⟩ := checked
  obtain ⟨⟨plain', legible'⟩, text'⟩ := checked'
  obtain ⟨reads, same⟩ := readsBack_iff_legible read holds plain
  have sameText := text.trans text'.symm
  exact ⟨prog, e, prog', e', read, holds, plain, shallow, legible, text, (reads shallow).mpr legible,
    read', holds', plain', legible', sameText, same read' holds' plain' legible legible' sameText⟩

/-- The text of `-(not b)` is no expression, and `(a + b)[0]` has the text of
`a + b[0]`. -/
theorem illegible_texts :
    (∃ prog e, Program.read "y = -(not b);" = .ok prog ∧ prog.HoldsExpr e ∧ e.isPlain ∧
      e.height + 2 ≤ maxNesting ∧ e.text = "-not b" ∧
      (∃ error, Program.read "x = -not b;" = .error error) ∧ ¬ e.ReadsBack) ∧
    ∃ prog e prog' e', Program.read "y = (a + b)[0];" = .ok prog ∧ prog.HoldsExpr e ∧ e.isPlain ∧
      e.height + 2 ≤ maxNesting ∧ Program.read "y = a + b[0];" = .ok prog' ∧
      prog'.HoldsExpr e' ∧ e'.isPlain ∧ e'.height + 2 ≤ maxNesting ∧ e.text = e'.text ∧
      e.bare ≠ e'.bare := by
  constructor
  · have checked : (assigned? "y = -(not b);").any fun e =>
        e.isPlain && decide (e.height + 2 ≤ maxNesting) && e.text == "-not b" := by
      decide +kernel
    have refused : (Program.read "x = -not b;").toOption.isNone := by decide +kernel
    obtain ⟨prog, e, read, holds, checked⟩ := holdsExpr_of_assigned checked
    simp only [Bool.and_eq_true, decide_eq_true_eq, beq_iff_eq] at checked
    obtain ⟨⟨plain, shallow⟩, text⟩ := checked
    cases result : Program.read "x = -not b;" with
    | ok other =>
      rw [result] at refused
      cases refused
    | error error =>
      refine ⟨prog, e, read, holds, plain, shallow, text, ⟨error, rfl⟩, ?_⟩
      rintro ⟨place, named, value, reads, -⟩
      rw [text] at reads
      cases result.symm.trans reads
  · have checked : (assigned? "y = (a + b)[0];").any fun e =>
        e.isPlain && decide (e.height + 2 ≤ maxNesting) && !e.isBinary && e.text == "a + b[0]" := by
      decide +kernel
    have checked' : (assigned? "y = a + b[0];").any fun e =>
        e.isPlain && decide (e.height + 2 ≤ maxNesting) && e.isBinary && e.text == "a + b[0]" := by
      decide +kernel
    obtain ⟨prog, e, read, holds, checked⟩ := holdsExpr_of_assigned checked
    obtain ⟨prog', e', read', holds', checked'⟩ := holdsExpr_of_assigned checked'
    simp only [Bool.and_eq_true, decide_eq_true_eq, beq_iff_eq, Bool.not_eq_true']
      at checked checked'
    obtain ⟨⟨⟨plain, shallow⟩, index⟩, text⟩ := checked
    obtain ⟨⟨⟨plain', shallow'⟩, binary⟩, text'⟩ := checked'
    refine ⟨prog, e, prog', e', read, holds, plain, shallow, read', holds', plain', shallow',
      text.trans text'.symm, fun same => ?_⟩
    rw [← e.isBinary_bare, same, e'.isBinary_bare, binary] at index
    cases index

end

end TraceLang
