/-
# TraceLang.Proofs.Syntax.Parts — the parts of a program and their lexemes

The parts of an expression are its operands, elements or arguments. Those of an
instruction are the expressions it is made of, the statements in the header of a loop
and the statements of its blocks. `prog.Holds i` and `prog.HoldsExpr e` say that a
program has an instruction or an expression among its parts, at any depth.

A part is formed by a run of the lexemes that form the whole. To read it alone takes no
more levels of nesting than to read the whole, since the parser comes to it on the way.
So the parts of a program that was read are phrases of the grammar themselves, and shallow
enough to be read (`clause_of_holds`, `phrase_of_holdsExpr`).
-/
import TraceLang.Proofs.Syntax.Program
import TraceLang.Proofs.Syntax.Recognition.Statements

namespace TraceLang

set_option autoImplicit false

/-! ## Parts -/

/-- The value of a declaration that gives none. No lexeme stands for it. -/
def Expr.isDefault : Expr → Bool
  | .default .. => true
  | _ => false

theorem Expr.children_of_isDefault {e : Expr} (is : e.isDefault) : e.children = [] := by
  cases e <;> first | rfl | cases is

@[simp] theorem Expr.children_withSpan (e : Expr) (s : Span) :
    (e.withSpan s).children = e.children := by
  cases e <;> rfl

/-- The two statements in the header of a loop. -/
def Instr.headers : Instr → List Instr
  | .forLoop _ init step _ _ => [init, step]
  | _ => []

/-- The blocks of an instruction. -/
def Instr.blocks : Instr → List (List Instr)
  | .whileLoop _ _ body | .forLoop _ _ _ _ body | .define _ _ _ body _ => [body]
  | .conditional _ _ onTrue onFalse => [onTrue, onFalse]
  | _ => []

/-- The program has this statement, at any depth. -/
inductive Program.Holds (prog : Program) : Instr → Prop
  | top {i : Instr} (mem : i ∈ prog.body) : prog.Holds i
  | inside {i j : Instr} {block : List Instr} (outer : prog.Holds i) (of : block ∈ i.blocks)
    (mem : j ∈ block) : prog.Holds j

/-- The program has this expression, in a statement, in the header of a loop or in
another expression. -/
inductive Program.HoldsExpr (prog : Program) : Expr → Prop
  | direct {i : Instr} {e : Expr} (outer : prog.Holds i) (mem : e ∈ i.exprs) : prog.HoldsExpr e
  | header {i h : Instr} {e : Expr} (outer : prog.Holds i) (of : h ∈ i.headers)
    (mem : e ∈ h.exprs) : prog.HoldsExpr e
  | child {e x : Expr} (outer : prog.HoldsExpr e) (mem : x ∈ e.children) : prog.HoldsExpr x

namespace Grammar

variable {d d' : Nat} {ls ls' : List Lexeme} {e x : Expr} {es : List Expr} {i : Instr}
  {body : List Instr}

/-! ## Expressions -/

/-- The lexemes form the expression of the layer, and to read it takes `d` levels. -/
structure Layer.Forms (layer : Layer) (d : Nat) (ls : List Lexeme) (e : Expr) : Prop where
  derived : Expression layer ls e
  recognized : layer.Recognizes d ls e

theorem Layer.Forms.postfixed (forms : Layer.primary.Forms d ls e) : Layer.postfixed.Forms d ls e :=
  ⟨.unindexed forms.derived, recognizes_unindexed forms.derived.length_pos forms.recognized⟩

theorem Layer.Forms.signed (forms : Layer.postfixed.Forms d ls e) : Layer.signed.Forms d ls e :=
  ⟨.unsigned forms.derived, recognizes_unsigned forms.derived forms.recognized⟩

theorem Layer.Forms.chain {j : Join} (forms : j.operand.Forms d ls e) :
    (Layer.chain j).Forms d ls e :=
  ⟨.operand forms.derived, recognizes_operand forms.derived.length_pos forms.recognized⟩

theorem Layer.Forms.comparison (forms : (Layer.chain .sum).Forms d ls e) :
    Layer.comparison.Forms d ls e :=
  ⟨.uncompared forms.derived, recognizes_uncompared forms.recognized⟩

theorem Layer.Forms.negation (forms : Layer.comparison.Forms d ls e) : Layer.negation.Forms d ls e :=
  ⟨.positive forms.derived, recognizes_positive forms.derived forms.recognized⟩

/-- The number of a layer, the tightest one first. -/
def Layer.order : Layer → Nat
  | .primary => 0
  | .postfixed => 1
  | .signed => 2
  | .chain .product => 3
  | .chain .sum => 4
  | .comparison => 5
  | .negation => 6
  | .chain .and => 7
  | .chain .or => 8

/-- The layer above. -/
def Layer.next : Layer → Layer
  | .primary => .postfixed
  | .postfixed => .signed
  | .signed => .chain .product
  | .chain .product => .chain .sum
  | .chain .sum => .comparison
  | .comparison => .negation
  | .negation => .chain .and
  | .chain .and | .chain .or => .chain .or

theorem Layer.order_le_whole (layer : Layer) : layer.order ≤ Layer.whole.order := by
  rcases layer with (_ | _ | _ | _) | _ | _ | _ | _ | _ <;> decide

theorem Layer.order_next {layer : Layer} (below : layer.order < Layer.whole.order) :
    layer.next.order = layer.order + 1 := by
  rcases layer with (_ | _ | _ | _) | _ | _ | _ | _ | _ <;> first | rfl | exact absurd below (by decide)

theorem Layer.order_inj {layer layer' : Layer} (same : layer.order = layer'.order) :
    layer = layer' := by
  rcases layer with (_ | _ | _ | _) | _ | _ | _ | _ | _ <;>
    rcases layer' with (_ | _ | _ | _) | _ | _ | _ | _ | _ <;> first | rfl | cases same

theorem Layer.Forms.next {layer : Layer} (forms : layer.Forms d ls e) : layer.next.Forms d ls e := by
  cases layer with
  | chain j =>
    cases j with
    | or => exact forms
    | and => exact Layer.Forms.chain (j := .or) forms
    | sum => exact forms.comparison
    | product => exact Layer.Forms.chain (j := .sum) forms
  | negation => exact Layer.Forms.chain (j := .and) forms
  | comparison => exact forms.negation
  | signed => exact Layer.Forms.chain (j := .product) forms
  | postfixed => exact forms.signed
  | primary => exact forms.postfixed

/-- An expression of a layer is one of every weaker layer, and needs no levels to become
one. -/
theorem Layer.Forms.raise {layer layer' : Layer} (forms : layer.Forms d ls e)
    (tighter : layer.order ≤ layer'.order) : layer'.Forms d ls e := by
  obtain ⟨k, above⟩ := Nat.exists_eq_add_of_le tighter
  induction k generalizing layer with
  | zero =>
    obtain rfl := Layer.order_inj above
    exact forms
  | succ k ih =>
    have bound := layer'.order_le_whole
    have one : layer.next.order = layer.order + 1 := Layer.order_next (by omega)
    exact ih forms.next (by omega) (by omega)

theorem Layer.Forms.whole {layer : Layer} (forms : layer.Forms d ls e) : Layer.whole.Forms d ls e :=
  forms.raise layer.order_le_whole

section

variable {place opened closed : Span} {t : Lexeme} {op : BinOp} {left right : Expr}

theorem Layer.Forms.joined {j : Join} (ofLeft : (Layer.chain j).Forms d ls left)
    (operator : j.operator t.token = some op) (ofRight : j.operand.Forms d' ls' right) :
    (Layer.chain j).Forms (max d d') (ls ++ t :: ls') (Grammar.joined op left right) :=
  ⟨.joined ofLeft.derived operator ofRight.derived,
    recognizes_joined ofLeft.recognized operator ofRight.recognized⟩

theorem Layer.Forms.compared (ofLeft : (Layer.chain .sum).Forms d ls left)
    (operator : comparison? t.token = some op) (ofRight : (Layer.chain .sum).Forms d' ls' right) :
    Layer.comparison.Forms (max d d') (ls ++ t :: ls') (Grammar.joined op left right) :=
  ⟨.compared ofLeft.derived operator ofRight.derived,
    recognizes_compared ofLeft.recognized operator ofRight.recognized⟩

theorem Layer.Forms.not (inner : Layer.negation.Forms d ls e) :
    Layer.negation.Forms (d + 1) (⟨.keyword .notWord, place⟩ :: ls)
      (.unary (place.merge e.span) .not e) :=
  ⟨.not inner.derived, recognizes_not inner.recognized⟩

theorem Layer.Forms.minus (inner : Layer.signed.Forms d ls e) :
    Layer.signed.Forms (d + 1) (⟨.symbol .minus, place⟩ :: ls)
      (.unary (place.merge e.span) .neg e) :=
  ⟨.minus inner.derived, recognizes_minus inner.recognized⟩

theorem Layer.Forms.indexed {base position : Expr} (ofBase : Layer.postfixed.Forms d ls base)
    (ofPosition : Layer.whole.Forms d' ls' position) :
    Layer.postfixed.Forms (max d (d' + 1))
      (ls ++ ⟨.symbol .lBracket, opened⟩ :: ls' ++ [⟨.symbol .rBracket, closed⟩])
      (.index (base.span.merge closed) base position) :=
  ⟨.indexed ofBase.derived ofPosition.derived,
    recognizes_indexed ofBase.recognized ofPosition.recognized⟩

theorem Layer.Forms.paren (inner : Layer.whole.Forms d ls e) :
    Layer.primary.Forms (d + 1) (⟨.symbol .lParen, opened⟩ :: ls ++ [⟨.symbol .rParen, closed⟩])
      (e.withSpan (opened.merge closed)) :=
  ⟨.paren inner.derived, recognizes_paren inner.recognized⟩

end

/-- The lexemes form the expression in some layer. -/
def Phrase (d : Nat) (ls : List Lexeme) (e : Expr) : Prop :=
  ∃ layer : Layer, layer.Forms d ls e

/-- A run of the lexemes forms the expression, and `d` levels are enough to read it. -/
def HasPhrase (d : Nat) (ls : List Lexeme) (e : Expr) : Prop :=
  ∃ d' ≤ d, ∃ ls', ls' <:+: ls ∧ Phrase d' ls' e

theorem HasPhrase.mono (has : HasPhrase d ls e) (more : d ≤ d') (longer : ls <:+: ls') :
    HasPhrase d' ls' e := by
  obtain ⟨d₀, enough, run, infixed, phrase⟩ := has
  exact ⟨d₀, Nat.le_trans enough more, run, infixed.trans longer, phrase⟩

theorem Phrase.has (phrase : Phrase d ls e) : HasPhrase d ls e :=
  ⟨d, Nat.le_refl d, ls, List.infix_refl ls, phrase⟩

theorem infix_in_tail {l : Lexeme} (inner : ls <:+: ls') : ls <:+: l :: ls' :=
  inner.trans (List.suffix_cons l ls').isInfix

theorem infix_in_left {ls'' : List Lexeme} (inner : ls <:+: ls') : ls <:+: ls' ++ ls'' :=
  inner.trans (List.prefix_append ls' ls'').isInfix

theorem infix_in_right {ls'' : List Lexeme} (inner : ls <:+: ls'') :
    ls <:+: ls' ++ ls'' :=
  inner.trans (List.suffix_append ls' ls'').isInfix

/-- The operands on both sides of an operator. -/
theorem joined_parts {t : Lexeme} {op : BinOp} {left right : Expr} (ofLeft : Phrase d ls left)
    (ofRight : Phrase d' ls' right) :
    ∀ x ∈ (joined op left right).children, HasPhrase (max d d') (ls ++ t :: ls') x := by
  intro x mem
  simp only [joined, Expr.children, List.mem_cons, List.not_mem_nil, or_false] at mem
  rcases mem with rfl | rfl
  · exact ofLeft.has.mono (Nat.le_max_left _ _) (infix_in_left (List.infix_refl _))
  · exact ofRight.has.mono (Nat.le_max_right _ _)
      (infix_in_right (infix_in_tail (List.infix_refl _)))

/-- The operand behind an operator. -/
theorem unary_parts {t : Lexeme} {place : Span} {op : UnOp} (ofOperand : Phrase d ls e) :
    ∀ x ∈ (Expr.unary place op e).children, HasPhrase (d + 1) (t :: ls) x := by
  intro x mem
  obtain rfl := List.mem_singleton.mp mem
  exact ofOperand.has.mono (Nat.le_succ d) (infix_in_tail (List.infix_refl _))

mutual

/-- The parts of an expression are read from runs of its lexemes. Parentheses are the one
rule that opens a level and leaves the parts as they are. -/
theorem Expression.parts {layer : Layer} {ls : List Lexeme} {e : Expr} :
    Expression layer ls e → ∃ d, layer.Recognizes d ls e ∧ ∀ x ∈ e.children, HasPhrase d ls x
  | .operand inner => by
    obtain ⟨d, recognized, parts⟩ := inner.parts
    exact ⟨d, recognizes_operand inner.length_pos recognized, parts⟩
  | .joined ofLeft operator ofRight => by
    obtain ⟨d, recognizedLeft, -⟩ := ofLeft.parts
    obtain ⟨d', recognizedRight, -⟩ := ofRight.parts
    exact ⟨max d d', recognizes_joined recognizedLeft operator recognizedRight,
      joined_parts ⟨_, ofLeft, recognizedLeft⟩ ⟨_, ofRight, recognizedRight⟩⟩
  | .not inner => by
    obtain ⟨d, recognized, -⟩ := inner.parts
    exact ⟨d + 1, recognizes_not recognized, unary_parts ⟨_, inner, recognized⟩⟩
  | .positive inner => by
    obtain ⟨d, recognized, parts⟩ := inner.parts
    exact ⟨d, recognizes_positive inner recognized, parts⟩
  | .compared ofLeft operator ofRight => by
    obtain ⟨d, recognizedLeft, -⟩ := ofLeft.parts
    obtain ⟨d', recognizedRight, -⟩ := ofRight.parts
    exact ⟨max d d', recognizes_compared recognizedLeft operator recognizedRight,
      joined_parts ⟨_, ofLeft, recognizedLeft⟩ ⟨_, ofRight, recognizedRight⟩⟩
  | .uncompared inner => by
    obtain ⟨d, recognized, parts⟩ := inner.parts
    exact ⟨d, recognizes_uncompared recognized, parts⟩
  | .minus inner => by
    obtain ⟨d, recognized, -⟩ := inner.parts
    exact ⟨d + 1, recognizes_minus recognized, unary_parts ⟨_, inner, recognized⟩⟩
  | .unsigned inner => by
    obtain ⟨d, recognized, parts⟩ := inner.parts
    exact ⟨d, recognizes_unsigned inner recognized, parts⟩
  | .indexed ofBase ofPosition => by
    obtain ⟨d, recognizedBase, -⟩ := ofBase.parts
    obtain ⟨d', recognizedPosition, -⟩ := ofPosition.parts
    refine ⟨max d (d' + 1), recognizes_indexed recognizedBase recognizedPosition, fun x mem => ?_⟩
    have base : HasPhrase d _ _ := Phrase.has ⟨_, ofBase, recognizedBase⟩
    have position : HasPhrase d' _ _ := Phrase.has ⟨_, ofPosition, recognizedPosition⟩
    simp only [Expr.children, List.mem_cons, List.not_mem_nil, or_false] at mem
    rcases mem with rfl | rfl
    · exact base.mono (Nat.le_max_left _ _)
        (infix_in_left (infix_in_left (List.infix_refl _)))
    · exact position.mono (Nat.le_trans (Nat.le_succ d') (Nat.le_max_right _ _))
        (infix_in_left
          (infix_in_right (infix_in_tail (List.infix_refl _))))
  | .unindexed inner => by
    obtain ⟨d, recognized, parts⟩ := inner.parts
    exact ⟨d, recognizes_unindexed inner.length_pos recognized, parts⟩
  | .literal is => by
    refine ⟨0, recognizes_literal is, fun x mem => ?_⟩
    cases is <;> cases mem
  | .var => ⟨0, recognizes_var, fun _ mem => absurd mem List.not_mem_nil⟩
  | .call ofArgs => by
    obtain ⟨d, read, parts⟩ := ofArgs.parts (.inl rfl)
    refine ⟨d, recognizes_call read, fun x mem => ?_⟩
    exact (parts x mem).mono (Nat.pred_le d) (infix_in_tail
      (infix_in_tail (List.infix_refl _)))
  | .list ofItems => by
    obtain ⟨d, read, parts⟩ := ofItems.parts (.inr rfl)
    refine ⟨d, recognizes_list read, fun x mem => ?_⟩
    exact (parts x mem).mono (Nat.pred_le d) (infix_in_tail (List.infix_refl _))
  | .paren inner => by
    obtain ⟨d, recognized, parts⟩ := inner.parts
    refine ⟨d + 1, recognizes_paren recognized, fun x mem => ?_⟩
    rw [Expr.children_withSpan] at mem
    exact (parts x mem).mono (Nat.le_succ d)
      (infix_in_left (infix_in_tail (List.infix_refl _)))

theorem Items.parts {ls : List Lexeme} {es : List Expr} :
    Items ls es → ∃ d, ItemsRead (d + 1) ls es ∧ ∀ x ∈ es, HasPhrase d ls x
  | .one inner => by
    obtain ⟨d, recognized, -⟩ := inner.parts
    refine ⟨d, itemsRead_one inner.length_pos recognized, fun x mem => ?_⟩
    obtain rfl := List.mem_singleton.mp mem
    exact Phrase.has ⟨_, inner, recognized⟩
  | .more first others => by
    obtain ⟨d, recognized, -⟩ := first.parts
    obtain ⟨d', read, parts⟩ := others.parts
    refine ⟨max d d', ?_, fun x mem => ?_⟩
    · rw [← Nat.add_max_add_right]
      exact itemsRead_more first.length_pos recognized read
    · have head : HasPhrase d _ _ := Phrase.has ⟨_, first, recognized⟩
      rcases List.mem_cons.mp mem with rfl | mem
      · exact head.mono (Nat.le_max_left _ _) (infix_in_left (List.infix_refl _))
      · exact (parts x mem).mono (Nat.le_max_right _ _)
          (infix_in_right (infix_in_tail (List.infix_refl _)))

theorem Closed.parts {close : Symbol} {ls : List Lexeme} {es : List Expr} {closed : Span}
    (closing : close = .rParen ∨ close = .rBracket) :
    Closed close ls es closed →
      ∃ d, ClosedRead close d ls es closed ∧ ∀ x ∈ es, HasPhrase (d - 1) ls x
  | .empty => ⟨0, closedRead_empty, fun _ mem => absurd mem List.not_mem_nil⟩
  | .items inner => by
    obtain ⟨d, read, parts⟩ := inner.parts
    refine ⟨d + 1, closedRead_items closing inner read, fun x mem => ?_⟩
    exact (parts x mem).mono (Nat.le_refl d) (infix_in_left (List.infix_refl _))

end

/-- The part of an expression is read with no more levels than the expression. -/
theorem Phrase.child (phrase : Phrase d ls e) (mem : x ∈ e.children) : HasPhrase d ls x := by
  obtain ⟨layer, derived, recognized⟩ := phrase
  obtain ⟨d', recognized', parts⟩ := derived.parts
  rw [recognized.unique recognized']
  exact parts x mem

/-! ## Statements -/

/-- The expression stands for a value that was left out, or a run of the lexemes forms it
and fewer than `d` levels are enough to read it. -/
def HasExpr (d : Nat) (ls : List Lexeme) (e : Expr) : Prop :=
  (e.isDefault ∧ ∃ l ∈ ls, e.span = l.span) ∨ ∃ d', d' < d ∧ HasPhrase d' ls e

theorem HasExpr.mono (has : HasExpr d ls e) (more : d ≤ d') (longer : ls <:+: ls') :
    HasExpr d' ls' e := by
  rcases has with ⟨default, l, mem, place⟩ | ⟨d₀, fewer, phrase⟩
  · exact .inl ⟨default, l, longer.subset mem, place⟩
  · exact .inr ⟨d₀, Nat.lt_of_lt_of_le fewer more, phrase.mono (Nat.le_refl d₀) longer⟩

theorem Expression.hasExpr {layer : Layer} (derived : Expression layer ls e)
    (recognized : layer.Recognizes d ls e) : HasExpr (d + 1) ls e :=
  .inr ⟨d, Nat.lt_succ_self d, Phrase.has ⟨layer, derived, recognized⟩⟩

theorem Simple.parts {f : Span → Instr} (derived : Simple ls f) :
    ∃ d, SimpleRead d ls f ∧ ∀ span, ∀ e ∈ (f span).exprs, HasExpr d ls e := by
  cases derived with
  | declare ofInit =>
    obtain ⟨d, -, recognized⟩ := ofInit.recognized
    refine ⟨d + 1, simpleRead_declare recognized, fun _ e mem => ?_⟩
    obtain rfl := List.mem_singleton.mp mem
    refine (ofInit.hasExpr recognized).mono (Nat.le_refl _) ?_
    exact infix_in_tail (infix_in_tail (infix_in_tail (List.infix_refl _)))
  | @reserve place named ty name typed =>
    refine ⟨0, simpleRead_reserve typed, fun _ e mem => ?_⟩
    obtain rfl := List.mem_singleton.mp mem
    exact .inl ⟨rfl, ⟨.ident name, named⟩, by simp, rfl⟩
  | assign ofTarget location ofValue =>
    obtain ⟨d, -, target⟩ := ofTarget.recognized
    obtain ⟨d', -, value⟩ := ofValue.recognized
    refine ⟨max (d + 1) (d' + 1), simpleRead_assign ofTarget location target value,
      fun _ e mem => ?_⟩
    simp only [Instr.exprs, List.mem_cons, List.not_mem_nil, or_false] at mem
    rcases mem with rfl | rfl
    · exact (ofTarget.hasExpr target).mono (Nat.le_max_left _ _)
        (infix_in_left (List.infix_refl _))
    · exact (ofValue.hasExpr value).mono (Nat.le_max_right _ _)
        (infix_in_right (infix_in_tail (List.infix_refl _)))
  | call inner =>
    obtain ⟨d, recognized, parts⟩ := inner.parts
    exact ⟨d + 1, simpleRead_call inner recognized,
      fun _ e mem => .inr ⟨d, Nat.lt_succ_self d, parts e mem⟩⟩

/-- The lexemes form the statement, and to read it takes `d` levels. -/
def Clause (d : Nat) (ls : List Lexeme) (i : Instr) : Prop :=
  ∃ f, Statement ls f ∧ StatementRead d ls f ∧ i = f (extent ls)

/-- The lexemes begin with the statements, one behind the other, and fewer than `d` levels
are enough to read each of them. -/
inductive Row (d : Nat) : List Lexeme → List Instr → Prop
  | nil {behind : List Lexeme} : Row d behind []
  | cons {d' : Nat} {ls ls' : List Lexeme} {i : Instr} {body : List Instr} (first : Clause d' ls i)
    (fewer : d' < d) (others : Row d ls' body) : Row d (ls ++ ls') (i :: body)

theorem Row.mono (row : Row d ls body) (more : d ≤ d') : Row d' ls body := by
  induction row with
  | nil => exact .nil
  | cons first fewer _ ih => exact .cons first (Nat.lt_of_lt_of_le fewer more) ih

theorem Row.clause (row : Row d ls body) (mem : i ∈ body) :
    ∃ d' < d, ∃ ls', ls' <:+: ls ∧ Clause d' ls' i := by
  induction row with
  | nil => cases mem
  | cons first fewer _ ih =>
    rcases List.mem_cons.mp mem with rfl | mem
    · exact ⟨_, fewer, _, infix_in_left (List.infix_refl _), first⟩
    · obtain ⟨d', fewer', run, infixed, clause⟩ := ih mem
      exact ⟨d', fewer', run, infix_in_right infixed, clause⟩

/-- A run of the lexemes begins with the statements. -/
def HasRow (d : Nat) (ls : List Lexeme) (body : List Instr) : Prop :=
  ∃ ls', ls' <:+: ls ∧ Row d ls' body

theorem HasRow.mono (has : HasRow d ls body) (more : d ≤ d') (longer : ls <:+: ls') :
    HasRow d' ls' body := by
  obtain ⟨run, infixed, row⟩ := has
  exact ⟨run, infixed.trans longer, row.mono more⟩

theorem Body.row {ls : List Lexeme} {body : List Instr} (derived : Body ls body) :
    ∃ d, BodyRead d ls body ∧ Row d ls body := by
  cases derived with
  | close => exact ⟨0, bodyRead_close, .nil⟩
  | more first others =>
    obtain ⟨d, -, read⟩ := first.read
    obtain ⟨d', readOthers, row⟩ := others.row
    exact ⟨max (d + 1) d', bodyRead_more first others read readOthers,
      .cons ⟨_, first, read, rfl⟩ (Nat.le_max_left _ _) (row.mono (Nat.le_max_right _ _))⟩

theorem Block.row (derived : Block ls body) : ∃ d, BlockRead d ls body ∧ HasRow d ls body := by
  obtain ⟨inner⟩ := derived
  obtain ⟨d, read, row⟩ := inner.row
  exact ⟨d, blockRead_mk read, _, infix_in_tail (List.infix_refl _), row⟩

/-- A conditional that follows `else` is read on the level of the first one. -/
theorem Otherwise.row (derived : Otherwise ls body) :
    ∃ d, OtherwiseRead d ls body ∧ HasRow (d + 1) ls body := by
  cases derived with
  | nothing => exact ⟨0, otherwiseRead_nothing, [], List.infix_refl _, .nil⟩
  | block inner =>
    obtain ⟨d, read, row⟩ := inner.row
    exact ⟨d, otherwiseRead_block inner read,
      row.mono (Nat.le_succ d) (infix_in_tail (List.infix_refl _))⟩
  | @conditional place ls f inner =>
    obtain ⟨d, -, read⟩ := inner.read
    have clause : Clause d ls (f (extent ls)) :=
      ⟨f, .conditional inner, statementRead_conditional inner read, rfl⟩
    have row : Row (d + 1) (ls ++ []) [f (extent ls)] := .cons clause (Nat.lt_succ_self d) .nil
    rw [List.append_nil] at row
    exact ⟨d, otherwiseRead_conditional inner read, ls, infix_in_tail (List.infix_refl _), row⟩

/-- A run of the lexemes forms the statement in the header of a loop. -/
def HasHeader (d : Nat) (ls : List Lexeme) (h : Instr) : Prop :=
  ∃ ls', ls' <:+: ls ∧ ∃ f, Simple ls' f ∧ h = f (extent ls') ∧ ∀ e ∈ h.exprs, HasExpr d ls' e

theorem HasHeader.mono {h : Instr} (has : HasHeader d ls h) (more : d ≤ d') (longer : ls <:+: ls') :
    HasHeader d' ls' h := by
  obtain ⟨run, infixed, f, derived, rfl, exprs⟩ := has
  exact ⟨run, infixed.trans longer, f, derived, rfl,
    fun e mem => (exprs e mem).mono more (List.infix_refl _)⟩

/-- The parts of a statement are read from runs of its lexemes. -/
structure Parted (d : Nat) (ls : List Lexeme) (i : Instr) : Prop where
  exprs : ∀ e ∈ i.exprs, HasExpr d ls e
  headers : ∀ h ∈ i.headers, HasHeader d ls h
  blocks : ∀ block ∈ i.blocks, HasRow (d + 1) ls block

/-- A statement without header and blocks. -/
theorem parted_of_exprs (exprs : ∀ e ∈ i.exprs, HasExpr d ls e) (noHeader : i.headers = [])
    (noBlock : i.blocks = []) : Parted d ls i where
  exprs := exprs
  headers h mem := by simp [noHeader] at mem
  blocks block mem := by simp [noBlock] at mem

theorem Simple.parted {f : Span → Instr} {span : Span} (derived : Simple ls f)
    (exprs : ∀ e ∈ (f span).exprs, HasExpr d ls' e) : Parted d ls' (f span) := by
  cases derived <;> exact parted_of_exprs exprs rfl rfl

theorem Conditional.parts {f : Span → Instr} (derived : Conditional ls f) :
    ∃ d, ConditionalRead d ls f ∧ ∀ span, Parted d ls (f span) := by
  obtain ⟨ofCond, ofTrue, ofFalse⟩ := derived
  obtain ⟨d, -, cond⟩ := ofCond.recognized
  obtain ⟨d', readTrue, rowTrue⟩ := ofTrue.row
  obtain ⟨d'', readFalse, rowFalse⟩ := ofFalse.row
  refine ⟨_, conditionalRead_mk cond ofTrue readTrue readFalse, fun _ => ⟨?_, ?_, ?_⟩⟩
  · intro e mem
    obtain rfl := List.mem_singleton.mp mem
    exact (ofCond.hasExpr cond).mono (Nat.le_max_left _ _)
      (infix_in_left (infix_in_left (infix_in_tail (List.infix_refl _))))
  · rintro h ⟨⟩
  · intro block mem
    simp only [Instr.blocks, List.mem_cons, List.not_mem_nil, or_false] at mem
    rcases mem with rfl | rfl
    · exact rowTrue.mono (by omega)
        (infix_in_left (infix_in_right (List.infix_refl _)))
    · exact rowFalse.mono (by omega) (infix_in_right (List.infix_refl _))

theorem Statement.parts {f : Span → Instr} (derived : Statement ls f) :
    ∃ d, StatementRead d ls f ∧ ∀ span, Parted d ls (f span) := by
  cases derived with
  | simple inner =>
    obtain ⟨d, read, exprs⟩ := inner.parts
    refine ⟨d, statementRead_simple inner read, fun span => inner.parted fun e mem => ?_⟩
    exact (exprs span e mem).mono (Nat.le_refl d) (infix_in_left (List.infix_refl _))
  | define ofParams ofBody =>
    obtain ⟨d, read, row⟩ := ofBody.row
    refine ⟨d, statementRead_define ofParams read, fun _ => ⟨?_, ?_, ?_⟩⟩
    · rintro e ⟨⟩
    · rintro h ⟨⟩
    · intro block mem
      obtain rfl := List.mem_singleton.mp mem
      exact row.mono (Nat.le_succ d)
        (infix_in_right (infix_in_tail (List.infix_refl _)))
  | conditional inner =>
    obtain ⟨d, read, parted⟩ := inner.parts
    exact ⟨d, statementRead_conditional inner read, parted⟩
  | whileLoop ofCond ofBody =>
    obtain ⟨d, -, cond⟩ := ofCond.recognized
    obtain ⟨d', read, row⟩ := ofBody.row
    refine ⟨_, statementRead_whileLoop cond ofBody read, fun _ => ⟨?_, ?_, ?_⟩⟩
    · intro e mem
      obtain rfl := List.mem_singleton.mp mem
      exact (ofCond.hasExpr cond).mono (Nat.le_max_left _ _)
        (infix_in_left (infix_in_tail (List.infix_refl _)))
    · rintro h ⟨⟩
    · intro block mem
      obtain rfl := List.mem_singleton.mp mem
      exact row.mono (by omega) (infix_in_right (List.infix_refl _))
  | @forLoop place opened semi semi' closed lsInit lsCond lsStep lsBody init step cond body ofInit
      ofCond ofStep ofBody =>
    obtain ⟨d, readInit, exprsInit⟩ := ofInit.parts
    obtain ⟨d', -, recognized⟩ := ofCond.recognized
    obtain ⟨d'', readStep, exprsStep⟩ := ofStep.parts
    obtain ⟨dBody, read, row⟩ := ofBody.row
    refine ⟨_, statementRead_forLoop readInit recognized readStep read, fun _ => ⟨?_, ?_, ?_⟩⟩
    · intro e mem
      obtain rfl := List.mem_singleton.mp mem
      refine (ofCond.hasExpr recognized).mono (by omega) ?_
      exact infix_in_left (infix_in_left
        (infix_in_right (infix_in_tail (List.infix_refl _))))
    · intro h mem
      simp only [Instr.headers, List.mem_cons, List.not_mem_nil, or_false] at mem
      rcases mem with rfl | rfl
      · have header : HasHeader d lsInit (init (extent lsInit)) :=
          ⟨lsInit, List.infix_refl _, init, ofInit, rfl, exprsInit _⟩
        refine header.mono (Nat.le_max_left _ _) ?_
        exact infix_in_left (infix_in_left
          (infix_in_left (infix_in_tail (infix_in_tail (List.infix_refl _)))))
      · have header : HasHeader d'' lsStep (step (extent lsStep)) :=
          ⟨lsStep, List.infix_refl _, step, ofStep, rfl, exprsStep _⟩
        refine header.mono (by omega) ?_
        exact infix_in_left
          (infix_in_right (infix_in_tail (List.infix_refl _)))
    · intro block mem
      obtain rfl := List.mem_singleton.mp mem
      exact row.mono (by omega)
        (infix_in_right (infix_in_tail (List.infix_refl _)))
  | trace ofTargets =>
    obtain ⟨d, read, parts⟩ := ofTargets.parts
    refine ⟨d + 1, statementRead_trace read, fun _ => parted_of_exprs (fun e mem => ?_) rfl rfl⟩
    refine .inr ⟨d, Nat.lt_succ_self d, (parts e mem).mono (Nat.le_refl d) ?_⟩
    exact infix_in_left (infix_in_tail (infix_in_tail (List.infix_refl _)))
  | leave => exact ⟨0, statementRead_leave, fun _ => parted_of_exprs (by rintro e ⟨⟩) rfl rfl⟩
  | again => exact ⟨0, statementRead_again, fun _ => parted_of_exprs (by rintro e ⟨⟩) rfl rfl⟩
  | stop => exact ⟨0, statementRead_stop, fun _ => parted_of_exprs (by rintro e ⟨⟩) rfl rfl⟩
  | result ofValue =>
    obtain ⟨d, -, recognized⟩ := ofValue.recognized
    refine ⟨d + 1, statementRead_result ofValue recognized,
      fun _ => parted_of_exprs (fun e mem => ?_) rfl rfl⟩
    obtain rfl := List.mem_singleton.mp mem
    exact (ofValue.hasExpr recognized).mono (Nat.le_refl _)
      (infix_in_left (infix_in_tail (List.infix_refl _)))

theorem Clause.parted (clause : Clause d ls i) : Parted d ls i := by
  obtain ⟨f, derived, read, rfl⟩ := clause
  obtain ⟨d', read', parted⟩ := derived.parts
  rw [read.unique read']
  exact parted _

theorem Statements.row (derived : Statements ls body) :
    ∃ d, ProgramRead d ls body ∧ Row d ls body := by
  induction derived with
  | done => exact ⟨0, programRead_done, .nil⟩
  | more first others ih =>
    obtain ⟨d, -, read⟩ := first.read
    obtain ⟨d', readOthers, row⟩ := ih
    exact ⟨max (d + 1) d', programRead_more first others read readOthers,
      .cons ⟨_, first, read, rfl⟩ (Nat.le_max_left _ _) (row.mono (Nat.le_max_right _ _))⟩

end Grammar

/-! ## Programs -/

section

open Grammar

variable {size : Nat} {ts : List Lexeme} {prog : Program} {i : Instr} {e : Expr}

/-- A program that was read is a row of statements, which the levels suffice for. -/
theorem row_of_parse (parsed : parse size ts = .ok prog) : Row maxNesting ts prog.body := by
  obtain ⟨d, read, row⟩ := (statements_of_parse parsed).row
  have agrees := parse_of_programRead read size
  by_cases isDeep : maxNesting < d
  · obtain ⟨span, complains⟩ := agrees.1 isDeep
    rw [parsed] at complains
    cases complains
  · exact row.mono (Nat.not_lt.mp isDeep)

/-- Every statement of a program that was read can be read alone. -/
theorem clause_of_holds (parsed : parse size ts = .ok prog) (holds : prog.Holds i) :
    ∃ d < maxNesting, ∃ ls, ls <:+: ts ∧ Clause d ls i := by
  induction holds with
  | top mem => exact (row_of_parse parsed).clause mem
  | inside _ of mem ih =>
    obtain ⟨d, fewer, ls, infixed, clause⟩ := ih
    obtain ⟨run, inner, row⟩ := clause.parted.blocks _ of
    obtain ⟨d', fewer', ls', inside, clause'⟩ := row.clause mem
    exact ⟨d', by omega, ls', (inside.trans inner).trans infixed, clause'⟩

/-- Every expression of a program that was read can be read alone, except for the values
that were left out. -/
theorem phrase_of_holdsExpr (parsed : parse size ts = .ok prog) (holds : prog.HoldsExpr e) :
    HasExpr (maxNesting - 1) ts e := by
  induction holds with
  | direct outer mem =>
    obtain ⟨d, fewer, ls, infixed, clause⟩ := clause_of_holds parsed outer
    exact (clause.parted.exprs _ mem).mono (Nat.le_sub_one_of_lt fewer) infixed
  | header outer of mem =>
    obtain ⟨d, fewer, ls, infixed, clause⟩ := clause_of_holds parsed outer
    obtain ⟨run, inner, f, derived, rfl, exprs⟩ := clause.parted.headers _ of
    exact (exprs _ mem).mono (Nat.le_sub_one_of_lt fewer) (inner.trans infixed)
  | @child e x _ mem ih =>
    rcases ih with ⟨default, -⟩ | ⟨d, fewer, d', enough, ls, infixed, phrase⟩
    · rw [Expr.children_of_isDefault default] at mem
      cases mem
    · exact .inr ⟨d, fewer, (phrase.child mem).mono enough infixed⟩

end

end TraceLang
