/-
# TraceLang.Proofs.Syntax.Grammar — the surface grammar

The grammar as a set of rules, one constructor for each. A rule says which lexemes
form a phrase and what the phrase stands for, places included: an expression from
two operands covers both, one in parentheses takes the place of the parentheses,
and an instruction has the extent of its lexemes. For this reason the rules for
instructions give an instruction without its place, as a function of it.

Expressions are layered, from the weakest operators to the strongest. Four of the
layers are chains of operands that are joined to the left; they share their rules
and differ in the operators and in the layer of the operands (`Join`).
-/
import TraceLang.Syntax.Program

namespace TraceLang

set_option autoImplicit false

namespace Grammar

/-! ## Places -/

/-- The place of the last lexeme, or the given one if there is none. -/
def lastSpan (before : Span) (ls : List Lexeme) : Span :=
  ls.foldl (fun _ l => l.span) before

@[simp] theorem lastSpan_nil (before : Span) : lastSpan before [] = before :=
  rfl

@[simp] theorem lastSpan_cons (before : Span) (l : Lexeme) (ls : List Lexeme) :
    lastSpan before (l :: ls) = lastSpan l.span ls :=
  rfl

@[simp] theorem lastSpan_append (before : Span) (ls ls' : List Lexeme) :
    lastSpan before (ls ++ ls') = lastSpan (lastSpan before ls) ls' :=
  List.foldl_append

/-- From the first lexeme to the last. -/
def extent : List Lexeme → Span
  | [] => {}
  | l :: ls => l.span.merge (lastSpan l.span ls)

@[simp] theorem extent_cons (l : Lexeme) (ls : List Lexeme) :
    extent (l :: ls) = l.span.merge (lastSpan l.span ls) :=
  rfl

/-! ## Expressions -/

/-- The operators that join operands to the left, those of one strength
together. -/
inductive Join
  | or
  | and
  | sum
  | product
deriving DecidableEq, Repr

def Join.operator : Join → Token → Option BinOp
  | .or => fun
    | .keyword .orWord => some .or
    | _ => none
  | .and => fun
    | .keyword .andWord => some .and
    | _ => none
  | .sum => fun
    | .symbol .plus => some .add
    | .symbol .minus => some .sub
    | _ => none
  | .product => fun
    | .symbol .star => some .mul
    | .symbol .slash => some .div
    | .symbol .percent => some .mod
    | _ => none

def comparison? : Token → Option BinOp
  | .symbol .eqEq => some .eq
  | .symbol .notEq => some .ne
  | .symbol .lt => some .lt
  | .symbol .ltEq => some .le
  | .symbol .gt => some .gt
  | .symbol .gtEq => some .ge
  | _ => none

/-- Two operands with an operator between them, which cover the place of both. -/
def joined (op : BinOp) (left right : Expr) : Expr :=
  .binary (left.span.merge right.span) op left right

/-- The layers of expressions. -/
inductive Layer
  | chain (j : Join)
  | negation
  | comparison
  | signed
  | postfixed
  | primary
deriving DecidableEq, Repr

/-- The layer of what is joined. -/
def Join.operand : Join → Layer
  | .or => .chain .and
  | .and => .negation
  | .sum => .chain .product
  | .product => .signed

/-- The layer of all expressions. -/
abbrev Layer.whole : Layer :=
  .chain .or

/-- A token that is an expression by itself. -/
inductive Literal (place : Span) : Token → Expr → Prop
  | int {n : Int64} : Literal place (.int n) (.int place n)
  | float {x : Binary64} : Literal place (.float x) (.float place x)
  | str {s : String} : Literal place (.str s) (.str place s)
  | yes : Literal place (.keyword .trueWord) (.bool place true)
  | no : Literal place (.keyword .falseWord) (.bool place false)
  | none : Literal place (.keyword .noneWord) (.none place)

mutual

/-- The lexemes form an expression of the layer. -/
inductive Expression : Layer → List Lexeme → Expr → Prop
  | operand {j : Join} {ls : List Lexeme} {e : Expr} (inner : Expression j.operand ls e) :
    Expression (.chain j) ls e
  | joined {j : Join} {ls ls' : List Lexeme} {t : Lexeme} {op : BinOp} {left right : Expr}
    (ofLeft : Expression (.chain j) ls left) (operator : j.operator t.token = some op)
    (ofRight : Expression j.operand ls' right) :
    Expression (.chain j) (ls ++ t :: ls') (joined op left right)
  | not {place : Span} {ls : List Lexeme} {e : Expr} (inner : Expression .negation ls e) :
    Expression .negation (⟨.keyword .notWord, place⟩ :: ls) (.unary (place.merge e.span) .not e)
  | positive {ls : List Lexeme} {e : Expr} (inner : Expression .comparison ls e) :
    Expression .negation ls e
  | compared {ls ls' : List Lexeme} {t : Lexeme} {op : BinOp} {left right : Expr}
    (ofLeft : Expression (.chain .sum) ls left)
    (operator : comparison? t.token = some op)
    (ofRight : Expression (.chain .sum) ls' right) :
    Expression .comparison (ls ++ t :: ls') (joined op left right)
  | uncompared {ls : List Lexeme} {e : Expr} (inner : Expression (.chain .sum) ls e) :
    Expression .comparison ls e
  | minus {place : Span} {ls : List Lexeme} {e : Expr} (inner : Expression .signed ls e) :
    Expression .signed (⟨.symbol .minus, place⟩ :: ls) (.unary (place.merge e.span) .neg e)
  | unsigned {ls : List Lexeme} {e : Expr} (inner : Expression .postfixed ls e) :
    Expression .signed ls e
  | indexed {ls ls' : List Lexeme} {opened closed : Span} {base position : Expr}
    (ofBase : Expression .postfixed ls base) (ofPosition : Expression .whole ls' position) :
    Expression .postfixed
      (ls ++ ⟨.symbol .lBracket, opened⟩ :: ls' ++ [⟨.symbol .rBracket, closed⟩])
      (.index (base.span.merge closed) base position)
  | unindexed {ls : List Lexeme} {e : Expr} (inner : Expression .primary ls e) :
    Expression .postfixed ls e
  | literal {place : Span} {t : Token} {e : Expr} (is : Literal place t e) :
    Expression .primary [⟨t, place⟩] e
  | var {place : Span} {name : String} :
    Expression .primary [⟨.ident name, place⟩] (.var place name)
  | call {place opened closed : Span} {name : String} {ls : List Lexeme} {args : List Expr}
    (ofArgs : Closed .rParen ls args closed) :
    Expression .primary (⟨.ident name, place⟩ :: ⟨.symbol .lParen, opened⟩ :: ls)
      (.call (place.merge closed) name args)
  | list {opened closed : Span} {ls : List Lexeme} {items : List Expr}
    (ofItems : Closed .rBracket ls items closed) :
    Expression .primary (⟨.symbol .lBracket, opened⟩ :: ls) (.list (opened.merge closed) items)
  | paren {opened closed : Span} {ls : List Lexeme} {e : Expr} (inner : Expression .whole ls e) :
    Expression .primary (⟨.symbol .lParen, opened⟩ :: ls ++ [⟨.symbol .rParen, closed⟩])
      (e.withSpan (opened.merge closed))

/-- The lexemes form expressions separated by commas, one at least. -/
inductive Items : List Lexeme → List Expr → Prop
  | one {ls : List Lexeme} {e : Expr} (inner : Expression .whole ls e) : Items ls [e]
  | more {ls ls' : List Lexeme} {place : Span} {e : Expr} {es : List Expr}
    (first : Expression .whole ls e) (rest : Items ls' es) :
    Items (ls ++ ⟨.symbol .comma, place⟩ :: ls') (e :: es)

/-- The lexemes form expressions separated by commas, possibly none, with a closing
symbol behind them. -/
inductive Closed : Symbol → List Lexeme → List Expr → Span → Prop
  | empty {close : Symbol} {closed : Span} : Closed close [⟨.symbol close, closed⟩] [] closed
  | items {close : Symbol} {closed : Span} {ls : List Lexeme} {es : List Expr}
    (inner : Items ls es) : Closed close (ls ++ [⟨.symbol close, closed⟩]) es closed

end

/-! ## First tokens -/

/-- The tokens with which an expression without operators can begin. -/
def startsPrimary : Token → Bool
  | .int _ | .float _ | .str _ | .ident _ | .symbol .lParen | .symbol .lBracket
  | .keyword .trueWord | .keyword .falseWord | .keyword .noneWord => true
  | _ => false

/-- The tokens with which an expression of the layer can begin. -/
def Layer.starts (t : Token) : Layer → Bool
  | .primary | .postfixed => startsPrimary t
  | .signed | .comparison | .chain .product | .chain .sum =>
    t = .symbol .minus || startsPrimary t
  | .negation | .chain .and | .chain .or =>
    t = .keyword .notWord || (t = .symbol .minus || startsPrimary t)

theorem Join.starts_of_operand {j : Join} {t : Token} (starts : j.operand.starts t) :
    (Layer.chain j).starts t := by
  cases j <;> simp_all [Join.operand, Layer.starts]

theorem Literal.starts {place : Span} {t : Token} {e : Expr} (is : Literal place t e) :
    Layer.primary.starts t := by
  cases is <;> rfl

/-- An expression has a first token. -/
theorem Expression.starts {layer : Layer} {ls : List Lexeme} {e : Expr} :
    Expression layer ls e → ∃ t rest, ls = t :: rest ∧ layer.starts t.token
  | .operand inner => by
    obtain ⟨t, rest, rfl, starts⟩ := inner.starts
    exact ⟨t, rest, rfl, Join.starts_of_operand starts⟩
  | .joined ofLeft _ _ | .compared ofLeft _ _ => by
    obtain ⟨t, rest, rfl, starts⟩ := ofLeft.starts
    exact ⟨t, _, rfl, starts⟩
  | .positive inner | .unsigned inner => by
    obtain ⟨t, rest, rfl, starts⟩ := inner.starts
    exact ⟨t, rest, rfl, by simp_all [Layer.starts]⟩
  | .uncompared inner | .unindexed inner => by
    obtain ⟨t, rest, rfl, starts⟩ := inner.starts
    exact ⟨t, rest, rfl, starts⟩
  | .indexed ofBase _ => by
    obtain ⟨t, rest, rfl, starts⟩ := ofBase.starts
    exact ⟨t, _, rfl, starts⟩
  | .literal is => ⟨_, _, rfl, is.starts⟩
  | .not _ | .minus _ | .var | .call _ | .list _ | .paren _ => ⟨_, _, rfl, rfl⟩

theorem Expression.length_pos {layer : Layer} {ls : List Lexeme} {e : Expr}
    (derived : Expression layer ls e) : 0 < ls.length := by
  obtain ⟨t, rest, rfl, -⟩ := derived.starts
  exact Nat.succ_pos _

/-! ## Instructions -/

/-- A variable, or an element of what a variable holds, at any depth. -/
inductive Location : Expr → Prop
  | var {place : Span} {name : String} : Location (.var place name)
  | index {place : Span} {base position : Expr} (inner : Location base) :
    Location (.index place base position)

/-- A declaration, an assignment or a call. A declaration with `auto` needs a value,
what is assigned to is a location, and a call may stand in
parentheses. -/
inductive Simple : List Lexeme → (Span → Instr) → Prop
  | declare {place named equals : Span} {ty : Ty} {name : String} {ls : List Lexeme} {init : Expr}
    (ofInit : Expression .whole ls init) :
    Simple (⟨.typeName ty, place⟩ :: ⟨.ident name, named⟩ :: ⟨.symbol .eq, equals⟩ :: ls)
      fun span => .declare span { name, ty, init }
  | reserve {place named : Span} {ty : Ty} {name : String} (typed : ty ≠ .auto) :
    Simple [⟨.typeName ty, place⟩, ⟨.ident name, named⟩]
      fun span => .declare span (.unassigned name ty named)
  | assign {equals : Span} {ls ls' : List Lexeme} {target value : Expr}
    (ofTarget : Expression .whole ls target) (location : Location target)
    (ofValue : Expression .whole ls' value) :
    Simple (ls ++ ⟨.symbol .eq, equals⟩ :: ls') fun span => .assign span target value
  | call {place : Span} {ls : List Lexeme} {name : String} {args : List Expr}
    (inner : Expression .whole ls (.call place name args)) :
    Simple ls fun span => .call span name args

/-- The tokens with which a declaration, an assignment or a call can begin. -/
def startsSimple (t : Token) : Bool :=
  t.asType?.isSome || Layer.whole.starts t

theorem Simple.starts {ls : List Lexeme} {i : Span → Instr} (derived : Simple ls i) :
    ∃ t rest, ls = t :: rest ∧ startsSimple t.token := by
  cases derived with
  | declare | reserve => exact ⟨_, _, rfl, rfl⟩
  | assign inner | call inner =>
    obtain ⟨t, rest, rfl, starts⟩ := inner.starts
    exact ⟨t, _, rfl, by simp [startsSimple, starts]⟩

theorem Simple.withSpan {ls : List Lexeme} {i : Span → Instr} (derived : Simple ls i)
    (place place' : Span) : (i place).withSpan place' = i place' := by
  cases derived <;> rfl

/-- Parameters separated by commas, one at least. -/
inductive Parameters : List Lexeme → List Param → Prop
  | one {place named : Span} {ty : Ty} {name : String} :
    Parameters [⟨.typeName ty, place⟩, ⟨.ident name, named⟩] [{ name, ty }]
  | more {place named comma : Span} {ty : Ty} {name : String} {ls : List Lexeme}
    {params : List Param} (rest : Parameters ls params) :
    Parameters (⟨.typeName ty, place⟩ :: ⟨.ident name, named⟩ :: ⟨.symbol .comma, comma⟩ :: ls)
      ({ name, ty } :: params)

/-- Parameters separated by commas, possibly none. -/
inductive ParameterList : List Lexeme → List Param → Prop
  | empty : ParameterList [] []
  | some {ls : List Lexeme} {params : List Param} (inner : Parameters ls params) :
    ParameterList ls params

mutual

/-- The lexemes form a statement. -/
inductive Statement : List Lexeme → (Span → Instr) → Prop
  | simple {ls : List Lexeme} {semi : Span} {i : Span → Instr} (inner : Simple ls i) :
    Statement (ls ++ [⟨.symbol .semi, semi⟩]) i
  | define {place named opened closed : Span} {name : String} {ls ls' : List Lexeme}
    {params : List Param} {body : List Instr} (ofParams : ParameterList ls params)
    (ofBody : Block ls' body) :
    Statement
      (⟨.keyword .func, place⟩ :: ⟨.ident name, named⟩ :: ⟨.symbol .lParen, opened⟩ :: ls ++
        ⟨.symbol .rParen, closed⟩ :: ls')
      fun span => .define span name params body span
  | conditional {ls : List Lexeme} {i : Span → Instr} (inner : Conditional ls i) : Statement ls i
  | whileLoop {place : Span} {ls ls' : List Lexeme} {cond : Expr} {body : List Instr}
    (ofCond : Expression .whole ls cond) (ofBody : Block ls' body) :
    Statement (⟨.keyword .whileWord, place⟩ :: ls ++ ls') fun span => .whileLoop span cond body
  | forLoop {place opened semi semi' closed : Span} {ls ls' ls'' lsBody : List Lexeme}
    {init step : Span → Instr} {cond : Expr} {body : List Instr} (ofInit : Simple ls init)
    (ofCond : Expression .whole ls' cond) (ofStep : Simple ls'' step)
    (ofBody : Block lsBody body) :
    Statement
      (⟨.keyword .forWord, place⟩ :: ⟨.symbol .lParen, opened⟩ :: ls ++
        ⟨.symbol .semi, semi⟩ :: ls' ++ ⟨.symbol .semi, semi'⟩ :: ls'' ++
        ⟨.symbol .rParen, closed⟩ :: lsBody)
      fun span => .forLoop span (init (extent ls)) (step (extent ls'')) cond body
  | trace {place opened closed semi : Span} {ls : List Lexeme} {targets : List Expr}
    (ofTargets : Items ls targets) :
    Statement
      (⟨.keyword .trace, place⟩ :: ⟨.symbol .lParen, opened⟩ :: ls ++
        [⟨.symbol .rParen, closed⟩, ⟨.symbol .semi, semi⟩])
      fun span => .trace span targets
  | leave {place semi : Span} :
    Statement [⟨.keyword .breakWord, place⟩, ⟨.symbol .semi, semi⟩] .leave
  | again {place semi : Span} :
    Statement [⟨.keyword .continueWord, place⟩, ⟨.symbol .semi, semi⟩] .again
  | stop {place semi : Span} :
    Statement [⟨.keyword .returnWord, place⟩, ⟨.symbol .semi, semi⟩] fun span => .result span none
  | result {place semi : Span} {ls : List Lexeme} {value : Expr}
    (ofValue : Expression .whole ls value) :
    Statement (⟨.keyword .returnWord, place⟩ :: ls ++ [⟨.symbol .semi, semi⟩])
      fun span => .result span (some value)

/-- The lexemes form a conditional. -/
inductive Conditional : List Lexeme → (Span → Instr) → Prop
  | mk {place : Span} {ls ls' ls'' : List Lexeme} {cond : Expr} {onTrue onFalse : List Instr}
    (ofCond : Expression .whole ls cond) (ofTrue : Block ls' onTrue)
    (ofFalse : Otherwise ls'' onFalse) :
    Conditional (⟨.keyword .ifWord, place⟩ :: ls ++ ls' ++ ls'')
      fun span => .conditional span cond onTrue onFalse

/-- The lexemes form the second branch of a conditional: nothing, a block, or one
more conditional. -/
inductive Otherwise : List Lexeme → List Instr → Prop
  | nothing : Otherwise [] []
  | block {place : Span} {ls : List Lexeme} {body : List Instr} (inner : Block ls body) :
    Otherwise (⟨.keyword .elseWord, place⟩ :: ls) body
  | conditional {place : Span} {ls : List Lexeme} {i : Span → Instr} (inner : Conditional ls i) :
    Otherwise (⟨.keyword .elseWord, place⟩ :: ls) [i (extent ls)]

/-- The lexemes form statements in braces. -/
inductive Block : List Lexeme → List Instr → Prop
  | mk {opened : Span} {ls : List Lexeme} {body : List Instr} (inner : Body ls body) :
    Block (⟨.symbol .lBrace, opened⟩ :: ls) body

/-- The lexemes form statements with a closing brace behind them. -/
inductive Body : List Lexeme → List Instr → Prop
  | close {closed : Span} : Body [⟨.symbol .rBrace, closed⟩] []
  | more {ls ls' : List Lexeme} {i : Span → Instr} {rest : List Instr} (first : Statement ls i)
    (others : Body ls' rest) : Body (ls ++ ls') (i (extent ls) :: rest)

end

/-- The tokens with which a statement can begin. -/
def startsStatement : Token → Bool
  | .keyword .func | .keyword .ifWord | .keyword .whileWord | .keyword .forWord | .keyword .trace
  | .keyword .breakWord | .keyword .continueWord | .keyword .returnWord => true
  | t => startsSimple t

theorem startsStatement_of_simple {t : Token} (starts : startsSimple t) : startsStatement t := by
  unfold startsStatement
  split
  iterate 8 rfl
  exact starts

theorem Statement.starts {ls : List Lexeme} {i : Span → Instr} (derived : Statement ls i) :
    ∃ t rest, ls = t :: rest ∧ startsStatement t.token := by
  cases derived with
  | simple inner =>
    obtain ⟨t, rest, rfl, starts⟩ := inner.starts
    exact ⟨t, _, rfl, startsStatement_of_simple starts⟩
  | conditional inner =>
    obtain ⟨_, _, _⟩ := inner
    exact ⟨_, _, rfl, rfl⟩
  | _ => exact ⟨_, _, rfl, rfl⟩

/-- The lexemes form statements up to the end of the source. -/
inductive Statements : List Lexeme → List Instr → Prop
  | done : Statements [] []
  | more {ls ls' : List Lexeme} {i : Span → Instr} {rest : List Instr} (first : Statement ls i)
    (others : Statements ls' rest) : Statements (ls ++ ls') (i (extent ls) :: rest)

end Grammar

end TraceLang
