/-
# TraceLang.Syntax.Parser — from lexemes to programs

Recursive descent. Statements, parenthesised and bracketed expressions and the
operands of `not` and of unary minus each count as one level of nesting, and no
more than `maxNesting` levels are accepted. The parsers that open a level form
a `Tower`: level `n + 1` is built from level `n`, and level `0` refuses
everything. All other repetition consumes a lexeme per turn, so the number of
lexemes of the source bounds it.
-/
import TraceLang.Syntax.Lexer
import TraceLang.Syntax.Program

namespace TraceLang

set_option autoImplicit false

/-- The deepest nesting of statements and expressions that is accepted. -/
def maxNesting : Nat := 1000

/-- What a parser was looking for. -/
inductive Wanted
  | symbol (s : Symbol)
  | keyword (k : Keyword)
  | identifier
  | parameterType
  | expression
deriving DecidableEq, Repr

def Wanted.text : Wanted → String
  | .symbol s => "`" ++ s.text ++ "`"
  | .keyword k => "`" ++ k.text ++ "`"
  | .identifier => "identifier"
  | .parameterType => "parameter type"
  | .expression => "expression"

/-- Why lexemes do not form a program. -/
inductive Complaint
  | unexpected (wanted : Wanted) (found : Option Token)
  | tooDeep
  | noInitializer (name : String)
  | notAssignable (e : Expr)
  | notAStatement
deriving Repr

def Complaint.message : Complaint → String
  | .unexpected wanted (some t) => "expected " ++ wanted.text ++ ", found `" ++ t.text ++ "`"
  | .unexpected wanted none => "expected " ++ wanted.text ++ ", found end of input"
  | .tooDeep => "nesting deeper than " ++ toString maxNesting ++ " levels"
  | .noInitializer name => "`auto " ++ name ++ "` needs an initializer"
  | .notAssignable e => "cannot assign to `" ++ e.text ++ "`"
  | .notAStatement => "expected a declaration, assignment or call"

/-- A complaint and the place it is about. -/
structure GrammarError where
  complaint : Complaint
  span : Span
deriving Repr

/-- What is left to parse. -/
structure Cursor where
  rest : List Lexeme
  /-- The place of the lexeme before. -/
  last : Span := {}
  /-- The length of the source, where its end is reported. -/
  size : Nat
  /-- The number of lexemes of the source. -/
  count : Nat

/-- The place of the next lexeme, or the end of the source. -/
def Cursor.here (c : Cursor) : Span :=
  match c.rest with
  | l :: _ => l.span
  | [] => { start := c.size, stop := c.size }

/-- A parser of an `α`. -/
def Parser (α : Type) : Type :=
  Cursor → Except GrammarError (α × Cursor)

namespace Parser

@[always_inline, inline]
protected def pure {α : Type} (a : α) : Parser α :=
  fun c => .ok (a, c)

@[always_inline, inline]
protected def bind {α β : Type} (p : Parser α) (f : α → Parser β) : Parser β :=
  fun c =>
    match p c with
    | .ok (a, c) => f a c
    | .error e => .error e

@[always_inline]
instance : Monad Parser where
  pure := Parser.pure
  bind := Parser.bind

/-! ## Reading lexemes -/

/-- The next token. -/
def peek : Parser (Option Token) :=
  fun c => .ok (c.rest.head?.map (·.token), c)

/-- The token after the next one. -/
def peekSecond : Parser (Option Token) :=
  fun c => .ok ((c.rest.drop 1).head?.map (·.token), c)

def here : Parser Span :=
  fun c => .ok (c.here, c)

/-- The place of the lexeme read last. -/
def last : Parser Span :=
  fun c => .ok (c.last, c)

/-- More turns than a repetition that consumes lexemes can take. -/
def turns : Parser Nat :=
  fun c => .ok (c.count + 1, c)

/-- Fail with a complaint about a place. -/
def fail {α : Type} (complaint : Complaint) (span : Span) : Parser α :=
  fun _ => .error { complaint, span }

/-- Fail because something else stands here. -/
def unexpected {α : Type} (wanted : Wanted) : Parser α :=
  fun c => .error
    { complaint := .unexpected wanted (c.rest.head?.map (·.token)), span := c.here }

/-- Fail because the nesting is too deep. -/
def tooDeep {α : Type} : Parser α :=
  fun c => .error { complaint := .tooDeep, span := c.here }

/-- Step over the next lexeme and give its place; stay at the end. -/
def advance : Parser Span :=
  fun c =>
    match c.rest with
    | l :: rest => .ok (l.span, { c with rest, last := l.span })
    | [] => .ok (c.here, c)

/-- Whether the given token is next. -/
def check (t : Token) : Parser Bool :=
  return (← peek) = some t

/-- Step over the given token if it is next. -/
def eat (t : Token) : Parser Bool := do
  if ← check t then
    discard advance
    return true
  else
    return false

def expectSymbol (s : Symbol) : Parser Span := do
  if ← check (.symbol s) then advance else unexpected (.symbol s)

def expectKeyword (k : Keyword) : Parser Span := do
  if ← check (.keyword k) then advance else unexpected (.keyword k)

def expectIdent : Parser (String × Span) := do
  match ← peek with
  | some (.ident name) => return (name, ← advance)
  | _ => unexpected .identifier

/-! ## Expressions -/

/-- The parsers that open a level of nesting. -/
structure Tower where
  expr : Parser Expr
  /-- The operand of `not`. -/
  notOperand : Parser Expr
  /-- The operand of unary minus. -/
  minusOperand : Parser Expr
  statement : Parser Instr

/-- Join two operands; the result covers both. -/
def join (op : BinOp) (left right : Expr) : Expr :=
  .binary (left.span.merge right.span) op left right

/-- Operands joined by operators of one strength, to the left. -/
def chain (operator : Token → Option BinOp) (operand : Parser Expr) : Nat → Expr → Parser Expr
  | 0, left => return left
  | n + 1, left => do
    match (← peek).bind operator with
    | some op =>
      discard advance
      let right ← operand
      chain operator operand n (join op left right)
    | none => return left

/-- A first operand and all that are joined to it. -/
def leftAssoc (operator : Token → Option BinOp) (operand : Parser Expr) : Parser Expr := do
  let left ← operand
  chain operator operand (← turns) left

def orOperator : Token → Option BinOp
  | .keyword .orWord => some .or
  | _ => none

def andOperator : Token → Option BinOp
  | .keyword .andWord => some .and
  | _ => none

def comparison : Token → Option BinOp
  | .symbol .eqEq => some .eq
  | .symbol .notEq => some .ne
  | .symbol .lt => some .lt
  | .symbol .ltEq => some .le
  | .symbol .gt => some .gt
  | .symbol .gtEq => some .ge
  | _ => none

def additive : Token → Option BinOp
  | .symbol .plus => some .add
  | .symbol .minus => some .sub
  | _ => none

def multiplicative : Token → Option BinOp
  | .symbol .star => some .mul
  | .symbol .slash => some .div
  | .symbol .percent => some .mod
  | _ => none

/-- Expressions separated by commas; `found` holds those before, last one
first. -/
def moreItems (expr : Parser Expr) : Nat → List Expr → Parser (List Expr)
  | 0, found => return found.reverse
  | n + 1, found => do
    let e ← expr
    if ← eat (.symbol .comma) then moreItems expr n (e :: found)
    else return (e :: found).reverse

/-- Expressions up to a closing symbol, which is read too. -/
def itemsUntil (expr : Parser Expr) (close : Symbol) : Parser (List Expr × Span) := do
  let items ← if ← check (.symbol close) then pure [] else moreItems expr (← turns) []
  return (items, ← expectSymbol close)

/-- A literal, a name, a call, a list or an expression in parentheses, which
takes the place of its parentheses. -/
def primary (expr : Parser Expr) : Parser Expr := do
  let span ← here
  match ← peek with
  | some (.int n) =>
    discard advance
    return .int span n
  | some (.float x) =>
    discard advance
    return .float span x
  | some (.str s) =>
    discard advance
    return .str span s
  | some (.keyword .trueWord) =>
    discard advance
    return .bool span true
  | some (.keyword .falseWord) =>
    discard advance
    return .bool span false
  | some (.keyword .noneWord) =>
    discard advance
    return .none span
  | some (.ident name) =>
    let second ← peekSecond
    discard advance
    if second = some (.symbol .lParen) then
      discard advance
      let (args, stop) ← itemsUntil expr .rParen
      return .call (span.merge stop) name args
    else
      return .var span name
  | some (.symbol .lBracket) =>
    discard advance
    let (items, stop) ← itemsUntil expr .rBracket
    return .list (span.merge stop) items
  | some (.symbol .lParen) =>
    discard advance
    let inner ← expr
    let stop ← expectSymbol .rParen
    return inner.withSpan (span.merge stop)
  | _ => unexpected .expression

/-- Index brackets behind an expression. -/
def indices (expr : Parser Expr) : Nat → Expr → Parser Expr
  | 0, base => return base
  | n + 1, base => do
    if ← eat (.symbol .lBracket) then
      let position ← expr
      let stop ← expectSymbol .rBracket
      indices expr n (.index (base.span.merge stop) base position)
    else return base

def indexed (expr : Parser Expr) : Parser Expr := do
  let base ← primary expr
  indices expr (← turns) base

/-- An expression that binds tighter than any operator between two operands. -/
def signed (t : Tower) : Parser Expr := do
  if ← check (.symbol .minus) then
    let start ← advance
    let operand ← t.minusOperand
    return .unary (start.merge operand.span) .neg operand
  else indexed t.expr

def sum (t : Tower) : Parser Expr :=
  leftAssoc additive (leftAssoc multiplicative (signed t))

/-- At most one comparison. -/
def compared (t : Tower) : Parser Expr := do
  let left ← sum t
  match (← peek).bind comparison with
  | some op =>
    discard advance
    let right ← sum t
    return join op left right
  | none => return left

def negated (t : Tower) : Parser Expr := do
  if ← check (.keyword .notWord) then
    let start ← advance
    let operand ← t.notOperand
    return .unary (start.merge operand.span) .not operand
  else compared t

def disjunction (t : Tower) : Parser Expr :=
  leftAssoc orOperator (leftAssoc andOperator (negated t))

/-! ## Statements -/

/-- The place from a start to the lexeme read last. -/
def since (start : Span) : Parser Span :=
  return start.merge (← last)

/-- A declaration, an assignment or a call, without its semicolon. -/
def simple (t : Tower) : Parser Instr := do
  let start ← here
  match (← peek).bind Token.asType? with
  | some ty =>
    discard advance
    let (name, nameSpan) ← expectIdent
    if ← eat (.symbol .eq) then
      let init ← t.expr
      return .declare (← since start) { name, ty, init }
    else if ty = .auto then
      fail (.noInitializer name) nameSpan
    else
      return .declare (← since start) (.unassigned name ty nameSpan)
  | none =>
    let e ← t.expr
    if ← eat (.symbol .eq) then
      if e.isLocation then
        let value ← t.expr
        return .assign (← since start) e value
      else
        fail (.notAssignable e) e.span
    else
      match e with
      | .call _ name args => return .call (← since start) name args
      | _ => fail .notAStatement e.span

/-- Statements up to a closing brace, which is read too. -/
def statements (statement : Parser Instr) : Nat → List Instr → Parser (List Instr)
  | 0, _ => unexpected (.symbol .rBrace)
  | n + 1, found => do
    match ← peek with
    | some (.symbol .rBrace) =>
      discard advance
      return found.reverse
    | none => unexpected (.symbol .rBrace)
    | some _ =>
      let instr ← statement
      statements statement n (instr :: found)

def block (t : Tower) : Parser (List Instr) := do
  discard (expectSymbol .lBrace)
  statements t.statement (← turns) []

/-- A conditional and the conditionals that follow an `else`. These stand on
the same level of nesting. -/
def conditional (t : Tower) : Nat → Parser Instr
  | 0 => unexpected (.keyword .ifWord)
  | n + 1 => do
    let start ← expectKeyword .ifWord
    let cond ← t.expr
    let onTrue ← block t
    let onFalse ← if ← eat (.keyword .elseWord) then
        if ← check (.keyword .ifWord) then
          let other ← conditional t n
          pure [other]
        else block t
      else pure []
    return .conditional (← since start) cond onTrue onFalse

def forLoop (t : Tower) : Parser Instr := do
  let start ← expectKeyword .forWord
  discard (expectSymbol .lParen)
  let init ← simple t
  discard (expectSymbol .semi)
  let cond ← t.expr
  discard (expectSymbol .semi)
  let step ← simple t
  discard (expectSymbol .rParen)
  let body ← block t
  return .forLoop (← since start) init step cond body

/-- Parameters separated by commas. -/
def moreParams : Nat → List Param → Parser (List Param)
  | 0, found => return found.reverse
  | n + 1, found => do
    match (← peek).bind Token.asType? with
    | some ty =>
      discard advance
      let (name, _) ← expectIdent
      if ← eat (.symbol .comma) then moreParams n ({ name, ty } :: found)
      else return ({ name, ty } :: found).reverse
    | none => unexpected .parameterType

def definition (t : Tower) : Parser Instr := do
  let start ← expectKeyword .func
  let (name, _) ← expectIdent
  discard (expectSymbol .lParen)
  let params ← if ← check (.symbol .rParen) then pure [] else moreParams (← turns) []
  discard (expectSymbol .rParen)
  let body ← block t
  let span ← since start
  return .define span name params body span

/-- A statement, led by its first token. -/
def instruction (t : Tower) : Parser Instr := do
  let start ← here
  match ← peek with
  | some (.keyword .func) => definition t
  | some (.keyword .ifWord) => conditional t (← turns)
  | some (.keyword .whileWord) =>
    discard advance
    let cond ← t.expr
    let body ← block t
    return .whileLoop (← since start) cond body
  | some (.keyword .forWord) => forLoop t
  | some (.keyword .trace) =>
    discard advance
    discard (expectSymbol .lParen)
    let targets ← moreItems t.expr (← turns) []
    discard (expectSymbol .rParen)
    discard (expectSymbol .semi)
    return .trace (← since start) targets
  | some (.keyword .breakWord) =>
    discard advance
    discard (expectSymbol .semi)
    return .leave (← since start)
  | some (.keyword .continueWord) =>
    discard advance
    discard (expectSymbol .semi)
    return .again (← since start)
  | some (.keyword .returnWord) =>
    discard advance
    let value ← if ← check (.symbol .semi) then pure none else some <$> t.expr
    discard (expectSymbol .semi)
    return .result (← since start) value
  | _ =>
    let instr ← simple t
    discard (expectSymbol .semi)
    return instr.withSpan (← since start)

/-- The parsers with `n` levels of nesting to spare. -/
def tower : Nat → Tower
  | 0 => { expr := tooDeep, notOperand := tooDeep, minusOperand := tooDeep, statement := tooDeep }
  | n + 1 =>
    let inner := tower n
    { expr := disjunction inner
      notOperand := negated inner
      minusOperand := signed inner
      statement := instruction inner }

/-- The parsers at the top of a source. -/
def topLevel : Tower :=
  tower maxNesting

/-- Statements up to the end of the source. -/
def toEnd (statement : Parser Instr) : Nat → List Instr → Parser (List Instr)
  | 0, found => return found.reverse
  | n + 1, found => do
    match ← peek with
    | none => return found.reverse
    | some _ =>
      let instr ← statement
      toEnd statement n (instr :: found)

end Parser

/-- The program that lexemes of a source of `size` bytes form. -/
def parse (size : Nat) (lexemes : List Lexeme) : Except GrammarError Program := do
  let count := lexemes.length
  let (body, _) ← Parser.toEnd Parser.topLevel.statement (count + 1) []
    { rest := lexemes, size, count }
  return { body }

/-- Why a source text is not a program. -/
inductive SourceError
  | lexical (e : LexicalError)
  | grammar (e : GrammarError)
deriving Repr

namespace SourceError

def message : SourceError → String
  | .lexical e => e.message
  | .grammar e => e.complaint.message

def span : SourceError → Span
  | .lexical e => e.span
  | .grammar e => e.span

/-- The error as it is reported. -/
def report (e : SourceError) : String :=
  let stage := match e with
    | .lexical _ => "Lexer"
    | .grammar _ => "Parser"
  stage ++ " error at " ++ e.span.fields ++ ": " ++ e.message

end SourceError

/-- The program in a source text. -/
def Program.read (source : String) : Except SourceError Program :=
  match tokenize source with
  | .error e => .error (.lexical e)
  | .ok lexemes =>
    match parse source.utf8ByteSize lexemes with
    | .error e => .error (.grammar e)
    | .ok prog => .ok prog

end TraceLang
