/-
# TraceLang.Syntax.Expr — expressions

Every node carries the span it was read from. `Expr.text` writes an expression
the way labels and messages show it, with nested binary operands in
parentheses.
-/
import TraceLang.Syntax.Token

namespace TraceLang

set_option autoImplicit false

/-- Operators between two operands. -/
inductive BinOp
  | add
  | sub
  | mul
  | div
  | mod
  | eq
  | ne
  | lt
  | le
  | gt
  | ge
  | and
  | or
deriving DecidableEq, Repr

def BinOp.text : BinOp → String
  | .add => "+"
  | .sub => "-"
  | .mul => "*"
  | .div => "/"
  | .mod => "%"
  | .eq => "=="
  | .ne => "!="
  | .lt => "<"
  | .le => "<="
  | .gt => ">"
  | .ge => ">="
  | .and => "and"
  | .or => "or"

/-- Operators before one operand. -/
inductive UnOp
  | neg
  | not
deriving DecidableEq, Repr

def UnOp.text : UnOp → String
  | .neg => "-"
  | .not => "not "

/-- An expression with its place in the source. -/
inductive Expr
  | int (span : Span) (n : Int64)
  | float (span : Span) (x : Binary64)
  | bool (span : Span) (b : Bool)
  | str (span : Span) (s : String)
  | none (span : Span)
  | list (span : Span) (items : List Expr)
  | var (span : Span) (name : String)
  | index (span : Span) (base position : Expr)
  | binary (span : Span) (op : BinOp) (left right : Expr)
  | unary (span : Span) (op : UnOp) (operand : Expr)
  | call (span : Span) (name : String) (args : List Expr)
  /-- The default value of a type. -/
  | default (span : Span) (ty : Ty)
deriving Repr, Inhabited

namespace Expr

/-- The place of the whole expression. -/
def span : Expr → Span
  | .int s _ | .float s _ | .bool s _ | .str s _ | .none s | .list s _ | .var s _ | .index s _ _
  | .binary s _ _ _ | .unary s _ _ | .call s _ _ | .default s _ => s

/-- The same expression at another place. -/
def withSpan (s : Span) : Expr → Expr
  | .int _ n => .int s n
  | .float _ x => .float s x
  | .bool _ b => .bool s b
  | .str _ t => .str s t
  | .none _ => .none s
  | .list _ items => .list s items
  | .var _ name => .var s name
  | .index _ base position => .index s base position
  | .binary _ op left right => .binary s op left right
  | .unary _ op operand => .unary s op operand
  | .call _ name args => .call s name args
  | .default _ ty => .default s ty

/-- The variable at the root of a chain of indexings, if the expression is
one. -/
def rootName? : Expr → Option String
  | .var _ name => some name
  | .index _ base _ => base.rootName?
  | _ => Option.none

/-- Whether the expression denotes a place that can be assigned to. -/
def isLocation : Expr → Bool
  | .var _ _ => true
  | .index _ base _ => base.isLocation
  | _ => false

def isBinary : Expr → Bool
  | .binary .. => true
  | _ => false

/-- The text of an operand, in parentheses if the operand has an operator
between two operands of its own. -/
def enclose (e : Expr) (text : String) : String :=
  if e.isBinary then "(" ++ text ++ ")" else text

mutual

/-- The expression as labels and messages show it. -/
def text : Expr → String
  | .int _ n => toString n.toInt
  | .float _ x => x.text
  | .bool _ b => if b then "true" else "false"
  | .str _ s => quoted s
  | .none _ => "none"
  | .list _ items => "[" ++ itemsText items ++ "]"
  | .var _ name => name
  | .index _ base position => base.text ++ "[" ++ position.text ++ "]"
  | .binary _ op left right =>
    left.enclose left.text ++ " " ++ op.text ++ " " ++ right.enclose right.text
  | .unary _ op operand => op.text ++ operand.enclose operand.text
  | .call _ name args => name ++ "(" ++ itemsText args ++ ")"
  | .default _ ty => "<default " ++ ty.keyword ++ ">"

/-- Expressions separated by commas. -/
def itemsText : List Expr → String
  | [] => ""
  | [e] => e.text
  | e :: rest => e.text ++ ", " ++ itemsText rest

end

end Expr

end TraceLang
