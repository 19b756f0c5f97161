/-
# TraceLang.Syntax.Token — tokens and their two texts

A token has the text that stands in a source (`Token.text`) and a name for
listings (`Token.label`). A lexeme is a token with the place it was found.
-/
import TraceLang.Number.Decimal
import TraceLang.Syntax.Word
import TraceLang.Text.Quoted
import TraceLang.Text.Span

namespace TraceLang

set_option autoImplicit false

/-- Operators and delimiters. -/
inductive Symbol
  | eqEq
  | notEq
  | ltEq
  | gtEq
  | lt
  | gt
  | eq
  | plus
  | minus
  | star
  | slash
  | percent
  | lParen
  | rParen
  | lBrace
  | rBrace
  | lBracket
  | rBracket
  | comma
  | semi
deriving DecidableEq, Repr

namespace Symbol

/-- The symbol as it stands in a source text. -/
def text : Symbol → String
  | .eqEq => "=="
  | .notEq => "!="
  | .ltEq => "<="
  | .gtEq => ">="
  | .lt => "<"
  | .gt => ">"
  | .eq => "="
  | .plus => "+"
  | .minus => "-"
  | .star => "*"
  | .slash => "/"
  | .percent => "%"
  | .lParen => "("
  | .rParen => ")"
  | .lBrace => "\x7b"
  | .rBrace => "\x7d"
  | .lBracket => "["
  | .rBracket => "]"
  | .comma => ","
  | .semi => ";"

/-- The name of the symbol in listings. -/
def label : Symbol → String
  | .eqEq => "EqEq"
  | .notEq => "NotEq"
  | .ltEq => "LtEq"
  | .gtEq => "GtEq"
  | .lt => "Lt"
  | .gt => "Gt"
  | .eq => "Eq"
  | .plus => "Plus"
  | .minus => "Minus"
  | .star => "Star"
  | .slash => "Slash"
  | .percent => "Percent"
  | .lParen => "LParen"
  | .rParen => "RParen"
  | .lBrace => "LBrace"
  | .rBrace => "RBrace"
  | .lBracket => "LBracket"
  | .rBracket => "RBracket"
  | .comma => "Comma"
  | .semi => "Semi"

end Symbol

/-- The name of a keyword in listings. -/
def Keyword.label : Keyword → String
  | .func => "Func"
  | .ifWord => "If"
  | .elseWord => "Else"
  | .whileWord => "While"
  | .forWord => "For"
  | .returnWord => "Return"
  | .breakWord => "Break"
  | .continueWord => "Continue"
  | .trace => "Trace"
  | .trueWord => "True"
  | .falseWord => "False"
  | .noneWord => "None"
  | .andWord => "And"
  | .orWord => "Or"
  | .notWord => "Not"

/-- The name of a type keyword in listings. -/
def Ty.label : Ty → String
  | .int => "TyInt"
  | .float => "TyFloat"
  | .bool => "TyBool"
  | .string => "TyString"
  | .list => "TyList"
  | .none => "TyNone"
  | .auto => "TyAuto"

/-- A token of the language. -/
inductive Token
  | keyword (k : Keyword)
  | typeName (t : Ty)
  | int (n : Int64)
  | float (x : Binary64)
  | str (s : String)
  | ident (name : String)
  | symbol (s : Symbol)
deriving DecidableEq, Repr

namespace Token

/-- The token that a word spells. The word `none` is a keyword, not a type. -/
def ofWord (word : String) : Token :=
  match Keyword.ofText? word with
  | some k => .keyword k
  | none =>
    match Ty.ofKeyword? word with
    | some t => .typeName t
    | none => .ident word

/-- The token as it stands in a source text. -/
def text : Token → String
  | .keyword k => k.text
  | .typeName t => t.keyword
  | .int n => toString n.toInt
  | .float x => x.text
  | .str s => quoted s
  | .ident name => name
  | .symbol s => s.text

/-- The name of the token in listings. -/
def label : Token → String
  | .keyword k => k.label
  | .typeName t => t.label
  | .int n => "IntLit(" ++ toString n.toInt ++ ")"
  | .float x => "FloatLit(" ++ x.text ++ ")"
  | .str s => "StringLit(" ++ quoted s ++ ")"
  | .ident name => "Ident(" ++ quoted name ++ ")"
  | .symbol s => s.label

/-- The type a token names in a declaration. -/
def asType? : Token → Option Ty
  | .typeName t => some t
  | _ => none

end Token

/-- A token and the place where it stands. -/
structure Lexeme where
  token : Token
  span : Span
deriving DecidableEq, Repr

end TraceLang
