/-
# TraceLang.Syntax.Word — words: types, keywords and names

A word is an ASCII letter or underscore followed by ASCII letters, digits and
underscores. Some words are taken by the language; the others may name a
variable.
-/

namespace TraceLang

set_option autoImplicit false

/-- The types a variable or parameter can be declared with. -/
inductive Ty
  | int
  | float
  | bool
  | string
  | list
  | none
  /-- The type of the initializer. -/
  | auto
deriving DecidableEq, Hashable, Repr, Inhabited

namespace Ty

/-- Every type, in the order of their declaration. -/
def all : List Ty :=
  [.int, .float, .bool, .string, .list, .none, .auto]

/-- The word that names the type. -/
def keyword : Ty → String
  | .int => "int"
  | .float => "float"
  | .bool => "bool"
  | .string => "string"
  | .list => "list"
  | .none => "none"
  | .auto => "auto"

/-- The type a word names. -/
def ofKeyword? (word : String) : Option Ty :=
  all.find? (·.keyword = word)

end Ty

/-- The words of the language that are not types. -/
inductive Keyword
  | func
  | ifWord
  | elseWord
  | whileWord
  | forWord
  | returnWord
  | breakWord
  | continueWord
  | trace
  | trueWord
  | falseWord
  | noneWord
  | andWord
  | orWord
  | notWord
deriving DecidableEq, Repr

namespace Keyword

/-- Every keyword. -/
def all : List Keyword :=
  [.func, .ifWord, .elseWord, .whileWord, .forWord, .returnWord, .breakWord, .continueWord, .trace,
   .trueWord, .falseWord, .noneWord, .andWord, .orWord, .notWord]

/-- The keyword as it stands in a source text. -/
def text : Keyword → String
  | .func => "func"
  | .ifWord => "if"
  | .elseWord => "else"
  | .whileWord => "while"
  | .forWord => "for"
  | .returnWord => "return"
  | .breakWord => "break"
  | .continueWord => "continue"
  | .trace => "trace"
  | .trueWord => "true"
  | .falseWord => "false"
  | .noneWord => "none"
  | .andWord => "and"
  | .orWord => "or"
  | .notWord => "not"

/-- The keyword that a word spells. -/
def ofText? (word : String) : Option Keyword :=
  all.find? (·.text = word)

end Keyword

/-- A character that can begin a word. -/
def isWordStart (c : Char) : Bool :=
  c.isAlpha || c = '_'

/-- A character that can continue a word. -/
def isWordPart (c : Char) : Bool :=
  c.isAlphanum || c = '_'

/-- The words that can never name a variable. -/
def reservedWords : List String :=
  ["func", "if", "else", "while", "for", "return", "break", "continue", "trace", "true", "false",
   "none", "and", "or", "not", "int", "float", "bool", "string", "list", "auto"]

/-- Whether a text may name a variable: a word that is not reserved. -/
def isValidName (name : String) : Bool :=
  match name.toList with
  | [] => false
  | c :: rest => isWordStart c && rest.all isWordPart && !reservedWords.contains name

end TraceLang
