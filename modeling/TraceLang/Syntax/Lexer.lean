/-
# TraceLang.Syntax.Lexer — from text to lexemes

`munch` looks at the start of the remaining text and takes the longest piece
that is white space, a comment or a token, or says how much of the text cannot
begin any of these. `tokenize` repeats it to the end of the text.
-/
import TraceLang.Syntax.Token

namespace TraceLang

set_option autoImplicit false

/-- A text that begins no token, and where it stands. -/
structure LexicalError where
  slice : String
  span : Span
deriving DecidableEq, Repr

def LexicalError.message (e : LexicalError) : String :=
  "unexpected input: " ++ quoted e.slice

namespace Lexer

/-- What stands at the start of a text. Each case counts the characters that
belong to it after the first. -/
inductive Munch
  | blank (more : Nat)
  | token (t : Token) (more : Nat)
  | bad (more : Nat)
deriving Repr

def isBlank (c : Char) : Bool :=
  c = ' ' || c = '\t' || c = '\n' || c = '\r'

/-- The length of the text before the next line break. -/
def lineLength (cs : List Char) : Nat :=
  (cs.takeWhile (· ≠ '\n')).length

/-- A word that starts with `c`. -/
def munchWord (c : Char) (rest : List Char) : Munch :=
  let part := rest.takeWhile isWordPart
  .token (.ofWord (String.ofList (c :: part))) part.length

/-- An integer literal, refused if it is too large. -/
def munchInt (digits : List Char) : Munch :=
  let n := natOfDigits digits
  if (n : Int) ≤ Int64.maxValue.toInt then .token (.int (Int64.ofInt n)) (digits.length - 1)
  else .bad (digits.length - 1)

/-- The exponent part at the start of a text, with its length: `e` or `E`, an
optional sign and digits. Without digits it is no exponent. -/
def exponentPart : List Char → Int × Nat
  | [] => (0, 0)
  | e :: rest =>
    if e = 'e' ∨ e = 'E' then
      let sign := match rest with
        | s :: _ => if s = '+' ∨ s = '-' then [s] else []
        | [] => []
      let digits := (rest.drop sign.length).takeWhile Char.isDigit
      let n : Int := natOfDigits digits
      if digits.isEmpty then (0, 0)
      else (if sign = ['-'] then -n else n, 1 + sign.length + digits.length)
    else (0, 0)

/-- A number that starts with the digit `c`: a point makes it a floating-point
literal only if a digit follows. -/
def munchNumber (c : Char) (rest : List Char) : Munch :=
  let whole := c :: rest.takeWhile Char.isDigit
  match rest.dropWhile Char.isDigit with
  | '.' :: after =>
    let fraction := after.takeWhile Char.isDigit
    if fraction.isEmpty then munchInt whole
    else
      let (exponent, length) := exponentPart (after.dropWhile Char.isDigit)
      .token (.float (readDecimal whole fraction exponent)) (whole.length + fraction.length + length)
  | _ => munchInt whole

/-- The text that an escape sequence stands for. -/
def unescape (c : Char) : List Char :=
  if c = 'n' then ['\n']
  else if c = 't' then ['\t']
  else if c = '\\' then ['\\']
  else if c = '"' then ['"']
  else ['\\', c]

/-- A string literal, after its opening quote. `taken` holds what was read so
far, last character first, and `length` the characters that took. -/
def munchString (taken : List Char) (length : Nat) : List Char → Munch
  | [] => .bad length
  | '"' :: _ => .token (.str (String.ofList taken.reverse)) (length + 1)
  | '\\' :: c :: rest =>
    if c = '\n' then .bad length
    else munchString ((unescape c).reverse ++ taken) (length + 2) rest
  | c :: rest => if c = '\\' then .bad length else munchString (c :: taken) (length + 1) rest

/-- A symbol, the longer one first. -/
def munchSymbol (c : Char) (next : Option Char) : Munch :=
  match c, next with
  | '=', some '=' => .token (.symbol .eqEq) 1
  | '!', some '=' => .token (.symbol .notEq) 1
  | '<', some '=' => .token (.symbol .ltEq) 1
  | '>', some '=' => .token (.symbol .gtEq) 1
  | '<', _ => .token (.symbol .lt) 0
  | '>', _ => .token (.symbol .gt) 0
  | '=', _ => .token (.symbol .eq) 0
  | '+', _ => .token (.symbol .plus) 0
  | '-', _ => .token (.symbol .minus) 0
  | '*', _ => .token (.symbol .star) 0
  | '/', _ => .token (.symbol .slash) 0
  | '%', _ => .token (.symbol .percent) 0
  | '(', _ => .token (.symbol .lParen) 0
  | ')', _ => .token (.symbol .rParen) 0
  | '\x7b', _ => .token (.symbol .lBrace) 0
  | '\x7d', _ => .token (.symbol .rBrace) 0
  | '[', _ => .token (.symbol .lBracket) 0
  | ']', _ => .token (.symbol .rBracket) 0
  | ',', _ => .token (.symbol .comma) 0
  | ';', _ => .token (.symbol .semi) 0
  | _, _ => .bad 0

/-- What stands at the start of the text `c :: rest`. -/
def munch (c : Char) (rest : List Char) : Munch :=
  if isBlank c then .blank 0
  else if c = '#' then .blank (lineLength rest)
  else if c = '/' ∧ rest.head? = some '/' then .blank (lineLength rest)
  else if c.isDigit then munchNumber c rest
  else if isWordStart c then munchWord c rest
  else if c = '"' then munchString [] 0 rest
  else munchSymbol c rest.head?

/-- The number of bytes of some characters. -/
def byteLength (cs : List Char) : Nat :=
  cs.foldl (fun n c => n + c.utf8Size) 0

/-- Read lexemes from a text whose first character is at byte `offset`. The
first `skip` characters belong to a piece already read; `found` holds the
lexemes before, last one first. -/
def scan (offset skip : Nat) (found : List Lexeme) : List Char → Except LexicalError (List Lexeme)
  | [] => .ok found.reverse
  | c :: rest =>
    let next := offset + c.utf8Size
    match skip with
    | k + 1 => scan next k found rest
    | 0 =>
      match munch c rest with
      | .blank more => scan next more found rest
      | .token t more =>
        let span : Span := { start := offset, stop := next + byteLength (rest.take more) }
        scan next more ({ token := t, span } :: found) rest
      | .bad more =>
        let slice := c :: rest.take more
        .error
          { slice := String.ofList slice
            span := { start := offset, stop := offset + byteLength slice } }

end Lexer

/-- The lexemes of a source text. -/
def tokenize (source : String) : Except LexicalError (List Lexeme) :=
  Lexer.scan 0 0 [] source.toList

end TraceLang
