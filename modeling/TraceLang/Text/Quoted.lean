/-
# TraceLang.Text.Quoted — texts between quotes

The form in which a string stands inside a list, a label or a message: between
double quotes, with quotes, backslashes and everything invisible escaped.
-/
import TraceLang.Text.Visible

namespace TraceLang

set_option autoImplicit false

/-- Lower-case hexadecimal digits of a number, without leading zeros. -/
def hexDigits (n : Nat) : List Char :=
  Nat.toDigits 16 n

namespace Quoted

/-- How one character is written between quotes: the usual short escapes, a
hexadecimal escape for what has no visible form, else the character. -/
def escape (c : Char) : List Char :=
  if c = '"' then ['\\', '"']
  else if c = '\\' then ['\\', '\\']
  else if c = '\n' then ['\\', 'n']
  else if c = '\r' then ['\\', 'r']
  else if c = '\t' then ['\\', 't']
  else if c.toNat = 0 then ['\\', '0']
  else if Visible c then [c]
  else ['\\', 'u', '\x7b'] ++ hexDigits c.toNat ++ ['\x7d']

/-- The characters of a quoted text, quotes included. -/
def chars (s : List Char) : List Char :=
  '"' :: s.flatMap escape ++ ['"']

end Quoted

/-- A text between quotes. -/
def quoted (s : String) : String :=
  String.ofList (Quoted.chars s.toList)

end TraceLang
