/-
# TraceLang.Json — JSON trees and their text

Objects keep the order in which their fields were given. A tree is written
either on one line or over several lines, two spaces deeper per level.
-/
import TraceLang.Number.Decimal
import TraceLang.Text.Quoted

namespace TraceLang

set_option autoImplicit false

/-- A JSON tree. Whole numbers and floating-point numbers are kept apart. -/
inductive Json
  | null
  | bool (b : Bool)
  | int (n : Int)
  | float (x : Binary64)
  | str (s : String)
  | arr (items : List Json)
  | obj (fields : List (String × Json))
deriving Inhabited

namespace Json

/-- How one character is written in a JSON string. -/
def escape (c : Char) : List Char :=
  if c = '"' then ['\\', '"']
  else if c = '\\' then ['\\', '\\']
  else if c = '\n' then ['\\', 'n']
  else if c = '\r' then ['\\', 'r']
  else if c = '\t' then ['\\', 't']
  else if c.toNat = 8 then ['\\', 'b']
  else if c.toNat = 12 then ['\\', 'f']
  else if c.toNat < 0x20 then
    let hex := hexDigits c.toNat
    ['\\', 'u'] ++ List.replicate (4 - hex.length) '0' ++ hex
  else [c]

/-- A JSON string. -/
def string (s : String) : String :=
  String.ofList ('"' :: s.toList.flatMap escape ++ ['"'])

mutual

/-- Write a tree on one line behind `out`. -/
def appendCompact (out : String) : Json → String
  | .null => out ++ "null"
  | .bool b => out ++ (if b then "true" else "false")
  | .int n => out ++ toString n
  | .float x => out ++ x.jsonText
  | .str s => out ++ string s
  | .arr items => (appendItems (out.push '[') true items).push ']'
  | .obj fields => (appendFields (out.push '\x7b') true fields).push '\x7d'

/-- Write the items of an array; `first` tells that no comma is due. -/
def appendItems (out : String) (first : Bool) : List Json → String
  | [] => out
  | item :: rest =>
    appendItems (appendCompact (if first then out else out.push ',') item) false rest

/-- Write the fields of an object. -/
def appendFields (out : String) (first : Bool) : List (String × Json) → String
  | [] => out
  | (key, value) :: rest =>
    let out := if first then out else out.push ','
    appendFields (appendCompact (out ++ string key ++ ":") value) false rest

end

/-- The tree on one line. -/
def compact (j : Json) : String :=
  appendCompact "" j

/-- A new line at the given depth. -/
def newline (out : String) (depth : Nat) : String :=
  out ++ "\n" ++ String.ofList (List.replicate (2 * depth) ' ')

mutual

/-- Write a tree over several lines behind `out`. -/
def appendPretty (out : String) (depth : Nat) : Json → String
  | .null => out ++ "null"
  | .bool b => out ++ (if b then "true" else "false")
  | .int n => out ++ toString n
  | .float x => out ++ x.jsonText
  | .str s => out ++ string s
  | .arr [] => out ++ "[]"
  | .arr (item :: rest) =>
    let out := appendPretty (newline (out.push '[') (depth + 1)) (depth + 1) item
    (newline (appendPrettyItems out (depth + 1) rest) depth).push ']'
  | .obj [] => out ++ "\x7b\x7d"
  | .obj ((key, value) :: rest) =>
    let out := newline (out.push '\x7b') (depth + 1) ++ string key ++ ": "
    let out := appendPretty out (depth + 1) value
    (newline (appendPrettyFields out (depth + 1) rest) depth).push '\x7d'

/-- Write the items of an array after its first. -/
def appendPrettyItems (out : String) (depth : Nat) : List Json → String
  | [] => out
  | item :: rest =>
    appendPrettyItems (appendPretty (newline (out.push ',') depth) depth item) depth rest

/-- Write the fields of an object after its first. -/
def appendPrettyFields (out : String) (depth : Nat) : List (String × Json) → String
  | [] => out
  | (key, value) :: rest =>
    let out := newline (out.push ',') depth ++ string key ++ ": "
    appendPrettyFields (appendPretty out depth value) depth rest

end

/-- The tree over several lines. -/
def pretty (j : Json) : String :=
  appendPretty "" 0 j

end Json

end TraceLang
