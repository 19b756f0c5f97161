/-
# TraceLang.Settings.Reader — settings from a configuration text

A configuration text holds at most one line per setting, `name = value`, blank
lines and comments that start with `#`. Names may stand between quotes. The
call depth is a whole number, written in decimal with optional underscores
between digits or with a prefix for another base, and `echo_traces` is `true`
or `false`. Anything else makes the text unreadable.
-/
import TraceLang.Settings

namespace TraceLang

set_option autoImplicit false

namespace Settings

def isIndent (c : Char) : Bool :=
  c = ' ' || c = '\t'

/-- A control character other than the tab. -/
def isControl (c : Char) : Bool :=
  (c.toNat < 0x20 && c ≠ '\t') || c.toNat = 0x7f

def isBareKey (c : Char) : Bool :=
  c.isAlphanum || c = '_' || c = '-'

/-- The value of a digit in a base of at most 16. -/
def digitValue? (base : Nat) (c : Char) : Option Nat :=
  let value :=
    if c.isDigit then c.toNat - '0'.toNat
    else if 'a' ≤ c ∧ c ≤ 'f' then c.toNat - 'a'.toNat + 10
    else if 'A' ≤ c ∧ c ≤ 'F' then c.toNat - 'A'.toNat + 10
    else base
  if value < base then some value else none

/-- Digits with single underscores between them, behind the number read so far.
A digit is due at the start and after an underscore. -/
def digits? (base : Nat) : (due : Bool) → (soFar : Nat) → List Char → Option Nat
  | due, n, [] => if due then none else some n
  | due, n, c :: rest =>
    if c = '_' then if due then none else digits? base true n rest
    else
      match digitValue? base c with
      | some d => digits? base false (base * n + d) rest
      | none => none

/-- A decimal number has no superfluous zero in front. -/
def decimal? (cs : List Char) : Option Nat :=
  match cs with
  | '0' :: _ :: _ => none
  | _ => digits? 10 true 0 cs

/-- A whole number that is not negative and has at most 63 bits. -/
def natural? (cs : List Char) : Option Nat := do
  let n ← match cs with
    | '0' :: 'x' :: rest => digits? 16 true 0 rest
    | '0' :: 'o' :: rest => digits? 8 true 0 rest
    | '0' :: 'b' :: rest => digits? 2 true 0 rest
    | '+' :: rest => decimal? rest
    | '-' :: rest => do
      let n ← decimal? rest
      if n = 0 then some 0 else none
    | cs => decimal? cs
  if (n : Int) ≤ Int64.maxValue.toInt then some n else none

def truth? (cs : List Char) : Option Bool :=
  if cs = "true".toList then some true
  else if cs = "false".toList then some false
  else none

/-- The value of exactly `count` hexadecimal digits at the start of a text. -/
def hexCode? (count : Nat) (cs : List Char) : Option Char := do
  let code := cs.take count
  if code.length = count then
    let n ← digits? 16 true 0 (code.filter (· ≠ '_'))
    if n.isValidChar ∧ '_' ∉ code then some (Char.ofNat n) else none
  else none

/-- A name between double quotes, after the first of them, and what follows.
`skip` characters belong to an escape already read. -/
def quotedName? (name : List Char) : (skip : Nat) → List Char → Option (List Char × List Char)
  | _, [] => none
  | skip + 1, _ :: rest => quotedName? name skip rest
  | 0, c :: rest =>
    if c = '"' then some (name.reverse, rest)
    else if c = '\\' then
      match rest with
      | 'b' :: _ => quotedName? ('\x08' :: name) 1 rest
      | 't' :: _ => quotedName? ('\t' :: name) 1 rest
      | 'n' :: _ => quotedName? ('\n' :: name) 1 rest
      | 'f' :: _ => quotedName? ('\x0c' :: name) 1 rest
      | 'r' :: _ => quotedName? ('\r' :: name) 1 rest
      | '"' :: _ => quotedName? ('"' :: name) 1 rest
      | '\\' :: _ => quotedName? ('\\' :: name) 1 rest
      | 'u' :: code =>
        match hexCode? 4 code with
        | some c => quotedName? (c :: name) 5 rest
        | none => none
      | 'U' :: code =>
        match hexCode? 8 code with
        | some c => quotedName? (c :: name) 9 rest
        | none => none
      | _ => none
    else if isControl c then none
    else quotedName? (c :: name) 0 rest

/-- The apostrophe, which quotes names literally. -/
def apostrophe : Char := Char.ofNat 39

/-- The name at the start of a line and what follows. -/
def name? : List Char → Option (List Char × List Char)
  | [] => none
  | c :: rest =>
    if c = '"' then quotedName? [] 0 rest
    else if c = apostrophe then
      let name := rest.takeWhile (fun c => c ≠ apostrophe && !isControl c)
      match rest.drop name.length with
      | q :: after => if q = apostrophe then some (name, after) else none
      | [] => none
    else
      let name := (c :: rest).takeWhile isBareKey
      if name.isEmpty then none else some (name, (c :: rest).drop name.length)

/-- A text without the comment at its end, if the comment is legal. -/
def stripComment? (cs : List Char) : Option (List Char) :=
  let front := cs.takeWhile (· ≠ '#')
  if (cs.drop front.length).any isControl then none else some front

def trimEnd (cs : List Char) : List Char :=
  (cs.reverse.dropWhile isIndent).reverse

/-- What has been set so far. -/
structure Draft where
  maxCallDepth : Option Nat := none
  echoTraces : Option Bool := none

/-- Set a value that was not set before. -/
def Draft.set? (d : Draft) (name value : List Char) : Option Draft :=
  if name = "max_call_depth".toList then
    match d.maxCallDepth, natural? value with
    | none, some n => some { d with maxCallDepth := some n }
    | _, _ => none
  else if name = "echo_traces".toList then
    match d.echoTraces, truth? value with
    | none, some b => some { d with echoTraces := some b }
    | _, _ => none
  else none

/-- Take one line into account. -/
def Draft.line? (d : Draft) (line : List Char) : Option Draft :=
  let line := line.dropWhile isIndent
  match line with
  | [] => some d
  | '#' :: comment => if comment.any isControl then none else some d
  | _ => do
    let (name, rest) ← name? line
    match rest.dropWhile isIndent with
    | '=' :: value => d.set? name (trimEnd (← stripComment? (value.dropWhile isIndent)))
    | _ => none

/-- The lines of a text; a line may end with a carriage return before its line
feed. -/
def lines (line : List Char) : List Char → List (List Char)
  | [] => [line.reverse]
  | '\n' :: rest => line.reverse :: lines [] rest
  | '\r' :: '\n' :: rest => line.reverse :: lines [] rest
  | c :: rest => lines (c :: line) rest

/-- The settings in a configuration text. A byte order mark in front is
ignored. -/
def read? (source : String) : Option Settings := do
  let text := match source.toList with
    | '\ufeff' :: rest => rest
    | cs => cs
  let draft ← (lines [] text).foldlM Draft.line? {}
  let base : Settings := {}
  return {
    maxCallDepth := draft.maxCallDepth.getD base.maxCallDepth
    echoTraces := draft.echoTraces.getD base.echoTraces }

end Settings

end TraceLang
