/-
# TraceLang.Shell.Interactive — an interactive session

Lines are read one by one. A line that starts with a colon is a command. Other
lines are collected until their braces are closed and then run as a program or,
if they are none, printed as an expression. Variables, functions and traces
stay from one input to the next.
-/
import TraceLang.Machine.Builtins
import TraceLang.Syntax.Parser

namespace TraceLang

set_option autoImplicit false

/-- Where a scan for braces stands: between strings, inside one, or behind a
backslash inside one. -/
inductive BraceScan
  | code
  | string
  | escape
deriving DecidableEq, Repr

namespace BraceScan

/-- One more character: the new position and the change of the depth. -/
def step (s : BraceScan) (c : Char) : BraceScan × Int :=
  match s with
  | .escape => (.string, 0)
  | .string => if c = '\\' then (.escape, 0) else if c = '"' then (.code, 0) else (.string, 0)
  | .code =>
    if c = '"' then (.string, 0)
    else if c = '\x7b' then (.code, 1)
    else if c = '\x7d' then (.code, -1)
    else (.code, 0)

/-- The braces opened and not closed in the rest of a text. -/
def depth : BraceScan → List Char → Int
  | _, [] => 0
  | s, c :: rest => (s.step c).2 + depth (s.step c).1 rest

end BraceScan

/-- The braces opened and not closed in a text, those in strings apart. -/
def braceDepth (source : String) : Int :=
  BraceScan.code.depth source.toList

/-- An interactive session. What it prints is collected: regular text in the
output of the machine, complaints apart. -/
structure Interactive where
  machine : Machine := {}
  /-- The programs run so far. -/
  programs : Nat := 0
  /-- The lines of an unfinished block. -/
  pending : String := ""
  complaints : String := ""
  ended : Bool := false

namespace Interactive

/-- Print regular text. -/
def say (s : Interactive) (text : String) : Interactive :=
  { s with machine := s.machine.echo text }

def sayLine (s : Interactive) (line : String) : Interactive :=
  s.say (line ++ "\n")

/-- Print a complaint. -/
def complain (s : Interactive) (line : String) : Interactive :=
  { s with complaints := s.complaints ++ line ++ "\n" }

def greeting : String :=
  "Trail REPL v0.1.0\nType :help for help, :quit to exit.\n\n"

def farewell : String :=
  "Goodbye!"

def help : List String :=
  ["Trail REPL Commands:",
   "  :help, :h, :?   Show this help",
   "  :quit, :q       Exit the REPL",
   "  :clear          Clear the screen",
   "  :vars           List visible variables",
   "  :traces         Dump trace histories as JSON",
   "  :reset          Forget variables, functions and traces",
   "",
   "You can enter:",
   "  - Statements: int x = 1;  x = x + 1;  trace(x);",
   "  - Blocks over several lines: while x < 3 \x7b ... \x7d",
   "  - Expressions: x * 2",
   "",
   "Built-in functions:",
   "  print(a, ...)   Print values separated by spaces",
   "  len(x)          Length of a list or string",
   "  append(l, v)    Push v onto list l",
   "  copy(l)         Independent copy of list l",
   "  str(x)          String form of any value",
   "  assert(cond)    Fail unless cond is true"]

/-- The line that shows a variable. -/
def variableLine (m : Machine) (name : String) (v : Variable) : String :=
  let traced := if v.traced then " (traced)" else ""
  if v.assigned then name ++ ": " ++ v.value.ty.keyword ++ " = " ++ m.heap.text v.value ++ traced
  else name ++ ": " ++ v.value.ty.keyword ++ " (unassigned)" ++ traced

/-- The visible variables, by name. -/
def variableLines (m : Machine) : List String :=
  (m.scopes.visibleNames.mergeSort (fun a b => decide (a ≤ b))).filterMap fun name =>
    (m.lookup? name).map (variableLine m name)

/-- Run a text as a program. Faults are reported; a text that is no program is
handed back with the reason. -/
def runSource (g : Engine) (s : Interactive) (source : String) : Except SourceError Interactive :=
  match Program.read source with
  | .error e => .error e
  | .ok prog =>
    let programs := s.programs + 1
    match Machine.run g s.programs prog s.machine with
    | .ok () machine => .ok { s with machine, programs }
    | .fault f machine =>
      let s := { s with machine, programs }
      .ok ((f.backtrace.map fun frame => "  in " ++ frame.text).foldl complain (s.complain f.report))
    | .outOfFuel => .ok s

/-- Run an input as a program or else print it as an expression. -/
def input (g : Engine) (s : Interactive) (source : String) : Interactive :=
  match runSource g s source with
  | .ok s => s
  | .error e =>
    match runSource g s ("print(" ++ source ++ ");") with
    | .ok s => s
    | .error _ => s.complain e.report

/-- Carry out a command. -/
def command (s : Interactive) (cmd : String) : Interactive :=
  if cmd = ":quit" ∨ cmd = ":q" ∨ cmd = ":exit" then { s.sayLine farewell with ended := true }
  else if cmd = ":help" ∨ cmd = ":h" ∨ cmd = ":?" then help.foldl sayLine s
  else if cmd = ":clear" then s.say "\x1b[2J\x1b[1;1H"
  else if cmd = ":vars" then (variableLines s.machine).foldl sayLine s
  else if cmd = ":traces" then s.sayLine s.machine.tracer.jsonText
  else if cmd = ":reset" then { s with machine := s.machine.reset }.sayLine "State cleared."
  else (s.sayLine ("Unknown command: " ++ cmd)).sayLine "Type :help for help."

/-- Collect a line and run what was collected once its braces are closed. -/
def feed (g : Engine) (s : Interactive) (line : String) : Interactive :=
  let pending := if s.pending.isEmpty then line else s.pending ++ "\n" ++ line
  if 0 < braceDepth pending then { s with pending }
  else input g { s with pending := "" } pending

/-- White space at the ends of a line. -/
def isSpace (c : Char) : Bool :=
  let n := c.toNat
  (9 ≤ n && n ≤ 13) || n = 0x20 || n = 0x85 || n = 0xa0 || n = 0x1680 || (0x2000 ≤ n && n ≤ 0x200a)
    || n = 0x2028 || n = 0x2029 || n = 0x202f || n = 0x205f || n = 0x3000

def trim (line : String) : String :=
  String.ofList ((line.toList.dropWhile isSpace).reverse.dropWhile isSpace).reverse

/-- Take a line of input. -/
def line (g : Engine) (s : Interactive) (line : String) : Interactive :=
  let text := trim line
  if s.ended ∨ text.isEmpty then s
  else if s.pending.isEmpty ∧ text.toList.head? = some ':' then s.command text
  else s.feed g text

/-- The end of the input. -/
def finish (s : Interactive) : Interactive :=
  if s.ended then s else { s.sayLine farewell with ended := true }

/-- A new session, with its greeting. -/
def start : Interactive :=
  ({ } : Interactive).say greeting

end Interactive

end TraceLang
