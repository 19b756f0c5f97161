/-
# TraceLang.Machine.Basic — the state of a running program

A machine holds all that a program can change. It knows an instruction by its
site: the number of its program, which is up to whoever runs it, and the path
inside the program. Two things are kept per site: whether a loop is inside its
body, and how often a call statement has completed.
-/
import Std.Data.HashMap
import TraceLang.Context
import TraceLang.Heap.Text
import TraceLang.Output
import TraceLang.Scopes
import TraceLang.Syntax.Program
import TraceLang.Tracer

namespace TraceLang

set_option autoImplicit false

/-- An instruction of a program. -/
structure Site where
  /-- The number of the program. -/
  unit : Nat
  path : Path
deriving DecidableEq, Hashable, Repr, Inhabited

/-- Some marked sites, with the mark of this one set or taken away. -/
def Site.setMark (site : Site) (marked : Bool) (sites : List Site) : List Site :=
  if marked then sites.insert site else sites.filter (· ≠ site)

/-- A user function and the site of its definition. -/
structure Defined where
  function : Function
  site : Site
deriving Repr, Inhabited

/-- The state of a running program. -/
structure Machine where
  heap : Heap := {}
  scopes : Scopes := .global
  context : Context := {}
  /-- The user functions, each name once. -/
  functions : List (String × Defined) := []
  tracer : Tracer := {}
  /-- The calls of user functions in progress. -/
  callDepth : Nat := 0
  /-- The instructions begun so far. -/
  steps : Nat := 0
  output : Output := {}
  /-- The loops that are marked as iterating, each once. -/
  iterating : List Site := []
  /-- How often each call statement has completed. -/
  calls : Std.HashMap Site Nat := {}
deriving Inhabited

namespace Machine

/-- The variable visible under a name. -/
def lookup? (m : Machine) (name : String) : Option Variable :=
  (m.scopes.find? name).map m.heap.read

/-- The user function of a name. -/
def function? (m : Machine) (name : String) : Option Defined :=
  m.functions.lookup name

def isUserFunction (m : Machine) (name : String) : Bool :=
  (m.function? name).isSome

/-- Whether the loop is marked as iterating. -/
def isIterating (m : Machine) (loop : Site) : Bool :=
  loop ∈ m.iterating

/-- How often a call statement has completed. -/
def timesCalled (m : Machine) (call : Site) : Nat :=
  m.calls.getD call 0

/-- Ask something of the output. -/
def ask (m : Machine) (r : Request) : Machine :=
  { m with output := m.output.ask r }

/-- Print text, whether or not it is taken. -/
def echo (m : Machine) (text : String) : Machine :=
  m.ask (.write text)

/-- Drop all names, user functions and histories. Variables and lists are still in the
heap, but nothing leads to them any more. -/
def reset (m : Machine) : Machine :=
  { m with
    scopes := .global
    context := {}
    functions := []
    tracer := {}
    callDepth := 0
    steps := 0 }

end Machine

/-- How control leaves an instruction. -/
inductive Flow
  | next
  | leave
  | again
  | result (value : Option Variable)
deriving DecidableEq, Repr, Inhabited

/-- The full account of a control signal, if it comes to an end. -/
def Flow.detail (h : Heap) : Flow → Option String
  | .next => some "Next"
  | .leave => some "Break"
  | .again => some "Continue"
  | .result none => some "Return(None)"
  | .result (some v) => (h.detail v).map fun account => "Return(Some(" ++ account ++ "))"

end TraceLang
