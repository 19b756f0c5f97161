/-
# TraceLang.Machine.Engine — functions by name

A name denotes a user function or, if there is none, a builtin one. Builtin
functions are handlers: they get the evaluated arguments and may call other
functions by name. An engine is what the execution of a piece of program needs
besides the machine: the surroundings, a way to call functions, and fuel for
loops.
-/
import TraceLang.Machine.Action
import TraceLang.Settings

namespace TraceLang

set_option autoImplicit false

/-- A way to call a function with evaluated arguments, on behalf of a place.
The result is missing if the function returns nothing. -/
abbrev Caller := String → List Variable → Span → Action (Option Variable)

/-- A builtin function. -/
abbrev Handler := Caller → List Variable → Span → Action Value

/-- What surrounds a machine and never changes while it runs. -/
structure Env where
  settings : Settings := {}
  builtins : List (String × Handler) := []

/-- The surroundings with a builtin function added or replaced. -/
def Env.register (env : Env) (name : String) (handler : Handler) : Env :=
  { env with builtins := (name, handler) :: env.builtins.filter (·.1 ≠ name) }

/-- What a name denotes in a call. -/
inductive Callee
  | builtin (handler : Handler)
  | user (f : Defined)

/-- The status of the frame of a call. -/
def Callee.status : Callee → Status
  | .builtin _ => .predefinedCall
  | .user _ => .userFunction

namespace Env

def isBuiltin (env : Env) (name : String) : Bool :=
  (env.builtins.lookup name).isSome

/-- What a name denotes; user functions come first. -/
def callee? (env : Env) (m : Machine) (name : String) : Option Callee :=
  match m.function? name with
  | some f => some (.user f)
  | none => (env.builtins.lookup name).map .builtin

/-- Drop equal neighbours. -/
def distinct : List String → List String
  | a :: b :: rest => if a = b then distinct (b :: rest) else a :: distinct (b :: rest)
  | names => names

/-- The names of all functions in increasing order. -/
def functionNames (env : Env) (m : Machine) : List String :=
  distinct ((m.functions.map (·.1) ++ env.builtins.map (·.1)).mergeSort (fun a b => decide (a ≤ b)))

/-- What a name denotes, or a fault that proposes a similar name. -/
def lookup (env : Env) (name : String) : Action Callee :=
  fun m =>
    match env.callee? m name with
    | some callee => .ok callee m
    | none =>
      .fault { cause := .unknownFunction name (similarName name (env.functionNames m) 2) } m

end Env

/-- What the execution of a piece of program needs besides the machine. -/
structure Engine where
  env : Env
  call : Caller
  /-- The greatest number of passes of a loop. -/
  fuel : Nat

/-- Call a function inside an expression, under a frame of its own. A function
that returns nothing gives `none`. -/
def Engine.invoke (g : Engine) (name : String) (args : List Variable) (span : Span) :
    Action Variable := do
  let callee ← (g.env.lookup name).located span
  let frame : Frame := { status := callee.status, span, detail := some name }
  let result ← Action.framed frame (g.call name args span)
  return result.getD (.fresh .none)

end TraceLang
