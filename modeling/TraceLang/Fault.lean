/-
# TraceLang.Fault — why a program fails

A fault has a cause, the place it is about, and the frames that were in
progress when it arose. Causes are data; `Cause.message` gives each its words.
-/
import TraceLang.Context
import TraceLang.Suggest
import TraceLang.Syntax.Expr

namespace TraceLang

set_option autoImplicit false

/-- What a value should have been. -/
inductive Expected
  | type (t : Ty)
  | listOrString
  | number
  | operands (op : BinOp)
deriving DecidableEq, Repr

def Expected.text : Expected → String
  | .type t => t.keyword
  | .listOrString => "list or string"
  | .number => "int or float"
  | .operands op => "operands supported by `" ++ op.text ++ "`"

/-- A computation whose result is too large for an integer. -/
inductive Computation
  | addition
  | subtraction
  | multiplication
  | division
  | modulo
  | negation
  | length
deriving DecidableEq, Repr

def Computation.text : Computation → String
  | .addition => "addition"
  | .subtraction => "subtraction"
  | .multiplication => "multiplication"
  | .division => "division"
  | .modulo => "modulo"
  | .negation => "negation"
  | .length => "len"

/-- A control instruction where it makes no sense. -/
inductive Misplaced
  | leave
  | again
  | result
  /-- A `break` or `continue` that would leave a function. -/
  | acrossFunction
deriving DecidableEq, Repr

def Misplaced.text : Misplaced → String
  | .leave => "break outside of a loop"
  | .again => "continue outside of a loop"
  | .result => "return outside of a function"
  | .acrossFunction => "break/continue cannot leave a function body"

/-- A defect of the machine or of a function added to it, not of the program. -/
inductive Defect
  /-- A control signal left the program. -/
  | escaped (flow : String)
  /-- A header statement of a loop gave a control signal. -/
  | header (isStep : Bool) (flow : String)
  /-- Scopes or frames were not closed again. -/
  | unbalanced (owner : Option Frame) (frames expectedFrames scopes expectedScopes : Nat)
deriving DecidableEq, Repr

def Defect.text : Defect → String
  | .escaped flow => "control signal " ++ flow ++ " escaped the program"
  | .header isStep flow =>
    (if isStep then "for-loop step" else "for-loop initializer") ++ " produced " ++ flow
  | .unbalanced owner frames expectedFrames scopes expectedScopes =>
    (match owner with
      | some f => f.text
      | none => "<lost frame>")
      ++ " left the stacks unbalanced: context depth " ++ toString frames
      ++ " (expected " ++ toString expectedFrames ++ "), scope depth " ++ toString scopes
      ++ " (expected " ++ toString expectedScopes ++ ")"

/-- Why a program fails. -/
inductive Cause
  | invalidName (name : String)
  | alreadyDeclared (name : String)
  | nothingToOverwrite (name : String)
  | unassigned (what : String)
  | typeMismatch (expected : Expected) (found : Ty)
  | alreadyTraced (label : String)
  | tracedOverwrite (name : String)
  | unknownFunction (name : String) (similar : Option String)
  | duplicateFunction (name : String)
  | arity (name : String) (expected found : Nat)
  | undefinedVariable (name : String) (similar : Option String)
  | outOfBounds (index : Int64) (length : Nat)
  | divisionByZero
  | overflow (computation : Computation)
  | notALocation (what : String)
  | misplaced (control : Misplaced)
  | assertionFailed
  | output (message : String)
  | callDepth (limit : Nat)
  | defect (d : Defect)
deriving DecidableEq, Repr

namespace Cause

/-- The words for a cause. -/
def message : Cause → String
  | .invalidName name => "invalid variable name: " ++ quoted name
  | .alreadyDeclared name => "variable " ++ name ++ " is already declared in this scope"
  | .nothingToOverwrite name => "cannot overwrite " ++ name ++ ": no such variable in this scope"
  | .unassigned what => what ++ " was declared but never assigned"
  | .typeMismatch expected found =>
    "type mismatch: expected " ++ expected.text ++ ", got " ++ found.keyword
  | .alreadyTraced label => label ++ " is already traced"
  | .tracedOverwrite name => "cannot redeclare " ++ name ++ ": it is being traced"
  | .unknownFunction name similar => "unknown function: " ++ name ++ hint similar
  | .duplicateFunction name => "function " ++ name ++ " is already defined"
  | .arity name expected found =>
    "function " ++ name ++ " expects " ++ toString expected ++ " argument(s), got "
      ++ toString found
  | .undefinedVariable name similar => "undefined variable: " ++ name ++ hint similar
  | .outOfBounds index length =>
    "index " ++ toString index.toInt ++ " out of bounds for length " ++ toString length
  | .divisionByZero => "division by zero"
  | .overflow computation => "integer overflow in " ++ computation.text
  | .notALocation what => what ++ " is not a variable or element"
  | .misplaced control => control.text
  | .assertionFailed => "assertion failed"
  | .output message => "IO error: " ++ message
  | .callDepth limit => "call depth limit of " ++ toString limit ++ " exceeded"
  | .defect d => d.text

/-- Whether the machine is to blame, not the program. -/
def isDefect : Cause → Bool
  | .defect _ => true
  | _ => false

end Cause

/-- A failure of a program. -/
structure Fault where
  cause : Cause
  /-- The place, once it is known. -/
  span : Option Span := none
  /-- The frames in progress, outermost first; empty until the fault leaves the
  first of them. -/
  backtrace : List Frame := []
deriving DecidableEq, Repr

namespace Fault

/-- Set the place unless a more precise one is set. -/
def locate (f : Fault) (span : Span) : Fault :=
  { f with span := some (f.span.getD span) }

/-- Record the frames in progress unless they are recorded. -/
def trace (f : Fault) (context : Context) : Fault :=
  if f.backtrace.isEmpty then { f with backtrace := context.frames.toList } else f

def message (f : Fault) : String :=
  f.cause.message

/-- The fault as it is reported. -/
def report (f : Fault) : String :=
  (if f.cause.isDefect then "Internal interpreter error: " else "Runtime error: ") ++ f.message

end Fault

end TraceLang
