/-
# TraceLang.Context — what is being executed

Every instruction and every call in an expression runs under a frame. The stack
of frames tells `break`, `continue` and `return` whether they stand in a loop or
a function, and it is the backtrace of a fault.
-/
import TraceLang.Text.Span

namespace TraceLang

set_option autoImplicit false

/-- What a frame was opened for. -/
inductive Status
  | whileLoop
  | forLoop
  | conditional
  | declaration
  | assignment
  | predefinedCall
  | userFunction
  | traceStart
  | functionDefinition
  | leave
  | again
  | result
deriving DecidableEq, Repr, Inhabited

namespace Status

def all : List Status :=
  [.whileLoop, .forLoop, .conditional, .declaration, .assignment, .predefinedCall, .userFunction,
   .traceStart, .functionDefinition, .leave, .again, .result]

/-- The name of a status in a backtrace. -/
def label : Status → String
  | .whileLoop => "while-loop"
  | .forLoop => "for-loop"
  | .conditional => "if"
  | .declaration => "declaration"
  | .assignment => "assignment"
  | .predefinedCall => "predefined-call"
  | .userFunction => "user-function"
  | .traceStart => "trace-start"
  | .functionDefinition => "function-definition"
  | .leave => "break"
  | .again => "continue"
  | .result => "return"

def isLoop : Status → Bool
  | .whileLoop | .forLoop => true
  | _ => false

end Status

/-- One instruction or call in progress. -/
structure Frame where
  status : Status
  span : Span
  /-- The name of a function or the target of a write. -/
  detail : Option String := none
deriving DecidableEq, Repr, Inhabited

/-- A line of a backtrace. -/
def Frame.text (f : Frame) : String :=
  match f.detail with
  | some detail => f.status.label ++ " `" ++ detail ++ "` at " ++ f.span.text
  | none => f.status.label ++ " at " ++ f.span.text

/-- The frames in progress, innermost last. -/
structure Context where
  frames : Array Frame := #[]
deriving DecidableEq, Repr, Inhabited

namespace Context

def depth (c : Context) : Nat :=
  c.frames.size

def push (c : Context) (f : Frame) : Context :=
  { frames := c.frames.push f }

/-- Remove the innermost frames until `depth` are left. -/
def truncate (c : Context) (depth : Nat) : Context :=
  { frames := c.frames.shrink depth }

/-- Remove the innermost frame. -/
def pop (c : Context) : Context :=
  { frames := c.frames.pop }

/-- The innermost frame. -/
def top? (c : Context) : Option Frame :=
  c.frames.back?

/-- The loops among the first `i` frames, counted from the last of them down to
the call of a function. -/
def countLoops (frames : Array Frame) : (i : Nat) → Nat
  | 0 => 0
  | i + 1 =>
    match frames[i]? with
    | some f =>
      if f.status = .userFunction then 0
      else (if f.status.isLoop then 1 else 0) + countLoops frames i
    | none => 0

/-- The number of loops around the innermost frame inside its function. -/
def loopDepth (c : Context) : Nat :=
  countLoops c.frames c.frames.size

/-- Whether a function is being executed. -/
def inFunction (c : Context) : Bool :=
  c.frames.any (·.status = .userFunction)

/-- The lines of a backtrace, outermost first. -/
def describe (c : Context) : List String :=
  c.frames.toList.map Frame.text

end Context

end TraceLang
