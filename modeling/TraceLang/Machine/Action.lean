/-
# TraceLang.Machine.Action — steps of a machine

An action takes a machine and ends in one of three ways: with a value, with a
fault, or out of fuel. A machine is left behind in the first two cases. An action
that goes on for ever is out of fuel with any amount of it. The bracket actions
restore what they change however the inner action ends.
-/
import TraceLang.Fault
import TraceLang.Machine.Basic

namespace TraceLang

set_option autoImplicit false

/-- How an action ends. -/
inductive Outcome (α : Type)
  | ok (value : α) (m : Machine)
  | fault (f : Fault) (m : Machine)
  | outOfFuel

/-- A computation on a machine. -/
def Action (α : Type) : Type :=
  Machine → Outcome α

namespace Action

@[always_inline, inline]
protected def pure {α : Type} (a : α) : Action α :=
  fun m => .ok a m

@[always_inline, inline]
protected def bind {α β : Type} (act : Action α) (f : α → Action β) : Action β :=
  fun m =>
    match act m with
    | .ok a m => f a m
    | .fault e m => .fault e m
    | .outOfFuel => .outOfFuel

@[always_inline]
instance : Monad Action where
  pure := Action.pure
  bind := Action.bind

/-- Read from the machine. -/
@[inline]
def read {α : Type} (f : Machine → α) : Action α :=
  fun m => .ok (f m) m

/-- Change the machine. -/
@[inline]
def modify (f : Machine → Machine) : Action Unit :=
  fun m => .ok () (f m)

/-- Fail; the place is still to be told. -/
def fail {α : Type} (cause : Cause) : Action α :=
  fun m => .fault { cause } m

/-- Fail at a place. -/
def failAt {α : Type} (cause : Cause) (span : Span) : Action α :=
  fun m => .fault { cause, span := some span } m

/-- Ask something of the output. What it refuses is a fault. -/
def ask (r : Request) : Action Unit :=
  fun m =>
    match m.output.refusal? r with
    | none => .ok () (m.ask r)
    | some refusal => .fault { cause := .output refusal.reason } (m.ask r)

/-- Print text and flush it. -/
def print (text : String) : Action Unit := do
  ask (.write text)
  ask .flush

/-- The heap's answer to an operation that may allocate. -/
@[inline]
def onHeap {α : Type} (f : Heap → α × Heap) : Action α :=
  fun m =>
    let (a, heap) := f m.heap
    .ok a { m with heap }

/-- Fail with a defect that gives a full account of a control signal. If the account
has no end, neither has the action. -/
def stray {α : Type} (defect : String → Defect) (flow : Flow) : Action α :=
  fun m =>
    match flow.detail m.heap with
    | some account => .fault { cause := .defect (defect account) } m
    | none => .outOfFuel

/-- Faults without a place are about this one. -/
@[inline]
def located {α : Type} (span : Span) (act : Action α) : Action α :=
  fun m =>
    match act m with
    | .fault f m => .fault (f.locate span) m
    | other => other

/-! ## Brackets -/

/-- Run an action, then change the machine however it ended. -/
@[inline]
def afterwards {α : Type} (act : Action α) (f : Machine → Machine) : Action α :=
  fun m =>
    match act m with
    | .ok a m => .ok a (f m)
    | .fault e m => .fault e (f m)
    | .outOfFuel => .outOfFuel

/-- Run an action in a new scope. -/
def withScope {α : Type} (act : Action α) : Action α :=
  fun m =>
    let base := m.scopes.depth
    afterwards act (fun m => { m with scopes := m.scopes.truncate base })
      { m with scopes := m.scopes.push }

/-- Run a pass over the body of a loop, which is marked meanwhile. -/
def withIterating {α : Type} (loop : Site) (act : Action α) : Action α :=
  fun m =>
    let before := m.isIterating loop
    afterwards act (fun m => { m with iterating := loop.setMark before m.iterating })
      { m with iterating := loop.setMark true m.iterating }

/-- Run the body of a user function, if one more call is within the limit. -/
def withCall {α : Type} (limit : Nat) (span : Span) (act : Action α) : Action α :=
  fun m =>
    let before := m.callDepth
    if limit < before + 1 then .fault { cause := .callDepth limit, span := some span } m
    else afterwards act (fun m => { m with callDepth := before }) { m with callDepth := before + 1 }

/-- The defect of an action that began with the given numbers of frames and
scopes and did not return to them. -/
def imbalance? (frames scopes : Nat) (m : Machine) : Option Defect :=
  if m.context.depth = frames + 1 ∧ m.scopes.depth = scopes then none
  else some (.unbalanced m.context.frames[frames]? m.context.depth (frames + 1) m.scopes.depth scopes)

/-- Run an action under a frame. A fault that leaves its first frame takes the
frames in progress with it. When the action leaves scopes or frames open, or
closes those of others, that defect is the outcome. -/
def framed {α : Type} (frame : Frame) (act : Action α) : Action α :=
  fun m =>
    let frames := m.context.depth
    let scopes := m.scopes.depth
    match act { m with context := m.context.push frame } with
    | .outOfFuel => .outOfFuel
    | .ok a m =>
      match imbalance? frames scopes m with
      | none => .ok a { m with context := m.context.truncate frames }
      | some d =>
        .fault { cause := .defect d, span := some frame.span }
          { m with context := m.context.truncate frames, scopes := m.scopes.truncate scopes }
    | .fault f m =>
      match imbalance? frames scopes m with
      | none =>
        .fault ((f.trace m.context).locate frame.span)
          { m with context := m.context.truncate frames }
      | some d =>
        .fault { cause := .defect d, span := some frame.span }
          { m with context := m.context.truncate frames, scopes := m.scopes.truncate scopes }

/-! ## Loops -/

/-- Repeat a body while a condition holds, with a step after each pass, at most
`fuel` times. -/
def repeatWhile (cond : Action Bool) (body : Action Flow) (step : Action Unit) :
    (fuel : Nat) → Action Flow
  | 0 => fun _ => .outOfFuel
  | fuel + 1 => do
    if ← cond then
      match ← body with
      | .leave => return .next
      | .result value => return .result value
      | .next | .again =>
        step
        repeatWhile cond body step fuel
    else return .next

end Action

end TraceLang
