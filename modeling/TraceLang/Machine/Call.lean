/-
# TraceLang.Machine.Call — calls and whole programs

A user function runs in a scope of its own, opened inside the scopes of its
caller, with its parameters declared in it. `callByName` ties the knot between
calls and the execution of bodies; its fuel bounds how deeply calls nest.
-/
import TraceLang.Machine.Execute

namespace TraceLang

set_option autoImplicit false

namespace Machine

/-- Declare the parameters of a function with the arguments of a call. -/
def bindParams (span : Span) : List Param → List Variable → Action Unit
  | p :: params, v :: args => do
    discard (bind { name := p.name, ty := p.ty, init := .none span } v)
    bindParams span params args
  | _, _ => return ()

/-- Call a user function. -/
def callUser (g : Engine) (f : Defined) (args : List Variable) (span : Span) :
    Action (Option Variable) := do
  let func := f.function
  if func.params.length ≠ args.length then
    Action.failAt (.arity func.name func.params.length args.length) span
  else
    let flow ← Action.withCall g.env.settings.maxCallDepth span <| Action.withScope do
      bindParams span func.params args
      runBlock g f.site.unit f.site.path.body 0 func.body
    match flow with
    | .result value => return value
    | .next => return none
    | .leave | .again => Action.failAt (.misplaced .acrossFunction) span

/-- Call a function by name. The caller provides the frame. -/
def callByName (env : Env) : (fuel : Nat) → Caller
  | 0 => fun _ _ _ _ => .outOfFuel
  | fuel + 1 => fun name args span => do
    match ← env.lookup name with
    | .builtin handler =>
      let v ← Action.located span (handler (callByName env fuel) args span)
      return some (.fresh v)
    | .user f => callUser { env, call := callByName env fuel, fuel } f args span

end Machine

/-- More passes of a loop, and more calls inside each other, than a run can
make. -/
def ampleFuel : Nat := 0x4000000000000000

/-- The engine with the given fuel. -/
def Env.engine (env : Env) (fuel : Nat) : Engine :=
  { env, call := Machine.callByName env fuel, fuel }

namespace Machine

/-- Execute the body of the program with the given number. -/
def runBody (g : Engine) (unit : Nat) (body : List Instr) : Action Flow :=
  runBlock g unit [] 0 body

/-- Run a program under a number of its own. No control signal may leave it. -/
def run (g : Engine) (unit : Nat) (prog : Program) : Action Unit := do
  match ← runBody g unit prog.body with
  | .next => return ()
  | flow => Action.stray .escaped flow

/-- Call a function without arguments, under a frame at the place of its
definition. -/
def runEntry (g : Engine) (name : String) : Action (Option Variable) := do
  let span ← Action.read fun m => ((m.function? name).map (·.function.span)).getD {}
  let callee ← g.env.lookup name
  Action.framed { status := callee.status, span, detail := some name } (g.call name [] span)

end Machine

end TraceLang
