/-
# TraceLang.Machine.Probes — functions that look into the machine

A host can give programs functions of its own. These show the depths of the
stacks, the frames, the arguments of a call and the loops in progress, call a
function by name, and open or close scopes.
-/
import TraceLang.Machine.Builtins

namespace TraceLang

set_option autoImplicit false

namespace Probes

/-- A new list as the result of a function. -/
def listOf (values : List Value) : Action Value :=
  Action.onHeap fun h => h.newList values

/-- The numbers of frames and of scopes. -/
def depths : Handler := fun _ _ _ => do
  let frames ← Action.read (·.context.depth)
  let scopes ← Action.read (·.scopes.depth)
  listOf [.int (Int64.ofInt frames), .int (Int64.ofInt scopes)]

/-- The lines of a backtrace. -/
def frames : Handler := fun _ _ _ => do
  let lines ← Action.read (·.context.describe)
  listOf (lines.map .str)

/-- Open a scope and leave it open. -/
def leak : Handler := fun _ _ _ => do
  Action.modify fun m => { m with scopes := m.scopes.push }
  return .none

/-- Close a scope that someone else has opened; tells whether there was one. -/
def unleak : Handler := fun _ _ _ m =>
  match m.scopes.pop? with
  | some scopes => .ok (.bool true) { m with scopes }
  | none => .ok (.bool false) m

/-- The names and versions of the arguments, and the place of the call. -/
def args : Handler := fun _ args span =>
  let shown := args.map fun v => v.name.getD "-" ++ ":" ++ toString v.version
  listOf ((shown ++ [span.text]).map .str)

/-- Call the function that the first argument names. -/
def call : Handler := fun call args span => do
  match args with
  | [] => Action.fail (.arity "call" 1 0)
  | f :: rest =>
    let name ← Action.read fun m => m.heap.text f.value
    match ← call name rest span with
    | some v => return v.value
    | none => return .str "<nothing>"

/-- Which of some loops are inside their bodies. -/
def iterating (loops : List Site) : Handler := fun _ _ _ => do
  let flags ← Action.read fun m => loops.map fun loop => m.isIterating loop
  listOf (flags.map .bool)

/-- All probes by name; `loops` are the loops to tell about. -/
def all (loops : List Site) : List (String × Handler) :=
  [("depths", depths), ("frames", frames), ("leak", leak), ("unleak", unleak), ("args", args),
   ("call", call), ("iterating", iterating loops)]

end Probes

/-- The surroundings with the probes added. -/
def Env.withProbes (env : Env) (loops : List Site) : Env :=
  (Probes.all loops).foldl (fun env (name, handler) => env.register name handler) env

end TraceLang
