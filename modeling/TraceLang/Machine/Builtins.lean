/-
# TraceLang.Machine.Builtins — the standard functions

Printing, lengths, appending, copying, conversion to text, and assertions.
-/
import TraceLang.Heap.Copy
import TraceLang.Heap.Text
import TraceLang.Machine.Call

namespace TraceLang

set_option autoImplicit false

namespace Builtins

/-- The single argument of a function. -/
def one (name : String) (args : List Variable) : Action Value :=
  match args with
  | [v] => pure v.value
  | _ => Action.fail (.arity name 1 args.length)

/-- The two arguments of a function. -/
def two (name : String) (args : List Variable) : Action (Value × Value) :=
  match args with
  | [v, w] => pure (v.value, w.value)
  | _ => Action.fail (.arity name 2 args.length)

/-- Print the arguments on a line, separated by spaces. -/
def print : Handler := fun _ args _ => do
  let texts ← Action.read fun m => args.map fun v => m.heap.text v.value
  Action.print (" ".intercalate texts ++ "\n")
  return .none

/-- The number of elements of a list or of characters of a string. -/
def len : Handler := fun _ args _ => do
  match ← one "len" args with
  | .list l =>
    let n ← Action.read fun m => (m.heap.elements l).size
    Machine.ofExcept (Operators.lengthValue n)
  | .str s => Machine.ofExcept (Operators.lengthValue s.length)
  | other => Action.fail (.typeMismatch .listOrString other.ty)

/-- Add an element at the end of a list. -/
def append : Handler := fun _ args _ => do
  match ← two "append" args with
  | (.list l, v) =>
    Action.modify fun m => { m with heap := m.heap.push l v }
    return .none
  | (other, _) => Action.fail (.typeMismatch (.type .list) other.ty)

/-- A detached copy of a list. -/
def copy : Handler := fun _ args _ => do
  match ← one "copy" args with
  | .list l => Action.onHeap fun h => h.deepCopy (.list l)
  | other => Action.fail (.typeMismatch (.type .list) other.ty)

/-- The text of a value. -/
def str : Handler := fun _ args _ => do
  let v ← one "str" args
  Action.read fun m => .str (m.heap.text v)

/-- Fail unless the argument is true. -/
def assert : Handler := fun _ args _ => do
  match ← one "assert" args with
  | .bool true => return .none
  | .bool false => Action.fail .assertionFailed
  | other => Action.fail (.typeMismatch (.type .bool) other.ty)

/-- The standard functions by name. -/
def standard : List (String × Handler) :=
  [("print", print), ("len", len), ("append", append), ("copy", copy), ("str", str),
   ("assert", assert)]

end Builtins

/-- The surroundings of a machine with the standard functions. -/
def Env.standard (settings : Settings) : Env :=
  { settings, builtins := Builtins.standard }

end TraceLang
