/-
# TraceLang.Machine.Eval — expressions

`eval` gives a variable, not only a value: reading a variable also tells its
name and whether it was assigned. `resolve` gives the place that an expression
denotes. Operands are evaluated from left to right.
-/
import TraceLang.Heap.Copy
import TraceLang.Machine.Engine
import TraceLang.Machine.Operators

namespace TraceLang

set_option autoImplicit false

namespace Machine

/-- The variable of a name, or a fault that proposes a similar name. -/
def locate (name : String) : Action CellId :=
  fun m =>
    match m.scopes.find? name with
    | some c => .ok c m
    | none =>
      .fault { cause := .undefinedVariable name (similarName name m.scopes.visibleNames 2) } m

/-- A variable that was read from an expression and is to be used as a value. -/
def used (e : Expr) (v : Variable) : Action Variable :=
  if v.assigned then pure v else Action.failAt (.unassigned (v.name.getD e.text)) e.span

/-- The truth value of an expression. -/
def truth (e : Expr) (v : Variable) : Action Bool := do
  let v ← used e v
  match v.value with
  | .bool b => return b
  | other => Action.failAt (.typeMismatch (.type .bool) other.ty) e.span

/-- The integer value of an index. -/
def position (e : Expr) (v : Variable) : Action Int64 := do
  let v ← used e v
  match v.value with
  | .int n => return n
  | other => Action.failAt (.typeMismatch (.type .int) other.ty) e.span

/-- An item of a sequence by its position from the start. -/
def item {α : Type} (items : Array α) (i : Int64) : Except Cause α :=
  if i.toInt < 0 then .error (.outOfBounds i items.size)
  else
    match items[i.toInt.toNat]? with
    | some a => .ok a
    | none => .error (.outOfBounds i items.size)

/-- A result or a fault whose place is still to be told. -/
def ofExcept {α : Type} : Except Cause α → Action α
  | .ok a => pure a
  | .error cause => Action.fail cause

/-- The element of a list or the character of a string. -/
def element (base : Expr) (v : Variable) (i : Int64) : Action Variable :=
  match v.value with
  | .list l => do
    let cell ← fun m => ofExcept (item (m.heap.elements l) i) m
    Action.read fun m => m.heap.read cell
  | .str s => do
    let c ← ofExcept (item s.toList.toArray i)
    return .fresh (.str (String.singleton c))
  | other => Action.failAt (.typeMismatch .listOrString other.ty) base.span

/-- The result of an operator between two values. -/
def applyBinary (op : BinOp) (a b : Value) : Action Variable :=
  fun m =>
    match Operators.binary m.heap op a b with
    | .ok (v, heap) => .ok (.fresh v) { m with heap }
    | .error cause => .fault { cause } m

/-- The default value of a type, `none` for `auto`. -/
def defaultValue (ty : Ty) : Action Value :=
  Action.onHeap fun h => (h.default? ty).getD (.none, h)

mutual

/-- The variable that an expression gives. -/
def eval (g : Engine) : Expr → Action Variable
  | .int _ n => return .fresh (.int n)
  | .float _ x => return .fresh (.float x)
  | .bool _ b => return .fresh (.bool b)
  | .str _ s => return .fresh (.str s)
  | .none _ => return .fresh .none
  | .default _ ty => return .fresh (← defaultValue ty)
  | .list span items => Action.located span do
    let values ← evalArgs g items
    return .fresh (← Action.onHeap fun h => h.newList (values.map (·.value)))
  | .var span name => Action.located span do
    let cell ← locate name
    Action.read fun m => m.heap.read cell
  | .index span base index => Action.located span do
    let v ← used base (← eval g base)
    let i ← position index (← eval g index)
    element base v i
  | .binary span .and left right => Action.located span do
    if ← truth left (← eval g left) then
      return .fresh (.bool (← truth right (← eval g right)))
    else
      return .fresh (.bool false)
  | .binary span .or left right => Action.located span do
    if ← truth left (← eval g left) then
      return .fresh (.bool true)
    else
      return .fresh (.bool (← truth right (← eval g right)))
  | .binary span op left right => Action.located span do
    let a ← used left (← eval g left)
    let b ← used right (← eval g right)
    applyBinary op a.value b.value
  | .unary span op operand => Action.located span do
    let v ← used operand (← eval g operand)
    return .fresh (← ofExcept (Operators.unary op v.value))
  | .call span name args => Action.located span do
    let args ← evalArgs g args
    g.invoke name args span

/-- The assigned variables that some expressions give. -/
def evalArgs (g : Engine) : List Expr → Action (List Variable)
  | [] => return []
  | e :: rest => do
    let v ← used e (← eval g e)
    return v :: (← evalArgs g rest)

end

/-- The assigned variable that an expression gives. -/
def evalValue (g : Engine) (e : Expr) : Action Variable := do
  used e (← eval g e)

/-- The truth value that an expression gives. -/
def evalCondition (g : Engine) (e : Expr) : Action Bool := do
  truth e (← eval g e)

/-- The place that an expression denotes. -/
def resolve (g : Engine) : Expr → Action CellId
  | .var span name => Action.located span (locate name)
  | .index span base index => do
    let cell ← resolve g base
    let i ← position index (← eval g index)
    let v ← Action.read fun m => m.heap.read cell
    if v.assigned then
      match v.value with
      | .list l => Action.located span fun m => ofExcept (item (m.heap.elements l) i) m
      | .str _ =>
        Action.failAt
          (.notALocation ((Expr.index span base index).text ++ " (strings are immutable)")) span
      | other => Action.failAt (.typeMismatch (.type .list) other.ty) base.span
    else Action.failAt (.unassigned base.text) base.span
  | e => Action.failAt (.notALocation e.text) e.span

end Machine

end TraceLang
