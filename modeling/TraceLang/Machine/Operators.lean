/-
# TraceLang.Machine.Operators — what operators compute

Integers are exact: a result outside 64 bits is a fault. An integer beside a
floating-point number is converted to one. Equality is defined on all values,
order on numbers and on strings.
-/
import TraceLang.Fault
import TraceLang.Heap.Equality

namespace TraceLang

set_option autoImplicit false

namespace Operators

/-- An exact result, if it is in range. -/
def inRange (computation : Computation) (n : Int) : Except Cause Value :=
  if Int64.minValue.toInt ≤ n ∧ n ≤ Int64.maxValue.toInt then .ok (.int (Int64.ofInt n))
  else .error (.overflow computation)

/-- Operands that an operator does not take: the one to blame is the first that
is not a number. -/
def mismatch (op : BinOp) (a b : Value) : Cause :=
  .typeMismatch (.operands op)
    (match a with
      | .int _ | .float _ => b.ty
      | _ => a.ty)

/-- Division truncates toward zero, and the remainder has the sign of the
dividend. A remainder has no value where the quotient has none. -/
def onInts (op : BinOp) (x y : Int64) : Except Cause Value :=
  let a := x.toInt
  let b := y.toInt
  match op with
  | .add => inRange .addition (a + b)
  | .sub => inRange .subtraction (a - b)
  | .mul => inRange .multiplication (a * b)
  | .div => if b = 0 then .error .divisionByZero else inRange .division (a.tdiv b)
  | .mod =>
    if b = 0 then .error .divisionByZero
    else do
      let _ ← inRange .modulo (a.tdiv b)
      inRange .modulo (a.tmod b)
  | .eq => .ok (.bool (a = b))
  | .ne => .ok (.bool (a ≠ b))
  | .lt => .ok (.bool (a < b))
  | .le => .ok (.bool (a ≤ b))
  | .gt => .ok (.bool (b < a))
  | .ge => .ok (.bool (b ≤ a))
  | .and | .or => .error (mismatch op (.int x) (.int y))

def onFloats (op : BinOp) (a b : Binary64) : Except Cause Value :=
  match op with
  | .add => .ok (.float (a.add b))
  | .sub => .ok (.float (a.sub b))
  | .mul => .ok (.float (a.mul b))
  | .div => if b.isZero then .error .divisionByZero else .ok (.float (a.div b))
  | .mod => if b.isZero then .error .divisionByZero else .ok (.float (a.rem b))
  | .eq => .ok (.bool (a.eq b))
  | .ne => .ok (.bool (!a.eq b))
  | .lt => .ok (.bool (a.lt b))
  | .le => .ok (.bool (a.le b))
  | .gt => .ok (.bool (b.lt a))
  | .ge => .ok (.bool (b.le a))
  | .and | .or => .error (mismatch op (.float a) (.float b))

/-- Apply an operator to two values that are not both numbers. Joining lists
makes a new list of the same values. -/
def onOthers (h : Heap) (op : BinOp) (a b : Value) : Except Cause (Value × Heap) :=
  match op, a, b with
  | .eq, _, _ => .ok (.bool (h.equal a b), h)
  | .ne, _, _ => .ok (.bool (!h.equal a b), h)
  | .add, .str s, .str t => .ok (.str (s ++ t), h)
  | .add, .list l, .list k => .ok (h.newList (h.values l ++ h.values k))
  | .lt, .str s, .str t => .ok (.bool (s < t), h)
  | .le, .str s, .str t => .ok (.bool (¬ t < s), h)
  | .gt, .str s, .str t => .ok (.bool (t < s), h)
  | .ge, .str s, .str t => .ok (.bool (¬ s < t), h)
  | _, _, _ => .error (mismatch op a b)

/-- Apply an operator to two values. -/
def binary (h : Heap) (op : BinOp) (a b : Value) : Except Cause (Value × Heap) :=
  match a, b with
  | .int x, .int y => (onInts op x y).map (·, h)
  | .float x, .float y => (onFloats op x y).map (·, h)
  | .int x, .float y => (onFloats op (.ofInt64 x) y).map (·, h)
  | .float x, .int y => (onFloats op x (.ofInt64 y)).map (·, h)
  | _, _ => onOthers h op a b

/-- Apply an operator to one value. -/
def unary (op : UnOp) (v : Value) : Except Cause Value :=
  match op, v with
  | .neg, .int x => inRange .negation (-x.toInt)
  | .neg, .float x => .ok (.float x.neg)
  | .not, .bool b => .ok (.bool (!b))
  | .neg, v => .error (.typeMismatch .number v.ty)
  | .not, v => .error (.typeMismatch (.type .bool) v.ty)

/-- The number a list or string of the given length has as its length. -/
def lengthValue (n : Nat) : Except Cause Value :=
  inRange .length n

end Operators

end TraceLang
