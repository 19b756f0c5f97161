/-
# TraceLang.Number.Binary64 — floating-point numbers by their bits

A floating-point value is its 64-bit pattern. Arithmetic is that of the
processor; where a result is not a number the pattern is fixed by a rule, so
that two computations can be compared bit by bit: an operand that is not a
number is passed on, the left one first, and a fresh one has its sign bit set.
-/

namespace TraceLang

set_option autoImplicit false

/-- A double-precision number, identified by its bits. -/
structure Binary64 where
  bits : UInt64
deriving DecidableEq, Hashable, Repr, Inhabited

namespace Binary64

/-- The bit that holds the sign. -/
def signBit : UInt64 := 0x8000000000000000

/-- The pattern of a result that is not a number though its operands are. -/
def invalid : Binary64 := ⟨0xFFF8000000000000⟩

def infinity : Binary64 := ⟨0x7FF0000000000000⟩

def zero : Binary64 := ⟨0⟩

/-- The biased exponent field. -/
def exponentField (x : Binary64) : Nat :=
  ((x.bits >>> 52) &&& 0x7FF).toNat

/-- The fraction field. -/
def fractionField (x : Binary64) : Nat :=
  (x.bits &&& 0xFFFFFFFFFFFFF).toNat

def isNegative (x : Binary64) : Bool :=
  x.bits &&& signBit != 0

def isNaN (x : Binary64) : Bool :=
  x.exponentField == 0x7FF && x.fractionField != 0

def isInfinite (x : Binary64) : Bool :=
  x.exponentField == 0x7FF && x.fractionField == 0

def isFinite (x : Binary64) : Bool :=
  x.exponentField != 0x7FF

/-- The leading bit of a normal number, which is not stored: `2 ^ 52`. -/
def leadingBit : Nat := 0x10000000000000

/-- The integer `m` of the magnitude `m * 2 ^ q` of a finite number. -/
def mantissa (x : Binary64) : Nat :=
  if x.exponentField = 0 then x.fractionField else leadingBit + x.fractionField

/-- The power `q` of the magnitude `m * 2 ^ q` of a finite number. -/
def scale (x : Binary64) : Int :=
  if x.exponentField = 0 then -1074 else (x.exponentField : Int) - 1075

def toFloat (x : Binary64) : Float :=
  Float.ofBits x.bits

def ofFloat (f : Float) : Binary64 :=
  if f.isNaN then invalid else ⟨f.toBits⟩

/-- The nearest number to an integer, halves to even. -/
def ofInt64 (n : Int64) : Binary64 :=
  ofFloat n.toFloat

/-- An operation on two numbers, passing on the first operand that is not a
number. -/
def lift (op : Float → Float → Float) (a b : Binary64) : Binary64 :=
  if a.isNaN then a
  else if b.isNaN then b
  else ofFloat (op a.toFloat b.toFloat)

def add : Binary64 → Binary64 → Binary64 := lift (· + ·)

def sub : Binary64 → Binary64 → Binary64 := lift (· - ·)

def mul : Binary64 → Binary64 → Binary64 := lift (· * ·)

def div : Binary64 → Binary64 → Binary64 := lift (· / ·)

/-- Negation turns the sign bit, whatever the number. -/
def neg (a : Binary64) : Binary64 :=
  ⟨a.bits ^^^ signBit⟩

/-- The number with the sign of `a` and the magnitude `r * 2 ^ e`, where `r`
has at most 53 bits. -/
def withSignOf (a : Binary64) (r : Nat) (e : Int) : Binary64 :=
  let magnitude : Binary64 := ofFloat ((Float.ofNat r).scaleB e)
  if a.isNegative then magnitude.neg else magnitude

/-- The exact remainder of a division that truncates toward zero; it has the
sign of the dividend. -/
def rem (a b : Binary64) : Binary64 :=
  if a.isNaN then a
  else if b.isNaN then b
  else if a.isInfinite || b.mantissa == 0 then invalid
  else if b.isInfinite then a
  else
    let e := min a.scale b.scale
    let dividend := a.mantissa * Nat.pow 2 (a.scale - e).toNat
    let divisor := b.mantissa * Nat.pow 2 (b.scale - e).toNat
    withSignOf a (dividend % divisor) e

/-- Numeric equality: both zeros are equal, and nothing equals what is not a
number. -/
def eq (a b : Binary64) : Bool :=
  a.toFloat == b.toFloat

def lt (a b : Binary64) : Bool :=
  a.toFloat < b.toFloat

def le (a b : Binary64) : Bool :=
  a.toFloat ≤ b.toFloat

/-- Whether the number is one of the two zeros. -/
def isZero (a : Binary64) : Bool :=
  a.exponentField == 0 && a.fractionField == 0

end Binary64

end TraceLang
