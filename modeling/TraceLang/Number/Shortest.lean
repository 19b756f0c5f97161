/-
# TraceLang.Number.Shortest — the fewest digits that read back

Every real number strictly between the midpoints to the two neighbours of a
finite double reads back as that double; the midpoints themselves do so exactly
when its mantissa is even. `Shortest.digits` finds the shortest decimal in that
interval by testing, for one digit, two digits and so on, the two points of the
decimal grid around the value. Of two points that read back the nearer one is
taken; a rule decides between two that are equally near.
-/
import TraceLang.Number.Binary64

namespace TraceLang

set_option autoImplicit false

/-- Which of two equally near decimals is taken. -/
inductive TieRule
  | up
  | toEven
deriving DecidableEq, Repr

/-- A positive decimal `digits * 10 ^ exponent`. -/
structure Decimal where
  digits : Nat
  exponent : Int
deriving DecidableEq, Repr

namespace Shortest

/-- A positive rational with the two ends of the interval that reads back as
it, over one denominator. -/
structure Interval where
  low : Nat
  value : Nat
  high : Nat
  denominator : Nat
  closed : Bool

/-- The interval around the magnitude of a finite number other than zero. The
neighbour below a power of two is twice as near. -/
def Interval.around (x : Binary64) : Interval :=
  let m := x.mantissa
  let q := x.scale - 2
  let up := Nat.pow 2 q.toNat
  let below := if x.fractionField = 0 ∧ 1 < x.exponentField then 1 else 2
  { low := (4 * m - below) * up
    value := 4 * m * up
    high := (4 * m + 2) * up
    denominator := Nat.pow 2 (-q).toNat
    closed := m % 2 = 0 }

/-- The number of decimal digits of a positive integer. -/
def width (n : Nat) : Nat :=
  (Nat.repr n).length

/-- The exponent of the leading decimal digit of `n / d`, both positive. -/
def leadingExponent (n d : Nat) : Int :=
  if d ≤ n then (width (n / d) : Int) - 1
  else -(width ((d + n - 1) / n - 1) : Int)

/-- Whether `c * 10 ^ e` reads back. -/
def Interval.holds (i : Interval) (c : Nat) (e : Int) : Bool :=
  let point := c * Nat.pow 10 e.toNat * i.denominator
  let low := i.low * Nat.pow 10 (-e).toNat
  let high := i.high * Nat.pow 10 (-e).toNat
  if i.closed then low ≤ point && point ≤ high else low < point && point < high

/-- The point of the grid `10 ^ e` that reads back and is nearest, if any. -/
def Interval.nearest (tie : TieRule) (i : Interval) (e : Int) : Option Nat :=
  let value := i.value * Nat.pow 10 (-e).toNat
  let unit := i.denominator * Nat.pow 10 e.toNat
  let c := value / unit
  match i.holds c e, i.holds (c + 1) e with
  | false, false => none
  | true, false => some c
  | false, true => some (c + 1)
  | true, true =>
    let twice := 2 * (value % unit)
    if twice < unit then some c
    else if unit < twice then some (c + 1)
    else match tie with
      | .up => some (c + 1)
      | .toEven => some (if c % 2 = 0 then c else c + 1)

/-- Drop trailing zeros of the digits into the exponent. -/
def trim : Nat → Decimal → Decimal
  | 0, d => d
  | n + 1, d =>
    if d.digits % 10 = 0 ∧ d.digits ≠ 0 then
      trim n { digits := d.digits / 10, exponent := d.exponent + 1 }
    else d

/-- Try the grids below the leading digit, coarsest first. Seventeen digits
always suffice; the value itself cut to that grid stands for a search that ends
without a hit. -/
def search (tie : TieRule) (i : Interval) (leading : Int) : Nat → Int → Decimal
  | 0, e =>
    { digits := i.value * Nat.pow 10 (-e).toNat / (i.denominator * Nat.pow 10 e.toNat)
      exponent := e }
  | n + 1, e =>
    match i.nearest tie e with
    | some c => trim 18 { digits := c, exponent := e }
    | none => search tie i leading n (e - 1)

/-- The shortest decimal that reads back as a finite number other than zero,
its sign apart. -/
def decimal (tie : TieRule) (x : Binary64) : Decimal :=
  let i := Interval.around x
  let leading := leadingExponent i.value i.denominator
  search tie i leading 17 leading

end Shortest

end TraceLang
