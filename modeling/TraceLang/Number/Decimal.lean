/-
# TraceLang.Number.Decimal — floating-point numbers as text

One layout record per written form: the form shown to people and the form used
in JSON. Both write the same shortest digits. `readDecimal` is the way back
from the parts of a literal.
-/
import TraceLang.Number.Shortest

namespace TraceLang

set_option autoImplicit false

/-- The decisions of a written form of floating-point numbers. -/
structure FloatLayout where
  /-- The least exponent of the leading digit that is written positionally. -/
  leastPlain : Int
  /-- The greatest exponent of the leading digit that is written positionally. -/
  mostPlain : Int
  /-- What stands before the digits of an exponent that is not negative. -/
  exponentSign : String
  tie : TieRule

namespace FloatLayout

/-- Between 1e-4 and 1e16 numbers are written out; a tie goes up. -/
def display : FloatLayout :=
  { leastPlain := -4, mostPlain := 15, exponentSign := "", tie := .up }

/-- Between 1e-5 and 1e16 numbers are written out; a positive exponent carries
a sign, and a tie goes to the even digit. -/
def json : FloatLayout :=
  { leastPlain := -5, mostPlain := 15, exponentSign := "+", tie := .toEven }

/-- Digits with the decimal point in place, at least one digit on each side.
`leading` is the exponent of the first digit. -/
def plain (digits : List Char) (leading : Int) : List Char :=
  if leading < 0 then
    ['0', '.'] ++ List.replicate (-leading - 1).toNat '0' ++ digits
  else
    let whole := leading.toNat + 1
    let front := digits.take whole ++ List.replicate (whole - digits.length) '0'
    let back := digits.drop whole
    front ++ '.' :: (if back.isEmpty then ['0'] else back)

/-- Digits in scientific form, without a point after a lone digit. -/
def scientific (f : FloatLayout) (digits : List Char) (leading : Int) : List Char :=
  let body := match digits with
    | [] => []
    | [d] => [d]
    | d :: rest => d :: '.' :: rest
  let exponent := if leading < 0 then (toString leading).toList
    else f.exponentSign.toList ++ (toString leading).toList
  body ++ 'e' :: exponent

/-- The text of a finite number. -/
def finite (f : FloatLayout) (x : Binary64) : String :=
  let sign := if x.isNegative then ['-'] else []
  if x.isZero then String.ofList (sign ++ ['0', '.', '0'])
  else
    let d := Shortest.decimal f.tie x
    let digits := (Nat.repr d.digits).toList
    let leading := d.exponent + (digits.length : Int) - 1
    let body := if f.leastPlain ≤ leading ∧ leading ≤ f.mostPlain then plain digits leading
      else f.scientific digits leading
    String.ofList (sign ++ body)

end FloatLayout

namespace Binary64

/-- The text shown to people. -/
def text (x : Binary64) : String :=
  if x.isNaN then "NaN"
  else if x.isInfinite then (if x.isNegative then "-inf" else "inf")
  else FloatLayout.display.finite x

/-- The text in JSON, which has no infinities. -/
def jsonText (x : Binary64) : String :=
  if x.isFinite then FloatLayout.json.finite x else "null"

/-- The nearest number to `digits * 10 ^ exponent`. Magnitudes far outside the
range are settled without computing the power. -/
def ofDecimal (digits : Nat) (exponent : Int) : Binary64 :=
  let leading := exponent + (Shortest.width digits : Int)
  if digits = 0 then zero
  else if 400 < leading then infinity
  else if leading < -400 then zero
  else ofFloat (Float.ofScientific digits (exponent < 0) exponent.natAbs)

/-- The nearest number to an integer of any size. -/
def ofInt (n : Int) : Binary64 :=
  let magnitude := ofDecimal n.natAbs 0
  if n < 0 then magnitude.neg else magnitude

end Binary64

/-- The value of a run of decimal digits. -/
def natOfDigits (ds : List Char) : Nat :=
  ds.foldl (fun n c => 10 * n + (c.toNat - '0'.toNat)) 0

/-- The number written by a literal with the given digits before and after the
point and the given exponent. -/
def readDecimal (whole fraction : List Char) (exponent : Int) : Binary64 :=
  Binary64.ofDecimal (natOfDigits (whole ++ fraction)) (exponent - (fraction.length : Int))

end TraceLang
