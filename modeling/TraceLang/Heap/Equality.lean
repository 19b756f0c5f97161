/-
# TraceLang.Heap.Equality — when two values are equal

Lists are equal when no difference can be found by following their elements: a
pair of lists that is already under comparison is taken as equal. Every pair is
opened once, so the number of pairs of lists bounds the depth.
-/
import TraceLang.Heap.Basic

namespace TraceLang

set_option autoImplicit false

/-- Equality of values that are not both lists; numbers compare across their
types. -/
def Value.scalarEq : Value → Value → Bool
  | .none, .none => true
  | .int a, .int b => a = b
  | .float a, .float b => a.eq b
  | .int a, .float b | .float b, .int a => (Binary64.ofInt64 a).eq b
  | .bool a, .bool b => a = b
  | .str a, .str b => a = b
  | _, _ => false

namespace Heap

/-- The pairs of lists whose comparison has begun. -/
abbrev Pairs := List (ListId × ListId)

/-- Compare two sequences of values up to the first difference. -/
def compareAll (compare : Pairs → Value → Value → Bool × Pairs) :
    Pairs → List Value → List Value → Bool × Pairs
  | pairs, a :: as, b :: bs =>
    match compare pairs a b with
    | (true, pairs) => compareAll compare pairs as bs
    | (false, pairs) => (false, pairs)
  | pairs, _, _ => (true, pairs)

/-- Compare two values, opening at most `n` pairs of lists inside each other. -/
def compare (h : Heap) : (n : Nat) → Pairs → Value → Value → Bool × Pairs
  | n, pairs, .list a, .list b =>
    if a = b then (true, pairs)
    else if (a, b) ∈ pairs then (true, pairs)
    else
      match n with
      | 0 => (true, pairs)
      | n + 1 =>
        let pairs := (a, b) :: pairs
        if (h.elements a).size = (h.elements b).size then
          compareAll (compare h n) pairs (h.values a) (h.values b)
        else (false, pairs)
  | _, pairs, a, b => (a.scalarEq b, pairs)

/-- Whether two values are equal. -/
def equal (h : Heap) (a b : Value) : Bool :=
  (h.compare (h.lists.size * h.lists.size + 1) [] a b).1

end Heap

end TraceLang
