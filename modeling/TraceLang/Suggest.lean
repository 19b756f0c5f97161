/-
# TraceLang.Suggest — what a mistyped name may have meant

The distance of two texts is the least number of characters to insert, delete
or replace to turn one into the other. It is computed row by row: the row of a
prefix of the first text holds its distances to every prefix of the second.
-/

namespace TraceLang

set_option autoImplicit false

namespace EditDistance

/-- The rest of the next row, behind its entry `left`, from the row above. -/
def nextRow (c : Char) : (left : Nat) → List Char → List Nat → List Nat
  | left, x :: xs, corner :: above :: row =>
    let entry := min (min (above + 1) (left + 1)) (corner + if c = x then 0 else 1)
    entry :: nextRow c entry xs (above :: row)
  | _, _, _ => []

/-- The row of a prefix that is longer by the character `c`. -/
def extend (word : List Char) (row : List Nat) (c : Char) : List Nat :=
  let first := row.headD 0 + 1
  first :: nextRow c first word row

end EditDistance

/-- The distance of two texts. -/
def editDistance (a b : String) : Nat :=
  let word := b.toList
  (a.toList.foldl (EditDistance.extend word) (List.range (word.length + 1))).getLastD 0

/-- The nearest of some pairs of a distance and a name, the earliest of equals. -/
def nearest : List (Nat × String) → Option (Nat × String)
  | [] => none
  | (d, name) :: rest =>
    match nearest rest with
    | none => some (d, name)
    | some (d', name') => if d ≤ d' then some (d, name) else some (d', name')

/-- The candidate with the least distance to a name, if that is at most the
threshold; the earliest of several. -/
def similarName (name : String) (candidates : List String) (threshold : Nat) : Option String :=
  let near := candidates.filterMap fun candidate =>
    let d := editDistance name candidate
    if d ≤ threshold then some (d, candidate) else none
  (nearest near).map (·.2)

/-- The line that proposes a name. -/
def hint : Option String → String
  | some name => "\n  hint: did you mean `" ++ name ++ "`?"
  | none => ""

end TraceLang
