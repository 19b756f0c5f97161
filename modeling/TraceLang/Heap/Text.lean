/-
# TraceLang.Heap.Text — values as text

A string stands as it is on its own and between quotes inside a list. A list
that is met again inside itself is written `[...]`. Inside a list only lists
that are still open can be met again, so the number of lists in the heap bounds
the depth of the text.

The full account of a value has no such mark. It comes to an end if no list is met
inside itself.
-/
import TraceLang.Heap.Basic
import TraceLang.Text.Quoted

namespace TraceLang

set_option autoImplicit false

/-- The text of a value that is not a list. -/
def Value.scalarText : Value → String
  | .none => "none"
  | .int n => toString n.toInt
  | .float x => x.text
  | .bool b => if b then "true" else "false"
  | .str s => s
  | .list _ => "[...]"

namespace Heap

/-- The text of a value inside the lists `opened`, at most `n` lists deep. -/
def nestedText (h : Heap) : (n : Nat) → (opened : List ListId) → Value → String
  | _, _, .str s => quoted s
  | 0, _, .list _ => "[...]"
  | n + 1, opened, .list l =>
    if l ∈ opened then "[...]"
    else "[" ++ ", ".intercalate ((h.values l).map (nestedText h n (l :: opened))) ++ "]"
  | _, _, v => v.scalarText

/-- The text of a value. -/
def text (h : Heap) (v : Value) : String :=
  match v with
  | .list _ => h.nestedText (h.lists.size + 1) [] v
  | v => v.scalarText

/-- The text of an optional name with its constructor. -/
def nameDetail : Option String → String
  | some name => "Some(" ++ quoted name ++ ")"
  | none => "None"

/-- A variable around the full account of its value. -/
def variableDetail (v : Variable) (value : String) : String :=
  "Variable \x7b value: " ++ value
    ++ ", assigned: " ++ toString v.assigned
    ++ ", traced: " ++ toString v.traced
    ++ ", name: " ++ nameDetail v.name
    ++ ", version: " ++ toString v.version ++ " \x7d"

/-- The full account of a value inside the lists `opened`, with the state of every
element, at most `n` lists deep. A list that is met inside itself is written out
again and again, so that there is no account of it. -/
def valueDetail (h : Heap) : (n : Nat) → (opened : List ListId) → Value → Option String
  | _, _, .none => some "None"
  | _, _, .int n => some ("Int(" ++ toString n.toInt ++ ")")
  | _, _, .float x => some ("Float(" ++ x.text ++ ")")
  | _, _, .bool b => some ("Bool(" ++ toString b ++ ")")
  | _, _, .str s => some ("Str(" ++ quoted s ++ ")")
  | 0, _, .list _ => none
  | n + 1, opened, .list l =>
    if l ∈ opened then none
    else do
      let items ← (h.elements l).toList.mapM fun c => do
        let v := h.read c
        let value ← valueDetail h n (l :: opened) v.value
        return "RefCell \x7b value: " ++ variableDetail v value ++ " \x7d"
      return "List(RefCell \x7b value: [" ++ ", ".intercalate items ++ "] \x7d)"

/-- The full account of a variable, if it comes to an end. -/
def detail (h : Heap) (v : Variable) : Option String :=
  (h.valueDetail (h.lists.size + 1) [] v.value).map (variableDetail v)

end Heap

end TraceLang
