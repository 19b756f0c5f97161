/-
# TraceLang.Heap.Basic — values, variables and the heap

A list is shared storage and its elements are variables, so both have an
identity: a variable lives in a cell of the heap, a list in a list storage of
the heap. All other values are plain data. Cells and storages are allocated in
order and never reclaimed.
-/
import TraceLang.Number.Decimal
import TraceLang.Syntax.Word

namespace TraceLang

set_option autoImplicit false

/-- The identity of a variable. -/
structure CellId where
  index : Nat
deriving DecidableEq, Hashable, Repr, Inhabited

/-- The identity of a list. -/
structure ListId where
  index : Nat
deriving DecidableEq, Hashable, Repr, Inhabited

/-- A value. Two values that hold the same list share its elements. -/
inductive Value
  | none
  | int (n : Int64)
  | float (x : Binary64)
  | bool (b : Bool)
  | str (s : String)
  | list (id : ListId)
deriving DecidableEq, Repr, Inhabited

namespace Value

/-- The type of a value. -/
def ty : Value → Ty
  | .none => .none
  | .int _ => .int
  | .float _ => .float
  | .bool _ => .bool
  | .str _ => .string
  | .list _ => .list

def int? : Value → Option Int64
  | .int n => some n
  | _ => Option.none

def bool? : Value → Option Bool
  | .bool b => some b
  | _ => Option.none

end Value

/-- The list that is the registered default of lists: the first one of every heap. -/
def ListId.registered : ListId :=
  ⟨0⟩

/-- The registered default value of a type. The type `auto` has none. -/
def Ty.registered? : Ty → Option Value
  | .int => some (.int 0)
  | .float => some (.float .zero)
  | .bool => some (.bool false)
  | .string => some (.str "")
  | .list => some (.list .registered)
  | .none => some .none
  | .auto => Option.none

/-- Whether the value is of the same type as the registered default. -/
def Value.isOf (t : Ty) (v : Value) : Bool :=
  t.registered?.any fun registered => registered.ty = v.ty

/-- The content of a variable. -/
structure Variable where
  value : Value
  /-- False for a variable that was declared without a value. -/
  assigned : Bool := true
  traced : Bool := false
  name : Option String := none
  /-- The number of assignments so far. -/
  version : Nat := 0
deriving DecidableEq, Repr, Inhabited

namespace Variable

/-- An assigned variable without a name. -/
def fresh (value : Value) : Variable :=
  { value }

/-- Replace the value; the variable then counts as assigned. -/
def assign (v : Variable) (value : Value) : Variable :=
  { v with value, assigned := true, version := v.version + 1 }

end Variable

/-- All cells and list storages. The registered list is there from the start, and
empty. -/
structure Heap where
  cells : Array Variable := #[]
  lists : Array (Array CellId) := #[#[]]
deriving Repr, Inhabited

namespace Heap

/-- The content of a cell. -/
def read (h : Heap) (c : CellId) : Variable :=
  h.cells.getD c.index (.fresh .none)

/-- The elements of a list. -/
def elements (h : Heap) (l : ListId) : Array CellId :=
  h.lists.getD l.index #[]

/-- The values of the elements of a list. -/
def values (h : Heap) (l : ListId) : List Value :=
  (h.elements l).toList.map fun c => (h.read c).value

/-- A new cell. -/
def alloc (h : Heap) (v : Variable) : CellId × Heap :=
  (⟨h.cells.size⟩, { h with cells := h.cells.push v })

/-- A new list storage. -/
def allocList (h : Heap) (elements : Array CellId) : ListId × Heap :=
  (⟨h.lists.size⟩, { h with lists := h.lists.push elements })

/-- New cells for some values, in order, behind those of `cells`. -/
def allocAll (h : Heap) : List Value → Array CellId → Array CellId × Heap
  | [], cells => (cells, h)
  | v :: rest, cells =>
    let (c, h) := h.alloc (.fresh v)
    allocAll h rest (cells.push c)

/-- A new list whose elements are new variables. -/
def newList (h : Heap) (values : List Value) : Value × Heap :=
  let (cells, h) := h.allocAll values #[]
  let (l, h) := h.allocList cells
  (.list l, h)

/-- Change the content of a cell. -/
def modify (h : Heap) (c : CellId) (f : Variable → Variable) : Heap :=
  { h with cells := h.cells.modify c.index f }

/-- Assign to a variable. -/
def assign (h : Heap) (c : CellId) (value : Value) : Heap :=
  h.modify c (·.assign value)

/-- Replace the elements of a list. -/
def setElements (h : Heap) (l : ListId) (elements : Array CellId) : Heap :=
  { h with lists := h.lists.modify l.index fun _ => elements }

/-- Add an element, a new variable, at the end of a list. -/
def push (h : Heap) (l : ListId) (value : Value) : Heap :=
  let (c, h) := h.alloc (.fresh value)
  { h with lists := h.lists.modify l.index (·.push c) }

end Heap

end TraceLang
