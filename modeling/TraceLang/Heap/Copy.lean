/-
# TraceLang.Heap.Copy — detached copies

A copy has new storage for every list it reaches. A list that is reached twice
is copied once, so sharing and cycles keep their shape. Each level copies a
list that was not copied before, so the number of lists bounds the depth.

The default values of types are copies of the registered ones.
-/
import TraceLang.Heap.Basic

namespace TraceLang

set_option autoImplicit false

/-- A copy in progress: the heap, and the lists already begun with their
copies. -/
structure Copying where
  heap : Heap
  begun : List (ListId × ListId) := []

namespace Heap

/-- Copy some values into new cells behind those of `cells`. -/
def copyAll (copy : Value → Copying → Value × Copying) :
    List Value → Array CellId → Copying → Array CellId × Copying
  | [], cells, st => (cells, st)
  | v :: rest, cells, st =>
    let (v, st) := copy v st
    let (c, heap) := st.heap.alloc (.fresh v)
    copyAll copy rest (cells.push c) { st with heap }

/-- Copy a value, at most `n` lists deep. -/
def copyWithin : (n : Nat) → Value → Copying → Value × Copying
  | n + 1, .list l, st =>
    match st.begun.lookup l with
    | some copy => (.list copy, st)
    | none =>
      let values := st.heap.values l
      let (copy, heap) := st.heap.allocList #[]
      let (cells, st) :=
        copyAll (copyWithin n) values #[] { heap, begun := (l, copy) :: st.begun }
      (.list copy, { st with heap := st.heap.setElements copy cells })
  | _, v, st => (v, st)

/-- A copy of a value that shares no list with it. -/
def deepCopy (h : Heap) (v : Value) : Value × Heap :=
  let depth := h.lists.size + 1
  let (v, st) := copyWithin depth v { heap := h }
  (v, st.heap)

/-- The default value of a type: a copy of the registered one, so that the list that
is registered stays as it is. -/
def default? (h : Heap) (ty : Ty) : Option (Value × Heap) :=
  ty.registered?.map h.deepCopy

end Heap

end TraceLang
