/-
# TraceLang.Heap.Snapshot — values at one point in time

A snapshot is plain data: lists are written out, and a list that is met again
inside itself becomes a mark. Snapshots are compared by structure, numbers bit
by bit.
-/
import TraceLang.Heap.Basic
import TraceLang.Json

namespace TraceLang

set_option autoImplicit false

/-- A value without identities. -/
inductive Snapshot
  | none
  | int (n : Int64)
  | float (x : Binary64)
  | bool (b : Bool)
  | str (s : String)
  | list (items : List Snapshot)
deriving Repr, Inhabited

namespace Snapshot

mutual

/-- Whether two snapshots are the same. -/
def same : Snapshot → Snapshot → Bool
  | .none, .none => true
  | .int a, .int b => a = b
  | .float a, .float b => a = b
  | .bool a, .bool b => a = b
  | .str a, .str b => a = b
  | .list as, .list bs => sameAll as bs
  | _, _ => false

def sameAll : List Snapshot → List Snapshot → Bool
  | [], [] => true
  | a :: as, b :: bs => a.same b && sameAll as bs
  | _, _ => false

end

mutual

/-- The snapshot as a JSON tree. -/
def toJson : Snapshot → Json
  | .none => .null
  | .int n => .int n.toInt
  | .float x => .float x
  | .bool b => .bool b
  | .str s => .str s
  | .list items => .arr (toJsonAll items)

def toJsonAll : List Snapshot → List Json
  | [] => []
  | item :: rest => item.toJson :: toJsonAll rest

end

end Snapshot

namespace Heap

/-- The snapshot of a value inside the lists `opened`, at most `n` lists deep. -/
def capture (h : Heap) : (n : Nat) → (opened : List ListId) → Value → Snapshot
  | _, _, .none => .none
  | _, _, .int n => .int n
  | _, _, .float x => .float x
  | _, _, .bool b => .bool b
  | _, _, .str s => .str s
  | 0, _, .list _ => .str "[...]"
  | n + 1, opened, .list l =>
    if l ∈ opened then .str "[...]"
    else .list ((h.values l).map (capture h n (l :: opened)))

/-- The snapshot of a value. -/
def snapshot (h : Heap) (v : Value) : Snapshot :=
  h.capture (h.lists.size + 1) [] v

end Heap

end TraceLang
