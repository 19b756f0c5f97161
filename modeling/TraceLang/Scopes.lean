/-
# TraceLang.Scopes — names and the variables they denote

A stack of scopes, the global one at the bottom. A name denotes the variable of
the innermost scope that binds it, in whatever function that scope was opened.
The global scope cannot be removed.
-/
import TraceLang.Heap.Basic

namespace TraceLang

set_option autoImplicit false

/-- The bindings of one scope; a name is bound once. -/
abbrev Scope := List (String × CellId)

namespace Scope

/-- Bind a name in place of an earlier binding. -/
def bind (s : Scope) (name : String) (c : CellId) : Scope :=
  match s with
  | [] => [(name, c)]
  | (other, d) :: rest => if other = name then (name, c) :: rest else (other, d) :: bind rest name c

/-- The bound names in increasing order. -/
def names (s : Scope) : List String :=
  (s.map (·.1)).mergeSort (fun a b => decide (a ≤ b))

end Scope

/-- The open scopes, innermost last. -/
structure Scopes where
  stack : Array Scope
  nonempty : 0 < stack.size

namespace Scopes

/-- The global scope alone, without variables. -/
def global : Scopes :=
  ⟨#[[]], Nat.one_pos⟩

instance : Inhabited Scopes := ⟨global⟩

/-- The number of open scopes. -/
def depth (s : Scopes) : Nat :=
  s.stack.size

/-- The scope opened last. -/
def innermost (s : Scopes) : Scope :=
  have bound : s.stack.size - 1 < s.stack.size := Nat.sub_lt s.nonempty Nat.one_pos
  s.stack[s.stack.size - 1]

/-- Open a scope. -/
def push (s : Scopes) : Scopes :=
  { stack := s.stack.push [], nonempty := by simp }

theorem size_shrink_pos (s : Scopes) (depth : Nat) :
    0 < (s.stack.shrink (max depth 1)).size := by
  have := s.nonempty
  simp only [Array.size_shrink]
  omega

/-- Close the innermost scopes until `depth` are left, or only the global one. -/
def truncate (s : Scopes) (depth : Nat) : Scopes :=
  ⟨s.stack.shrink (max depth 1), s.size_shrink_pos depth⟩

/-- Close the innermost scope; none if only the global one is open. -/
def pop? (s : Scopes) : Option Scopes :=
  if 1 < s.depth then some (s.truncate (s.depth - 1)) else none

/-- Bind a name in the innermost scope. -/
def define (s : Scopes) (name : String) (c : CellId) : Scopes :=
  { stack := s.stack.modify (s.stack.size - 1) (·.bind name c)
    nonempty := by simpa using s.nonempty }

/-- The variable that a name denotes. -/
def find? (s : Scopes) (name : String) : Option CellId :=
  s.stack.findSomeRev? (fun scope => scope.lookup name)

/-- The variable that a name denotes in the innermost scope. -/
def findLocal? (s : Scopes) (name : String) : Option CellId :=
  s.innermost.lookup name

def contains (s : Scopes) (name : String) : Bool :=
  s.stack.any fun scope => (scope.lookup name).isSome

/-- Add the names that are not yet listed. -/
def addNames (found : List String) : List String → List String
  | [] => found
  | name :: rest => addNames (if name ∈ found then found else found ++ [name]) rest

/-- Every name that denotes something: innermost scope first, in increasing
order inside a scope. -/
def visibleNames (s : Scopes) : List String :=
  s.stack.toList.reverse.foldl (fun found scope => addNames found scope.names) []

end Scopes

end TraceLang
