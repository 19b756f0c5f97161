/-
# TraceLang.Tracer — histories of watched variables

A watched variable has a baseline, the version and snapshot last seen. An
update compares each watched variable with its baseline and appends a record
where they differ. An assignment of the same value counts as a change, and so
does a change anywhere inside a list.
-/
import TraceLang.Heap.Snapshot
import TraceLang.Syntax.Tree

namespace TraceLang

set_option autoImplicit false

/-- One observed change. -/
structure Record where
  /-- The number of instructions executed so far. -/
  step : Nat
  /-- The instruction that was executed. -/
  span : Span
  value : Snapshot
deriving Repr, Inhabited

/-- A watched variable with its history. -/
structure Watched where
  /-- The number given when watching began. -/
  id : Nat
  label : String
  cell : CellId
  records : Array Record := #[]
  seenVersion : Nat
  seen : Snapshot
deriving Repr, Inhabited

/-- The watched variables in the order in which watching began. -/
structure Tracer where
  watched : Array Watched := #[]
deriving Repr, Inhabited

namespace Watched

/-- The snapshot of a variable that differs from its baseline. -/
def change? (w : Watched) (h : Heap) : Option Snapshot :=
  let v := h.read w.cell
  let now := h.snapshot v.value
  if v.version = w.seenVersion ∧ now.same w.seen then none else some now

/-- Append a record if the variable has changed, and move the baseline. Also
tells whether it has. -/
def observe (w : Watched) (h : Heap) (step : Nat) (span : Span) : Bool × Watched :=
  match w.change? h with
  | none => (false, w)
  | some value =>
    (true,
      { w with
        records := w.records.push { step, span, value }
        seenVersion := (h.read w.cell).version
        seen := value })

end Watched

namespace Tracer

/-- Begin to watch a variable; its present value is no record. -/
def watch (t : Tracer) (h : Heap) (cell : CellId) (label : String) : Tracer :=
  let v := h.read cell
  { watched := t.watched.push
      { id := t.watched.size, label, cell, seenVersion := v.version, seen := h.snapshot v.value } }

/-- Record all changes; also their number. -/
def update (t : Tracer) (h : Heap) (step : Nat) (span : Span) : Nat × Tracer :=
  let observed := t.watched.map (·.observe h step span)
  (observed.countP (·.1), { watched := observed.map (·.2) })

/-- The records of the variable watched first under a label. -/
def historyOf? (t : Tracer) (label : String) : Option (Array Record) :=
  (t.watched.find? (·.label = label)).map (·.records)

/-- The records of the variable with the given number. -/
def history? (t : Tracer) (id : Nat) : Option (Array Record) :=
  t.watched[id]?.map (·.records)

/-- Whether this very variable is watched. -/
def isWatching (t : Tracer) (cell : CellId) : Bool :=
  t.watched.any (·.cell = cell)

def size (t : Tracer) : Nat :=
  t.watched.size

def recordJson (r : Record) : Json :=
  .obj [("step", .int r.step), ("span", r.span.toJson), ("value", r.value.toJson)]

def watchedJson (w : Watched) : Json :=
  .obj [("id", .int w.id), ("label", .str w.label),
    ("records", .arr (w.records.toList.map recordJson))]

/-- All histories as a JSON tree. -/
def toJson (t : Tracer) : Json :=
  .arr (t.watched.toList.map watchedJson)

/-- All histories as text. -/
def jsonText (t : Tracer) : String :=
  t.toJson.pretty

end Tracer

end TraceLang
