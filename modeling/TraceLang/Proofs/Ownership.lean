/-
# TraceLang.Proofs.Ownership — every variable has one place

Lists are shared freely, but the variables in them are not: whatever is stored is
stored in a new variable. So a variable is held in one place at most, by one name
of one scope or in one slot of one list (`Owned`). A variable under a name carries
this name, one in a slot is assigned and has no name, and one that is not assigned
has never been written. Every step keeps this, in the middle of a run as well as
between programs.

It follows that an assignment, which writes to one variable, changes what is held
in one place and nowhere else (`execute_assign_writesAt`).
-/
import TraceLang.Proofs.Marking

namespace TraceLang

set_option autoImplicit false

/-! ## Scopes -/

namespace Scope

variable {s : Scope} {name : String} {c : CellId}

theorem lookup_of_mem (nodup : (s.map (·.1)).Nodup) (entry : (name, c) ∈ s) :
    s.lookup name = some c := by
  obtain ⟨before, after, rfl⟩ := List.append_of_mem entry
  refine List.lookup_eq_some_iff.mpr ⟨before, after, rfl, fun other member => ?_⟩
  rw [List.map_append, List.map_cons] at nodup
  have apart := (List.nodup_append.mp nodup).2.2 other.1 (List.mem_map_of_mem member) name
    (List.mem_cons_self ..)
  simpa using apart.symm

theorem names_bind (s : Scope) (name : String) (c : CellId) :
    (s.bind name c).map (·.1) =
      if name ∈ s.map (·.1) then s.map (·.1) else s.map (·.1) ++ [name] := by
  induction s with
  | nil => rfl
  | cons entry rest ih =>
    obtain ⟨other, d⟩ := entry
    unfold bind
    by_cases hit : other = name
    · simp [hit]
    · simp only [hit, if_false, List.map_cons, ih, List.mem_cons, Ne.symm hit, false_or]
      split <;> rfl

theorem nodup_bind (nodup : (s.map (·.1)).Nodup) (name : String) (c : CellId) :
    ((s.bind name c).map (·.1)).Nodup := by
  rw [names_bind]
  split
  · exact nodup
  · rename_i new
    rw [← List.concat_eq_append]
    exact nodup.concat new

end Scope

namespace Scopes

variable {s : Scopes} {level : Nat} {name : String} {c : CellId}

theorem binds_of_binding? (found : s.binding? level name = some c) : s.Binds c := by
  obtain ⟨scope, inside, bound⟩ := Option.bind_eq_some_iff.mp found
  exact ⟨scope, Array.mem_of_getElem? inside, name, mem_of_lookup bound⟩

@[simp] theorem binding?_push (s : Scopes) (level : Nat) (name : String) :
    s.push.binding? level name = s.binding? level name := by
  simp only [binding?, push, Array.getElem?_push]
  split
  · rename_i last
    simp [last]
  · rfl

theorem binding?_of_truncate {depth : Nat}
    (found : (s.truncate depth).binding? level name = some c) :
    s.binding? level name = some c := by
  obtain ⟨scope, inside, bound⟩ := Option.bind_eq_some_iff.mp found
  refine Option.bind_eq_some_iff.mpr ⟨scope, ?_, bound⟩
  simp only [truncate, ← Array.getElem?_toList, Array.toList_shrink] at inside ⊢
  rw [List.getElem?_take] at inside
  split at inside
  · exact inside
  · cases inside

/-- Every scope binds a name once. -/
def Keyed (s : Scopes) : Prop :=
  ∀ scope ∈ s.stack, (scope.map (·.1)).Nodup

/-- What is bound is denoted by the name that it is bound to. -/
theorem Keyed.exists_binding? (keyed : s.Keyed) (binds : s.Binds c) :
    ∃ level name, s.binding? level name = some c := by
  obtain ⟨scope, member, name, entry⟩ := binds
  obtain ⟨level, inside⟩ := Array.mem_iff_getElem?.mp member
  have bound := Scope.lookup_of_mem (keyed scope member) entry
  exact ⟨level, name, Option.bind_eq_some_iff.mpr ⟨scope, inside, bound⟩⟩

theorem Keyed.push (keyed : s.Keyed) : s.push.Keyed := by
  intro scope member
  rcases Array.mem_push.mp member with inside | rfl
  · exact keyed scope inside
  · exact List.nodup_nil

theorem Keyed.truncate (keyed : s.Keyed) (depth : Nat) : (s.truncate depth).Keyed := by
  intro scope member
  simp only [Scopes.truncate, ← Array.mem_toList_iff, Array.toList_shrink] at member
  exact keyed scope (Array.mem_toList_iff.mp (List.mem_of_mem_take member))

theorem Keyed.define (keyed : s.Keyed) (name : String) (c : CellId) :
    (s.define name c).Keyed := by
  intro scope member
  obtain ⟨level, inside, rfl⟩ := Array.mem_iff_getElem.mp member
  simp only [Scopes.define, Array.size_modify] at inside
  have before := keyed _ (Array.getElem_mem inside)
  simp only [Scopes.define, Array.getElem_modify]
  split
  · exact Scope.nodup_bind before name c
  · exact before

end Scopes

/-! ## Places -/

/-- A place where a variable can be held. -/
inductive Owner
  /-- A name in the scope with the given number. -/
  | name (level : Nat) (name : String)
  /-- An element of a list. -/
  | slot (l : ListId) (i : Nat)
deriving DecidableEq, Repr

namespace Machine

variable {m m' : Machine} {c : CellId}

/-- The variable that is held in a place. -/
def held? (m : Machine) : Owner → Option CellId
  | .name level name => m.scopes.binding? level name
  | .slot l i => m.heap.slot? l i

/-- Every variable is held in one place at most, under its own name or in a slot.
Those in slots are assigned and have no name, and those that are not assigned
have never been written. -/
structure Owned (m : Machine) : Prop where
  keyed : m.scopes.Keyed
  alone : ∀ o o' c, m.held? o = some c → m.held? o' = some c → o = o'
  named : ∀ level name c, m.scopes.binding? level name = some c →
    (m.heap.read c).name = some name
  slots : ∀ l i c, m.heap.slot? l i = some c →
    (m.heap.read c).assigned ∧ (m.heap.read c).name = none
  unwritten : ∀ c, (m.heap.read c).assigned = false → (m.heap.read c).version = 0

theorem Sound.held_lt (sound : m.Sound) {o : Owner} (held : m.held? o = some c) :
    c.index < m.heap.cells.size := by
  cases o with
  | name level name => exact sound.bound c (Scopes.binds_of_binding? held)
  | slot l i => exact sound.wired l c (Heap.mem_of_slot? held)

/-- Additions to the heap bring new variables into new slots. -/
theorem Owned.supplies {h : Heap} (owned : m.Owned) (sound : m.Sound)
    (supplies : m.heap.Supplies h) : Owned { m with heap := h } := by
  -- A place holds what it did, unless it is a slot that holds a new variable.
  have before : ∀ {o : Owner} {c : CellId}, held? { m with heap := h } o = some c →
      c.index < m.heap.cells.size → m.held? o = some c := by
    intro o c held old
    cases o with
    | name level name => exact held
    | slot l i => exact (supplies.slots l i c held).resolve_right (Nat.not_le.mpr old)
  have new : ∀ {o : Owner} {c : CellId}, held? { m with heap := h } o = some c →
      m.heap.cells.size ≤ c.index → ∃ l i, o = .slot l i ∧ h.slot? l i = some c := by
    intro o c held outside
    cases o with
    | name level name =>
      exact absurd (sound.bound c (Scopes.binds_of_binding? held)) (Nat.not_lt.mpr outside)
    | slot l i => exact ⟨l, i, rfl, held⟩
  refine ⟨owned.keyed, ?_, ?_, ?_, ?_⟩
  · intro o o' c held held'
    by_cases old : c.index < m.heap.cells.size
    · exact owned.alone o o' c (before held old) (before held' old)
    · obtain ⟨l, i, rfl, here⟩ := new held (Nat.le_of_not_lt old)
      obtain ⟨l', i', rfl, there⟩ := new held' (Nat.le_of_not_lt old)
      obtain ⟨rfl, rfl⟩ := supplies.apart l l' i i' c (Nat.le_of_not_lt old) here there
      rfl
  · intro level name c found
    rw [supplies.old c (sound.bound c (Scopes.binds_of_binding? found))]
    exact owned.named level name c found
  · intro l i c found
    by_cases old : c.index < m.heap.cells.size
    · rw [supplies.old c old]
      exact owned.slots l i c ((supplies.slots l i c found).resolve_right (Nat.not_le.mpr old))
    · obtain ⟨v, fresh⟩ := supplies.fresh c (Nat.le_of_not_lt old)
      rw [fresh]
      exact ⟨rfl, rfl⟩
  · intro c unassigned
    by_cases old : c.index < m.heap.cells.size
    · rw [supplies.old c old] at unassigned ⊢
      exact owned.unwritten c unassigned
    · obtain ⟨v, fresh⟩ := supplies.fresh c (Nat.le_of_not_lt old)
      simp [fresh, Variable.fresh] at unassigned

/-- A change of one variable that keeps its name, and keeps it assigned if it
is. -/
theorem Owned.modify {f : Variable → Variable} (owned : m.Owned) (c : CellId)
    (name : ∀ v, (f v).name = v.name) (assigned : ∀ v, v.assigned → (f v).assigned)
    (unwritten : ∀ v, (f v).assigned = false → v.assigned = false ∧ (f v).version = v.version) :
    Owned { m with heap := m.heap.modify c f } := by
  have read : ∀ d, (m.heap.modify c f).read d = m.heap.read d ∨
      (m.heap.modify c f).read d = f (m.heap.read d) := by
    intro d
    refine (m.heap.read_modify_or c d f).imp_right ?_
    rintro ⟨rfl, changed⟩
    exact changed
  refine ⟨owned.keyed, owned.alone, ?_, ?_, ?_⟩
  · intro level key d found
    have known := owned.named level key d found
    rcases read d with same | changed
    · rwa [same]
    · rwa [changed, name]
  · intro l i d found
    obtain ⟨isAssigned, nameless⟩ := owned.slots l i d found
    rcases read d with same | changed
    · rw [same]
      exact ⟨isAssigned, nameless⟩
    · rw [changed, name]
      exact ⟨assigned _ isAssigned, nameless⟩
  · intro d unassigned
    rcases read d with same | changed
    · rw [same] at unassigned ⊢
      exact owned.unwritten d unassigned
    · rw [changed] at unassigned ⊢
      obtain ⟨before, version⟩ := unwritten _ unassigned
      rw [version]
      exact owned.unwritten d before

/-- A name is bound to a new variable of this name. -/
theorem Owned.bound (owned : m.Owned) (sound : m.Sound) (name : String) (value : Value)
    (assigned : Bool) : (m.bound name value assigned).Owned := by
  let v : Variable := { value, assigned, name := some name }
  -- What is held is the new variable, under its name, or it was held before.
  have held : ∀ {o : Owner} {c : CellId}, (m.bound name value assigned).held? o = some c →
      (o = .name (m.scopes.depth - 1) name ∧ c = ⟨m.heap.cells.size⟩) ∨
        m.held? o = some c ∧ c.index < m.heap.cells.size := by
    intro o c found
    cases o with
    | name level other =>
      have split := m.scopes.binding?_define level name other ⟨m.heap.cells.size⟩
      simp only [held?, Machine.bound, Heap.alloc] at found
      rw [split] at found
      split at found
      · rename_i here
        obtain ⟨innermost, rfl⟩ := here
        exact .inl ⟨by rw [← innermost, Nat.add_sub_cancel], (Option.some.inj found).symm⟩
      · exact .inr ⟨found, sound.bound c (Scopes.binds_of_binding? found)⟩
    | slot l i => exact .inr ⟨found, sound.wired l c (Heap.mem_of_slot? found)⟩
  have last : (m.heap.alloc v).2.read ⟨m.heap.cells.size⟩ = v := by
    simp [Heap.alloc, Heap.read, Array.getD]
  have old : ∀ c : CellId, c.index < m.heap.cells.size →
      (m.heap.alloc v).2.read c = m.heap.read c := (Heap.grows_alloc m.heap v).cells
  refine ⟨owned.keyed.define name _, ?_, ?_, ?_, ?_⟩
  · intro o o' c here there
    rcases held here with ⟨rfl, rfl⟩ | ⟨here, inside⟩ <;>
      rcases held there with ⟨rfl, new⟩ | ⟨there, inside'⟩
    · rfl
    · exact absurd inside' (Nat.lt_irrefl _)
    · exact absurd inside (by rw [new]; exact Nat.lt_irrefl _)
    · exact owned.alone o o' c here there
  · intro level other c found
    rcases held (o := .name level other) found with ⟨same, rfl⟩ | ⟨before, inside⟩
    · obtain ⟨-, rfl⟩ := Owner.name.inj same
      exact congrArg Variable.name last
    · exact (congrArg Variable.name (old c inside)).trans (owned.named level other c before)
  · intro l i c found
    have before := owned.slots l i c found
    rwa [← old c (sound.wired l c (Heap.mem_of_slot? found))] at before
  · intro c unassigned
    rcases m.heap.read_alloc_or v c with same | ⟨-, same⟩
    · have before := owned.unwritten c (same ▸ unassigned)
      rwa [← same] at before
    · exact congrArg Variable.version same

theorem edit_owned (edit : Edit m m') (sound : m.Sound) (owned : m.Owned) : m'.Owned := by
  cases edit with
  | tick | ask | count | record =>
    exact ⟨owned.keyed, owned.alone, owned.named, owned.slots, owned.unwritten⟩
  | newList values => exact owned.supplies sound (Heap.supplies_newList sound.wired values)
  | copy v => exact owned.supplies sound (Heap.supplies_deepCopy sound.wired v)
  | append l v => exact owned.supplies sound (Heap.supplies_push sound.wired l v)
  | assign c v =>
    refine owned.modify c (fun _ => rfl) (fun _ _ => rfl) fun _ unassigned => ?_
    cases unassigned
  | watch c label =>
    have marked := owned.modify c (f := fun v => { v with traced := true }) (fun _ => rfl)
      (fun _ isAssigned => isAssigned) fun _ unassigned => ⟨unassigned, rfl⟩
    exact ⟨marked.keyed, marked.alone, marked.named, marked.slots, marked.unwritten⟩

theorem step_owned (step : Step m m') (sound : m.Sound) (owned : m.Owned) : m'.Owned := by
  cases step with
  | edit edit => exact edit_owned edit sound owned
  | openScope =>
    have held : ∀ o, held? { m with scopes := m.scopes.push } o = m.held? o := by
      rintro (⟨level, name⟩ | ⟨l, i⟩)
      · exact m.scopes.binding?_push level name
      · rfl
    refine ⟨owned.keyed.push, ?_, ?_, owned.slots, owned.unwritten⟩
    · intro o o' c here there
      exact owned.alone o o' c (held o ▸ here) (held o' ▸ there)
    · intro level name c found
      exact owned.named level name c (m.scopes.binding?_push level name ▸ found)
  | closeScopes depth =>
    have held : ∀ {o : Owner} {c : CellId},
        held? { m with scopes := m.scopes.truncate depth } o = some c → m.held? o = some c := by
      rintro (⟨level, name⟩ | ⟨l, i⟩) c found
      · exact Scopes.binding?_of_truncate found
      · exact found
    refine ⟨owned.keyed.truncate depth, ?_, ?_, owned.slots, owned.unwritten⟩
    · exact fun o o' c here there => owned.alone o o' c (held here) (held there)
    · exact fun level name c found =>
        owned.named level name c (Scopes.binding?_of_truncate found)
  | bind name value assigned => exact owned.bound sound name value assigned
  | openFrame | closeFrames | define | countCalls | iterate =>
    exact ⟨owned.keyed, owned.alone, owned.named, owned.slots, owned.unwritten⟩

theorem new_owned (output : Output) : Owned { output } := by
  have empty : ∀ o, held? { output } o = none := by
    rintro (⟨level, name⟩ | ⟨l, i⟩)
    · cases level <;> simp [held?, Scopes.binding?, Scopes.global]
    · simp [held?, Heap.slot?, Heap.elements_new]
  refine ⟨?_, ?_, ?_, ?_, ?_⟩
  · intro scope member
    simp only [Scopes.global, List.mem_toArray, List.mem_singleton] at member
    subst member
    exact List.nodup_nil
  · intro o _ _ held
    cases (empty o).symm.trans held
  · intro level name _ found
    cases (empty (.name level name)).symm.trans found
  · intro l i _ found
    cases (empty (.slot l i)).symm.trans found
  · intro c unassigned
    rw [Heap.read_of_size_le (Nat.zero_le _)] at unassigned
    cases unassigned

theorem Reachable.owned (reachable : m.Reachable) : m.Owned := by
  obtain ⟨output, steps⟩ := reachable
  induction steps with
  | refl => exact new_owned output
  | tail before step ih => exact step_owned step (Reachable.sound ⟨output, before⟩) ih

/-! ## Assignment -/

theorem Owned.exists_held (owned : m.Owned) (holds : m.Holds c) : ∃ o, m.held? o = some c := by
  rcases holds with bound | ⟨l, member⟩
  · obtain ⟨level, name, found⟩ := owned.keyed.exists_binding? bound
    exact ⟨.name level name, found⟩
  · obtain ⟨i, found⟩ := Heap.exists_slot? member
    exact ⟨.slot l i, found⟩

/-- The second machine comes from the first by writing a value to the variable in
one place. All places hold the variables that they held, and the variables in the
other places are as they were. -/
structure WritesAt (m m' : Machine) (o : Owner) (v : Value) : Prop where
  places : ∀ o', m'.held? o' = m.held? o'
  written : ∀ c, m.held? o = some c → m'.heap.read c = (m.heap.read c).assign v
  others : ∀ o' c, o' ≠ o → m.held? o' = some c → m'.heap.read c = m.heap.read c

theorem Owned.writesAt {o : Owner} (owned : m.Owned) (sound : m.Sound)
    (held : m.held? o = some c) (v : Value) (heap : m'.heap = m.heap.assign c v)
    (scopes : m'.scopes = m.scopes) : m.WritesAt m' o v where
  places o' := by
    cases o' with
    | name level name => simp only [held?, scopes]
    | slot l i =>
      simp only [held?, heap]
      rfl
  written d found := by
    obtain rfl := Option.some.inj (held.symm.trans found)
    rw [heap]
    exact Heap.read_modify_self (sound.held_lt held) _
  others o' d other found := by
    rw [heap]
    refine Heap.read_modify_ne ?_ _
    rintro rfl
    exact other (owned.alone o' o d found held)

/-- A successful assignment writes to the variable in one place. -/
theorem execute_assign_writesAt (settings : Settings) (fuel : Nat) {unit : Nat} {path : List Nat}
    (span : Span) (target value : Expr) (reachable : m.Reachable) :
    (execute ((Env.standard settings).engine fuel) unit path (.assign span target value)).Ends m
      (fun _ m' => ∃ v m₁ c m₂ o,
        evalValue ((Env.standard settings).engine fuel) value
          (m.entered (.assign span target value)) = .ok v m₁ ∧
        resolve ((Env.standard settings).engine fuel) target m₁ = .ok c m₂ ∧
        m₂.held? o = some c ∧ m₂.WritesAt m' o v.value)
      (fun _ _ => True) := by
  unfold execute
  refine ends_stepped_ok ?_
  refine (assign_ends settings fuel target value _).bind_ok ?_
  rintro _ _ ⟨v, m₁, c, m₂, ofValue, ofTarget, steps, holds, rfl⟩
  have reached := reachable.steps ((entered_steps m _).trans steps)
  obtain ⟨o, held⟩ := reached.owned.exists_held holds
  refine ((recordTraces_kept _ span _).and (recordTraces_updates _ span _)).bind_ok ?_
  rintro _ m' ⟨kept, heap, -⟩
  exact ⟨v, m₁, c, m₂, o, ofValue, ofTarget, held,
    reached.owned.writesAt reached.sound held v.value heap kept.scopes⟩

end Machine

end TraceLang
