/-
# TraceLang.Proofs.Coupling.Diagonal — a run held against itself

A property of the heap that depends on the values stored in it cannot be followed
through single steps: a value is first computed and then stored, and what was
computed has to be known. A coupling of a run with itself knows it. A list
corresponds to itself if it is fit to be held by a computed value, and nothing
else corresponds.

An `Upkeep` is such a property together with the lists that are fit. If it gets
through the elementary operations on heaps (`Upkeep.Lawful`), then it gets
through everything that a program does (`execute_upkept`, `run_upkept`).

One property is kept up along with every other: no variable holds the registered
list, which stays empty (`Heap.Secluded`, `Lawful.apart`).
-/
import TraceLang.Proofs.Coupling.Instructions
import TraceLang.Proofs.Pairing.Views
import TraceLang.Proofs.Tracing

namespace TraceLang

set_option autoImplicit false

/-- If the value is a list, the list has the property. -/
def Value.Fits (fit : ListId → Prop) (v : Value) : Prop :=
  ∀ l, v = .list l → fit l

namespace Value

variable {fit fit' : ListId → Prop} {v v' : Value}

theorem Fits.mono (fits : v.Fits fit) (more : ∀ l, fit l → fit' l) : v.Fits fit' :=
  fun l isList => more l (fits l isList)

theorem fits_list {l : ListId} (fits : fit l) : (Value.list l).Fits fit := by
  rintro _ ⟨⟩
  exact fits

theorem like_self : v.Like (fun l l' => l' = l ∧ fit l) v' ↔ v' = v ∧ v.Fits fit := by
  constructor
  · intro like
    cases like with
    | list paired => exact ⟨congrArg _ paired.1, fits_list paired.2⟩
    | _ => exact ⟨rfl, nofun⟩
  · rintro ⟨rfl, fits⟩
    cases v' with
    | list l => exact .list ⟨rfl, fits l rfl⟩
    | _ => constructor

theorem forall₂_like_self {vs vs' : List Value} :
    List.Forall₂ (Value.Like fun l l' => l' = l ∧ fit l) vs vs' ↔
      vs' = vs ∧ ∀ v ∈ vs, v.Fits fit := by
  constructor
  · intro like
    induction like with
    | nil => exact ⟨rfl, nofun⟩
    | cons first _ ih =>
      obtain ⟨rfl, fits⟩ := like_self.mp first
      obtain ⟨rfl, rest⟩ := ih
      exact ⟨rfl, List.forall_mem_cons.mpr ⟨fits, rest⟩⟩
  · rintro ⟨rfl, fits⟩
    exact List.forall₂_same.mpr fun v member => like_self.mpr ⟨rfl, fits v member⟩

end Value

/-! ## The registered list -/

namespace Heap

variable {h h' : Heap} {c : CellId} {v : Value} {l : ListId}

/-- The registered list is there and empty, and no variable holds it. -/
structure Secluded (h : Heap) : Prop extends h.Pristine where
  unheld : ∀ c, (h.read c).value ≠ .list .registered

theorem secluded_new : Secluded {} where
  toPristine := pristine_new
  unheld c := by
    rw [read_of_size_le (Nat.zero_le _)]
    exact nofun

theorem Secluded.relist (secluded : h.Secluded) (cells : h'.cells = h.cells)
    (pristine : h'.Pristine) : h'.Secluded :=
  ⟨pristine, fun c => by rw [Heap.read, cells]; exact secluded.unheld c⟩

theorem Secluded.alloc (secluded : h.Secluded) {v : Variable}
    (other : v.value ≠ .list .registered) : (h.alloc v).2.Secluded := by
  refine ⟨secluded.toPristine.revalue rfl, fun c => ?_⟩
  rcases h.read_alloc_or v c with same | ⟨-, new⟩
  · rw [same]
    exact secluded.unheld c
  · rw [new]
    exact other

theorem Secluded.modify (secluded : h.Secluded) (c : CellId) {f : Variable → Variable}
    (other : (f (h.read c)).value ≠ .list .registered) : (h.modify c f).Secluded := by
  refine ⟨secluded.toPristine.revalue rfl, fun d => ?_⟩
  rcases h.read_modify_or c d f with same | ⟨-, changed⟩
  · rw [same]
    exact secluded.unheld d
  · rw [changed]
    exact other

theorem Secluded.allocList (secluded : h.Secluded) (cells : Array CellId) :
    (h.allocList cells).2.Secluded :=
  secluded.relist rfl (secluded.toPristine.grows (grows_allocList h cells))

theorem Secluded.setElements (secluded : h.Secluded) (other : l ≠ .registered)
    (cells : Array CellId) : (h.setElements l cells).Secluded :=
  secluded.relist rfl (secluded.toPristine.kept (by simp [Heap.setElements])
    (elements_setElements_ne other.symm cells))

theorem Secluded.push (secluded : h.Secluded) (other : l ≠ .registered)
    (fits : v ≠ .list .registered) : (h.push l v).Secluded :=
  (secluded.alloc (v := .fresh v) fits).relist rfl (secluded.toPristine.push other v)

/-- A variable without initializer holds another list than the registered one. -/
theorem Secluded.reserve (secluded : h.Secluded) (ty : Ty) (name : String) :
    (h.reserve ty name).2.Secluded := by
  cases ty with
  | list =>
    simp only [Heap.reserve, secluded.toPristine.default?_list]
    refine Secluded.alloc (secluded.allocList #[]) fun same => ?_
    exact secluded.toPristine.ne_registered (Nat.le_refl _) (Value.list.inj same)
  | int | float | bool | string | none | auto =>
    refine secluded.alloc fun same => ?_
    cases same

end Heap

/-- A property of heaps, and the lists that computed values may hold. -/
structure Upkeep where
  inv : Heap → Prop
  fit : Heap → ListId → Prop

namespace Upkeep

variable {u : Upkeep} {h h' h'' : Heap} {v : Value} {l : ListId}

/-- The second heap has the property, and in it everything is fit that was fit in
the first. -/
structure Keeps (u : Upkeep) (h h' : Heap) : Prop where
  inv : u.inv h'
  fit : ∀ l, u.fit h l → u.fit h' l

theorem Keeps.trans (first : u.Keeps h h') (second : u.Keeps h' h'') : u.Keeps h h'' :=
  ⟨second.inv, fun l fits => second.fit l (first.fit l fits)⟩

theorem Keeps.fits (keeps : u.Keeps h h') (fits : v.Fits (u.fit h)) : v.Fits (u.fit h') :=
  fits.mono keeps.fit

/-- The cells are there and assigned. -/
def Assigned (h : Heap) (cells : Array CellId) : Prop :=
  ∀ c ∈ cells, c.index < h.cells.size ∧ (h.read c).assigned

theorem assigned_empty (h : Heap) : Assigned h #[] := by
  simp [Assigned]

theorem Assigned.grows {cells : Array CellId} (assigned : Assigned h cells) (grows : h.Grows h') :
    Assigned h' cells := by
  intro c member
  obtain ⟨old, isAssigned⟩ := assigned c member
  rw [grows.cells c old]
  exact ⟨Nat.lt_of_lt_of_le old grows.size, isAssigned⟩

/-- One more cell, for a value. -/
theorem Assigned.alloc {cells : Array CellId} (assigned : Assigned h cells) (v : Value) :
    Assigned (h.alloc (.fresh v)).2 (cells.push (h.alloc (.fresh v)).1) := by
  intro c member
  rcases Array.mem_push.mp member with before | rfl
  · exact assigned.grows (Heap.grows_alloc h _) c before
  · simp [Heap.alloc, Heap.read, Array.getD, Variable.fresh]

/-- The property gets through the elementary operations. -/
structure Lawful (u : Upkeep) : Prop where
  read : ∀ {h : Heap} {c : CellId}, u.inv h → (h.read c).assigned →
    (h.read c).value.Fits (u.fit h)
  values : ∀ {h : Heap} {l : ListId}, u.inv h → ∀ v ∈ h.values l, v.Fits (u.fit h)
  alloc : ∀ {h : Heap} {v : Variable}, u.inv h → v.assigned → v.value.Fits (u.fit h) →
    u.Keeps h (h.alloc v).2
  allocList : ∀ {h : Heap} {cells : Array CellId}, u.inv h → Assigned h cells →
    u.Keeps h (h.allocList cells).2 ∧ u.fit (h.allocList cells).2 (h.allocList cells).1
  setElements : ∀ {h : Heap} {l : ListId} {cells : Array CellId}, u.inv h → u.fit h l →
    Assigned h cells → u.Keeps h (h.setElements l cells)
  push : ∀ {h : Heap} {l : ListId} {v : Value}, u.inv h → u.fit h l → v.Fits (u.fit h) →
    u.Keeps h (h.push l v)
  assign : ∀ {h : Heap} (c : CellId) {v : Value}, u.inv h → v.Fits (u.fit h) →
    u.Keeps h (h.assign c v)
  mark : ∀ {h : Heap} (c : CellId), u.inv h →
    u.Keeps h (h.modify c fun v => { v with traced := true })
  reserve : ∀ {h : Heap} (ty : Ty) (name : String), u.inv h → h.Pristine →
    u.Keeps h (h.reserve ty name).2

/-- The property apart from the registered list: this one is not fit. -/
def apart (u : Upkeep) : Upkeep where
  inv h := u.inv h ∧ h.Secluded
  fit h l := u.fit h l ∧ l ≠ .registered

theorem Keeps.apart (keeps : u.Keeps h h') (secluded : h'.Secluded) : u.apart.Keeps h h' :=
  ⟨⟨keeps.inv, secluded⟩, fun l fits => ⟨keeps.fit l fits.1, fits.2⟩⟩

theorem fits_apart : v.Fits (u.apart.fit h) ↔ v.Fits (u.fit h) ∧ v ≠ .list .registered := by
  constructor
  · intro fits
    exact ⟨fits.mono fun _ => And.left, fun same => (fits _ same).2 rfl⟩
  · rintro ⟨fits, other⟩ l rfl
    exact ⟨fits l rfl, fun same => other (congrArg _ same)⟩

/-- What gets through the elementary operations also does so apart from the registered
list. -/
theorem Lawful.apart (lawful : u.Lawful) : u.apart.Lawful where
  read inv assigned := fits_apart.mpr ⟨lawful.read inv.1 assigned, inv.2.unheld _⟩
  values {h l} inv v member := by
    have fits := lawful.values inv.1 v member
    obtain ⟨c, -, rfl⟩ := List.mem_map.mp member
    exact fits_apart.mpr ⟨fits, inv.2.unheld c⟩
  alloc inv assigned fits := by
    obtain ⟨fits, other⟩ := fits_apart.mp fits
    exact (lawful.alloc inv.1 assigned fits).apart (inv.2.alloc other)
  allocList {h cells} inv assigned := by
    obtain ⟨keeps, fit⟩ := lawful.allocList inv.1 assigned
    exact ⟨keeps.apart (inv.2.allocList cells), fit,
      inv.2.toPristine.ne_registered (Nat.le_refl _)⟩
  setElements {h l cells} inv fit assigned :=
    (lawful.setElements inv.1 fit.1 assigned).apart (inv.2.setElements fit.2 cells)
  push inv fit fits := by
    obtain ⟨fits, other⟩ := fits_apart.mp fits
    exact (lawful.push inv.1 fit.1 fits).apart (inv.2.push fit.2 other)
  assign {_} c {_} inv fits := by
    obtain ⟨fits, other⟩ := fits_apart.mp fits
    exact (lawful.assign c inv.1 fits).apart (inv.2.modify c other)
  mark c inv := (lawful.mark c inv.1).apart (inv.2.modify c (inv.2.unheld c))
  reserve ty name inv pristine :=
    (lawful.reserve ty name inv.1 pristine).apart (inv.2.reserve ty name)

/-! ## New lists and copies -/

section

variable (lawful : u.Lawful)

include lawful

theorem Lawful.fresh (inv : u.inv h) (fits : v.Fits (u.fit h)) :
    u.Keeps h (h.alloc (.fresh v)).2 :=
  lawful.alloc inv rfl fits

theorem Lawful.allocAll (values : List Value) : ∀ {h : Heap} {cells : Array CellId}, u.inv h →
    Assigned h cells → (∀ v ∈ values, v.Fits (u.fit h)) →
    u.Keeps h (h.allocAll values cells).2 ∧
      Assigned (h.allocAll values cells).2 (h.allocAll values cells).1 := by
  induction values with
  | nil => exact fun inv assigned _ => ⟨⟨inv, fun _ fits => fits⟩, assigned⟩
  | cons v rest ih =>
    intro h cells inv assigned fits
    obtain ⟨first, others⟩ := List.forall_mem_cons.mp fits
    have one := lawful.fresh inv first
    obtain ⟨keeps, assigned'⟩ := ih one.inv (assigned.alloc v)
      fun v member => one.fits (others v member)
    exact ⟨one.trans keeps, assigned'⟩

theorem Lawful.newList {values : List Value} (inv : u.inv h)
    (fits : ∀ v ∈ values, v.Fits (u.fit h)) :
    u.Keeps h (h.newList values).2 ∧ (h.newList values).1.Fits (u.fit (h.newList values).2) := by
  obtain ⟨keeps, assigned⟩ := lawful.allocAll values inv (assigned_empty h) fits
  obtain ⟨keeps', fit⟩ := lawful.allocList keeps.inv assigned
  exact ⟨keeps.trans keeps', Value.fits_list fit⟩

end

/-- The heap of a copy in progress has the property, and the copies begun are
fit. -/
structure Copies (u : Upkeep) (st : Copying) : Prop where
  inv : u.inv st.heap
  begun : ∀ entry ∈ st.begun, u.fit st.heap entry.2

/-- Copying keeps the property and gives values that are fit. -/
def CopyKeeps (u : Upkeep) (copy : Value → Copying → Value × Copying) : Prop :=
  ∀ v st, u.Copies st → v.Fits (u.fit st.heap) →
    u.Copies (copy v st).2 ∧ u.Keeps st.heap (copy v st).2.heap ∧
      (copy v st).1.Fits (u.fit (copy v st).2.heap)

theorem Copies.keeps {st : Copying} {h : Heap} (copies : u.Copies st)
    (keeps : u.Keeps st.heap h) : u.Copies { st with heap := h } :=
  ⟨keeps.inv, fun entry member => keeps.fit _ (copies.begun entry member)⟩

section

variable (lawful : u.Lawful)

include lawful

theorem Lawful.copyAll {copy : Value → Copying → Value × Copying} (adds : Heap.CopyAdds copy)
    (copyKeeps : u.CopyKeeps copy) (values : List Value) :
    ∀ {cells : Array CellId} {st : Copying}, u.Copies st → Assigned st.heap cells →
      (∀ v ∈ values, v.Fits (u.fit st.heap)) →
      u.Copies (Heap.copyAll copy values cells st).2 ∧
        u.Keeps st.heap (Heap.copyAll copy values cells st).2.heap ∧
        Assigned (Heap.copyAll copy values cells st).2.heap
          (Heap.copyAll copy values cells st).1 := by
  induction values with
  | nil => exact fun copies assigned _ => ⟨copies, ⟨copies.inv, fun _ fits => fits⟩, assigned⟩
  | cons v rest ih =>
    intro cells st copies assigned fits
    obtain ⟨first, others⟩ := List.forall_mem_cons.mp fits
    obtain ⟨copies₁, keeps₁, fits₁⟩ := copyKeeps v st copies first
    have one := lawful.fresh copies₁.inv fits₁
    obtain ⟨copies₂, keeps₂, assigned₂⟩ := ih (copies₁.keeps one)
      ((assigned.grows (adds v st).1).alloc _)
      fun v member => (keeps₁.trans one).fits (others v member)
    exact ⟨copies₂, (keeps₁.trans one).trans keeps₂, assigned₂⟩

theorem Lawful.copyWithin (n : Nat) : u.CopyKeeps (Heap.copyWithin n) := by
  induction n with
  | zero => exact fun v st copies fits => ⟨copies, ⟨copies.inv, fun _ fits => fits⟩, fits⟩
  | succ n ih =>
    intro v st copies fits
    cases v with
    | list l =>
      unfold Heap.copyWithin
      cases begun : st.begun.lookup l with
      | some copy =>
        exact ⟨copies, ⟨copies.inv, fun _ fits => fits⟩,
          Value.fits_list (copies.begun (l, copy) (mem_of_lookup begun))⟩
      | none =>
        -- The copy is there, still empty, while the elements are copied.
        obtain ⟨keeps₁, fit⟩ := lawful.allocList copies.inv (assigned_empty st.heap)
        have started : u.Copies
            { heap := (st.heap.allocList #[]).2
              begun := (l, (st.heap.allocList #[]).1) :: st.begun } :=
          ⟨keeps₁.inv, List.forall_mem_cons.mpr ⟨fit, (copies.keeps keeps₁).begun⟩⟩
        obtain ⟨copies₂, keeps₂, assigned⟩ := lawful.copyAll (Heap.copyWithin_adds n) ih
          (st.heap.values l) started (assigned_empty _)
          fun v member => keeps₁.fits (lawful.values copies.inv v member)
        have keeps₃ := lawful.setElements copies₂.inv (keeps₂.fit _ fit) assigned
        exact ⟨copies₂.keeps keeps₃, (keeps₁.trans keeps₂).trans keeps₃,
          Value.fits_list (keeps₃.fit _ (keeps₂.fit _ fit))⟩
    | none | int | float | bool | str =>
      exact ⟨copies, ⟨copies.inv, fun _ fits => fits⟩, fits⟩

theorem Lawful.deepCopy (inv : u.inv h) (fits : v.Fits (u.fit h)) :
    u.Keeps h (h.deepCopy v).2 ∧ (h.deepCopy v).1.Fits (u.fit (h.deepCopy v).2) :=
  (lawful.copyWithin (h.lists.size + 1) v { heap := h } ⟨inv, nofun⟩ fits).2

end

/-! ## The coupling -/

/-- A run of a program whose instructions have the property `p`, held against
itself, apart from the registered list. A world is the heap of the moment. -/
def coupling (u : Upkeep) (p : Instr → Prop) : Coupling where
  World := Heap
  le h h' := ∀ l, u.apart.fit h l → u.apart.fit h' l
  refl _ _ fits := fits
  trans first second l fits := second l (first l fits)
  cells _ c c' := c' = c
  cells_mono _ same := same
  lists h l l' := l' = l ∧ u.apart.fit h l
  lists_mono more paired := ⟨paired.1, more _ paired.2⟩
  heaps w h h' := h' = h ∧ w = h ∧ u.apart.inv h
  notes _ s t s' t' := s' = s ∧ t' = t
  notes_mono _ same := same
  drop _ := false
  admits i := i.Spelled ∧ p i
  excused _ := False
  excused_locate _ never := never
  excused_trace _ never := never

variable {p : Instr → Prop}

theorem Lawful.tends (lawful : u.Lawful) : (u.coupling p).Tends where
  pristine := by
    rintro _ h _ ⟨rfl, rfl, inv⟩
    exact ⟨inv.2.toPristine, inv.2.toPristine⟩
  read := by
    rintro _ h _ c _ ⟨rfl, rfl, inv⟩ rfl
    exact ⟨rfl, rfl, fun assigned => Value.like_self.mpr ⟨rfl, lawful.apart.read inv assigned⟩⟩
  elements := by
    rintro _ h _ l _ ⟨rfl, rfl, inv⟩ ⟨rfl, -⟩
    exact List.forall₂_same.mpr fun _ _ => rfl
  values := by
    rintro _ h _ l _ ⟨rfl, rfl, inv⟩ ⟨rfl, -⟩
    exact Value.forall₂_like_self.mpr ⟨rfl, lawful.apart.values inv⟩
  text := by
    rintro _ h _ v _ ⟨rfl, -⟩ like
    rw [(Value.like_self.mp like).1]
  equal := by
    rintro _ h _ a _ b _ ⟨rfl, -⟩ left right
    rw [(Value.like_self.mp left).1, (Value.like_self.mp right).1]
  newList := by
    rintro _ h _ vs _ ⟨rfl, rfl, inv⟩ like
    obtain ⟨rfl, fits⟩ := Value.forall₂_like_self.mp like
    obtain ⟨keeps, fit⟩ := lawful.apart.newList inv fits
    exact ⟨_, keeps.fit, ⟨rfl, rfl, keeps.inv⟩, Value.like_self.mpr ⟨rfl, fit⟩⟩
  copy := by
    rintro _ h _ v _ ⟨rfl, rfl, inv⟩ like
    obtain ⟨rfl, fits⟩ := Value.like_self.mp like
    obtain ⟨keeps, fit⟩ := lawful.apart.deepCopy inv fits
    exact ⟨_, keeps.fit, ⟨rfl, rfl, keeps.inv⟩, Value.like_self.mpr ⟨rfl, fit⟩⟩
  push := by
    rintro _ h _ l _ v _ ⟨rfl, rfl, inv⟩ ⟨rfl, fit⟩ like
    obtain ⟨rfl, fits⟩ := Value.like_self.mp like
    have keeps := lawful.apart.push inv fit fits
    exact ⟨_, keeps.fit, rfl, rfl, keeps.inv⟩
  assign := by
    rintro _ _ _ _ c _ _ ⟨rfl, rfl, inv⟩ rfl like
    obtain ⟨rfl, fits⟩ := Value.like_self.mp like
    have keeps := lawful.apart.assign c inv fits
    exact ⟨_, keeps.fit, rfl, rfl, keeps.inv⟩
  alloc := by
    rintro _ h _ v _ name ⟨rfl, rfl, inv⟩ like
    obtain ⟨rfl, fits⟩ := Value.like_self.mp like
    have keeps := lawful.apart.alloc (v := { value := _, name := some name }) inv rfl fits
    exact ⟨_, keeps.fit, ⟨rfl, rfl, keeps.inv⟩, rfl⟩
  reserve := by
    rintro _ h _ ty name ⟨rfl, rfl, inv⟩
    have keeps := lawful.apart.reserve ty name inv inv.2.toPristine
    exact ⟨_, keeps.fit, ⟨rfl, rfl, keeps.inv⟩, rfl⟩

end Upkeep

namespace Machine

open Coupling

variable {u : Upkeep} {p : Instr → Prop} {m m' : Machine}

theorem startTraces_self (lawful : u.Lawful) {g : Engine}
    (answers : (u.coupling p).Answers g.call) (targets : List Expr) : ∀ w,
    (u.coupling p).Mirrors w (u.coupling p).same (startTraces g targets) (startTraces g targets) := by
  induction targets with
  | nil => exact fun _ => mirrors_pure fun _ _ => rfl
  | cons target rest ih =>
    intro w
    unfold startTraces
    refine mirrors_ite (fun _ => ?_) fun _ => mirrors_failAt _ _
    refine mirrors_bind (resolve_mirrors lawful.tends answers target) ?_
    rintro w₁ _ c - rfl
    have looked : (u.coupling p).Mirrors w₁ (u.coupling p).same
        (Action.read fun m => (m.heap.read c).traced)
        (Action.read fun m => (m.heap.read c).traced) :=
      mirrors_read fun _ m m' _ coupled => by
        rw [Coupling.same, coupled.heap.1]
    refine mirrors_bind looked ?_
    rintro w₂ traced _ - rfl
    refine mirrors_ite (fun _ => mirrors_failAt _ _) fun _ => ?_
    refine mirrors_bind (mirrors_modify fun w₃ m m' _ coupled => ?_) fun w₃ _ _ _ _ => ih w₃
    obtain ⟨same, rfl, inv⟩ := coupled.heap
    have keeps := lawful.apart.mark c inv
    refine ⟨⟨rfl, rfl⟩, _, keeps.fit, { coupled with heap := ?_, notes := ?_ }⟩
    · exact ⟨by rw [same], rfl, keeps.inv⟩
    · exact ⟨coupled.notes.1, by rw [same, coupled.notes.2]⟩

end Machine

namespace Upkeep

open Coupling

variable {u : Upkeep} {p : Instr → Prop}

theorem Lawful.coupling (lawful : u.Lawful) (settings : Settings) :
    (u.coupling p).Lawful settings where
  toTends := lawful.tends
  tick notes := ⟨congrArg (· + 1) notes.1, notes.2⟩
  declares _ answers admitted :=
    declare_mirrors lawful.tends answers admitted.1.2.1 admitted.1.2.2
  kept _ := ⟨rfl, rfl⟩
  header isStep admitted := header_mirrors admitted.1 isStep
  record w span := by
    rw [funext (Machine.recordTraces_eq settings span)]
    refine mirrors_modify fun w₁ m m' _ coupled => ?_
    obtain ⟨steps, tracer⟩ := coupled.notes
    refine ⟨⟨rfl, rfl⟩, w₁, fun _ fits => fits,
      { coupled with output := ?_, notes := ⟨steps, ?_⟩ }⟩
    · rw [Machine.recordOutput, Machine.recordOutput, Machine.echoLines, Machine.echoLines,
        coupled.heap.1, steps, tracer, coupled.output]
    · rw [coupled.heap.1, steps, tracer]
  watch w answers _ := Machine.startTraces_self lawful answers _ w
  skips _ _ _ {_ _ _ _} _ dropped := by cases dropped

end Upkeep

namespace Machine

open Coupling

variable {u : Upkeep} {p : Instr → Prop} {m m' : Machine}

/-- The heap has the property that is kept up, and the functions are those of a
program whose instructions have the property `p`. -/
structure Upkept (u : Upkeep) (p : Instr → Prop) (m : Machine) : Prop where
  heap : u.inv m.heap
  secluded : m.heap.Secluded
  functions : ∀ entry ∈ m.functions, entry.2.function.Every fun i => i.Spelled ∧ p i

theorem Upkept.coupled (upkept : m.Upkept u p) : (u.coupling p).Machines m.heap m m where
  heap := ⟨rfl, rfl, upkept.heap, upkept.secluded⟩
  scopes := List.forall₂_same.mpr fun _ _ => List.forall₂_same.mpr fun _ _ => ⟨rfl, rfl⟩
  context := rfl
  functions := List.forall₂_same.mpr fun entry member =>
    ⟨rfl, (Function.without_eq_self (fun _ => rfl) _).symm, upkept.functions entry member⟩
  callDepth := rfl
  output := rfl
  notes := ⟨rfl, rfl⟩

theorem upkept_of_coupled {w : Heap} (coupled : (u.coupling p).Machines w m m') :
    m.Upkept u p where
  heap := coupled.heap.2.2.1
  secluded := coupled.heap.2.2.2
  functions := Heap.forall_of_forall₂_left coupled.functions fun _ _ like => like.2.admitted

theorem ends_upkept_at {α : Type} {act : Action α} {good : Heap → α → α → Prop}
    (ended : (u.coupling p).MirrorsAt m.heap good act act m m) :
    act.Ends m (fun a m' => m'.Upkept u p ∧ good m'.heap a a) (fun _ m' => m'.Upkept u p) := by
  refine (Action.Ends.and ended (Action.ends_self act m)).mono ?_ ?_
  · rintro a m' ⟨⟨-, w, a', _, ran, -, coupled, like⟩, ran'⟩
    obtain ⟨rfl, rfl⟩ := Outcome.ok.inj (ran.symm.trans ran')
    obtain ⟨-, rfl, -⟩ := coupled.heap
    exact ⟨upkept_of_coupled coupled, like⟩
  · rintro f m' ⟨⟨-, failed⟩, -⟩
    obtain ⟨_, _, _, _, coupled⟩ := failed.resolve_left id
    exact upkept_of_coupled coupled

/-- What mirrors itself keeps the property up, however it ends, and gives results
that are fit. -/
theorem ends_upkept {α : Type} {act : Action α} {good : Heap → α → α → Prop}
    (mirrors : (u.coupling p).Mirrors m.heap good act act) (upkept : m.Upkept u p) :
    act.Ends m (fun a m' => m'.Upkept u p ∧ good m'.heap a a) (fun _ m' => m'.Upkept u p) :=
  ends_upkept_at (mirrors _ m m (fun _ fits => fits) upkept.coupled)

/-! ## Instructions and programs -/

section

variable (lawful : u.Lawful) (settings : Settings) (fuel unit : Nat)

include lawful

theorem standard_upkept : (u.coupling p).Answers ((Env.standard settings).engine fuel).call :=
  standard_answers (lawful.coupling settings) fuel

theorem execute_upkept (path : Path) {i : Instr} (every : i.Every fun i => i.Spelled ∧ p i)
    (w : Heap) :
    (u.coupling p).Mirrors w (u.coupling p).Flows
      (execute ((Env.standard settings).engine fuel) unit path i)
      (execute ((Env.standard settings).engine fuel) unit path i) := by
  have mirrors := execute_mirrors (w := w) (lawful.coupling settings) rfl
    (standard_upkept lawful settings fuel) unit unit path path i every rfl
  have whole : i.without (u.coupling p).drop = i := Instr.without_eq_self (fun _ => rfl) i
  rwa [whole] at mirrors

theorem run_upkept {prog : Program} (every : Instr.EveryOf (fun i => i.Spelled ∧ p i) prog.body)
    (upkept : m.Upkept u p) (rest : m.context = {}) :
    (run ((Env.standard settings).engine fuel) unit prog).Ends m
      (fun _ m' => m'.Upkept u p) (fun _ m' => m'.Upkept u p) := by
  have mirrors := run_mirrors (lawful.coupling settings) fuel unit unit every upkept.coupled rest
  have whole : Instr.withoutAll (u.coupling p).drop prog.body = prog.body :=
    Instr.withoutAll_eq_self (fun _ => rfl) _
  rw [whole] at mirrors
  exact (ends_upkept_at mirrors).mono (fun _ _ good => good.1) fun _ _ failed => failed

/-- Between programs the property is upheld, whatever they do and however they
end. -/
theorem AtRest.upkept (new : u.inv {}) (rest : AtRest m) : m.Upkept u fun _ => True := by
  have every : ∀ {source : String} {prog : Program}, Program.read source = .ok prog →
      Instr.EveryOf (fun i => i.Spelled ∧ True) prog.body :=
    fun read => by simpa using read_spelled read
  induction rest with
  | new output => exact ⟨new, Heap.secluded_new, fun _ => nofun⟩
  | succeeded before read ran ih =>
    have closed := before.closed_and_spelled.1
    exact (run_upkept lawful _ _ _ (every read) ih closed.context).of_ok ran
  | failed before read ran ih =>
    have closed := before.closed_and_spelled.1
    exact (run_upkept lawful _ _ _ (every read) ih closed.context).of_fault ran

end

end Machine

end TraceLang
