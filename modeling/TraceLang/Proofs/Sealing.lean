/-
# TraceLang.Proofs.Sealing — variables without a value keep to themselves

A variable that is declared without a value holds the default of its type, for
lists a new empty one. Its value cannot be used before it is assigned, so that
list gets into no other variable and stays empty. The heap is `Sealed` if this is
so for all variables.

A list is fit to be held by a computed value if no such variable holds it. With
that, programs keep the heap sealed (`sealing_lawful`).
-/
import TraceLang.Proofs.Grounding
import TraceLang.Proofs.Ownership

namespace TraceLang

set_option autoImplicit false

namespace Heap

variable {h h' : Heap} {c : CellId} {v : Value} {l : ListId}

/-- The value is the default of its type, where any empty list will do. -/
inductive IsDefault (h : Heap) : Value → Prop
  | plain {v : Value} (isDefault : h.default? v.ty = some (v, h)) : IsDefault h v
  | list {l : ListId} (empty : h.elements l = #[]) : IsDefault h (.list l)

/-- A default list is a new one, so it is not in the heap it was made for. -/
theorem default?_list_ne (h : Heap) (l : ListId) : h.default? .list ≠ some (.list l, h) := by
  intro found
  have count := congrArg (·.2.lists.size) (Option.some.inj found)
  exact absurd (lists_lt_deepCopy h .registered) (Nat.not_lt.mpr (Nat.le_of_eq count))

theorem IsDefault.elements_eq (isDefault : h.IsDefault (.list l)) : h.elements l = #[] := by
  cases isDefault with
  | plain found => exact absurd found (default?_list_ne h l)
  | list empty => exact empty

theorem IsDefault.mono (isDefault : h.IsDefault v)
    (kept : ∀ l, v = .list l → h'.elements l = h.elements l) : h'.IsDefault v := by
  cases isDefault with
  | plain found =>
    cases v with
    | list l => exact absurd found (default?_list_ne h l)
    | int | float | bool | str | none =>
      -- The copy of a scalar is the scalar.
      cases congrArg (Option.map Prod.fst) found
      exact .plain rfl
  | list empty => exact .list ((kept _ rfl).trans empty)

/-- The list is there, and no variable without a value holds it. -/
def Free (h : Heap) (l : ListId) : Prop :=
  l.index < h.lists.size ∧ ∀ c, (h.read c).assigned = false → (h.read c).value ≠ .list l

/-- All lists that are held are there, all elements are assigned, and a variable
that is not holds a default value. If this is a list, no other variable holds
it. -/
structure Sealed (h : Heap) : Prop where
  grounded : h.Grounded
  slots : ∀ l, Upkeep.Assigned h (h.elements l)
  isDefault : ∀ c, (h.read c).assigned = false → h.IsDefault (h.read c).value
  alone : ∀ c d l, (h.read c).assigned = false → (h.read c).value = .list l →
    (h.read d).value = .list l → d = c

theorem sealed_empty : Sealed {} := by
  have empty : ∀ c, read {} c = .fresh .none := fun _ => read_of_size_le (Nat.zero_le _)
  refine ⟨?_, ?_, ?_, ?_⟩
  · intro c
    rw [empty]
    exact nofun
  · intro l c
    simp [elements_new]
  · intro c unassigned
    rw [empty] at unassigned
    cases unassigned
  · intro c d l unassigned
    rw [empty] at unassigned
    cases unassigned

/-- The value of an assigned variable is free. -/
theorem Sealed.read (sealed : h.Sealed) (assigned : (h.read c).assigned) :
    (h.read c).value.Fits h.Free := by
  intro l holds
  refine ⟨sealed.grounded c l holds, fun d unassigned alsoHolds => ?_⟩
  rw [sealed.alone d c l unassigned alsoHolds holds, unassigned] at assigned
  cases assigned

end Heap

/-- To keep the heap sealed, with the free lists as those that are fit. -/
def sealing : Upkeep where
  inv := Heap.Sealed
  fit := Heap.Free

namespace Heap

variable {h h' : Heap} {c : CellId} {v : Value} {l : ListId}

/-- Changes of lists only. Those held by variables without a value stay. -/
theorem Sealed.relist (sealed : h.Sealed) (cells : h'.cells = h.cells)
    (count : h.lists.size ≤ h'.lists.size)
    (slots : ∀ l, Upkeep.Assigned h (h'.elements l))
    (kept : ∀ l, l.index < h.lists.size → ¬ h.Free l → h'.elements l = h.elements l) :
    sealing.Keeps h h' := by
  have read : ∀ c, h'.read c = h.read c := fun c => by rw [Heap.read, cells, Heap.read]
  refine ⟨⟨sealed.grounded.lists cells count, ?_, ?_, ?_⟩, ?_⟩
  · intro l c member
    rw [cells, read]
    exact slots l c member
  · intro c unassigned
    rw [read] at unassigned ⊢
    refine (sealed.isDefault c unassigned).mono fun l holds => ?_
    exact kept l (sealed.grounded c l holds) fun free => free.2 c unassigned holds
  · intro c d l
    simp only [read]
    exact sealed.alone c d l
  · rintro l ⟨old, free⟩
    refine ⟨Nat.lt_of_lt_of_le old count, fun c => ?_⟩
    rw [read]
    exact free c

/-- Changes of variables only. Each of them shows what it did or is assigned and
holds a free list. -/
theorem Sealed.revalue (sealed : h.Sealed) (lists : h'.lists = h.lists)
    (size : h.cells.size ≤ h'.cells.size)
    (cells : ∀ c, ((h'.read c).assigned = (h.read c).assigned ∧
        (h'.read c).value = (h.read c).value) ∨
      ((h'.read c).assigned ∧ (h'.read c).value.Fits h.Free)) : sealing.Keeps h h' := by
  have elements : ∀ l, h'.elements l = h.elements l := fun l => by
    rw [Heap.elements, lists, Heap.elements]
  -- What is not assigned now was not before, and it holds what it did.
  have before : ∀ {c}, (h'.read c).assigned = false →
      (h.read c).assigned = false ∧ (h'.read c).value = (h.read c).value := by
    intro c unassigned
    rcases cells c with ⟨same, value⟩ | ⟨assigned, -⟩
    · exact ⟨same ▸ unassigned, value⟩
    · rw [unassigned] at assigned
      cases assigned
  refine ⟨⟨?_, ?_, ?_, ?_⟩, ?_⟩
  · intro c
    rw [lists]
    rcases cells c with ⟨-, value⟩ | ⟨-, free⟩
    · rw [value]
      exact sealed.grounded c
    · exact free.mono fun _ free => free.1
  · intro l c member
    rw [elements] at member
    obtain ⟨old, before⟩ := sealed.slots l c member
    refine ⟨Nat.lt_of_lt_of_le old size, ?_⟩
    rcases cells c with ⟨same, -⟩ | ⟨assigned, -⟩
    · exact same ▸ before
    · exact assigned
  · intro c unassigned
    obtain ⟨unassigned, value⟩ := before unassigned
    rw [value]
    exact (sealed.isDefault c unassigned).mono fun l _ => elements l
  · intro c d l unassigned holds alsoHolds
    obtain ⟨unassigned, value⟩ := before unassigned
    rw [value] at holds
    rcases cells d with ⟨-, value⟩ | ⟨-, free⟩
    · exact sealed.alone c d l unassigned holds (value ▸ alsoHolds)
    · exact absurd holds ((free l alsoHolds).2 c unassigned)
  · rintro l ⟨old, free⟩
    refine ⟨lists ▸ old, fun c unassigned => ?_⟩
    obtain ⟨unassigned, value⟩ := before unassigned
    rw [value]
    exact free c unassigned

theorem Sealed.alloc {v : Variable} (sealed : h.Sealed) (assigned : v.assigned)
    (free : v.value.Fits h.Free) : sealing.Keeps h (h.alloc v).2 := by
  refine sealed.revalue rfl (by simp) fun c => ?_
  rcases h.read_alloc_or v c with same | ⟨-, new⟩
  · exact .inl ⟨congrArg _ same, congrArg _ same⟩
  · rw [new]
    exact .inr ⟨assigned, free⟩

theorem Sealed.allocList {cells : Array CellId} (sealed : h.Sealed)
    (assigned : Upkeep.Assigned h cells) :
    sealing.Keeps h (h.allocList cells).2 ∧
      (h.allocList cells).2.Free (h.allocList cells).1 := by
  have grows := grows_allocList h cells
  refine ⟨sealed.relist rfl grows.count ?_ fun l old _ => grows.lists l old, ?_, ?_⟩
  · intro l c member
    rcases elements_allocList h cells l with same | new
    · exact sealed.slots l c (same ▸ member)
    · exact assigned c (new ▸ member)
  · simp [Heap.allocList]
  · intro c _ holds
    exact absurd (sealed.grounded c _ holds) (by simp [Heap.allocList])

theorem Sealed.setElements {cells : Array CellId} (sealed : h.Sealed) (free : h.Free l)
    (assigned : Upkeep.Assigned h cells) : sealing.Keeps h (h.setElements l cells) := by
  refine sealed.relist rfl (by simp [Heap.setElements]) ?_ ?_
  · intro k c member
    by_cases same : k = l
    · subst same
      rw [elements_setElements_self free.1] at member
      exact assigned c member
    · rw [elements_setElements_ne same] at member
      exact sealed.slots k c member
  · intro k _ notFree
    refine elements_setElements_ne ?_ cells
    rintro rfl
    exact notFree free

theorem Sealed.push (sealed : h.Sealed) (free : h.Free l) (fits : v.Fits h.Free) :
    sealing.Keeps h (h.push l v) := by
  have one := sealed.alloc (v := .fresh v) rfl fits
  refine one.trans (Sealed.relist one.inv rfl (by simp [Heap.push, Heap.alloc]) ?_ ?_)
  · intro k c member
    by_cases same : k = l
    · subst same
      rw [elements_push_self free.1] at member
      exact (Sealed.slots sealed k).alloc v c member
    · rw [elements_push_ne same] at member
      exact Sealed.slots one.inv k c member
  · intro k _ notFree
    refine elements_push_ne ?_ v
    rintro rfl
    exact notFree (one.fit _ free)

theorem Sealed.assign (sealed : h.Sealed) (c : CellId) (fits : v.Fits h.Free) :
    sealing.Keeps h (h.assign c v) := by
  refine sealed.revalue rfl (by simp [Heap.assign]) fun d => ?_
  rcases h.read_modify_or c d (·.assign v) with same | ⟨-, changed⟩
  · exact .inl ⟨congrArg _ same, congrArg _ same⟩
  · exact .inr ⟨congrArg _ changed, (congrArg Variable.value changed).symm ▸ fits⟩

theorem Sealed.mark (sealed : h.Sealed) (c : CellId) :
    sealing.Keeps h (h.modify c fun v => { v with traced := true }) := by
  refine sealed.revalue rfl (by simp) fun d => .inl ?_
  rcases h.read_modify_or c d fun v => { v with traced := true } with same | ⟨rfl, changed⟩
  · exact ⟨congrArg _ same, congrArg _ same⟩
  · rw [changed]
    exact ⟨rfl, rfl⟩

/-- A new variable without a value. From then on, the list that it holds is not
free any more. -/
theorem Sealed.hold (sealed : h.Sealed) (name : String) (isDefault : h.IsDefault v)
    (there : v.Within h.lists.size) (unheld : ∀ l, v = .list l → ∀ c, (h.read c).value ≠ .list l) :
    (h.alloc { value := v, assigned := false, name := some name }).2.Sealed ∧
      ∀ l, v ≠ .list l → h.Free l →
        (h.alloc { value := v, assigned := false, name := some name }).2.Free l := by
  let x : Variable := { value := v, assigned := false, name := some name }
  have read := h.read_alloc_or x
  refine ⟨⟨sealed.grounded.alloc there, ?_, ?_, ?_⟩, ?_⟩
  · exact fun l => (sealed.slots l).grows (grows_alloc h x)
  · intro c unassigned
    rcases read c with same | ⟨-, new⟩
    · rw [same] at unassigned ⊢
      exact (sealed.isDefault c unassigned).mono fun _ _ => rfl
    · rw [new]
      exact isDefault.mono fun _ _ => rfl
  · intro c d l unassigned holds alsoHolds
    rcases read c with same | ⟨here, new⟩ <;> rcases read d with same' | ⟨here', new'⟩
    · rw [same] at unassigned holds
      exact sealed.alone c d l unassigned holds (same' ▸ alsoHolds)
    · rw [same] at holds
      rw [new'] at alsoHolds
      exact absurd holds (unheld l alsoHolds c)
    · rw [new] at holds
      rw [same'] at alsoHolds
      exact absurd alsoHolds (unheld l holds d)
    · exact here'.trans here.symm
  · rintro l other ⟨old, free⟩
    refine ⟨old, fun c => ?_⟩
    rcases read c with same | ⟨-, new⟩
    · rw [same]
      exact free c
    · rw [new]
      exact fun _ => other

theorem Sealed.reserve (sealed : h.Sealed) (pristine : h.Pristine) (ty : Ty) (name : String) :
    sealing.Keeps h (h.reserve ty name).2 := by
  have plain : ∀ {v : Value}, h.IsDefault v → (∀ l, v ≠ .list l) →
      sealing.Keeps h (h.alloc { value := v, assigned := false, name := some name }).2 := by
    intro v isDefault notList
    have held := sealed.hold name isDefault (fun l is => absurd is (notList l))
      fun l is => absurd is (notList l)
    exact ⟨held.1, fun l => held.2 l (notList l)⟩
  cases ty with
  | list =>
    -- The variable holds a list that was just made, so nothing else holds it.
    simp only [Heap.reserve, pristine.default?_list]
    obtain ⟨keeps, free⟩ := sealed.allocList (Upkeep.assigned_empty h)
    have held := Sealed.hold keeps.inv name (.list (l := ⟨h.lists.size⟩) ?_)
      (Value.fits_list free.1) ?_
    · refine ⟨held.1, fun l fits => held.2 l ?_ (keeps.fit l fits)⟩
      rintro ⟨⟩
      exact Nat.lt_irrefl _ fits.1
    · simp [Heap.allocList, elements, Array.getD]
    · rintro _ ⟨⟩ c holds
      exact Nat.lt_irrefl _ (sealed.grounded c _ holds)
  | int | float | bool | string | none | auto =>
    refine plain (.plain rfl) ?_
    rintro _ ⟨⟩

end Heap

theorem sealing_lawful : sealing.Lawful where
  read sealed assigned := sealed.read assigned
  values {h l} sealed v member := by
    obtain ⟨c, inside, rfl⟩ := List.mem_map.mp member
    exact sealed.read (sealed.slots l c (Array.mem_toList_iff.mp inside)).2
  alloc sealed assigned fits := sealed.alloc assigned fits
  allocList sealed assigned := sealed.allocList assigned
  setElements sealed free assigned := sealed.setElements free assigned
  push sealed free fits := sealed.push free fits
  assign {_} c {_} sealed fits := Heap.Sealed.assign sealed c fits
  mark c sealed := Heap.Sealed.mark sealed c
  reserve ty name sealed pristine := Heap.Sealed.reserve sealed pristine ty name

namespace Machine

variable {m : Machine}

theorem AtRest.sealed (rest : AtRest m) : m.heap.Sealed :=
  (rest.upkept sealing_lawful Heap.sealed_empty).heap

/-- Every variable is held in one place at most, and one without a value holds a
default that it does not share and that was never written. So a successful
assignment, whenever it is executed, changes what is held in one place and in no
other. -/
theorem variables_owned (rest : m.AtRest) :
    m.Owned ∧
      (∀ c, (m.heap.read c).assigned = false →
        (m.heap.read c).version = 0 ∧ m.heap.IsDefault (m.heap.read c).value ∧
          ∀ l, (m.heap.read c).value = .list l →
            m.heap.elements l = #[] ∧ ∀ d, d ≠ c → (m.heap.read d).value ≠ .list l) ∧
      ∀ {n : Machine}, Steps m n → ∀ (settings : Settings) (fuel unit : Nat) (path : Path)
        (span : Span) (target value : Expr),
        (execute ((Env.standard settings).engine fuel) unit path
          (.assign span target value)).Ends n
          (fun _ n' => ∃ v n₁ c n₂ o,
            evalValue ((Env.standard settings).engine fuel) value
              (n.entered (.assign span target value)) = .ok v n₁ ∧
            resolve ((Env.standard settings).engine fuel) target n₁ = .ok c n₂ ∧
            n₂.held? o = some c ∧ n₂.WritesAt n' o v.value)
          (fun _ _ => True) := by
  have owned := rest.reachable.owned
  have sealed := rest.sealed
  refine ⟨owned, ?_, ?_⟩
  · intro c unassigned
    refine ⟨owned.unwritten c unassigned, sealed.isDefault c unassigned, fun l holds => ⟨?_, ?_⟩⟩
    · have isDefault := sealed.isDefault c unassigned
      rw [holds] at isDefault
      exact isDefault.elements_eq
    · exact fun d other alsoHolds => other (sealed.alone c d l unassigned holds alsoHolds)
  · intro n steps settings fuel unit path span target value
    exact execute_assign_writesAt settings fuel span target value (rest.reachable.steps steps)

/-- A list without a value, and one that is shared by two names, passed, returned
and written to through one of them. -/
theorem variables_owned_shared : ∃ prog m n,
    Program.read ("list x; list a = [1]; list b = a; " ++
      "func f(list p) \x7b p[0] = 2; return p; \x7d list c = f(b) + a;") = .ok prog ∧
      run ((Env.standard {}).engine 9) 0 prog {} = .ok () m ∧ m.Owned ∧
      (m.heap.read ⟨0⟩).value = .list ⟨1⟩ ∧ (m.heap.read ⟨0⟩).version = 0 ∧
      m.heap.elements ⟨1⟩ = #[] ∧ (∀ d, d ≠ ⟨0⟩ → (m.heap.read d).value ≠ .list ⟨1⟩) ∧
      execute ((Env.standard {}).engine 9) 0 []
        (.assign {} (.index {} (.var {} "b") (.int {} 0)) (.int {} 7)) m = .ok .next n ∧
      ∃ (m₂ : Machine) (o : Owner) (v : Value), m₂.WritesAt n o v := by
  have checked : (sourceRun? ((Env.standard {}).engine 9) ("list x; list a = [1]; list b = a; " ++
      "func f(list p) \x7b p[0] = 2; return p; \x7d list c = f(b) + a;")).any (fun ended =>
        decide ((ended.2.heap.read ⟨0⟩).assigned = false ∧
          (ended.2.heap.read ⟨0⟩).value = .list ⟨1⟩) &&
        (execute ((Env.standard {}).engine 9) 0 []
          (.assign {} (.index {} (.var {} "b") (.int {} 0)) (.int {} 7)) ended.2).ok?.any
            (fun assigned => decide (assigned.1 = .next))) := by
    decide +kernel
  obtain ⟨⟨prog, m⟩, found, holds⟩ := (Option.any_eq_true _ _).mp checked
  obtain ⟨read, ran⟩ := sourceRun?_eq_some found
  obtain ⟨facts, goesOn⟩ := (Bool.and_eq_true _ _).mp holds
  obtain ⟨unassigned, value⟩ := of_decide_eq_true facts
  obtain ⟨owned, sealed, assigns⟩ := variables_owned (.succeeded (.new default) read ran)
  obtain ⟨version, -, list⟩ := sealed ⟨0⟩ unassigned
  obtain ⟨empty, alone⟩ := list ⟨1⟩ value
  obtain ⟨⟨flow, n⟩, assigned, next⟩ := (Option.any_eq_true _ _).mp goesOn
  obtain rfl : flow = .next := of_decide_eq_true next
  have ended := Outcome.eq_of_ok? assigned
  obtain ⟨v, -, c, m₂, o, -, -, -, writes⟩ := (assigns .refl {} 9 0 [] {} _ _).of_ok ended
  exact ⟨prog, m, n, read, ran, owned, value, version, empty, alone, ended, m₂, o, _, writes⟩

end Machine

end TraceLang
