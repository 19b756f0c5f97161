/-
# TraceLang.Proofs.Scopes — bindings and the operations on scopes

What a name denotes in one scope of the stack (`binding?`), which variables are
bound at all (`Binds`), and how opening, closing and binding change both.
-/
import TraceLang.Scopes

namespace TraceLang

set_option autoImplicit false

theorem lookup_entry {κ β : Type} [BEq κ] [LawfulBEq κ] [DecidableEq κ] (key name : κ) (b : β)
    (rest : List (κ × β)) :
    ((key, b) :: rest).lookup name = if name = key then some b else rest.lookup name := by
  rw [List.lookup_cons]
  split <;> simp_all

theorem mem_of_lookup {κ β : Type} [BEq κ] [LawfulBEq κ] {entries : List (κ × β)} {name : κ} {b : β}
    (found : entries.lookup name = some b) : (name, b) ∈ entries := by
  obtain ⟨before, after, split, -⟩ := List.lookup_eq_some_iff.mp found
  simp [split]

theorem not_mem_of_lookup {κ β : Type} [BEq κ] [LawfulBEq κ] {entries : List (κ × β)} {name : κ}
    (missing : entries.lookup name = none) : name ∉ entries.map Prod.fst := by
  intro member
  obtain ⟨entry, listed, rfl⟩ := List.mem_map.mp member
  simpa using List.lookup_eq_none_iff.mp missing entry listed

namespace Scope

theorem lookup_bind (s : Scope) (name other : String) (c : CellId) :
    (s.bind name c).lookup other = if other = name then some c else s.lookup other := by
  induction s with
  | nil => exact lookup_entry name other c []
  | cons entry rest ih =>
    obtain ⟨first, d⟩ := entry
    unfold bind
    by_cases hit : first = name
    · subst hit
      simp only [if_true, lookup_entry]
      split <;> rfl
    · simp only [hit, if_false, lookup_entry, ih]
      split
      · rename_i same
        simp [same, hit]
      · rfl

theorem mem_bind {s : Scope} {name : String} {c : CellId} {entry : String × CellId}
    (member : entry ∈ s.bind name c) : entry = (name, c) ∨ entry ∈ s := by
  induction s with
  | nil => exact .inl (List.mem_singleton.mp member)
  | cons first rest ih =>
    unfold bind at member
    split at member
    · rcases List.mem_cons.mp member with rfl | inRest
      · exact .inl rfl
      · exact .inr (List.mem_cons_of_mem _ inRest)
    · rcases List.mem_cons.mp member with rfl | inRest
      · exact .inr (List.mem_cons_self ..)
      · exact (ih inRest).imp_right (List.mem_cons_of_mem _)

end Scope

namespace Scopes

variable {s s' : Scopes}

/-- The variable that a name denotes in the scope with the given number; the
global scope is number zero. -/
def binding? (s : Scopes) (level : Nat) (name : String) : Option CellId :=
  s.stack[level]?.bind fun scope => scope.lookup name

@[simp] theorem depth_push (s : Scopes) : s.push.depth = s.depth + 1 := by
  simp [push, depth]

/-- A scope is empty when it is opened. -/
theorem innermost_push (s : Scopes) : s.push.innermost = [] := by
  simp [push, innermost]

/-- An empty scope hides nothing. -/
theorem find?_push (s : Scopes) (name : String) : s.push.find? name = s.find? name := by
  rw [find?, find?, Array.findSomeRev?_eq_findSome?_reverse,
    Array.findSomeRev?_eq_findSome?_reverse, ← Array.findSome?_toList, ← Array.findSome?_toList,
    Array.toList_reverse, Array.toList_reverse, push, Array.toList_push, List.reverse_append]
  rfl

theorem depth_pos (s : Scopes) : 0 < s.depth :=
  s.nonempty

@[simp] theorem depth_define (s : Scopes) (name : String) (c : CellId) :
    (s.define name c).depth = s.depth := by
  simp [define, depth]

theorem binding?_define (s : Scopes) (level : Nat) (name other : String) (c : CellId) :
    (s.define name c).binding? level other =
      if level + 1 = s.depth ∧ other = name then some c else s.binding? level other := by
  have bound := s.nonempty
  simp only [binding?, define, depth, Array.getElem?_modify]
  by_cases innermost : level + 1 = s.stack.size
  · have last : s.stack.size - 1 = level := by omega
    have inside : level < s.stack.size := by omega
    by_cases same : other = name <;>
      simp [last, innermost, same, Array.getElem?_eq_getElem inside, Scope.lookup_bind]
  · have apart : s.stack.size - 1 ≠ level := by omega
    simp [apart, innermost]

theorem find?_define_self (s : Scopes) (name : String) (c : CellId) :
    (s.define name c).find? name = some c := by
  have nonempty : (s.define name c).stack.toList ≠ [] :=
    List.ne_nil_of_length_pos (s.define name c).nonempty
  have last : (s.define name c).stack.toList.getLast nonempty = s.innermost.bind name c := by
    simp [List.getLast_eq_getElem, define, innermost]
  rw [find?, Array.findSomeRev?_eq_findSome?_reverse, ← Array.findSome?_toList,
    Array.toList_reverse, ← List.dropLast_concat_getLast nonempty, List.reverse_append, last]
  simp [Scope.lookup_bind]

theorem pop_define (s : Scopes) (name : String) (c : CellId) :
    (s.define name c).stack.pop = s.stack.pop := by
  apply Array.ext
  · simp [define]
  · intro i _ inside
    have apart : s.stack.size - 1 ≠ i := by
      simp only [Array.size_pop] at inside
      omega
    simp [define, Array.getElem_modify, apart]

/-- Closing the one scope that was opened gives back what is below it. -/
theorem truncate_of_below (oneMore : s'.depth = s.depth + 1) (below : s'.stack.pop = s.stack) :
    s'.truncate s.depth = s := by
  obtain ⟨stack, nonempty⟩ := s
  obtain ⟨stack', _⟩ := s'
  simp only [depth] at oneMore below
  have kept : max stack.size 1 = stack'.size - 1 := by omega
  simp only [truncate, depth, kept, mk.injEq]
  rw [← below]
  apply Array.ext'
  rw [Array.toList_shrink, Array.toList_pop, List.dropLast_eq_take, Array.length_toList]

/-! ## Bound variables -/

/-- The variable is bound in some scope. -/
def Binds (s : Scopes) (c : CellId) : Prop :=
  ∃ scope ∈ s.stack, ∃ name, (name, c) ∈ scope

variable {c d : CellId} {name : String}

theorem binds_of_find? (found : s.find? name = some c) : s.Binds c := by
  unfold find? at found
  rw [Array.findSomeRev?_eq_findSome?_reverse] at found
  obtain ⟨scope, member, bound⟩ := Array.exists_of_findSome?_eq_some found
  exact ⟨scope, by simpa using member, name, mem_of_lookup bound⟩

/-- The name is bound to the variable in some scope. -/
def BindsAs (s : Scopes) (name : String) (c : CellId) : Prop :=
  ∃ scope ∈ s.stack, (name, c) ∈ scope

theorem binds_iff : s.Binds c ↔ ∃ name, s.BindsAs name c := by
  constructor
  · rintro ⟨scope, member, name, entry⟩
    exact ⟨name, scope, member, entry⟩
  · rintro ⟨name, scope, member, entry⟩
    exact ⟨scope, member, name, entry⟩

theorem bindsAs_of_findLocal? (found : s.findLocal? name = some c) : s.BindsAs name c :=
  ⟨s.innermost, Array.getElem_mem _, mem_of_lookup found⟩

theorem bindsAs_of_push (binds : s.push.BindsAs name c) : s.BindsAs name c := by
  obtain ⟨scope, member, entry⟩ := binds
  rcases Array.mem_push.mp member with inside | rfl
  · exact ⟨scope, inside, entry⟩
  · cases entry

theorem bindsAs_of_truncate {depth : Nat} (binds : (s.truncate depth).BindsAs name c) :
    s.BindsAs name c := by
  obtain ⟨scope, member, entry⟩ := binds
  simp only [truncate, ← Array.mem_toList_iff, Array.toList_shrink] at member
  exact ⟨scope, Array.mem_toList_iff.mp (List.mem_of_mem_take member), entry⟩

theorem bindsAs_of_define {other : String} (binds : (s.define name d).BindsAs other c) :
    other = name ∧ c = d ∨ s.BindsAs other c := by
  obtain ⟨scope, member, entry⟩ := binds
  obtain ⟨i, inside, rfl⟩ := Array.mem_iff_getElem.mp member
  simp only [define, Array.size_modify] at inside
  simp only [define, Array.getElem_modify] at entry
  split at entry
  · exact (Scope.mem_bind entry).imp Prod.mk.inj fun old => ⟨_, Array.getElem_mem inside, old⟩
  · exact .inr ⟨_, Array.getElem_mem inside, entry⟩

theorem binds_of_push (binds : s.push.Binds c) : s.Binds c :=
  binds_iff.mpr ((binds_iff.mp binds).imp fun _ => bindsAs_of_push)

theorem binds_of_truncate {depth : Nat} (binds : (s.truncate depth).Binds c) : s.Binds c :=
  binds_iff.mpr ((binds_iff.mp binds).imp fun _ => bindsAs_of_truncate)

theorem binds_of_define (binds : (s.define name d).Binds c) : c = d ∨ s.Binds c := by
  obtain ⟨other, bound⟩ := binds_iff.mp binds
  exact (bindsAs_of_define bound).imp And.right fun old => binds_iff.mpr ⟨other, old⟩

end Scopes

end TraceLang
