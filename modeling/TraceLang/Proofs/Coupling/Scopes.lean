/-
# TraceLang.Proofs.Coupling.Scopes — values and scopes held against each other

Two runs can be compared although their variables and lists have different
identities. Given which variables and which lists correspond to each other, two
values are alike if they are the same scalar or hold lists that correspond, and
two stacks of scopes are alike if they bind the same names, in the same order,
to variables that correspond. Whatever is done to both stacks in the same way
keeps them alike, and a look-up gives the same answer in both.
-/
import Mathlib.Data.List.Forall2
import TraceLang.Proofs.Scopes

namespace TraceLang

set_option autoImplicit false

/-! ## Values -/

/-- The values are the same, up to the lists that they hold. -/
inductive Value.Like (lists : ListId → ListId → Prop) : Value → Value → Prop
  | none : Like lists .none .none
  | int (n : Int64) : Like lists (.int n) (.int n)
  | float (x : Binary64) : Like lists (.float x) (.float x)
  | bool (b : Bool) : Like lists (.bool b) (.bool b)
  | str (s : String) : Like lists (.str s) (.str s)
  | list {l l' : ListId} (paired : lists l l') : Like lists (.list l) (.list l')

namespace Value

variable {lists lists' : ListId → ListId → Prop} {v v' : Value}

theorem Like.mono (like : v.Like lists v') (more : ∀ l l', lists l l' → lists' l l') :
    v.Like lists' v' := by
  cases like with
  | list paired => exact .list (more _ _ paired)
  | _ => constructor

theorem Like.ty (like : v.Like lists v') : v'.ty = v.ty := by
  cases like <;> rfl

theorem Like.flip (like : v.Like lists v') : v'.Like (fun l l' => lists l' l) v := by
  cases like with
  | list paired => exact .list paired
  | _ => constructor

end Value

/-! ## Scopes -/

/-- The scopes bind the same names, to variables that correspond. -/
def Scope.Like (cells : CellId → CellId → Prop) (s s' : Scope) : Prop :=
  List.Forall₂ (fun entry entry' => entry'.1 = entry.1 ∧ cells entry.2 entry'.2) s s'

namespace Scope

variable {cells : CellId → CellId → Prop} {s s' : Scope} {c c' : CellId}

theorem Like.names (like : s.Like cells s') : s'.names = s.names := by
  have same : s'.map (·.1) = s.map (·.1) := by
    induction like with
    | nil => rfl
    | cons first _ ih => rw [List.map_cons, List.map_cons, ih, first.1]
  rw [Scope.names, Scope.names, same]

theorem Like.lookup (like : s.Like cells s') (name : String) :
    Option.Rel cells (s.lookup name) (s'.lookup name) := by
  induction like with
  | nil => exact .none
  | @cons entry entry' rest rest' first _ ih =>
    obtain ⟨key, c⟩ := entry
    obtain ⟨key', c'⟩ := entry'
    obtain ⟨rfl, paired⟩ := first
    rw [lookup_entry, lookup_entry]
    split
    · exact .some paired
    · exact ih

theorem Like.bind (like : s.Like cells s') (name : String) (paired : cells c c') :
    (s.bind name c).Like cells (s'.bind name c') := by
  induction like with
  | nil => exact .cons ⟨rfl, paired⟩ .nil
  | @cons entry entry' rest rest' first others ih =>
    obtain ⟨key, d⟩ := entry
    obtain ⟨key', d'⟩ := entry'
    obtain ⟨rfl, paired'⟩ := first
    unfold Scope.bind
    split
    · exact .cons ⟨rfl, paired⟩ others
    · exact .cons ⟨rfl, paired'⟩ ih

end Scope

/-- The stacks bind the same names scope by scope, to variables that
correspond. -/
def Scopes.Like (cells : CellId → CellId → Prop) (s s' : Scopes) : Prop :=
  List.Forall₂ (Scope.Like cells) s.stack.toList s'.stack.toList

namespace Scopes

variable {cells cells' : CellId → CellId → Prop} {s s' : Scopes} {c c' : CellId}

theorem Like.mono (like : s.Like cells s') (more : ∀ c c', cells c c' → cells' c c') :
    s.Like cells' s' :=
  List.Forall₂.imp (fun _ _ scopes =>
    List.Forall₂.imp (fun _ _ entries => ⟨entries.1, more _ _ entries.2⟩) scopes) like

theorem Like.flip (like : s.Like cells s') : s'.Like (fun c c' => cells c' c) s :=
  List.Forall₂.flip (List.Forall₂.imp (fun _ _ scopes => List.Forall₂.flip
    (List.Forall₂.imp (fun _ _ entries => ⟨entries.1.symm, entries.2⟩) scopes)) like)

theorem Like.depth (like : s.Like cells s') : s'.depth = s.depth := by
  simpa [Scopes.depth] using (List.Forall₂.length_eq like).symm

theorem like_global : global.Like cells global :=
  .cons .nil .nil

theorem Like.push (like : s.Like cells s') : s.push.Like cells s'.push := by
  simp only [Scopes.Like, Scopes.push, Array.toList_push]
  exact List.rel_append like (.cons .nil .nil)

theorem Like.truncate (like : s.Like cells s') (depth : Nat) :
    (s.truncate depth).Like cells (s'.truncate depth) := by
  simp only [Scopes.Like, Scopes.truncate, Array.toList_shrink]
  exact List.forall₂_take _ like

theorem Like.define (like : s.Like cells s') (name : String) (paired : cells c c') :
    (s.define name c).Like cells (s'.define name c') := by
  have same : s'.stack.size = s.stack.size := like.depth
  refine List.forall₂_iff_get.mpr ⟨by simp [Scopes.define, same], ?_⟩
  intro i inside inside'
  simp only [Scopes.define, Array.length_toList, Array.size_modify] at inside inside'
  have scopes := List.Forall₂.get like (by simpa using inside) (by simpa using inside')
  simp only [List.get_eq_getElem, Array.getElem_toList] at scopes
  simp only [List.get_eq_getElem, Array.getElem_toList, Scopes.define, Array.getElem_modify, same]
  split
  · exact scopes.bind name paired
  · exact scopes

theorem findSome?_like {stack stack' : List Scope}
    (like : List.Forall₂ (Scope.Like cells) stack stack') (name : String) :
    Option.Rel cells (stack.findSome? (·.lookup name)) (stack'.findSome? (·.lookup name)) := by
  induction like with
  | nil => exact .none
  | @cons scope scope' _ _ first _ ih =>
    have answers := first.lookup name
    rw [List.findSome?_cons, List.findSome?_cons]
    generalize scope.lookup name = found, scope'.lookup name = found' at answers ⊢
    cases answers with
    | some paired => exact .some paired
    | none => exact ih

theorem Like.find? (like : s.Like cells s') (name : String) :
    Option.Rel cells (s.find? name) (s'.find? name) := by
  simp only [Scopes.find?, Array.findSomeRev?_eq_findSome?_reverse, ← Array.findSome?_toList,
    Array.toList_reverse]
  exact findSome?_like (List.rel_reverse like) name

theorem Like.findLocal? (like : s.Like cells s') (name : String) :
    Option.Rel cells (s.findLocal? name) (s'.findLocal? name) := by
  have same : s'.stack.size = s.stack.size := like.depth
  have last : s.stack.size - 1 < s.stack.size := Nat.sub_lt s.nonempty Nat.one_pos
  have scopes := List.Forall₂.get like (i := s.stack.size - 1) (by simpa using last)
    (by simpa [same] using last)
  simp only [List.get_eq_getElem, Array.getElem_toList] at scopes
  simp only [Scopes.findLocal?, Scopes.innermost, same]
  exact scopes.lookup name

theorem Like.visibleNames (like : s.Like cells s') : s'.visibleNames = s.visibleNames := by
  have same : s'.stack.toList.map Scope.names = s.stack.toList.map Scope.names := by
    have names : List.Forall₂ (· = ·) (s.stack.toList.map Scope.names)
        (s'.stack.toList.map Scope.names) :=
      List.rel_map (fun t t' (scopes : Scope.Like cells t t') => scopes.names.symm) like
    rw [List.forall₂_eq_eq_eq] at names
    exact names.symm
  have unfolded : ∀ t : Scopes, t.visibleNames =
      (t.stack.toList.map Scope.names).reverse.foldl addNames [] := by
    intro t
    rw [Scopes.visibleNames, ← List.map_reverse, List.foldl_map]
  rw [unfolded, unfolded, same]

end Scopes

end TraceLang
