/-
# TraceLang.Proofs.Places — what an expression denotes and what it reads

An element `base[index]` is found in two ways: `eval` gives what it holds, and
`resolve` gives the variable that an assignment writes to. Both go to the base first
and to the index afterwards, so they do the same things in the same order and leave the
same machine behind (`resolve_eval_same`). But `eval` takes the list out of the base
before the index is evaluated, and `resolve` looks for it in the variable of the base
afterwards. If the index assigns to that variable in between, they find elements of two
different lists (`index_denotes_other`).

They agree if the indices leave the values of the variables of their bases alone
(`Undisturbed`), as all indices without calls do.
-/
import TraceLang.Proofs.Calls
import TraceLang.Proofs.Ownership

namespace TraceLang

set_option autoImplicit false

namespace Machine

open TraceLang.Action

variable {g : Engine} {m m' m'' : Machine} {c : CellId} {v : Variable} {e base index : Expr}
  {span : Span}

/-! ## Parts -/

theorem locate_ends (name : String) (m : Machine) :
    (locate name).Ends m (fun c m' => m' = m ∧ m.scopes.find? name = some c)
      (fun _ _ => True) := by
  simp only [Ends, locate]
  cases found : m.scopes.find? name with
  | none => trivial
  | some c => exact ⟨rfl, rfl⟩

theorem used_ends (x : Expr) (v : Variable) (m : Machine) :
    (used x v).Ends m (fun w m' => w = v ∧ m' = m) (fun _ _ => True) :=
  ends_ite.mpr ⟨fun _ => ⟨rfl, rfl⟩, fun _ => trivial⟩

theorem position_ends (x : Expr) (v : Variable) (m : Machine) :
    (position x v).Ends m (fun i m' => m' = m ∧ v.value = .int i) (fun _ _ => True) := by
  refine (used_ends x v m).bind_ok ?_
  rintro w _ ⟨rfl, rfl⟩
  split
  · exact ⟨rfl, ‹_›⟩
  · trivial

/-- The element of a list is the variable in the slot with that number. -/
theorem elementOf_ends (l : ListId) (i : Int64) (m : Machine) :
    Ends (fun m => ofExcept (item (m.heap.elements l) i) m) m
      (fun c m' => m' = m ∧ ∃ n : Nat, i.toInt = n ∧ m.heap.slot? l n = some c)
      (fun _ _ => True) := by
  simp only [Ends, item]
  by_cases negative : i.toInt < 0
  · simp [negative, ofExcept, Action.fail]
  · simp only [negative, if_false]
    cases found : (m.heap.elements l)[i.toInt.toNat]? with
    | none => trivial
    | some c => exact ⟨rfl, _, (Int.toNat_of_nonneg (Int.not_lt.mp negative)).symm, found⟩

theorem element_ends (base : Expr) (v : Variable) (i : Int64) (m : Machine) :
    (element base v i).Ends m
      (fun w m' => m' = m ∧ ∀ l, v.value = .list l →
        ∃ (n : Nat) (c : CellId), i.toInt = n ∧ m.heap.slot? l n = some c ∧ w = m.heap.read c)
      (fun _ _ => True) := by
  unfold element
  split
  case h_1 l holds =>
    refine (elementOf_ends l i m).bind_ok ?_
    rintro c _ ⟨rfl, n, number, found⟩
    refine ⟨rfl, fun k same => ?_⟩
    cases holds.symm.trans same
    exact ⟨n, c, number, found, rfl⟩
  case h_2 s holds =>
    rw [ends_bind]
    unfold ofExcept
    split
    · refine ⟨rfl, fun l same => ?_⟩
      cases holds.symm.trans same
    · trivial
  case h_3 => trivial

/-! ## Places -/

theorem resolve_var (span : Span) (name : String) (m : Machine) :
    (resolve g (.var span name)).Ends m (fun c m' => m' = m ∧ m.scopes.find? name = some c)
      (fun _ _ => True) :=
  (ends_located span).mpr (locate_ends name m)

theorem eval_var (span : Span) (name : String) (m : Machine) :
    (eval g (.var span name)).Ends m
      (fun v m' => m' = m ∧ ∃ c, m.scopes.find? name = some c ∧ v = m.heap.read c)
      (fun _ _ => True) := by
  simp only [eval]
  refine (ends_located span).mpr ((locate_ends name m).bind_ok ?_)
  rintro c _ ⟨rfl, found⟩
  exact ⟨rfl, c, found, rfl⟩

theorem resolve_index (span : Span) (base index : Expr) (m : Machine) :
    (resolve g (.index span base index)).Ends m
      (fun c m' => ∃ m₁ place w i l, resolve g base m = .ok place m₁ ∧
        eval g index m₁ = .ok w m' ∧ w.value = .int i ∧
        (m'.heap.read place).value = .list l ∧
        ∃ n : Nat, i.toInt = n ∧ m'.heap.slot? l n = some c)
      (fun _ _ => True) := by
  simp only [resolve]
  refine (ends_self (resolve g base) m).bind_ok fun place m₁ ofBase => ?_
  refine (ends_self (eval g index) m₁).bind_ok fun w m₂ ofIndex => ?_
  refine (position_ends index w m₂).bind_ok ?_
  rintro i _ ⟨rfl, isInt⟩
  rw [ends_bind, ends_read, ends_ite]
  refine ⟨fun _ => ?_, fun _ => trivial⟩
  split
  case h_1 l holds =>
    refine (ends_located span).mpr ((elementOf_ends l i _).onOk ?_)
    rintro c _ ⟨rfl, found⟩
    exact ⟨m₁, place, w, i, l, ofBase, ofIndex, isInt, holds, found⟩
  all_goals trivial

theorem eval_index (span : Span) (base index : Expr) (m : Machine) :
    (eval g (.index span base index)).Ends m
      (fun v m' => ∃ m₁ content w i, eval g base m = .ok content m₁ ∧
        eval g index m₁ = .ok w m' ∧ w.value = .int i ∧
        ∀ l, content.value = .list l → ∃ (n : Nat) (c : CellId),
          i.toInt = n ∧ m'.heap.slot? l n = some c ∧ v = m'.heap.read c)
      (fun _ _ => True) := by
  simp only [eval]
  refine (ends_located span).mpr ?_
  refine (ends_self (eval g base) m).bind_ok fun content m₁ ofBase => ?_
  refine (used_ends base content m₁).bind_ok ?_
  rintro _ _ ⟨rfl, rfl⟩
  refine (ends_self (eval g index) _).bind_ok fun w m₂ ofIndex => ?_
  refine (position_ends index w m₂).bind_ok ?_
  rintro i _ ⟨rfl, isInt⟩
  refine (element_ends base _ i _).onOk ?_
  rintro v _ ⟨rfl, reads⟩
  exact ⟨_, _, w, i, ofBase, ofIndex, isInt, reads⟩

/-- All other expressions denote no place. -/
theorem resolve_other (notVar : ∀ span name, e = .var span name → False)
    (notIndex : ∀ span base index, e = .index span base index → False) (m : Machine) :
    (resolve g e).Ends m (fun _ _ => False) (fun _ _ => True) := by
  cases e with
  | var span name => exact (notVar span name rfl).elim
  | index span base index => exact (notIndex span base index rfl).elim
  | int | float | bool | str | none | default | list | binary | unary | call => exact trivial

/-- Finding a variable and reading it leave the same machine behind. -/
theorem resolve_eval_same (resolved : resolve g e m = .ok c m')
    (evaluated : eval g e m = .ok v m'') : m'' = m' := by
  induction e using Expr.isLocation.induct generalizing m m' m'' c v with
  | case1 span name =>
    obtain ⟨rfl, -⟩ := (resolve_var span name m).of_ok resolved
    exact ((eval_var span name _).of_ok evaluated).1
  | case2 span base index ih =>
    obtain ⟨m₁, place, w, i, l, ofBase, ofIndex, -⟩ :=
      (resolve_index span base index m).of_ok resolved
    obtain ⟨m₁', content, w', i', ofBase', ofIndex', -⟩ :=
      (eval_index span base index m).of_ok evaluated
    obtain rfl := ih ofBase ofBase'
    cases ofIndex.symm.trans ofIndex'
    rfl
  | case3 e notVar notIndex => exact ((resolve_other notVar notIndex m).of_ok resolved).elim

/-- How an element is found and read. First the base denotes the variable `place` and
gives `content`, then the index gives the position `n`. The element that is found is the
one in the list `k` that `place` holds after that; the one that is read is in the list
of `content`. -/
structure Finds (g : Engine) (base index : Expr) (m m₁ m' : Machine) (place : CellId)
    (content : Variable) (n : Nat) (k : ListId) (c : CellId) (v : Variable) : Prop where
  resolved : resolve g base m = .ok place m₁
  evaluated : eval g base m = .ok content m₁
  position : ∃ w i, eval g index m₁ = .ok w m' ∧ w.value = .int i ∧ i.toInt = n
  holds : (m'.heap.read place).value = .list k
  found : m'.heap.slot? k n = some c
  read : ∀ l, content.value = .list l →
    ∃ c', m'.heap.slot? l n = some c' ∧ v = m'.heap.read c'

theorem index_finds (resolved : resolve g (.index span base index) m = .ok c m')
    (evaluated : eval g (.index span base index) m = .ok v m') :
    ∃ m₁ place content n k, Finds g base index m m₁ m' place content n k c v := by
  obtain ⟨m₁, place, w, i, k, ofBase, ofIndex, isInt, holds, n, number, found⟩ :=
    (resolve_index span base index m).of_ok resolved
  obtain ⟨m₁', content, w', i', ofBase', ofIndex', isInt', reads⟩ :=
    (eval_index span base index m).of_ok evaluated
  obtain rfl := resolve_eval_same ofBase ofBase'
  cases ofIndex.symm.trans ofIndex'
  cases isInt.symm.trans isInt'
  refine ⟨m₁', place, content, n, k, ofBase, ofBase', ⟨w, i, ofIndex, isInt, number⟩, holds, found,
    fun l isList => ?_⟩
  obtain ⟨n', c', number', found', same⟩ := reads l isList
  obtain rfl : n' = n := by omega
  exact ⟨c', found', same⟩

/-! ## Undisturbed places -/

instance {α : Type} (act : Action α) (m : Machine) (good : α → Machine → Prop)
    (bad : Fault → Machine → Prop) [∀ a m, Decidable (good a m)] [∀ f m, Decidable (bad f m)] :
    Decidable (act.Ends m good bad) :=
  match ran : act m with
  | .ok a m' => decidable_of_iff (good a m') (by simp [Ends, ran])
  | .fault f m' => decidable_of_iff (bad f m') (by simp [Ends, ran])
  | .outOfFuel => .isTrue (by simp [Ends, ran])

/-- No index on the way to the place changes the value of the variable that its base
denotes. -/
def Undisturbed (g : Engine) : Expr → Machine → Prop
  | .index _ base index, m => Undisturbed g base m ∧
    (resolve g base).Ends m
      (fun c m₁ => (eval g index).Ends m₁
        (fun _ m₂ => (m₂.heap.read c).value = (m₁.heap.read c).value) (fun _ _ => True))
      (fun _ _ => True)
  | _, _ => True

instance decidableUndisturbed (g : Engine) : (e : Expr) → (m : Machine) →
    Decidable (Undisturbed g e m)
  | .index _ base _, m =>
    have := decidableUndisturbed g base m
    inferInstanceAs (Decidable (Undisturbed g base m ∧ Ends _ _ _ _))
  | .var .., _ | .int .., _ | .float .., _ | .bool .., _ | .str .., _ | .none .., _ | .list .., _
  | .binary .., _ | .unary .., _ | .call .., _ | .default .., _ => .isTrue trivial

/-- The variable that is found holds what is read. -/
theorem Undisturbed.read (undisturbed : Undisturbed g e m) (resolved : resolve g e m = .ok c m')
    (evaluated : eval g e m = .ok v m') : m'.heap.read c = v := by
  induction e using Expr.isLocation.induct generalizing m m' c v with
  | case1 span name =>
    obtain ⟨rfl, found⟩ := (resolve_var span name m).of_ok resolved
    obtain ⟨-, c', found', rfl⟩ := (eval_var span name _).of_ok evaluated
    rw [Option.some.inj (found.symm.trans found')]
  | case2 span base index ih =>
    obtain ⟨m₁, place, content, n, k, finds⟩ := index_finds resolved evaluated
    obtain ⟨ofBase, ofIndex⟩ := undisturbed
    obtain ⟨w, i, ran, -⟩ := finds.position
    have before : m₁.heap.read place = content := ih ofBase finds.resolved finds.evaluated
    have kept : (m'.heap.read place).value = (m₁.heap.read place).value :=
      (ofIndex.of_ok finds.resolved).of_ok ran
    have isList : content.value = .list k := by rw [← before, ← kept, finds.holds]
    obtain ⟨c', found', rfl⟩ := finds.read k isList
    rw [Option.some.inj (finds.found.symm.trans found')]
  | case3 e notVar notIndex => exact ((resolve_other notVar notIndex m).of_ok resolved).elim

/-- Without calls nothing is disturbed, since variables that are there stay as they are. -/
theorem undisturbed_of_callFree (reachable : m.Reachable) (free : e.isCallFree) :
    Undisturbed g e m := by
  induction e using Expr.isLocation.induct with
  | case2 span base index ih =>
    obtain ⟨free, free'⟩ : base.isCallFree ∧ index.isCallFree := by
      simpa [Expr.isCallFree, Expr.callsOnly] using free
    refine ⟨ih free, ?_⟩
    have steps := hasAt_steps.mp
      (resolve_callFree_has stepsEffect_permissive.toAllocating g free m trivial)
    refine ((resolve_holds base).and steps).onOk fun c m₁ ⟨held, taken⟩ => ?_
    have inHeap := (reachable.steps taken).sound.inHeap held
    refine Ends.onOk (eval_callFree_has growthEffect_allocating g free' m₁ trivial) ?_
    rintro _ _ ⟨-, heap, rfl, grows⟩
    rw [grows.cells c inHeap]
  | case1 => trivial
  | case3 e notVar notIndex =>
    cases e with
    | index span base index => exact (notIndex span base index rfl).elim
    | var | int | float | bool | str | none | default | list | binary | unary | call => trivial

/-! ## Finding and reading -/

/-- If an expression denotes a variable and can be read, then both leave the same machine
behind, and the variable holds what was read unless an index has changed the value of the
variable of its base, for which it has to call a function. In any case both take an
element at the same position: one in the list that the base gave before the index was
evaluated, the other in the list that the variable of the base holds afterwards. It is the
same element if and only if it is the same list. -/
theorem resolve_finds_read (reachable : m.Reachable) (settings : Settings) (fuel : Nat)
    (resolved : resolve ((Env.standard settings).engine fuel) e m = .ok c m')
    (evaluated : eval ((Env.standard settings).engine fuel) e m = .ok v m'') :
    m'' = m' ∧
      (Undisturbed ((Env.standard settings).engine fuel) e m → m'.heap.read c = v) ∧
      (e.isCallFree → Undisturbed ((Env.standard settings).engine fuel) e m) ∧
      ∀ span base index, e = .index span base index → ∃ m₁ place content n k,
        Finds ((Env.standard settings).engine fuel) base index m m₁ m' place content n k c v ∧
        ∀ l c', content.value = .list l → m'.heap.slot? l n = some c' → (c' = c ↔ l = k) := by
  obtain rfl := resolve_eval_same resolved evaluated
  refine ⟨rfl, fun undisturbed => undisturbed.read resolved evaluated,
    undisturbed_of_callFree reachable, ?_⟩
  rintro span base index rfl
  obtain ⟨m₁, place, content, n, k, finds⟩ := index_finds resolved evaluated
  refine ⟨m₁, place, content, n, k, finds, fun l c' _ found' => ⟨?_, ?_⟩⟩
  · rintro rfl
    have steps := hasAt_steps.mp (resolve_has stepsEffect_permissive.toAllocating
      (invoke_steps settings fuel) (.index span base index) m trivial)
    have owned := (reachable.steps (steps.of_ok resolved)).owned
    cases owned.alone (.slot l n) (.slot k n) c' found' finds.found
    rfl
  · rintro rfl
    exact Option.some.inj (found'.symm.trans finds.found)

/-- An index that makes the list of its base longer and changes another element. -/
theorem resolve_finds_read_growing :
    let g := (Env.standard {}).engine 9
    let source := "list a = [[1, 2], [3]]; func f() \x7b append(a, 4); a[1] = 5; return 0; \x7d"
    let e : Expr := .index {} (.index {} (.var {} "a") (.call {} "f" [])) (.int {} 1)
    ∃ prog m c v m', Program.read source = .ok prog ∧ run g 0 prog {} = .ok () m ∧ m.Reachable ∧
      resolve g e m = .ok c m' ∧ eval g e m = .ok v m' ∧ v.value = .int 2 ∧
      m'.heap.read c = v := by
  intro g source e
  have checked : (sourceRun? g source).any fun ended => decide (Undisturbed g e ended.2) &&
      (resolve g e ended.2).ok?.any fun _ => (eval g e ended.2).ok?.any fun read =>
        decide (read.1.value = .int 2) := by
    decide +kernel
  obtain ⟨⟨prog, m⟩, ended, holds⟩ := (Option.any_eq_true _ _).mp checked
  obtain ⟨read, ran⟩ := sourceRun?_eq_some ended
  have reachable : m.Reachable := ((AtRest.new default).succeeded read ran).reachable
  obtain ⟨undisturbed, holds⟩ := Bool.and_eq_true_iff.mp holds
  obtain ⟨⟨c, m'⟩, resolved, holds⟩ := (Option.any_eq_true _ _).mp holds
  obtain ⟨⟨v, m''⟩, evaluated, holds⟩ := (Option.any_eq_true _ _).mp holds
  have resolved := Outcome.eq_of_ok? resolved
  have evaluated := Outcome.eq_of_ok? evaluated
  obtain ⟨rfl, agree, -⟩ := resolve_finds_read reachable {} 9 resolved evaluated
  exact ⟨prog, m, c, v, _, read, ran, reachable, resolved, evaluated, of_decide_eq_true holds,
    agree (of_decide_eq_true undisturbed)⟩

/-- An index that assigns another list to the variable of its base: the element that is
read is in the list that was there before, the variable is in the new one. -/
theorem index_denotes_other :
    let g := (Env.standard {}).engine 9
    let e : Expr := .index {} (.var {} "a") (.call {} "f" [])
    ∃ prog m c v m',
      Program.read "list a = [1]; func f() \x7b a = [2]; return 0; \x7d" = .ok prog ∧
      run g 0 prog {} = .ok () m ∧ resolve g e m = .ok c m' ∧ eval g e m = .ok v m' ∧
      v.value = .int 1 ∧ (m'.heap.read c).value = .int 2 := by
  intro g e
  have checked : (sourceRun? g "list a = [1]; func f() \x7b a = [2]; return 0; \x7d").any
      fun ended => (resolve g e ended.2).ok?.any fun found =>
        (eval g e ended.2).ok?.any fun read =>
          decide (read.1.value = .int 1 ∧ (found.2.heap.read found.1).value = .int 2) := by
    decide +kernel
  obtain ⟨⟨prog, m⟩, ended, holds⟩ := (Option.any_eq_true _ _).mp checked
  obtain ⟨read, ran⟩ := sourceRun?_eq_some ended
  obtain ⟨⟨c, m'⟩, resolved, holds⟩ := (Option.any_eq_true _ _).mp holds
  obtain ⟨⟨v, m''⟩, evaluated, holds⟩ := (Option.any_eq_true _ _).mp holds
  have resolved := Outcome.eq_of_ok? resolved
  have evaluated := Outcome.eq_of_ok? evaluated
  obtain rfl := resolve_eval_same resolved evaluated
  exact ⟨prog, m, c, v, _, read, ran, resolved, evaluated, of_decide_eq_true holds⟩

end Machine

end TraceLang
