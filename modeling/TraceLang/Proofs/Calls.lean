/-
# TraceLang.Proofs.Calls — expressions by the functions they call

An expression depends on the engine only through the functions that it calls
(`eval_congr`). A place without calls therefore has every effect that permits new
lists, whatever the engine does (`resolve_callFree_has`): all that resolving it
can do to a machine is to add to its heap (`resolve_callFree_grows`), and its
faults come without a backtrace, since no frame is opened inside it.
-/
import TraceLang.Proofs.Heap
import TraceLang.Proofs.Regime

namespace TraceLang

set_option autoImplicit false

namespace Expr

mutual

/-- Every function that is called in the expression satisfies `p`. -/
def callsOnly (p : String → Bool) : Expr → Bool
  | .list _ items => callOnly p items
  | .index _ base position => base.callsOnly p && position.callsOnly p
  | .binary _ _ left right => left.callsOnly p && right.callsOnly p
  | .unary _ _ operand => operand.callsOnly p
  | .call _ name args => p name && callOnly p args
  | _ => true

def callOnly (p : String → Bool) : List Expr → Bool
  | [] => true
  | e :: rest => e.callsOnly p && callOnly p rest

end

/-- There is no call in the expression. -/
def isCallFree (e : Expr) : Bool :=
  e.callsOnly fun _ => false

end Expr

namespace Machine

open TraceLang.Action

/-! ## Engines that agree on some functions -/

section

variable {p : String → Bool} {g g' : Engine}
  (agree : ∀ name, p name → ∀ args span, g.invoke name args span = g'.invoke name args span)

include agree

-- The list case uses the calls only through the elements.
set_option linter.unusedSectionVars false in
mutual

/-- An expression depends on the engine through the functions it calls. -/
theorem eval_congr : (x : Expr) → x.callsOnly p → eval g x = eval g' x
  | .int .., _ | .float .., _ | .bool .., _ | .str .., _ | .none .., _ | .default .., _
  | .var .., _ => by
    unfold eval
    rfl
  | .list span items, only => by
    simp only [Expr.callsOnly] at only
    unfold eval
    rw [evalArgs_congr items only]
  | .index span base index, only => by
    simp only [Expr.callsOnly, Bool.and_eq_true] at only
    unfold eval
    rw [eval_congr base only.1, eval_congr index only.2]
  | .binary span op left right, only => by
    simp only [Expr.callsOnly, Bool.and_eq_true] at only
    cases op <;>
      (unfold eval
       rw [eval_congr left only.1, eval_congr right only.2])
  | .unary span op operand, only => by
    simp only [Expr.callsOnly] at only
    unfold eval
    rw [eval_congr operand only]
  | .call span name args, only => by
    simp only [Expr.callsOnly, Bool.and_eq_true] at only
    unfold eval
    rw [evalArgs_congr args only.2]
    simp only [agree name only.1]

theorem evalArgs_congr : (xs : List Expr) → Expr.callOnly p xs → evalArgs g xs = evalArgs g' xs
  | [], _ => rfl
  | x :: rest, only => by
    simp only [Expr.callOnly, Bool.and_eq_true] at only
    unfold evalArgs
    rw [eval_congr x only.1, evalArgs_congr rest only.2]

end

theorem resolve_congr : (x : Expr) → x.callsOnly p → resolve g x = resolve g' x
  | .index span base index, only => by
    simp only [Expr.callsOnly, Bool.and_eq_true] at only
    unfold resolve
    rw [resolve_congr base only.1, eval_congr agree index only.2]
  | .var .., _ | .int .., _ | .float .., _ | .bool .., _ | .str .., _ | .none .., _ | .list .., _
  | .binary .., _ | .unary .., _ | .call .., _ | .default .., _ => rfl

end

/-! ## Expressions without calls -/

/-- The engine in which calls never come back. -/
def mute (g : Engine) : Engine :=
  { g with call := fun _ _ _ _ => .outOfFuel }

theorem invoke_mute_has {e : Effect} (allocating : e.Allocating) (g : Engine) (name : String)
    (args : List Variable) (span : Span) : ((mute g).invoke name args span).Has e := by
  have found := has_located allocating.toLawful span (lookup_has allocating g.env name)
  refine has_bind allocating.toLawful found fun callee m _ => ?_
  simp [HasAt, Ends, framed, mute, Bind.bind, Action.bind]

/-- An expression without calls has every effect that permits new lists and copies. -/
theorem eval_callFree_has {e : Effect} (allocating : e.Allocating) (g : Engine) {x : Expr}
    (free : x.isCallFree) : (eval g x).Has e := by
  have same : eval (mute g) x = eval g x :=
    eval_congr (fun _ called => absurd called Bool.false_ne_true) x free
  rw [← same]
  exact eval_has allocating (invoke_mute_has allocating g) x

/-- A place without calls has every effect that permits new lists and copies. -/
theorem resolve_callFree_has {e : Effect} (allocating : e.Allocating) (g : Engine) {x : Expr}
    (free : x.isCallFree) : (resolve g x).Has e := by
  have same : resolve (mute g) x = resolve g x :=
    resolve_congr (fun _ called => absurd called Bool.false_ne_true) x free
  rw [← same]
  exact resolve_has allocating (invoke_mute_has allocating g) x

/-- Only the heap changes, and it grows. -/
def GrowsTo (m m' : Machine) : Prop :=
  ∃ heap, m' = { m with heap } ∧ m.heap.Grows heap

/-- Actions that only add to the heap and open no frame. -/
def growthEffect : Effect where
  inv _ := True
  change := GrowsTo
  fault _ f := f.backtrace = []

theorem growthEffect_allocating : growthEffect.Allocating where
  refl m := ⟨m.heap, rfl, .refl _⟩
  trans := by
    rintro m m' m'' ⟨heap, rfl, grows⟩ ⟨heap', rfl, grows'⟩
    exact ⟨heap', rfl, grows.trans grows'⟩
  fault_after _ fault := fault
  fault_locate _ fault := fault
  newList values _ := ⟨trivial, _, rfl, Heap.grows_newList _ values⟩
  copy v _ := ⟨trivial, _, rfl, Heap.grows_deepCopy _ v⟩
  ordinary _ _ _ _ := rfl

/-- All that resolving a place without calls does is to add to the heap. -/
theorem resolve_callFree_grows (g : Engine) {x : Expr} (free : x.isCallFree) (m : Machine) :
    (resolve g x).Ends m (fun _ m' => m.GrowsTo m')
      (fun f m' => m.GrowsTo m' ∧ f.backtrace = []) :=
  (resolve_callFree_has growthEffect_allocating g free m trivial).mono
    (fun _ _ good => good.2) (fun _ _ bad => bad.2)

end Machine

end TraceLang
