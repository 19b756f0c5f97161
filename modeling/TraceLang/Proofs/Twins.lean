/-
# TraceLang.Proofs.Twins — two runs that differ in what they print

With the echo of records switched off, a program does the same and prints less.
To compare, every machine gets a twin: the same machine with another output. An
action is quiet if it takes no notice of the output and leaves the histories,
the counters, the output and the functions alone; it does the same on the twin.
`act.Twins act' pre good bad` says of two actions, the second of which runs on
the twin, that they end in the same way and leave twins behind, with `good` or,
if they fail, with `bad` of the machine and the output of its twin.
-/
import TraceLang.Proofs.Tracing

namespace TraceLang

set_option autoImplicit false

/-- A property of a machine and of the output of its twin. -/
abbrev View :=
  Machine → Output → Prop

/-- The same histories, counters, output and functions. -/
structure Machine.SameNotes (m n : Machine) : Prop where
  tracer : n.tracer = m.tracer
  steps : n.steps = m.steps
  output : n.output = m.output
  functions : n.functions = m.functions

theorem Machine.SameNotes.refl (m : Machine) : m.SameNotes m :=
  ⟨rfl, rfl, rfl, rfl⟩

theorem Machine.SameNotes.trans {m n o : Machine} (first : m.SameNotes n)
    (second : n.SameNotes o) : m.SameNotes o where
  tracer := second.tracer.trans first.tracer
  steps := second.steps.trans first.steps
  output := second.output.trans first.output
  functions := second.functions.trans first.functions

/-- The property does not depend on heap, scopes and frames. -/
structure View.Stable (p : View) : Prop where
  keep : ∀ {m n : Machine} {o : Output}, p m o → m.SameNotes n → p n o

namespace Action

/-! ## Quiet actions -/

/-- The action takes no notice of the output and leaves the notes alone. -/
def Quiet {α : Type} (act : Action α) : Prop :=
  ∀ (m : Machine) (o : Output), act.Ends m
    (fun a n => m.SameNotes n ∧ act (m.printing o) = .ok a (n.printing o))
    (fun f n => m.SameNotes n ∧ act (m.printing o) = .fault f (n.printing o))

section

variable {α β : Type} {act : Action α}

theorem quiet_pure (a : α) : (pure a : Action α).Quiet :=
  fun m _ => ⟨.refl m, rfl⟩

theorem quiet_fail (cause : Cause) : (fail cause : Action α).Quiet :=
  fun m _ => ⟨.refl m, rfl⟩

theorem quiet_failAt (cause : Cause) (span : Span) : (failAt cause span : Action α).Quiet :=
  fun m _ => ⟨.refl m, rfl⟩

theorem quiet_read {f : Machine → α} (blind : ∀ m o, f (m.printing o) = f m) :
    (read f).Quiet :=
  fun m o => ⟨.refl m, congrArg (Outcome.ok · (m.printing o)) (blind m o)⟩

theorem quiet_onHeap (f : Heap → α × Heap) : (onHeap f).Quiet :=
  fun _ _ => ⟨⟨rfl, rfl, rfl, rfl⟩, rfl⟩

theorem quiet_bind {first : Action β} {next : β → Action α} (ofFirst : first.Quiet)
    (ofNext : ∀ b, (next b).Quiet) : (first >>= next).Quiet := by
  intro m o
  refine ends_bind.mpr ((ofFirst m o).mono ?_ ?_)
  · rintro b n ⟨same, ran⟩
    rw [bind_of_ok ran]
    exact (ofNext b n o).mono (fun _ _ good => ⟨same.trans good.1, good.2⟩)
      fun _ _ bad => ⟨same.trans bad.1, bad.2⟩
  · rintro f n ⟨same, failed⟩
    exact ⟨same, bind_of_fault failed⟩

theorem quiet_located (span : Span) (quiet : act.Quiet) : (located span act).Quiet := by
  intro m o
  refine (ends_located span).mpr ((quiet m o).mono ?_ ?_)
  · rintro a n ⟨same, ran⟩
    exact ⟨same, located_of_ok ran⟩
  · rintro f n ⟨same, failed⟩
    exact ⟨same, located_of_fault failed⟩

theorem quiet_ite {p : Prop} [Decidable p] {other : Action α} (yes : act.Quiet)
    (no : other.Quiet) : (if p then act else other).Quiet := by
  split
  · exact yes
  · exact no

end

/-! ## Twin actions -/

/-- Started on a machine and its twin where `pre` holds, the two actions end in
the same way, with `good` or, if they fail, with `bad`. -/
def Twins {α : Type} (act act' : Action α) (pre : View) (good : α → View) (bad : View) : Prop :=
  ∀ (m : Machine) (o : Output), pre m o → act.Ends m
    (fun a n => ∃ o', act' (m.printing o) = .ok a (n.printing o') ∧ good a n o')
    (fun f n => ∃ o', act' (m.printing o) = .fault f (n.printing o') ∧ bad n o')

section

variable {α β : Type} {act act' : Action α} {pre pre' bad : View} {good good' : α → View}

theorem Twins.mono (twins : act.Twins act' pre good bad) (before : ∀ m o, pre' m o → pre m o)
    (after : ∀ a m o, good a m o → good' a m o) : act.Twins act' pre' good' bad := by
  intro m o holds
  refine (twins m o (before m o holds)).mono ?_ fun _ _ failed => failed
  rintro a n ⟨o', ran, isGood⟩
  exact ⟨o', ran, after a n o' isGood⟩

/-- What is known of the value of the first action. -/
theorem Twins.and_ends {p : α → Prop} (twins : act.Twins act' pre good bad)
    (ends : ∀ m, act.Ends m (fun a _ => p a) (fun _ _ => True)) :
    act.Twins act' pre (fun a m o => p a ∧ good a m o) bad := by
  intro m o holds
  refine ((ends m).and (twins m o holds)).mono ?_ fun _ _ failed => failed.2
  rintro a n ⟨known, o', ran, isGood⟩
  exact ⟨o', ran, known, isGood⟩

theorem Quiet.twins (quiet : act.Quiet) (stable : pre.Stable) (weaken : ∀ m o, pre m o → bad m o) :
    act.Twins act pre (fun _ => pre) bad := by
  intro m o holds
  refine (quiet m o).mono ?_ ?_
  · rintro a n ⟨same, ran⟩
    exact ⟨o, ran, stable.keep holds same⟩
  · rintro f n ⟨same, failed⟩
    exact ⟨o, failed, weaken n o (stable.keep holds same)⟩

theorem twins_pure {a : α} (holds : ∀ m o, pre m o → good a m o) :
    (pure a : Action α).Twins (pure a) pre good bad :=
  fun m o before => ⟨o, rfl, holds m o before⟩

theorem twins_failAt (cause : Cause) (span : Span) (weaken : ∀ m o, pre m o → bad m o) :
    (failAt cause span : Action α).Twins (failAt cause span) pre good bad :=
  fun m o before => ⟨o, rfl, weaken m o before⟩

theorem twins_outOfFuel : Twins (fun _ => .outOfFuel) act' pre good bad :=
  fun _ _ _ => trivial

theorem twins_bind {first first' : Action β} {next next' : β → Action α} {mid : β → View}
    (ofFirst : first.Twins first' pre mid bad)
    (ofNext : ∀ b, (next b).Twins (next' b) (mid b) good bad) :
    (first >>= next).Twins (first' >>= next') pre good bad := by
  intro m o holds
  refine ends_bind.mpr ((ofFirst m o holds).mono ?_ ?_)
  · rintro b n ⟨o', ran, between⟩
    rw [bind_of_ok ran]
    exact ofNext b n o' between
  · rintro f n ⟨o', failed, isBad⟩
    exact ⟨o', bind_of_fault failed, isBad⟩

theorem twins_discard {post : View} (twins : act.Twins act' pre (fun _ => post) bad) :
    (discard act).Twins (discard act') pre (fun _ => post) bad :=
  twins_bind twins fun _ => twins_pure fun _ _ holds => holds

theorem twins_located (span : Span) (twins : act.Twins act' pre good bad) :
    (located span act).Twins (located span act') pre good bad := by
  intro m o holds
  refine (ends_located span).mpr ((twins m o holds).mono ?_ ?_)
  · rintro a n ⟨o', ran, isGood⟩
    exact ⟨o', located_of_ok ran, isGood⟩
  · rintro f n ⟨o', failed, isBad⟩
    exact ⟨o', located_of_fault failed, isBad⟩

theorem twins_ite {p : Prop} [Decidable p] {other other' : Action α}
    (yes : act.Twins act' pre good bad) (no : other.Twins other' pre good bad) :
    (if p then act else other).Twins (if p then act' else other') pre good bad := by
  split
  · exact yes
  · exact no

section Brackets

variable (stable : pre.Stable) (stableGood : ∀ a, (good a).Stable) (stableBad : bad.Stable)

include stableGood stableBad

/-- What happens inside two brackets, which change nothing but heap, scopes and
frames. -/
theorem ends_close {m m' : Machine} (close : Machine → Machine)
    (same : ∀ n : Machine, n.SameNotes (close n))
    (blind : ∀ (n : Machine) (o : Output), close (n.printing o) = (close n).printing o)
    (ends : act.Ends m
      (fun a n => ∃ o, act' m' = .ok a (n.printing o) ∧ good a n o)
      (fun f n => ∃ o, act' m' = .fault f (n.printing o) ∧ bad n o)) :
    act.Ends m
      (fun a n => ∃ o, afterwards act' close m' = .ok a ((close n).printing o) ∧
        good a (close n) o)
      (fun f n => ∃ o, afterwards act' close m' = .fault f ((close n).printing o) ∧
        bad (close n) o) := by
  refine ends.mono ?_ ?_
  · rintro a n ⟨o, ran, isGood⟩
    exact ⟨o, (afterwards_of_ok ran).trans (congrArg _ (blind n o)),
      (stableGood a).keep isGood (same n)⟩
  · rintro f n ⟨o, failed, isBad⟩
    exact ⟨o, (afterwards_of_fault failed).trans (congrArg _ (blind n o)),
      stableBad.keep isBad (same n)⟩

include stable

theorem twins_withScope (twins : act.Twins act' pre good bad) :
    (withScope act).Twins (withScope act') pre good bad := by
  intro m o holds
  have inside := twins { m with scopes := m.scopes.push } o (stable.keep holds ⟨rfl, rfl, rfl, rfl⟩)
  exact ends_withScope.mpr (ends_close stableGood stableBad
    (fun n => { n with scopes := n.scopes.truncate m.scopes.depth })
    (fun _ => ⟨rfl, rfl, rfl, rfl⟩) (fun _ _ => rfl) inside)

theorem twins_withIterating (loop : Site) (twins : act.Twins act' pre good bad) :
    (withIterating loop act).Twins (withIterating loop act') pre good bad := by
  intro m o holds
  have inside := twins { m with iterating := loop.setMark true m.iterating } o
    (stable.keep holds ⟨rfl, rfl, rfl, rfl⟩)
  exact (ends_withIterating loop).mpr (ends_close stableGood stableBad
    (fun n => { n with iterating := loop.setMark (m.isIterating loop) n.iterating })
    (fun _ => ⟨rfl, rfl, rfl, rfl⟩) (fun _ _ => rfl) inside)

theorem twins_withCall (limit : Nat) (span : Span) (weaken : ∀ m o, pre m o → bad m o)
    (twins : act.Twins act' pre good bad) :
    (withCall limit span act).Twins (withCall limit span act') pre good bad := by
  intro m o holds
  have inside := twins { m with callDepth := m.callDepth + 1 } o
    (stable.keep holds ⟨rfl, rfl, rfl, rfl⟩)
  refine (ends_withCall limit span).mpr ⟨fun exceeded => ?_, fun within => ?_⟩
  · refine ⟨o, ?_, weaken m o holds⟩
    simp [withCall, exceeded]
  · have unfolded : withCall limit span act' (m.printing o) =
        afterwards act' (fun n => { n with callDepth := m.callDepth })
          { m.printing o with callDepth := m.callDepth + 1 } := by
      simp [withCall, within]
    rw [unfolded]
    exact ends_close stableGood stableBad (fun n => { n with callDepth := m.callDepth })
      (fun _ => ⟨rfl, rfl, rfl, rfl⟩) (fun _ _ => rfl) inside

/-- Scopes and frames that were left open are a fault in both runs. -/
theorem twins_framed (frame : Frame) (weaken : ∀ a m o, good a m o → bad m o)
    (twins : act.Twins act' pre good bad) :
    (framed frame act).Twins (framed frame act') pre good bad := by
  intro m o holds
  have inside := twins { m with context := m.context.push frame } o
    (stable.keep holds ⟨rfl, rfl, rfl, rfl⟩)
  unfold Ends at *
  cases result : act { m with context := m.context.push frame } with
  | outOfFuel => simp [framed, result]
  | ok a n =>
    simp only [result] at inside
    obtain ⟨o', ran, isGood⟩ := inside
    cases unbalanced : imbalance? m.context.depth m.scopes.depth n with
    | none =>
      have twin : imbalance? m.context.depth m.scopes.depth (n.printing o') = none := unbalanced
      simp only [framed, result, unbalanced, ran, twin]
      exact ⟨o', rfl, (stableGood a).keep isGood ⟨rfl, rfl, rfl, rfl⟩⟩
    | some d =>
      have twin : imbalance? m.context.depth m.scopes.depth (n.printing o') = some d := unbalanced
      simp only [framed, result, unbalanced, ran, twin]
      exact ⟨o', rfl, stableBad.keep (weaken a n o' isGood) ⟨rfl, rfl, rfl, rfl⟩⟩
  | fault f n =>
    simp only [result] at inside
    obtain ⟨o', failed, isBad⟩ := inside
    have twin : imbalance? m.context.depth m.scopes.depth (n.printing o') =
      imbalance? m.context.depth m.scopes.depth n := rfl
    cases unbalanced : imbalance? m.context.depth m.scopes.depth n with
    | none | some d =>
      simp only [framed, result, unbalanced, failed, twin]
      exact ⟨o', rfl, stableBad.keep isBad ⟨rfl, rfl, rfl, rfl⟩⟩

end Brackets

end

end Action

/-! ## Parts of expressions and instructions -/

namespace Machine

open TraceLang.Action

theorem locate_quiet (name : String) : (locate name).Quiet := by
  intro m o
  unfold Ends locate
  cases m.scopes.find? name <;> exact ⟨.refl m, rfl⟩

theorem used_quiet (x : Expr) (v : Variable) : (used x v).Quiet :=
  quiet_ite (quiet_pure _) (quiet_failAt _ _)

theorem truth_quiet (x : Expr) (v : Variable) : (truth x v).Quiet := by
  refine quiet_bind (used_quiet x v) fun v => ?_
  split
  · exact quiet_pure _
  · exact quiet_failAt _ _

theorem position_quiet (x : Expr) (v : Variable) : (position x v).Quiet := by
  refine quiet_bind (used_quiet x v) fun v => ?_
  split
  · exact quiet_pure _
  · exact quiet_failAt _ _

theorem ofExcept_quiet {α : Type} (result : Except Cause α) : (ofExcept result).Quiet := by
  cases result with
  | ok a => exact quiet_pure a
  | error cause => exact quiet_fail cause

theorem elementOf_quiet (l : ListId) (i : Int64) :
    Quiet fun m => ofExcept (item (m.heap.elements l) i) m :=
  fun m => ofExcept_quiet (item (m.heap.elements l) i) m

theorem element_quiet (base : Expr) (v : Variable) (i : Int64) : (element base v i).Quiet := by
  unfold element
  split
  · exact quiet_bind (elementOf_quiet _ i) fun _ => quiet_read fun _ _ => rfl
  · exact quiet_bind (ofExcept_quiet _) fun _ => quiet_pure _
  · exact quiet_failAt _ _

theorem applyBinary_quiet (op : BinOp) (a b : Value) : (applyBinary op a b).Quiet := by
  intro m o
  unfold Ends applyBinary
  cases Operators.binary m.heap op a b <;> exact ⟨⟨rfl, rfl, rfl, rfl⟩, rfl⟩

theorem lookup_quiet (env : Env) (name : String) : (env.lookup name).Quiet := by
  intro m o
  have same : env.callee? (m.printing o) name = env.callee? m name := rfl
  simp only [Ends, Env.lookup, same]
  cases env.callee? m name <;> exact ⟨.refl m, rfl⟩

theorem checkDeclaration_quiet (d : Declaration) : (checkDeclaration d).Quiet := by
  intro m o
  simp only [Ends, checkDeclaration]
  cases isValidName d.name with
  | false => exact ⟨.refl m, rfl⟩
  | true =>
    cases m.scopes.findLocal? d.name with
    | none => cases d.mode <;> exact ⟨.refl m, rfl⟩
    | some c =>
      cases d.mode with
      | mustNotExist => exact ⟨.refl m, rfl⟩
      | mustExist | either =>
        simp only [Bool.not_true, Bool.false_eq_true, if_false]
        cases (m.heap.read c).traced <;> exact ⟨.refl m, rfl⟩

theorem bindChecked_quiet (d : Declaration) (v : Variable) : (bindChecked d v).Quiet := by
  refine quiet_bind (used_quiet d.init v) fun v => quiet_ite (quiet_failAt _ _) ?_
  exact fun m o => ⟨⟨rfl, rfl, rfl, rfl⟩, rfl⟩

theorem control_quiet (allowed : Context → Bool) (otherwise : Misplaced) (flow : Flow) :
    (control allowed otherwise flow).Quiet := by
  intro m o
  unfold Ends control
  cases allowed m.context <;> exact ⟨.refl m, rfl⟩

theorem stray_quiet {α : Type} (defect : String → Defect) (flow : Flow) :
    (stray defect flow : Action α).Quiet := by
  intro m o
  have same : flow.detail (m.printing o).heap = flow.detail m.heap := rfl
  unfold Ends stray
  rw [same]
  cases flow.detail m.heap with
  | none => trivial
  | some account => exact ⟨.refl m, rfl⟩

theorem expectNext_quiet (isStep : Bool) (flow : Flow) : (expectNext isStep flow).Quiet := by
  unfold expectNext
  cases flow with
  | next => exact quiet_pure ()
  | leave | again | result => exact stray_quiet _ _

theorem bindParams_quiet (span : Span) : (params : List Param) → (args : List Variable) →
    (bindParams span params args).Quiet
  | [], _ | _ :: _, [] => quiet_pure ()
  | x :: params, v :: args => by
    unfold bindParams
    refine quiet_bind (quiet_bind (quiet_bind ?_ fun _ => bindChecked_quiet _ v)
      fun _ => quiet_pure _) fun _ => bindParams_quiet span params args
    exact checkDeclaration_quiet _

end Machine

namespace Builtins

open TraceLang.Action Machine

theorem one_quiet (name : String) (args : List Variable) : (one name args).Quiet := by
  unfold one
  split
  · exact quiet_pure _
  · exact quiet_fail _

theorem two_quiet (name : String) (args : List Variable) : (two name args).Quiet := by
  unfold two
  split
  · exact quiet_pure _
  · exact quiet_fail _

theorem len_quiet (call : Caller) (args : List Variable) (span : Span) :
    (len call args span).Quiet := by
  refine quiet_bind (one_quiet _ args) fun v => ?_
  split
  · exact quiet_bind (quiet_read fun _ _ => rfl) fun _ => ofExcept_quiet _
  · exact ofExcept_quiet _
  · exact quiet_fail _

theorem append_quiet (call : Caller) (args : List Variable) (span : Span) :
    (append call args span).Quiet := by
  refine quiet_bind (two_quiet _ args) fun v => ?_
  split
  · exact quiet_bind (fun _ _ => ⟨⟨rfl, rfl, rfl, rfl⟩, rfl⟩) fun _ => quiet_pure _
  · exact quiet_fail _

theorem copy_quiet (call : Caller) (args : List Variable) (span : Span) :
    (copy call args span).Quiet := by
  refine quiet_bind (one_quiet _ args) fun v => ?_
  split
  · exact quiet_onHeap _
  · exact quiet_fail _

theorem assert_quiet (call : Caller) (args : List Variable) (span : Span) :
    (assert call args span).Quiet := by
  refine quiet_bind (one_quiet _ args) fun v => ?_
  split
  · exact quiet_pure _
  · exact quiet_fail _
  · exact quiet_fail _

/-- The standard functions make no calls, and all but `print` are quiet. -/
theorem standard_quiet {name : String} {handler : Handler}
    (found : standard.lookup name = some handler) (args : List Variable) (span : Span) :
    handler = print ∨ ∃ act : Action Value, act.Quiet ∧ ∀ call, handler call args span = act := by
  have listed := mem_of_lookup found
  simp only [standard, List.mem_cons, Prod.mk.injEq, List.not_mem_nil, or_false] at listed
  have idle : Caller := fun _ _ _ _ => .outOfFuel
  rcases listed with ⟨-, rfl⟩ | ⟨-, rfl⟩ | ⟨-, rfl⟩ | ⟨-, rfl⟩ | ⟨-, rfl⟩ | ⟨-, rfl⟩
  · exact .inl rfl
  · exact .inr ⟨_, len_quiet idle args span, fun _ => rfl⟩
  · exact .inr ⟨_, append_quiet idle args span, fun _ => rfl⟩
  · exact .inr ⟨_, copy_quiet idle args span, fun _ => rfl⟩
  · exact .inr ⟨_, quiet_bind (one_quiet _ args) fun _ => quiet_read fun _ _ => rfl,
      fun _ => rfl⟩
  · exact .inr ⟨_, assert_quiet idle args span, fun _ => rfl⟩

end Builtins

end TraceLang
