/-
# TraceLang.Proofs.Action — how actions end

`act.Ends m good bad` says that `act`, started on `m`, can only end with a value
and a machine that are `good` or with a fault and a machine that are `bad`. An
action that runs out of fuel ends in neither way and satisfies every such
statement.

Each way of building an action has one rule that pushes `Ends` into its parts
(`ends_bind`, `ends_located`, `ends_withScope`, ...). The rules are equivalences
wherever the action decides nothing; `ends_framed` is for the case that scopes
and frames were closed again.
-/
import TraceLang.Machine.Action
import TraceLang.Proofs.Scopes

namespace TraceLang

set_option autoImplicit false

/-! ## Stacks that are opened and closed again -/

theorem Context.truncate_push (c : Context) (f : Frame) : (c.push f).truncate c.depth = c := by
  cases c with
  | mk frames =>
    simp only [Context.push, Context.truncate, Context.depth, Context.mk.injEq]
    apply Array.ext
    · simp
    · intro i _ _
      simp

@[simp] theorem Context.depth_push (c : Context) (f : Frame) : (c.push f).depth = c.depth + 1 := by
  simp [Context.push, Context.depth]

theorem Site.mem_setMark {site other : Site} {marked : Bool} {sites : List Site} :
    other ∈ site.setMark marked sites ↔ if other = site then marked else other ∈ sites := by
  cases marked with
  | true => by_cases same : other = site <;> simp [setMark, same]
  | false => by_cases same : other = site <;> simp [setMark, same]

/-- A mark that is set meanwhile leaves no trace. -/
theorem Site.setMark_setMark (site : Site) (sites : List Site) :
    site.setMark (decide (site ∈ sites)) (site.setMark true sites) = sites := by
  by_cases marked : site ∈ sites
  · simp [setMark, marked]
  · have others : ∀ other ∈ sites, ¬ other = site := fun other mem same => marked (same ▸ mem)
    simpa [setMark, marked] using others

@[simp] theorem Fault.cause_locate (f : Fault) (span : Span) : (f.locate span).cause = f.cause :=
  rfl

@[simp] theorem Fault.cause_trace (f : Fault) (c : Context) : (f.trace c).cause = f.cause := by
  simp only [Fault.trace]
  split <;> rfl

/-! ## Outcomes -/

/-- The value and the machine of a computation that succeeds. -/
def Outcome.ok? {α : Type} : Outcome α → Option (α × Machine)
  | .ok a m => some (a, m)
  | _ => none

theorem Outcome.eq_of_ok? {α : Type} {r : Outcome α} {a : α} {m : Machine}
    (succeeded : r.ok? = some (a, m)) : r = .ok a m := by
  cases r <;> cases succeeded
  rfl

/-- The fault and the machine of a computation that fails. -/
def Outcome.fault? {α : Type} : Outcome α → Option (Fault × Machine)
  | .fault f m => some (f, m)
  | _ => none

theorem Outcome.eq_of_fault? {α : Type} {r : Outcome α} {f : Fault} {m : Machine}
    (failed : r.fault? = some (f, m)) : r = .fault f m := by
  cases r <;> cases failed
  rfl

namespace Action

variable {α β : Type} {m : Machine} {good good' : α → Machine → Prop}
  {bad bad' : Fault → Machine → Prop}

/-- However the action ends, it ends as described. -/
def Ends (act : Action α) (m : Machine) (good : α → Machine → Prop)
    (bad : Fault → Machine → Prop) : Prop :=
  match act m with
  | .ok a m' => good a m'
  | .fault f m' => bad f m'
  | .outOfFuel => True

theorem Ends.mono {act : Action α} (ends : act.Ends m good bad)
    (onOk : ∀ a m', good a m' → good' a m') (onFault : ∀ f m', bad f m' → bad' f m') :
    act.Ends m good' bad' := by
  unfold Ends at *
  cases result : act m with
  | ok a m' => exact onOk a m' (by simpa [result] using ends)
  | fault f m' => exact onFault f m' (by simpa [result] using ends)
  | outOfFuel => trivial

/-- Where nothing is said about faults, only what holds of values counts. -/
theorem Ends.onOk {act : Action α} (ends : act.Ends m good bad)
    (imp : ∀ a m', good a m' → good' a m') : act.Ends m good' (fun _ _ => True) :=
  ends.mono imp (fun _ _ _ => trivial)

/-- Two descriptions of the endings of one action hold together. -/
theorem Ends.and {act : Action α} (left : act.Ends m good bad) (right : act.Ends m good' bad') :
    act.Ends m (fun a m' => good a m' ∧ good' a m') (fun f m' => bad f m' ∧ bad' f m') := by
  unfold Ends at *
  cases result : act m with
  | ok a m' => simp_all
  | fault f m' => simp_all
  | outOfFuel => trivial

theorem Ends.of_ok {act : Action α} (ends : act.Ends m good bad) {a : α} {m' : Machine}
    (ok : act m = .ok a m') : good a m' := by
  simpa [Ends, ok] using ends

theorem Ends.of_fault {act : Action α} (ends : act.Ends m good bad) {f : Fault} {m' : Machine}
    (failed : act m = .fault f m') : bad f m' := by
  simpa [Ends, failed] using ends

/-- The strongest description of the endings of an action. -/
theorem ends_self (act : Action α) (m : Machine) :
    act.Ends m (fun a m' => act m = .ok a m') (fun f m' => act m = .fault f m') := by
  unfold Ends
  cases act m <;> trivial

/-! ## Rules for the parts of an action -/

theorem ends_bind {act : Action β} {f : β → Action α} :
    (act >>= f).Ends m good bad ↔ act.Ends m (fun b m' => (f b).Ends m' good bad) bad := by
  show Ends (Action.bind act f) m good bad ↔ _
  unfold Ends Action.bind
  cases act m <;> rfl

theorem Ends.bind_ok {act : Action β} {f : β → Action α} {mid : β → Machine → Prop}
    (first : act.Ends m mid bad)
    (next : ∀ b m', mid b m' → (f b).Ends m' good (fun _ _ => True)) :
    (act >>= f).Ends m good (fun _ _ => True) :=
  ends_bind.mpr (first.onOk next)

theorem ends_discard {act : Action β} {good : Unit → Machine → Prop} :
    (discard act).Ends m good bad ↔ act.Ends m (fun _ m' => good () m') bad :=
  ends_bind

theorem ends_read (f : Machine → α) : (read f).Ends m good bad ↔ good (f m) m :=
  Iff.rfl

theorem ends_modify (f : Machine → Machine) {good : Unit → Machine → Prop} :
    (modify f).Ends m good bad ↔ good () (f m) :=
  Iff.rfl

theorem ends_onHeap (f : Heap → α × Heap) :
    (onHeap f).Ends m good bad ↔ good (f m.heap).1 { m with heap := (f m.heap).2 } :=
  Iff.rfl

theorem ends_ask (r : Request) {good : Unit → Machine → Prop} :
    (ask r).Ends m good bad ↔
      (m.output.refusal? r = none → good () (m.ask r)) ∧
        ∀ refusal, m.output.refusal? r = some refusal →
          bad { cause := .output refusal.reason } (m.ask r) := by
  unfold Ends ask
  cases m.output.refusal? r <;> simp

/-- A control signal that has gone astray ends the action with a fault, if at all. -/
theorem ends_stray {defect : String → Defect} {flow : Flow}
    (fails : ∀ account, bad { cause := .defect (defect account) } m) :
    (stray defect flow : Action α).Ends m good bad := by
  unfold Ends stray
  cases flow.detail m.heap with
  | none => trivial
  | some account => exact fails account

theorem ends_located {act : Action α} (span : Span) :
    (located span act).Ends m good bad ↔
      act.Ends m good (fun f m' => bad (f.locate span) m') := by
  unfold Ends located
  cases act m <;> rfl

theorem ends_ite {p : Prop} [Decidable p] {act act' : Action α} :
    (if p then act else act').Ends m good bad ↔
      (p → act.Ends m good bad) ∧ (¬ p → act'.Ends m good bad) := by
  by_cases h : p <;> simp [h]

theorem ends_afterwards {act : Action α} (f : Machine → Machine) :
    (afterwards act f).Ends m good bad ↔
      act.Ends m (fun a m' => good a (f m')) (fun e m' => bad e (f m')) := by
  unfold Ends afterwards
  cases act m <;> rfl

theorem ends_withScope {act : Action α} :
    (withScope act).Ends m good bad ↔
      act.Ends { m with scopes := m.scopes.push }
        (fun a m' => good a { m' with scopes := m'.scopes.truncate m.scopes.depth })
        (fun f m' => bad f { m' with scopes := m'.scopes.truncate m.scopes.depth }) :=
  ends_afterwards (fun m' => { m' with scopes := m'.scopes.truncate m.scopes.depth })

theorem ends_withIterating {act : Action α} (loop : Site) :
    (withIterating loop act).Ends m good bad ↔
      act.Ends { m with iterating := loop.setMark true m.iterating }
        (fun a m' => good a { m' with iterating := loop.setMark (m.isIterating loop) m'.iterating })
        (fun f m' => bad f { m' with iterating := loop.setMark (m.isIterating loop) m'.iterating }) :=
  ends_afterwards (fun m' => { m' with iterating := loop.setMark (m.isIterating loop) m'.iterating })

theorem ends_withCall {act : Action α} (limit : Nat) (span : Span) :
    (withCall limit span act).Ends m good bad ↔
      (limit < m.callDepth + 1 → bad { cause := .callDepth limit, span := some span } m) ∧
      (¬ limit < m.callDepth + 1 →
        act.Ends { m with callDepth := m.callDepth + 1 }
          (fun a m' => good a { m' with callDepth := m.callDepth })
          (fun f m' => bad f { m' with callDepth := m.callDepth })) := by
  have inner : (afterwards act (fun m' => { m' with callDepth := m.callDepth })).Ends
        { m with callDepth := m.callDepth + 1 } good bad ↔ _ := ends_afterwards _
  by_cases exceeded : limit < m.callDepth + 1
  · simp [Ends, withCall, exceeded]
  · simp only [exceeded, not_false_eq_true, forall_const, false_imp_iff, true_and, ← inner]
    simp only [Ends, withCall, exceeded, if_false]

/-- An action that closes what it opens ends under a frame as it does without
one, with the frame gone and its faults traced and located. -/
theorem ends_framed {act : Action α} (frame : Frame)
    (ends : act.Ends { m with context := m.context.push frame }
      (fun a m' => m'.context = m.context.push frame ∧ m'.scopes.depth = m.scopes.depth ∧
        good a { m' with context := m.context })
      (fun f m' => m'.context = m.context.push frame ∧ m'.scopes.depth = m.scopes.depth ∧
        bad ((f.trace (m.context.push frame)).locate frame.span)
          { m' with context := m.context })) :
    (framed frame act).Ends m good bad := by
  unfold Ends framed at *
  cases result : act { m with context := m.context.push frame } with
  | outOfFuel => trivial
  | ok a m' =>
    simp only [result] at ends ⊢
    obtain ⟨sameContext, sameDepth, isGood⟩ := ends
    have balanced : imbalance? m.context.depth m.scopes.depth m' = none := by
      simp [imbalance?, sameContext, sameDepth]
    simp only [balanced, sameContext, Context.truncate_push]
    exact isGood
  | fault f m' =>
    simp only [result] at ends ⊢
    obtain ⟨sameContext, sameDepth, isBad⟩ := ends
    have balanced : imbalance? m.context.depth m.scopes.depth m' = none := by
      simp [imbalance?, sameContext, sameDepth]
    simp only [balanced, sameContext, Context.truncate_push]
    exact isBad

/-- A fault at the start of an action under a frame. -/
theorem framed_of_fault {act : Action α} {frame : Frame} {f : Fault}
    (failed : act { m with context := m.context.push frame } =
      .fault f { m with context := m.context.push frame }) :
    framed frame act m = .fault ((f.trace (m.context.push frame)).locate frame.span) m := by
  simp [framed, failed, imbalance?, Context.truncate_push]

/-! ## Actions whose ending is known -/

section

variable {n : Machine} {a : α} {f : Fault} {act : Action α}

theorem bind_of_ok {next : α → Action β} (ran : act m = .ok a n) : (act >>= next) m = next a n := by
  show Action.bind act next m = _
  simp only [Action.bind, ran]

theorem bind_of_fault {next : α → Action β} (failed : act m = .fault f n) :
    (act >>= next) m = .fault f n := by
  show Action.bind act next m = _
  simp only [Action.bind, failed]

theorem located_of_ok {span : Span} (ran : act m = .ok a n) : located span act m = .ok a n := by
  simp only [located, ran]

theorem located_of_fault {span : Span} (failed : act m = .fault f n) :
    located span act m = .fault (f.locate span) n := by
  simp only [located, failed]

theorem afterwards_of_ok {close : Machine → Machine} (ran : act m = .ok a n) :
    afterwards act close m = .ok a (close n) := by
  simp only [afterwards, ran]

theorem afterwards_of_fault {close : Machine → Machine} (failed : act m = .fault f n) :
    afterwards act close m = .fault f (close n) := by
  simp only [afterwards, failed]

/-- An action that closes what it opens, and then its frame is closed. -/
theorem framed_of_ok_balanced {frame : Frame}
    (ran : act { m with context := m.context.push frame } = .ok a n)
    (context : n.context = m.context.push frame) (depth : n.scopes.depth = m.scopes.depth) :
    framed frame act m = .ok a { n with context := m.context } := by
  simp [framed, ran, imbalance?, context, depth, Context.truncate_push]

theorem framed_of_fault_balanced {frame : Frame}
    (failed : act { m with context := m.context.push frame } = .fault f n)
    (context : n.context = m.context.push frame) (depth : n.scopes.depth = m.scopes.depth) :
    framed frame act m =
      .fault ((f.trace (m.context.push frame)).locate frame.span)
        { n with context := m.context } := by
  simp [framed, failed, imbalance?, context, depth, Context.truncate_push]

end

/-- Where nothing is said about faults, an action may leave scopes and frames
open: that is a fault. -/
theorem ends_framed_ok {act : Action α} (frame : Frame)
    (ends : act.Ends { m with context := m.context.push frame }
      (fun a m' => good a { m' with context := m'.context.truncate m.context.depth })
      (fun _ _ => True)) :
    (framed frame act).Ends m good (fun _ _ => True) := by
  unfold Ends framed at *
  cases result : act { m with context := m.context.push frame } with
  | outOfFuel => trivial
  | ok a m' =>
    simp only [result] at ends ⊢
    cases imbalance? m.context.depth m.scopes.depth m' with
    | none => exact ends
    | some d => trivial
  | fault f m' =>
    simp only
    cases imbalance? m.context.depth m.scopes.depth m' <;> trivial

/-- Where nothing is said about faults, all that counts is what can follow a
value. -/
theorem ends_of_forall {act : Action α} (all : ∀ a m', good a m') :
    act.Ends m good (fun _ _ => True) :=
  (ends_self act m).onOk fun a m' _ => all a m'

end Action

end TraceLang
