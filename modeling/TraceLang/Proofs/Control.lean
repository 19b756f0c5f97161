/-
# TraceLang.Proofs.Control — control signals travel outward legally

A `break` or `continue` leaves an instruction only inside a loop of the same
function, and a `return` only inside a function. `Flow.Legal` says this in terms
of the frames in progress, and `execute_legal` proves it for every instruction:
a signal is checked where it arises, and the frames between that place and the
instruction around it are those of conditionals, which a signal passes, or of
loops, which catch `break` and `continue`.

From the empty context no signal is legal, so none leaves a program
(`runBody_next`).
-/
import TraceLang.Proofs.Stacks

namespace TraceLang

set_option autoImplicit false

namespace Context

variable (c : Context) (f : Frame)

@[simp] theorem inFunction_push :
    (c.push f).inFunction = (c.inFunction || decide (f.status = .userFunction)) := by
  simp [inFunction, push]

/-- The frames above the counted ones do not matter. -/
theorem countLoops_push (frames : Array Frame) (f : Frame) :
    ∀ i ≤ frames.size, countLoops (frames.push f) i = countLoops frames i := by
  intro i
  induction i with
  | zero => exact fun _ => rfl
  | succ i ih =>
    intro inside
    have below : i < frames.size := inside
    simp only [countLoops, Array.getElem?_push_lt below, Array.getElem?_eq_getElem below,
      ih (Nat.le_of_lt below)]

theorem loopDepth_push : (c.push f).loopDepth =
    if f.status = .userFunction then 0 else (if f.status.isLoop then 1 else 0) + c.loopDepth := by
  simp only [loopDepth, push, Array.size_push, countLoops, Array.getElem?_push_size,
    countLoops_push c.frames f c.frames.size (Nat.le_refl _)]

end Context

/-- The signal may leave an instruction that is executed in this context. -/
def Flow.Legal (c : Context) : Flow → Prop
  | .next => True
  | .leave | .again => c.loopDepth ≠ 0
  | .result _ => c.inFunction

theorem Flow.eq_next_of_legal {flow : Flow} (legal : flow.Legal {}) : flow = .next := by
  cases flow with
  | next => rfl
  | leave | again => exact absurd rfl legal
  | result => simp [Legal, Context.inFunction] at legal

/-- A frame that is neither a loop nor a function lets every signal pass. -/
theorem Flow.legal_push {c : Context} {frame : Frame} {flow : Flow}
    (noLoop : frame.status.isLoop = false) (noCall : frame.status ≠ .userFunction) :
    flow.Legal (c.push frame) ↔ flow.Legal c := by
  cases flow <;> simp [Legal, Context.loopDepth_push, noLoop, noCall]

namespace Machine

open TraceLang.Action

variable {m : Machine} {g : Engine}

/-! ## Loops -/

theorem repeatWhile_legal {c : Context} {cond : Action Bool} {body : Action Flow}
    {step : Action Unit}
    (ofCond : ∀ m : Machine, m.context = c →
      cond.Ends m (fun _ m' => m'.context = c) (fun _ _ => True))
    (ofBody : ∀ m : Machine, m.context = c →
      body.Ends m (fun flow m' => flow.Legal c ∧ m'.context = c) (fun _ _ => True))
    (ofStep : ∀ m : Machine, m.context = c →
      step.Ends m (fun _ m' => m'.context = c) (fun _ _ => True)) (fuel : Nat) :
    ∀ m : Machine, m.context = c → (repeatWhile cond body step fuel).Ends m
      (fun flow _ => flow = .next ∨ ∃ value, flow = .result value ∧ c.inFunction)
      (fun _ _ => True) := by
  induction fuel with
  | zero => exact fun _ _ => trivial
  | succ fuel ih =>
    intro m same
    refine (ofCond m same).bind_ok fun holds m₁ same₁ => ?_
    refine ends_ite.mpr ⟨fun _ => (ofBody m₁ same₁).bind_ok ?_, fun _ => .inl rfl⟩
    rintro flow m₂ ⟨legal, same₂⟩
    cases flow with
    | leave => exact .inl rfl
    | result value => exact .inr ⟨value, rfl, legal⟩
    | next | again => exact (ofStep m₂ same₂).bind_ok fun _ m₃ same₃ => ih m₃ same₃

/-! ## Instructions -/

/-- The weakest that can be said about a block, whatever its faults. -/
abbrev plainBlock : Effect :=
  blockEffect (fun _ => True) fun _ _ => True

theorem context_of_has {α : Type} {act : Action α} (has : act.Has plainBlock) {c : Context}
    (m : Machine) (same : m.context = c) :
    act.Ends m (fun _ m' => m'.context = c) (fun _ _ => True) :=
  (has m (plainEffect_inv m)).onOk fun _ _ good => good.2.context.trans same

/-- The work of an instruction under a frame that lets signals pass. -/
theorem stepped_legal {i : Instr} {work : Action Flow}
    (noLoop : ∀ m : Machine, (m.frame i).status.isLoop = false)
    (noCall : ∀ m : Machine, (m.frame i).status ≠ .userFunction)
    (legal : ∀ m : Machine,
      work.Ends m (fun flow _ => flow.Legal m.context) (fun _ _ => True)) (m : Machine) :
    (stepped i work).Ends m (fun flow _ => flow.Legal m.context) (fun _ _ => True) := by
  refine ends_framed_ok _ ((legal _).onOk fun flow _ isLegal => ?_)
  exact (Flow.legal_push (noLoop _) (noCall _)).mp isLegal

/-- The work of a loop, which catches all signals but `return`. -/
theorem loop_legal {i : Instr} {work : Action Flow}
    (noCall : ∀ m : Machine, (m.frame i).status ≠ .userFunction)
    (legal : ∀ m : Machine, work.Ends m
      (fun flow _ => flow = .next ∨ ∃ value, flow = .result value ∧ m.context.inFunction)
      (fun _ _ => True)) (m : Machine) :
    (stepped i work).Ends m (fun flow _ => flow.Legal m.context) (fun _ _ => True) := by
  refine ends_framed_ok _ ((legal _).onOk fun flow _ caught => ?_)
  rcases caught with rfl | ⟨value, rfl, inside⟩
  · trivial
  · simpa [Flow.Legal, noCall] using inside

theorem header_context {unit : Nat} {path : Path} {i : Instr} (isStep : Bool)
    (has : (execute g unit path i).Has plainBlock) {c : Context} (m : Machine)
    (same : m.context = c) :
    (execute g unit path i >>= expectNext isStep).Ends m (fun _ m' => m'.context = c)
      (fun _ _ => True) :=
  (context_of_has has m same).bind_ok fun _ _ same' => expectNext_ends same' fun _ => trivial

variable (call : ∀ name args span, (g.call name args span).Has plainEffect)

include call

/-- A pass over the body of a loop. -/
theorem pass_legal (unit : Nat) (path : Path) (body : List Instr)
    (legal : ∀ m : Machine, (runBlock g unit path.body 0 body).Ends m
      (fun flow _ => flow.Legal m.context) (fun _ _ => True)) (m : Machine) :
    (withIterating ⟨unit, path⟩ (withScope (runBlock g unit path.body 0 body))).Ends m
      (fun flow m' => flow.Legal m.context ∧ m'.context = m.context) (fun _ _ => True) := by
  have rule := stacks_govern tolerates_all
  have every := Instr.everyOf_of_forall (p := fun _ => True) (fun _ => trivial) body
  refine (ends_withIterating _).mpr (ends_withScope.mpr ?_)
  have kept := context_of_has (runBlock_has rule call unit path.body 0 body every)
    { m with
      iterating := Site.setMark ⟨unit, path⟩ true m.iterating
      scopes := m.scopes.push } rfl
  exact ((legal _).and kept).onOk fun _ _ good => good

mutual

/-- Every signal that leaves an instruction may leave it. -/
theorem execute_legal (unit : Nat) (path : Path) : (i : Instr) → (m : Machine) →
    (execute g unit path i).Ends m (fun flow _ => flow.Legal m.context) (fun _ _ => True)
  | .whileLoop span cond body, m => by
    have rule := stacks_govern tolerates_all
    unfold execute
    refine loop_legal (fun _ => by simp [frame]) (fun m => ?_) m
    refine repeatWhile_legal (c := m.context) (context_of_has (rule.weaken
      (evalCondition_has rule.permissive (invoke_has rule.toCovers call) cond))) ?_ ?_ g.fuel m rfl
    · exact fun n same => same ▸
        pass_legal call unit path body (runBlock_legal unit path.body 0 body) n
    · exact fun _ same => same
  | .forLoop span init step cond body, m => by
    have rule := stacks_govern tolerates_all
    have every : ∀ i : Instr, i.Every fun _ => True := Instr.every_of_forall fun _ => trivial
    have ofInit := inner_of_effect rule.toCovers
      (execute_has rule call unit path.first init (every _))
    have ofStep := inner_of_effect rule.toCovers
      (execute_has rule call unit path.second step (every _))
    unfold execute
    refine loop_legal (fun _ => by simp [frame]) (fun m => ?_) m
    refine ends_withScope.mpr ?_
    rw [← Action.bind_bind]
    refine (header_context false ofInit _ rfl).bind_ok fun _ m₁ same => ?_
    refine repeatWhile_legal (c := m.context) (context_of_has (rule.weaken
      (evalCondition_has rule.permissive (invoke_has rule.toCovers call) cond))) ?_ ?_ g.fuel m₁ same
    · exact fun n same => same ▸
        pass_legal call unit path body (runBlock_legal unit path.body 0 body) n
    · exact header_context true ofStep
  | .conditional span cond onTrue onFalse, m => by
    have rule := stacks_govern tolerates_all
    unfold execute
    refine stepped_legal (fun _ => rfl) (fun _ => by simp [frame]) (fun m => ?_) m
    refine (context_of_has (rule.weaken
      (evalCondition_has rule.permissive (invoke_has rule.toCovers call) cond)) m rfl).bind_ok ?_
    intro _ m₁ same
    rw [← same]
    refine ends_ite.mpr ⟨fun _ => ends_withScope.mpr ?_, fun _ => ends_withScope.mpr ?_⟩
    · exact runBlock_legal unit path.first 0 onTrue _
    · exact runBlock_legal unit path.second 0 onFalse _
  | .declare .., m | .assign .., m | .call .., m =>
    (execute_simple g unit path rfl m).onOk fun _ _ next => next ▸ trivial
  | .define span name params body funcSpan, m => by
    unfold execute
    refine stepped_legal (fun _ => rfl) (fun _ => by simp [frame]) (fun m => ?_) m
    exact ends_bind.mpr (ends_of_forall fun _ _ => trivial)
  | .trace span targets, m => by
    unfold execute
    refine stepped_legal (fun _ => rfl) (fun _ => by simp [frame]) (fun m => ?_) m
    exact ends_bind.mpr (ends_of_forall fun _ _ => trivial)
  | .leave span, m => by
    unfold execute
    refine stepped_legal (fun _ => rfl) (fun _ => by simp [frame]) (fun m => ?_) m
    refine (control_ends ..).onOk ?_
    rintro _ _ ⟨inLoop, rfl, -⟩
    simpa [Flow.Legal] using inLoop
  | .again span, m => by
    unfold execute
    refine stepped_legal (fun _ => rfl) (fun _ => by simp [frame]) (fun m => ?_) m
    refine (control_ends ..).onOk ?_
    rintro _ _ ⟨inLoop, rfl, -⟩
    simpa [Flow.Legal] using inLoop
  | .result span value, m => by
    unfold execute
    refine stepped_legal (fun _ => rfl) (fun _ => by simp [frame]) (fun m => ?_) m
    rw [ends_bind, ends_discard]
    refine (control_ends ..).onOk ?_
    rintro _ _ ⟨inside, -⟩
    cases value with
    | none => exact inside
    | some e => exact ends_bind.mpr (ends_of_forall fun _ _ => inside)

theorem runBlock_legal (unit : Nat) (path : Path) (n : Nat) : (block : List Instr) →
    (m : Machine) → (runBlock g unit path n block).Ends m
      (fun flow _ => flow.Legal m.context) (fun _ _ => True)
  | [], _ => trivial
  | i :: rest, m => by
    have rule := stacks_govern tolerates_all
    have every : i.Every fun _ => True := Instr.every_of_forall (fun _ => trivial) i
    have kept := context_of_has
      (inner_of_effect rule.toCovers (execute_has rule call unit (path.item n) i every)) m rfl
    refine ((execute_legal unit (path.item n) i m).and kept).bind_ok ?_
    rintro flow m' ⟨legal, same⟩
    cases flow with
    | next =>
      rw [← same]
      exact runBlock_legal unit path (n + 1) rest m'
    | leave | again | result => exact legal

end

/-- No signal leaves a program that is run from rest. -/
theorem runBody_next (unit : Nat) (body : List Instr) (rest : m.context = {}) :
    (runBody g unit body).Ends m (fun flow _ => flow = .next) (fun _ _ => True) :=
  (runBlock_legal call unit [] 0 body m).onOk
    fun _ _ legal => Flow.eq_next_of_legal (rest ▸ legal)

end Machine

end TraceLang
