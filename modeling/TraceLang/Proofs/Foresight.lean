/-
# TraceLang.Proofs.Foresight — the analysis of settled machines is right

`Foresees settled act o` says that `act`, started on a machine that is settled if
`settled` says so, leaves one that is settled where the outlook `o` says so. The
outlook of every instruction and of every block is foreseen in this sense
(`execute_foresees`, `runBlock_foresees`), as long as the calls of trusted
functions leave settled machines settled. They do (`standard_trusted`): by
induction on the fuel, with the outlook of the body of each function.
-/
import TraceLang.Proofs.Settling

namespace TraceLang

set_option autoImplicit false

namespace Machine

open TraceLang.Action

variable {m m' : Machine} {α : Type} {trusts : String → Bool} {settled : Bool}

/-! ## Machines that are settled if they are said to be -/

/-- The machine is orderly, and settled if it is said to be. -/
structure Seen (trusts : String → Bool) (settled : Bool) (m : Machine) : Prop where
  orderly : m.Orderly trusts
  settles : settled → m.Settled

theorem Seen.weaken {settled' : Bool} (seen : m.Seen trusts settled)
    (weaker : settled' → settled) : m.Seen trusts settled' :=
  ⟨seen.orderly, fun holds => seen.settles (weaker holds)⟩

/-- Steps that touch neither heap nor tracer nor functions. -/
theorem Seen.aside (seen : m.Seen trusts settled) (steps : Steps m m') (heap : m'.heap = m.heap)
    (tracer : m'.tracer = m.tracer) (functions : m'.functions = m.functions) :
    m'.Seen trusts settled := by
  refine ⟨seen.orderly.aside steps heap functions, fun holds => ?_⟩
  unfold Settled
  rw [heap, tracer]
  exact seen.settles holds

/-- Afterwards the machine is settled if it was before and that was kept. -/
theorem ends_seen {act : Action α} {keeps : Bool} (seen : m.Seen trusts settled)
    (ordered : act.Ends m (fun _ m' => m'.Orderly trusts) (fun _ _ => True))
    (kept : keeps → m.Orderly trusts → m.Settled →
      act.Ends m (fun _ m' => m'.Settled) (fun _ _ => True)) :
    act.Ends m (fun _ m' => m'.Seen trusts (settled && keeps)) (fun _ _ => True) := by
  cases known : settled && keeps with
  | false => exact ordered.onOk fun _ _ orderly => ⟨orderly, nofun⟩
  | true =>
    obtain ⟨rfl, rfl⟩ := Bool.and_eq_true_iff.mp known
    refine (ordered.and (kept rfl seen.orderly (seen.settles rfl))).onOk ?_
    exact fun _ _ ⟨orderly, settles⟩ => ⟨orderly, fun _ => settles⟩

/-- A variable that begins to be watched has been seen. -/
theorem Seen.watch (seen : m.Seen trusts settled) {c : CellId} (label : String) (held : m.Holds c)
    (untraced : (m.heap.read c).traced = false) :
    Seen trusts settled
      { m with
        heap := m.heap.modify c fun v => { v with traced := true }
        tracer := m.tracer.watch (m.heap.modify c fun v => { v with traced := true }) c
          label } := by
  obtain ⟨orderly, settles⟩ := seen
  have marked := orderly.grounded.heap.modify c (f := fun v => { v with traced := true })
    (orderly.grounded.heap c)
  have secluded := orderly.grounded.secluded.modify c (f := fun v => { v with traced := true })
    (orderly.grounded.secluded.unheld c)
  refine ⟨⟨orderly.reachable.steps (.single (.edit (.watch c label held untraced))), marked,
    secluded, orderly.grounded.functions⟩, fun holds w member => ?_⟩
  rcases Array.mem_push.mp member with old | rfl
  · refine orderly.synced (m.heap.shows_mark c) (fun d inHeap => ?_) old (settles holds w old)
    by_cases same : d = c
    · rw [same, Heap.read_modify_self (same ▸ inHeap)]
    · rw [Heap.read_modify_ne same]
  · exact ⟨rfl, (Snapshot.same_iff _ _).mpr rfl, nofun⟩

section

variable {g : Engine} (trusted : Trusted trusts g)

include trusted

theorem eval_seen (x : Expr) (seen : m.Seen trusts settled) :
    (eval g x).Ends m (fun _ m' => m'.Seen trusts (settled && x.callsOnly trusts))
      (fun _ _ => True) :=
  ends_seen seen (eval_orderly trusted x seen.orderly) fun only => eval_settles trusted x only

theorem evalCondition_seen (x : Expr) (seen : m.Seen trusts settled) :
    (evalCondition g x).Ends m (fun _ m' => m'.Seen trusts (settled && x.callsOnly trusts))
      (fun _ _ => True) := by
  refine (eval_seen trusted x seen).bind_ok fun v m₁ seen₁ => (truth_same x v m₁).onOk ?_
  rintro _ _ rfl
  exact seen₁

theorem evalValue_seen (x : Expr) (seen : m.Seen trusts settled) :
    (evalValue g x).Ends m (fun _ m' => m'.Seen trusts (settled && x.callsOnly trusts))
      (fun _ _ => True) := by
  refine (eval_seen trusted x seen).bind_ok fun v m₁ seen₁ => (used_same x v m₁).onOk ?_
  rintro _ _ rfl
  exact seen₁

theorem startTraces_seen (targets : List Expr) : ∀ {m : Machine} {settled : Bool},
    m.Seen trusts settled → (startTraces g targets).Ends m
      (fun _ m' => m'.Seen trusts (settled && targets.all (·.callsOnly trusts)))
      (fun _ _ => True) := by
  induction targets with
  | nil =>
    intro m settled seen
    exact seen.weaken (by simp)
  | cons target rest ih =>
    intro m settled seen
    have resolved := ends_seen seen (resolve_orderly trusted target seen.orderly)
      fun only => resolve_settles trusted target only
    unfold startTraces
    refine ends_ite.mpr ⟨fun _ => ?_, fun _ => trivial⟩
    refine (resolved.and (resolve_holds target)).bind_ok ?_
    rintro c m₁ ⟨seen₁, held⟩
    rw [ends_bind, ends_read, ends_ite]
    refine ⟨fun _ => trivial, fun untraced => ?_⟩
    rw [ends_bind, ends_modify]
    have watched := seen₁.watch target.text held (Bool.eq_false_iff.mpr untraced)
    refine (ih watched).onOk fun _ _ seen₂ => seen₂.weaken ?_
    simp [Bool.and_assoc]

end

/-! ## Rules -/

/-- Started on a machine that is settled, if it is said to be, the action leaves
one that is settled where the outlook says so. -/
def Foresees (trusts : String → Bool) (settled : Bool) (act : Action Flow) (o : Outlook) : Prop :=
  ∀ m : Machine, m.Seen trusts settled →
    act.Ends m (fun flow m' => m'.Seen trusts (o.after flow)) (fun _ _ => True)

section

variable {act : Action Flow} {o o' : Outlook}

theorem Foresees.weaken (foresees : Foresees trusts settled act o)
    (weaker : ∀ flow, o'.after flow → o.after flow) : Foresees trusts settled act o' :=
  fun m seen => (foresees m seen).onOk fun flow _ seen' => seen'.weaken (weaker flow)

/-- More may be known of the machine at the start. -/
theorem Foresees.strengthen {settled' : Bool} (foresees : Foresees trusts settled act o)
    (stronger : settled → settled') : Foresees trusts settled' act o :=
  fun m seen => foresees m (seen.weaken stronger)

theorem Foresees.withScope (foresees : Foresees trusts settled act o) :
    Foresees trusts settled (withScope act) o := by
  intro m seen
  have opened := seen.aside (.single .openScope) rfl rfl rfl
  refine ends_withScope.mpr ((foresees _ opened).onOk fun _ _ seen' => ?_)
  exact seen'.aside (.single (.closeScopes _)) rfl rfl rfl

theorem Foresees.withIterating (foresees : Foresees trusts settled act o) (loop : Site) :
    Foresees trusts settled (withIterating loop act) o := by
  intro m seen
  have opened := seen.aside (.single (.iterate (loop.setMark true m.iterating))) rfl rfl rfl
  refine (ends_withIterating loop).mpr ((foresees _ opened).onOk fun _ _ seen' => ?_)
  exact seen'.aside (.single (.iterate _)) rfl rfl rfl

theorem Foresees.stepped (foresees : Foresees trusts settled act o) (i : Instr) :
    Foresees trusts settled (stepped i act) o := by
  intro m seen
  have entered := seen.aside (entered_steps m i) rfl rfl rfl
  refine ends_stepped_ok ((foresees _ entered).onOk fun _ _ seen' => ?_)
  exact seen'.aside (.single (.closeFrames _)) rfl rfl rfl

/-- A loop whose condition, body and step lead from settled machines to settled
machines. -/
theorem foresees_repeatWhile {cond : Action Bool} {body : Action Flow} {step : Action Unit}
    (ofCond : ∀ m : Machine, m.Seen trusts settled →
      cond.Ends m (fun _ m' => m'.Seen trusts settled) (fun _ _ => True))
    (ofBody : Foresees trusts settled body o) (leaving : settled → o.jump)
    (ofStep : ∀ m : Machine, m.Seen trusts (o.next && o.jump) →
      step.Ends m (fun _ m' => m'.Seen trusts settled) (fun _ _ => True))
    (fuel : Nat) : Foresees trusts settled (repeatWhile cond body step fuel) (.loop settled o) := by
  induction fuel with
  | zero => exact fun _ _ => trivial
  | succ fuel ih =>
    intro m seen
    unfold repeatWhile
    refine (ofCond m seen).bind_ok fun holds m₁ seen₁ => ?_
    refine ends_ite.mpr ⟨fun _ => ?_, fun _ => seen₁⟩
    refine (ofBody m₁ seen₁).bind_ok fun flow m₂ seen₂ => ?_
    cases flow with
    | leave => exact seen₂.weaken leaving
    | result value => exact seen₂
    | next =>
      refine (ofStep m₂ (seen₂.weaken fun both => ?_)).bind_ok fun _ m₃ seen₃ => ih m₃ seen₃
      exact (Bool.and_eq_true_iff.mp both).1
    | again =>
      refine (ofStep m₂ (seen₂.weaken fun both => ?_)).bind_ok fun _ m₃ seen₃ => ih m₃ seen₃
      exact (Bool.and_eq_true_iff.mp both).2

end

/-! ## Instructions and blocks -/

/-- What is known of the instructions of a program. -/
abbrev Known (trusts : String → Bool) (i : Instr) : Prop :=
  i.Spelled ∧ i.Reliable trusts

section

variable (settings : Settings) (fuel unit : Nat)

/-- Instructions that record leave a settled machine. -/
theorem simple_foresees (path : Path) {i : Instr} (simple : i.isSimple)
    (known : i.Every (Known trusts)) :
    Foresees trusts settled (execute ((Env.standard settings).engine fuel) unit path i)
      (.plain true) := by
  intro m seen
  have steps : (execute ((Env.standard settings).engine fuel) unit path i).Has stepsEffect :=
    fun m _ => hasAt_steps.mpr (execute_steps settings fuel unit path i m)
  have ordered := ends_orderly steps
    (execute_upkept groundedness_lawful settings fuel unit path known _) seen.orderly
  have synced := execute_syncs settings fuel unit path simple seen.orderly.reachable
  refine (ordered.and synced).onOk ?_
  exact fun _ _ ⟨⟨orderly, _⟩, settles, _⟩ => ⟨orderly, fun _ => settles⟩

theorem header_seen (path : Path) {i : Instr} (simple : i.isSimple) (known : i.Every (Known trusts))
    (isStep : Bool) (seen : m.Seen trusts settled) :
    (execute ((Env.standard settings).engine fuel) unit path i >>= expectNext isStep).Ends m
      (fun _ m' => m'.Seen trusts true) (fun _ _ => True) := by
  refine ((simple_foresees settings fuel unit path simple known m seen).and
    (execute_simple _ unit path simple m)).bind_ok ?_
  rintro _ m' ⟨seen', rfl⟩
  exact seen'

theorem control_foresees (allowed : Context → Bool) (otherwise : Misplaced) {flow : Flow}
    {o : Outlook} (said : o.after flow = settled) :
    Foresees trusts settled (control allowed otherwise flow) o := by
  intro m seen
  refine (control_ends allowed otherwise flow m).onOk ?_
  rintro _ _ ⟨-, rfl, rfl⟩
  rw [said]
  exact seen

variable {fuel} (trusted : Trusted trusts ((Env.standard settings).engine fuel))

include trusted

-- Blocks make calls only through their instructions.
set_option linter.unusedSectionVars false in
mutual

/-- The analysis of an instruction is right about every execution. -/
theorem execute_foresees (path : Path) : (i : Instr) → i.Every (Known trusts) → (settled : Bool) →
    Foresees trusts settled (execute ((Env.standard settings).engine fuel) unit path i)
      (i.outlook trusts settled)
  | .declare .., known, _ | .assign .., known, _ | .call .., known, _ =>
    simple_foresees settings fuel unit path rfl known
  | .define span name params body funcSpan, known, settled => by
    unfold execute
    refine Foresees.stepped (fun m seen => ?_) _
    rw [ends_bind]
    simp only [Ends, defineFunction]
    cases taken : m.isUserFunction name with
    | true => trivial
    | false =>
      have defined := Step.define (m := m)
        ⟨{ name, params, body, span := funcSpan }, ⟨unit, path⟩⟩ taken
      refine ⟨⟨seen.orderly.reachable.steps (.single defined), seen.orderly.grounded.heap,
        seen.orderly.grounded.secluded, ?_⟩, seen.settles⟩
      exact List.forall_mem_cons.mpr ⟨⟨span, known⟩, seen.orderly.grounded.functions⟩
  | .trace span targets, _, settled => by
    unfold execute
    refine Foresees.stepped (fun m seen => ?_) _
    exact (startTraces_seen trusted targets seen).bind_ok fun _ _ seen' => seen'
  | .leave span, _, settled | .again span, _, settled => by
    unfold execute
    refine Foresees.stepped ?_ _
    exact control_foresees _ _ rfl
  | .result span value, _, settled => by
    unfold execute
    refine Foresees.stepped (fun m seen => ?_) _
    rw [ends_bind, ends_discard]
    refine (control_same _ _ _ m).onOk ?_
    rintro _ _ rfl
    cases value with
    | none => exact seen
    | some x => exact (evalValue_seen trusted x seen).bind_ok fun _ _ seen' => seen'
  | .conditional span cond onTrue onFalse, ⟨_, inTrue, inFalse⟩, settled => by
    unfold execute
    refine Foresees.stepped (fun m seen => ?_) _
    refine (evalCondition_seen trusted cond seen).bind_ok fun holds m₁ seen₁ => ?_
    have ofTrue := (runBlock_foresees path.first 0 onTrue inTrue
      (settled && cond.callsOnly trusts)).withScope
    have ofFalse := (runBlock_foresees path.second 0 onFalse inFalse
      (settled && cond.callsOnly trusts)).withScope
    refine ends_ite.mpr ⟨fun _ => ?_, fun _ => ?_⟩
    · refine ofTrue.weaken (fun flow holds => ?_) m₁ seen₁
      rw [Instr.outlook, Outlook.after_either, Bool.and_eq_true_iff] at holds
      exact holds.1
    · refine ofFalse.weaken (fun flow holds => ?_) m₁ seen₁
      rw [Instr.outlook, Outlook.after_either, Bool.and_eq_true_iff] at holds
      exact holds.2
  | .whileLoop span cond body, ⟨_, inBody⟩, settled => by
    unfold execute
    refine Foresees.stepped ?_ _
    rw [Instr.outlook]
    generalize known : (_ && _ && _) = throughout
    have settles : throughout → settled ∧ cond.callsOnly trusts ∧
        (Instr.outlookAll trusts throughout body).next ∧
        (Instr.outlookAll trusts throughout body).jump := by
      rintro rfl
      simpa [and_assoc] using known
    have ofBody := ((runBlock_foresees path.body 0 body inBody throughout).withScope).withIterating
      ⟨unit, path⟩
    refine (foresees_repeatWhile (fun m seen => ?_) ofBody (fun holds => (settles holds).2.2.2)
      (fun m seen => ?_) fuel).strengthen fun holds => (settles holds).1
    · refine (evalCondition_seen trusted cond seen).onOk fun _ _ seen' => ?_
      exact seen'.weaken fun holds => Bool.and_eq_true_iff.mpr ⟨holds, (settles holds).2.1⟩
    · exact seen.weaken fun holds => Bool.and_eq_true_iff.mpr (settles holds).2.2
  | .forLoop span init step cond body, ⟨⟨headers, _⟩, inInit, inStep, inBody⟩, settled => by
    unfold execute
    refine Foresees.stepped (Foresees.withScope fun m seen => ?_) _
    rw [Instr.outlook]
    generalize known : (_ && _) = throughout
    have settles : throughout → cond.callsOnly trusts ∧
        (Instr.outlookAll trusts throughout body).jump := by
      rintro rfl
      simpa using known
    have ofBody := ((runBlock_foresees path.body 0 body inBody throughout).withScope).withIterating
      ⟨unit, path⟩
    rw [← Action.bind_bind]
    refine (header_seen settings fuel unit path.first headers.1 inInit false seen).bind_ok ?_
    refine fun _ m₁ seen₁ => foresees_repeatWhile (fun m seen => ?_) ofBody
      (fun holds => (settles holds).2) (fun m seen => ?_) fuel m₁ (seen₁.weaken fun _ => rfl)
    · refine (evalCondition_seen trusted cond seen).onOk fun _ _ seen' => ?_
      exact seen'.weaken fun holds => Bool.and_eq_true_iff.mpr ⟨holds, (settles holds).1⟩
    · refine (header_seen settings fuel unit path.second headers.2 inStep true seen).onOk ?_
      exact fun _ _ seen' => seen'.weaken fun _ => rfl

/-- The analysis of a block is right about every execution. -/
theorem runBlock_foresees (path : Path) (n : Nat) : (block : List Instr) →
    Instr.EveryOf (Known trusts) block → (settled : Bool) →
    Foresees trusts settled (runBlock ((Env.standard settings).engine fuel) unit path n block)
      (Instr.outlookAll trusts settled block)
  | [], _, settled => fun _ seen => seen
  | i :: rest, ⟨inFirst, inRest⟩, settled => by
    have ofFirst := execute_foresees (path.item n) i inFirst settled
    have ofRest := runBlock_foresees path (n + 1) rest inRest (i.outlook trusts settled).next
    intro m seen
    unfold runBlock
    refine (ofFirst m seen).bind_ok fun flow m₁ seen₁ => ?_
    cases flow with
    | next =>
      refine ofRest.weaken (fun flow holds => ?_) m₁ seen₁
      cases flow with
      | next => exact holds
      | leave | again | result => exact (Bool.and_eq_true_iff.mp holds).2
    | leave | again | result => exact seen₁.weaken fun both => (Bool.and_eq_true_iff.mp both).1

end

end

/-! ## Calls -/

/-- Parameters are new variables. -/
theorem bindParams_grows (span : Span) : (params : List Param) → (args : List Variable) →
    (m : Machine) → (bindParams span params args).Ends m (fun _ m' => m.Grown m') (fun _ _ => True)
  | [], _, _ | _ :: _, [], _ => ⟨.refl _, rfl⟩
  | x :: params, v :: args, m => by
    unfold bindParams
    rw [ends_bind, ends_discard]
    refine ((checkDeclaration_same _ m).onOk fun _ _ same => same).bind_ok ?_
    rintro _ _ rfl
    refine (used_same _ v _).bind_ok ?_
    rintro v _ rfl
    refine ends_ite.mpr ⟨fun _ => trivial, fun _ => ?_⟩
    refine (bindParams_grows span params args _).onOk fun _ _ grown => .trans ?_ grown
    exact ⟨Heap.grows_alloc _ _, rfl⟩

section

variable (settings : Settings) {fuel : Nat}

/-- The body of a function, with its parameters bound. -/
theorem body_settles (trusted : Trusted trusts ((Env.standard settings).engine fuel)) (f : Defined)
    (known : Instr.EveryOf (Known trusts) f.function.body) {args : List Variable} (span : Span)
    (orderly : m.Orderly trusts) (settled : m.Settled) (arguments : m.Arguments trusts args) :
    (bindParams span f.function.params args >>= fun _ =>
        runBlock ((Env.standard settings).engine fuel) f.site.unit f.site.path.body 0
          f.function.body).Ends m
      (fun flow m' => m'.Seen trusts ((Instr.outlookAll trusts true f.function.body).after flow))
      (fun _ _ => True) := by
  have ordered := ends_orderly
    (@bindParams_has _ _ _ steps_govern.toCovers span span f.function trivial f.function.params
      (List.Subset.refl _) args)
    (Coupling.bindParams_mirrors groundedness_lawful.tends span f.function.params arguments)
    orderly
  refine (ordered.and (bindParams_grows span f.function.params args m)).bind_ok ?_
  rintro _ m₁ ⟨⟨orderly₁, -⟩, grown⟩
  exact runBlock_foresees settings f.site.unit trusted f.site.path.body 0 f.function.body known true
    m₁ ⟨orderly₁, fun _ => orderly.grown settled grown⟩

theorem callUser_settles (trusted : Trusted trusts ((Env.standard settings).engine fuel))
    {name : String} {f : Defined} (found : m.function? name = some f) (known : trusts name)
    {args : List Variable} (span : Span) (orderly : m.Orderly trusts) (settled : m.Settled)
    (arguments : m.Arguments trusts args) :
    (callUser ((Env.standard settings).engine fuel) f args span).Ends m
      (fun _ m' => m'.Settled) (fun _ _ => True) := by
  obtain ⟨next, result, inBody⟩ := orderly.function found known
  have opened : Steps m { m with callDepth := m.callDepth + 1, scopes := m.scopes.push } :=
    (Relation.ReflTransGen.single (.countCalls (m.callDepth + 1))).tail .openScope
  have body := body_settles settings trusted f inBody span (orderly.aside opened rfl rfl) settled
    arguments
  unfold callUser
  refine ends_ite.mpr ⟨fun _ => trivial, fun _ => ?_⟩
  rw [ends_bind, ends_withCall]
  refine ⟨fun _ => trivial, fun _ => ends_withScope.mpr (body.onOk fun flow m₁ seen => ?_)⟩
  cases flow with
  | next => exact seen.settles next
  | result value => exact seen.settles result
  | leave | again => trivial

/-- Trust is justified where all functions are reliable. -/
theorem standard_trusted (append : trusts "append" = false) (fuel : Nat) :
    Trusted trusts ((Env.standard settings).engine fuel) := by
  induction fuel with
  | zero =>
    exact ⟨standard_upkept groundedness_lawful settings 0, invoke_steps settings 0,
      fun _ _ _ _ _ => trivial⟩
  | succ fuel ih =>
    refine ⟨standard_upkept groundedness_lawful settings _, invoke_steps settings _, ?_⟩
    intro m name args span known orderly settled arguments
    refine (lookup_ends (Env.standard settings) name m).bind_ok ?_
    rintro callee _ ⟨found, rfl⟩
    cases callee with
    | builtin handler =>
      have lawful := growingEffect_reporting.toLawful
      have other : name ≠ "append" := by
        rintro rfl
        exact absurd (append.symm.trans known) Bool.false_ne_true
      have handled := Builtins.standard_reports growingEffect_reporting
        (Env.lookup_of_callee?_builtin found) other (callByName (Env.standard settings) fuel) args
        span
      exact ends_grown (has_bind lawful (has_located lawful span handled) fun _ =>
        has_pure lawful _) orderly settled
    | user f =>
      exact callUser_settles settings ih (Env.function?_of_callee?_user found) known span orderly
        settled arguments

end

end Machine

end TraceLang
