/-
# TraceLang.Proofs.Activations — the marks of loops tell the truth

A loop has one mark, however often it is entered: a pass over its body sets the mark
and puts back what it found. To say that the mark is right, the interpreter is given a
list of its own: `executeWithin` hands the passes in progress down to every instruction
and every call, innermost first, and makes a check of them whenever an instruction
begins. The check `inspect` fails with an alarm unless the mark of a loop tells whether
a pass over its body is in the list. Whatever the loop and the alarm are, the run with
the check is the run itself (`runChecked_eq`), so no alarm is ever given.

Only a pass over the body enters the list: the condition of a loop, and the initializer
and the step of a `for`, are evaluated with the list of the loop itself.
-/
import TraceLang.Proofs.CallDepth

namespace TraceLang

set_option autoImplicit false

namespace Machine

open TraceLang.Action Accord

/-! ## Passes in progress -/

/-- Fail with the alarm unless the mark of the loop tells whether one of the passes is a
pass over its body. -/
def inspect (alarm : Fault) (loop : Site) (passes : List Site) : Action Unit :=
  fun m => if m.isIterating loop = decide (loop ∈ passes) then .ok () m else .fault alarm m

mutual

/-- Execute an instruction while the given passes are in progress, with a check of these
before each instruction. The engine may depend on the passes. -/
def executeWithin (check : List Site → Action Unit) (g : List Site → Engine) (unit : Nat)
    (path : Path) (passes : List Site) : Instr → Action Flow
  | .whileLoop span cond body => do
    check passes
    stepped (.whileLoop span cond body)
      (repeatWhile (evalCondition (g passes) cond)
        (withIterating ⟨unit, path⟩ (withScope
          (runWithin check g unit path.body 0 (⟨unit, path⟩ :: passes) body)))
        (pure ()) (g passes).fuel)
  | .forLoop span init step cond body => do
    check passes
    stepped (.forLoop span init step cond body)
      (withScope do
        expectNext false (← executeWithin check g unit path.first passes init)
        repeatWhile (evalCondition (g passes) cond)
          (withIterating ⟨unit, path⟩ (withScope
            (runWithin check g unit path.body 0 (⟨unit, path⟩ :: passes) body)))
          (do expectNext true (← executeWithin check g unit path.second passes step))
          (g passes).fuel)
  | .conditional span cond onTrue onFalse => do
    check passes
    stepped (.conditional span cond onTrue onFalse) do
      if ← evalCondition (g passes) cond then
        withScope (runWithin check g unit path.first 0 passes onTrue)
      else
        withScope (runWithin check g unit path.second 0 passes onFalse)
  | instr => do
    check passes
    execute (g passes) unit path instr

/-- Execute the instructions of a block until one of them leaves it. -/
def runWithin (check : List Site → Action Unit) (g : List Site → Engine) (unit : Nat)
    (path : Path) (n : Nat) (passes : List Site) : List Instr → Action Flow
  | [] => return .next
  | instr :: rest => do
    match ← executeWithin check g unit (path.item n) passes instr with
    | .next => runWithin check g unit path (n + 1) passes rest
    | flow => return flow

end

/-- Call a user function. Its body is executed within the passes of the caller. -/
def callUserWithin (check : List Site → Action Unit) (g : List Site → Engine) (passes : List Site)
    (f : Defined) (args : List Variable) (span : Span) : Action (Option Variable) := do
  let func := f.function
  if func.params.length ≠ args.length then
    failAt (.arity func.name func.params.length args.length) span
  else
    let flow ← withCall (g passes).env.settings.maxCallDepth span <| withScope do
      bindParams span func.params args
      runWithin check g f.site.unit f.site.path.body 0 passes func.body
    match flow with
    | .result value => return value
    | .next => return none
    | .leave | .again => failAt (.misplaced .acrossFunction) span

/-- Call a function by name within the given passes. -/
def callWithin (check : List Site → Action Unit) (env : Env) : (fuel : Nat) → List Site → Caller
  | 0, _ => fun _ _ _ _ => .outOfFuel
  | fuel + 1, passes => fun name args span => do
    match ← env.lookup name with
    | .builtin handler =>
      let v ← located span (handler (callWithin check env fuel passes) args span)
      return some (.fresh v)
    | .user f =>
      callUserWithin check (fun passes => { env, call := callWithin check env fuel passes, fuel })
        passes f args span

/-- The engine whose calls take part in the check. -/
def engineWithin (check : List Site → Action Unit) (env : Env) (fuel : Nat) (passes : List Site) :
    Engine :=
  { env, call := callWithin check env fuel passes, fuel }

/-- Run a program, with a check before each instruction. -/
def runChecked (check : List Site → Action Unit) (env : Env) (fuel unit : Nat) (prog : Program) :
    Action Unit := do
  match ← runWithin check (engineWithin check env fuel) unit [] 0 [] prog.body with
  | .next => return ()
  | flow => Action.stray .escaped flow

end Machine

/-! ## The check passes -/

/-- The marked loops are those with a pass in progress. -/
def Stage.Tells (s : Stage) (passes : List Site) : Prop :=
  ∀ loop, loop ∈ s.loops ↔ loop ∈ passes

theorem Stage.Tells.pass {s : Stage} {passes : List Site} (tells : s.Tells passes) (loop : Site) :
    (s.pass loop).Tells (loop :: passes) := by
  intro other
  by_cases same : other = loop <;> simp [Stage.pass, Site.mem_setMark, same, tells other]

namespace Machine

open TraceLang.Action Accord

/-- Where the marks are right the check does nothing. -/
structure Passes (check : List Site → Action Unit) : Prop where
  ok : ∀ {m : Machine} {passes : List Site}, m.stage.Tells passes → check passes m = .ok () m

theorem passes_inspect (alarm : Fault) (loop : Site) : Passes (inspect alarm loop) where
  ok tells := if_pos (decide_eq_decide.mpr (tells loop))

theorem agrees_check {α : Type} {check : List Site → Action Unit} (check_ok : Passes check)
    {s : Stage} {passes : List Site} (tells : s.Tells passes) {act act' : Action α}
    (agrees : Accord.full.Agrees s act act') :
    Accord.full.Agrees s act (do check passes; act') := by
  intro m ready
  rw [bind_of_ok (check_ok.ok (ready.stage ▸ tells))]
  exact agrees m ready

/-- The first engine agrees on calls with the engine for the passes in progress. -/
def Observed (calls : Nat) (g : Engine) (g' : List Site → Engine) : Prop :=
  ∀ {loops passes : List Site}, Stage.Tells ⟨calls, loops⟩ passes →
    g.Alike Accord.full ⟨calls, loops⟩ (g' passes)

section

variable {check : List Site → Action Unit} {calls : Nat} {g : Engine} {g' : List Site → Engine}
  (check_ok : Passes check) (observed : Observed calls g g')

include check_ok observed

-- Blocks use the engines only through their instructions.
set_option linter.unusedSectionVars false in
mutual

/-- With the check, an instruction does what it does without. -/
theorem executeWithin_agrees (unit : Nat) (path : Path) {loops passes : List Site}
    (tells : Stage.Tells ⟨calls, loops⟩ passes) : (i : Instr) →
    Accord.full.Agrees ⟨calls, loops⟩ (execute g unit path i)
      (executeWithin check g' unit path passes i)
  | .whileLoop span cond body => by
    have alike := observed tells
    have fuel := (alike.loops (.whileLoop span cond body) trivial rfl).2
    unfold execute executeWithin
    rw [fuel]
    refine agrees_check check_ok tells (agrees_stepped _ (agrees_repeatWhile trivial
      (evalCondition_agrees alike cond) ?_ (agrees_pure ()) g.fuel))
    exact agrees_withIterating _ (agrees_withScope
      (runWithin_agrees unit path.body 0 (tells.pass ⟨unit, path⟩) body))
  | .forLoop span init step cond body => by
    have alike := observed tells
    have fuel := (alike.loops (.forLoop span init step cond body) trivial rfl).2
    have header := Accord.agrees_expectNext (k := .full) (s := ⟨calls, loops⟩) trivial
    unfold execute executeWithin
    rw [fuel]
    refine agrees_check check_ok tells (agrees_stepped _ (agrees_withScope ?_))
    refine agrees_bind (executeWithin_agrees unit path.first tells init) fun flow => ?_
    refine agrees_bind (header false flow) fun _ => ?_
    refine agrees_repeatWhile trivial (evalCondition_agrees alike cond) ?_ ?_ g.fuel
    · exact agrees_withIterating _ (agrees_withScope
        (runWithin_agrees unit path.body 0 (tells.pass ⟨unit, path⟩) body))
    · exact agrees_bind (executeWithin_agrees unit path.second tells step) (header true)
  | .conditional span cond onTrue onFalse => by
    unfold execute executeWithin
    refine agrees_check check_ok tells (agrees_stepped _
      (agrees_bind (evalCondition_agrees (observed tells) cond) fun b => ?_))
    exact agrees_ite (agrees_withScope (runWithin_agrees unit path.first 0 tells onTrue))
      (agrees_withScope (runWithin_agrees unit path.second 0 tells onFalse))
  | .leave span | .again span => by
    unfold executeWithin execute
    exact agrees_check check_ok tells (agrees_stepped _ (agrees_plain (control_plain _ _ _)))
  | .declare .. | .assign .. | .call .. | .define .. | .trace .. | .result .. => by
    unfold executeWithin
    exact agrees_check check_ok tells (atomic_agrees (observed tells) unit path rfl
      (Instr.every_of_forall (fun _ => trivial) _))

/-- With the check, a block does what it does without. -/
theorem runWithin_agrees (unit : Nat) (path : Path) (n : Nat) {loops passes : List Site}
    (tells : Stage.Tells ⟨calls, loops⟩ passes) : (block : List Instr) →
    Accord.full.Agrees ⟨calls, loops⟩ (runBlock g unit path n block)
      (runWithin check g' unit path n passes block)
  | [] => by
    unfold runBlock runWithin
    exact agrees_pure _
  | i :: rest => by
    unfold runBlock runWithin
    refine agrees_bind (executeWithin_agrees unit (path.item n) tells i) fun flow => ?_
    cases flow with
    | next => exact runWithin_agrees unit path (n + 1) tells rest
    | leave | again | result => exact agrees_pure _

end

end

/-- With the check, calls do what they do without. -/
theorem callWithin_agrees {check : List Site → Action Unit} (check_ok : Passes check)
    (settings : Settings) (fuel : Nat) {s : Stage} {passes : List Site} (tells : s.Tells passes)
    (name : String) (args : List Variable) (span : Span) :
    Accord.full.Agrees s (callByName (Env.standard settings) fuel name args span)
      (callWithin check (Env.standard settings) fuel passes name args span) := by
  induction fuel generalizing s passes name args span with
  | zero => exact fun _ _ => .outOfFuel trivial
  | succ fuel ih =>
    unfold callByName callWithin
    refine agrees_lookup rfl name (fun handler found => ?_) fun f _ => ?_
    · exact agrees_bind (standard_agrees found _ _ args span) fun _ => agrees_pure _
    · have observed : Observed (s.calls + 1)
          ⟨Env.standard settings, callByName (Env.standard settings) fuel, fuel⟩
          (fun passes => ⟨Env.standard settings, callWithin check (Env.standard settings) fuel passes,
            fuel⟩) :=
        fun tells' => ⟨rfl, rfl, ih tells', fun _ _ _ => ⟨trivial, rfl⟩⟩
      unfold callUser callUserWithin
      refine agrees_ite (agrees_plain (plain_failAt _ span)) ?_
      refine agrees_bind (agrees_withCall span (Nat.le_refl _)
        (fun lt => absurd lt (Nat.lt_irrefl _)) fun _ => agrees_withScope
          (agrees_bind (agrees_plain (bindParams_plain span _ args)) fun _ =>
            runWithin_agrees check_ok observed f.site.unit f.site.path.body 0 tells _)) fun flow => ?_
      cases flow with
      | result | next => exact agrees_pure _
      | leave | again => exact agrees_plain (plain_failAt _ span)

theorem observed_standard {check : List Site → Action Unit} (check_ok : Passes check)
    (settings : Settings) (fuel calls : Nat) :
    Observed calls ((Env.standard settings).engine fuel)
      (engineWithin check (Env.standard settings) fuel) :=
  fun tells => ⟨rfl, rfl, callWithin_agrees check_ok settings fuel tells,
    fun _ _ _ => ⟨trivial, rfl⟩⟩

/-- Where no loop is marked, a program passes the check throughout. -/
theorem runChecked_eq {check : List Site → Action Unit} (check_ok : Passes check)
    (settings : Settings) (fuel unit : Nat) (prog : Program) {m : Machine}
    (idle : ∀ loop, m.isIterating loop = false) :
    runChecked check (Env.standard settings) fuel unit prog m =
      run ((Env.standard settings).engine fuel) unit prog m := by
  have tells : m.stage.Tells [] := fun loop => by
    have unmarked : loop ∉ m.iterating := of_decide_eq_false (idle loop)
    exact iff_of_false unmarked List.not_mem_nil
  have agrees : Accord.full.Agrees m.stage (run ((Env.standard settings).engine fuel) unit prog)
      (runChecked check (Env.standard settings) fuel unit prog) := by
    refine agrees_bind (runWithin_agrees check_ok
      (observed_standard check_ok settings fuel m.callDepth) unit [] 0 tells prog.body) fun flow => ?_
    cases flow with
    | next => exact agrees_pure ()
    | leave | again | result => exact agrees_stray (k := .full) trivial _ _
  rcases (agrees m (ready_all m)).eq_or_excused with equal | ⟨_, _, -, excused⟩
  · exact equal
  · cases excused

/-! ## The marks afterwards -/

/-- What agrees with itself leaves the marks as they were. -/
theorem ends_of_agrees {α : Type} {act : Action α} {m : Machine}
    (agrees : Accord.full.Agrees m.stage act act) :
    act.Ends m (fun _ m' => m'.iterating = m.iterating) (fun _ m' => m'.iterating = m.iterating) := by
  have concurs := agrees m (ready_all m)
  unfold Ends
  generalize act m = r at concurs
  cases concurs with
  | ok _ ready => exact congrArg Stage.loops ready.stage
  | fault _ ready => exact congrArg Stage.loops ready.stage
  | excused _ _ excused => cases excused
  | outOfFuel => trivial

/-- The standard engine agrees with itself at every stage. -/
theorem alike_self (settings : Settings) (fuel calls : Nat) (loops : List Site) :
    Engine.Alike Accord.full ⟨calls, loops⟩ ((Env.standard settings).engine fuel)
      ((Env.standard settings).engine fuel) := by
  have same : Loosened Accord.full settings settings :=
    ⟨rfl, Nat.le_refl _, fun lt => absurd lt (Nat.lt_irrefl _)⟩
  have fueled : Fueled Accord.full settings.maxCallDepth calls fuel fuel := .inl ⟨trivial, rfl⟩
  exact ⟨rfl, rfl, callByName_agrees same fueled, fun _ _ _ => ⟨trivial, rfl⟩⟩

/-- The mark of a loop tells whether a pass over its body is in progress. In every run
that begins without marks, this is so whenever an instruction begins: the run with the
check gives no alarm, for any loop. And however a program or an instruction ends, it
leaves every mark as it was. -/
theorem marks_tell_passes (settings : Settings) (fuel unit : Nat) :
    (∀ (prog : Program) (m : Machine), (∀ loop, m.isIterating loop = false) → ∀ alarm loop,
      runChecked (inspect alarm loop) (Env.standard settings) fuel unit prog m =
        run ((Env.standard settings).engine fuel) unit prog m) ∧
    (∀ (prog : Program) (m : Machine), (run ((Env.standard settings).engine fuel) unit prog).Ends m
      (fun _ m' => ∀ loop, m'.isIterating loop = m.isIterating loop)
      (fun _ m' => ∀ loop, m'.isIterating loop = m.isIterating loop)) ∧
    ∀ (path : Path) (i : Instr) (m : Machine),
      (execute ((Env.standard settings).engine fuel) unit path i).Ends m
        (fun _ m' => ∀ loop, m'.isIterating loop = m.isIterating loop)
        (fun _ m' => ∀ loop, m'.isIterating loop = m.isIterating loop) := by
  have flags {m m' : Machine} (same : m'.iterating = m.iterating) (loop : Site) :
      m'.isIterating loop = m.isIterating loop := by
    rw [isIterating, isIterating, same]
  refine ⟨fun prog m idle alarm loop => ?_, fun prog m => ?_, fun path i m => ?_⟩
  · exact runChecked_eq (passes_inspect alarm loop) settings fuel unit prog idle
  · refine (ends_of_agrees (run_agrees (alike_self settings fuel m.callDepth) trivial unit m.iterating
      (Instr.everyOf_of_forall (fun _ => trivial) prog.body))).mono ?_ ?_
    · exact fun _ _ same => flags same
    · exact fun _ _ same => flags same
  · refine (ends_of_agrees (execute_agrees (alike_self settings fuel m.callDepth) unit path
      m.iterating i (Instr.every_of_forall (fun _ => trivial) i))).mono ?_ ?_
    · exact fun _ _ same => flags same
    · exact fun _ _ same => flags same

/-- A loop whose body calls the function that the loop is in, and is left by a `break`
there. -/
theorem marks_tell_passes_recursion : ∃ prog m',
    Program.read ("func f(int n) \x7b while n > 0 \x7b f(n - 1); break; \x7d return n; \x7d " ++
        "print(f(2));") = .ok prog ∧
      run ((Env.standard {}).engine 9) 0 prog {} = .ok () m' ∧ m'.output.text = "2\n" ∧
      (∀ alarm loop,
        runChecked (inspect alarm loop) (Env.standard {}) 9 0 prog {} = .ok () m') ∧
      ∀ loop, m'.isIterating loop = false := by
  have ran : (sourceRun? ((Env.standard {}).engine 9)
      ("func f(int n) \x7b while n > 0 \x7b f(n - 1); break; \x7d return n; \x7d " ++
        "print(f(2));")).any fun r => r.2.output.text = "2\n" := by decide +kernel
  obtain ⟨⟨prog, m'⟩, found, printed⟩ := (Option.any_eq_true _ _).mp ran
  obtain ⟨read, ended⟩ := sourceRun?_eq_some found
  obtain ⟨checked, kept, -⟩ := marks_tell_passes {} 9 0
  refine ⟨prog, m', read, ended, of_decide_eq_true printed, fun alarm loop => ?_, ?_⟩
  · exact (checked prog {} (fun _ => rfl) alarm loop).trans ended
  · exact (kept prog {}).of_ok ended

end Machine

end TraceLang
