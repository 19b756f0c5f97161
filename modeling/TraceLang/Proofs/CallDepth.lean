/-
# TraceLang.Proofs.CallDepth — the limit on calls inside each other

The machine counts the calls of user functions that are in progress. To say that
the count is right, a watched engine keeps a count of its own: it hands the number
of bodies around it down to every call, and it compares this number with the count
of the machine and with the limit whenever a call or a body begins or ends. If they
differ it fails with an alarm. Whatever the alarm is, the watched run is the run
(`runWatched_eq`), so no alarm is ever given.

A limit is felt only by the programs that it stops: a run that does not end at the
lower of two limits is, to the last detail, the run under the higher one
(`run_eq_of_le`).
-/
import TraceLang.Proofs.Accord
import TraceLang.Proofs.Sessions

namespace TraceLang

set_option autoImplicit false

/-- Whether a program was stopped by the limit on calls. -/
def Fault.isCallDepth (f : Fault) : Bool :=
  match f.cause with
  | .callDepth _ => true
  | _ => false

namespace Accord

/-- Nothing is excused, and nothing is known of the program. -/
def full : Accord where
  admits _ := True
  excused _ := False
  hangs := True
  excused_locate _ := id
  excused_trace _ := id

/-- Programs that are stopped by the limit are not compared any further. -/
def upToLimit : Accord where
  admits _ := True
  excused f := f.isCallDepth
  hangs := True
  excused_locate _ := id
  excused_trace c stopped := by rwa [Fault.isCallDepth, Fault.cause_trace]

end Accord

namespace Machine

open TraceLang.Action Accord

/-! ## A watch on the count -/

/-- Fail with the alarm unless the machine counts `active` calls and so many are
within the limit. -/
def watch (alarm : Fault) (limit active : Nat) : Action Unit :=
  fun m => if m.callDepth = active ∧ active ≤ limit then .ok () m else .fault alarm m

/-- An action under watch when it begins and when it ends. -/
def watched {α : Type} (alarm : Fault) (limit active : Nat) (act : Action α) : Action α := do
  watch alarm limit active
  let a ← act
  watch alarm limit active
  return a

/-- Call a user function, with something done around its body. -/
def callAround (around : Action Flow → Action Flow) (g : Engine) (f : Defined)
    (args : List Variable) (span : Span) : Action (Option Variable) := do
  let func := f.function
  if func.params.length ≠ args.length then
    failAt (.arity func.name func.params.length args.length) span
  else
    let flow ← withCall g.env.settings.maxCallDepth span <| around <| withScope do
      bindParams span func.params args
      runBlock g f.site.unit f.site.path.body 0 func.body
    match flow with
    | .result value => return value
    | .next => return none
    | .leave | .again => failAt (.misplaced .acrossFunction) span

/-- With nothing done around the body it is the call itself. -/
theorem callAround_id : callAround id = callUser :=
  rfl

/-- Call a function by name, while `active` bodies of user functions are running,
and watch every call and every body inside it. -/
def callWatched (alarm : Fault) (env : Env) : (fuel active : Nat) → Caller
  | 0, _ => fun _ _ _ _ => .outOfFuel
  | fuel + 1, active => fun name args span =>
    watched alarm env.settings.maxCallDepth active do
      match ← env.lookup name with
      | .builtin handler =>
        let v ← located span (handler (callWatched alarm env fuel active) args span)
        return some (.fresh v)
      | .user f =>
        callAround (watched alarm env.settings.maxCallDepth (active + 1))
          { env, call := callWatched alarm env fuel (active + 1), fuel } f args span

/-- Run a program under watch. -/
def runWatched (alarm : Fault) (env : Env) (fuel unit : Nat) (prog : Program) : Action Unit :=
  watched alarm env.settings.maxCallDepth 0
    (run { env, call := callWatched alarm env fuel 0, fuel } unit prog)

theorem every_all (f : Function) : f.Every fun _ => True :=
  ⟨{}, Instr.every_of_forall (fun _ => trivial) _⟩

/-- Every machine is ready for what is compared of all programs. -/
theorem ready_all (m : Machine) : m.Ready (fun _ => True) m.stage :=
  ⟨rfl, fun _ f _ => every_all f.function⟩

theorem watch_of_ready {p : Instr → Prop} {m : Machine} {s : Stage} {limit : Nat} (alarm : Fault)
    (ready : m.Ready p s) (within : s.calls ≤ limit) :
    watch alarm limit s.calls m = .ok () m :=
  if_pos ⟨congrArg Stage.calls ready.stage, within⟩

/-- Under watch, an action that keeps the count does what it does without. -/
theorem agrees_watched {α : Type} {act act' : Action α} {s : Stage} {limit : Nat} (alarm : Fault)
    (within : s.calls ≤ limit) (agrees : Accord.full.Agrees s act act') :
    Accord.full.Agrees s act (watched alarm limit s.calls act') := by
  intro m ready
  have concurs := agrees m ready
  unfold watched
  rw [bind_of_ok (watch_of_ready alarm ready within)]
  generalize ended : act m = r, ended' : act' m = r' at concurs
  cases concurs with
  | ok level ready' =>
    rw [bind_of_ok ended', bind_of_ok (watch_of_ready alarm ready' within)]
    exact .ok level ready'
  | fault level ready' =>
    rw [bind_of_fault ended']
    exact .fault level ready'
  | excused _ _ excused => cases excused
  | outOfFuel hangs =>
    have out : (act' >>= fun a => watch alarm limit s.calls >>= fun _ => pure a) m = .outOfFuel := by
      show Action.bind act' _ m = _
      simp only [Action.bind, ended']
    rw [out]
    exact .outOfFuel hangs

/-- A call is the same under watch if the calls inside it are. -/
theorem callAround_agrees {env : Env} {call call' : Caller} {s : Stage} {fuel : Nat}
    (alarm : Fault)
    (inside : s.calls < env.settings.maxCallDepth → ∀ loops name args span,
      Accord.full.Agrees ⟨s.calls + 1, loops⟩ (call name args span) (call' name args span))
    (f : Defined) (args : List Variable) (span : Span) :
    Accord.full.Agrees s (callUser { env, call, fuel } f args span)
      (callAround (watched alarm env.settings.maxCallDepth (s.calls + 1))
        { env, call := call', fuel } f args span) := by
  have alike (within : s.calls < env.settings.maxCallDepth) (loops : List Site) :
      Engine.Alike Accord.full ⟨s.calls + 1, loops⟩ { env, call, fuel }
        { env, call := call', fuel } :=
    ⟨rfl, rfl, inside within loops, fun _ _ _ => ⟨trivial, rfl⟩⟩
  unfold callUser callAround
  refine agrees_ite (agrees_plain (plain_failAt _ span)) ?_
  refine agrees_bind (agrees_withCall span (Nat.le_refl _) (fun lt => absurd lt (Nat.lt_irrefl _))
    fun within => agrees_watched alarm within
      (body_agrees (alike within) (every_all _) args span s.loops)) fun flow => ?_
  cases flow with
  | result | next => exact agrees_pure _
  | leave | again => exact agrees_plain (plain_failAt _ span)

theorem callWatched_agrees (alarm : Fault) (settings : Settings) (fuel : Nat) {s : Stage}
    (within : s.calls ≤ settings.maxCallDepth) (name : String) (args : List Variable)
    (span : Span) :
    Accord.full.Agrees s (callByName (Env.standard settings) fuel name args span)
      (callWatched alarm (Env.standard settings) fuel s.calls name args span) := by
  induction fuel generalizing s name args span with
  | zero => exact fun _ _ => .outOfFuel trivial
  | succ fuel ih =>
    unfold callByName callWatched
    refine agrees_watched alarm within (agrees_lookup rfl name (fun handler found => ?_) ?_)
    · exact agrees_bind (standard_agrees found _ _ args span) fun _ => agrees_pure _
    · intro f _
      refine callAround_agrees alarm (fun deeper loops => ?_) f args span
      have within' : Stage.calls ⟨s.calls + 1, loops⟩ ≤ settings.maxCallDepth := deeper
      exact ih within'

/-- Where no call is in progress, a program under watch gives no alarm. -/
theorem runWatched_eq (alarm : Fault) (settings : Settings) (fuel unit : Nat) (prog : Program)
    {m : Machine} (idle : m.callDepth = 0) :
    runWatched alarm (Env.standard settings) fuel unit prog m =
      run ((Env.standard settings).engine fuel) unit prog m := by
  have within : 0 ≤ settings.maxCallDepth := Nat.zero_le _
  have alike (loops : List Site) : Engine.Alike Accord.full ⟨0, loops⟩
      ((Env.standard settings).engine fuel)
      { env := Env.standard settings
        call := callWatched alarm (Env.standard settings) fuel 0
        fuel } :=
    ⟨rfl, rfl, callWatched_agrees alarm settings fuel within, fun _ _ _ => ⟨trivial, rfl⟩⟩
  have same := run_agrees alike trivial unit m.iterating
    (Instr.everyOf_of_forall (fun _ => trivial) prog.body)
  have ready : m.Ready (fun _ => True) ⟨0, m.iterating⟩ := idle ▸ ready_all m
  have concurs := agrees_watched alarm within same m ready
  rcases concurs.eq_or_excused with equal | ⟨_, _, -, excused⟩
  · exact equal
  · cases excused

/-! ## A lower limit -/

/-- The run under the higher of two limits is the run under the lower one,
unless that is stopped by its limit. -/
theorem run_eq_of_le (settings : Settings) {low high : Nat} (le : low ≤ high) (fuel unit : Nat)
    (prog : Program) (m : Machine) :
    run ((Env.standard { settings with maxCallDepth := high }).engine fuel) unit prog m =
        run ((Env.standard { settings with maxCallDepth := low }).engine fuel) unit prog m ∨
      ∃ f m', run ((Env.standard { settings with maxCallDepth := low }).engine fuel) unit prog m =
        .fault f m' ∧ f.isCallDepth := by
  have loosened : Loosened Accord.upToLimit { settings with maxCallDepth := low }
      { settings with maxCallDepth := high } := ⟨rfl, le, fun _ _ => rfl⟩
  have every : Instr.EveryOf Accord.upToLimit.admits prog.body :=
    Instr.everyOf_of_forall (fun _ => trivial) prog.body
  have fueled : Fueled Accord.upToLimit low m.stage.calls fuel fuel := .inl ⟨trivial, rfl⟩
  have agrees := run_agrees (standard_alike loosened fueled) trivial unit m.iterating every
  exact (agrees m (ready_all m)).eq_or_excused

/-! ## The two together -/

/-- Of two limits the lower one only adds failures, and during every run the
count of calls is right and within the limit. -/
theorem run_under_limit {m : Machine} (rest : AtRest m) (settings : Settings) (fuel unit : Nat)
    (prog : Program) :
    (∀ low high : Nat, low ≤ high → ∀ result,
      run ((Env.standard { settings with maxCallDepth := low }).engine fuel) unit prog m = result →
      (∀ f m', result = .fault f m' → ¬ f.isCallDepth) →
      run ((Env.standard { settings with maxCallDepth := high }).engine fuel) unit prog m =
        result) ∧
    ∀ alarm, runWatched alarm (Env.standard settings) fuel unit prog m =
      run ((Env.standard settings).engine fuel) unit prog m := by
  constructor
  · rintro low high le _ rfl survives
    rcases run_eq_of_le settings le fuel unit prog m with equal | ⟨f, m', stopped, exceeded⟩
    · exact equal
    · exact absurd exceeded (survives f m' stopped)
  · intro alarm
    exact runWatched_eq alarm settings fuel unit prog rest.closed_and_spelled.1.callDepth

/-- A recursion of depth three: it is stopped at limit 2, and what it does at
limit 3 it does at limit 5 as well. -/
theorem run_under_limit_recursion : ∃ prog m',
    Program.read "func f(int n) \x7b if n > 0 \x7b return f(n - 1); \x7d return n; \x7d int x = f(2);" =
        .ok prog ∧
      (run ((Env.standard { maxCallDepth := 2 }).engine 9) 0 prog {}).fault?.any (·.1.isCallDepth) ∧
      run ((Env.standard { maxCallDepth := 3 }).engine 9) 0 prog {} = .ok () m' ∧
      run ((Env.standard { maxCallDepth := 5 }).engine 9) 0 prog {} = .ok () m' ∧
      ∀ alarm, runWatched alarm (Env.standard { maxCallDepth := 3 }) 9 0 prog {} = .ok () m' := by
  have ran : (sourceRun? ((Env.standard { maxCallDepth := 3 }).engine 9)
      "func f(int n) \x7b if n > 0 \x7b return f(n - 1); \x7d return n; \x7d int x = f(2);").any
      fun r => (run ((Env.standard { maxCallDepth := 2 }).engine 9) 0 r.1 {}).fault?.any
        (·.1.isCallDepth) := by decide +kernel
  obtain ⟨⟨prog, m'⟩, found, stopped⟩ := (Option.any_eq_true _ _).mp ran
  obtain ⟨read, ended⟩ := sourceRun?_eq_some found
  obtain ⟨raised, count⟩ := run_under_limit (.new default) { maxCallDepth := 3 } 9 0 prog
  refine ⟨prog, m', read, stopped, ended, ?_, fun alarm => (count alarm).trans ended⟩
  exact raised 3 5 (by decide) _ ended (by rintro _ _ ⟨⟩)

end Machine

end TraceLang
