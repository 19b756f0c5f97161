/-
# TraceLang.Proofs.Sessions — programs from source texts, one after another

Some faults are out of reach of a source text: they need an instruction that no
source can spell, or a defect of the machine (`Cause.isEngineOnly`). A machine
is at rest when it is new or when programs from source texts have been run on
it, however they ended. `run_of_source` says that a program from a source text,
run on a machine at rest, ends without such a fault and leaves the machine with
all frames, scopes and calls closed.
-/
import TraceLang.Proofs.Control
import TraceLang.Proofs.Syntax.Reading

namespace TraceLang

set_option autoImplicit false

/-- A cause that only an instruction without a source text, or a defect, can
bring about. -/
def Cause.isEngineOnly : Cause → Bool
  | .invalidName _ | .nothingToOverwrite _ | .tracedOverwrite _ | .defect _ => true
  | _ => false

/-- The names that an instruction itself binds, apart from those inside it. -/
def Instr.boundNames : Instr → List String
  | .declare _ d => [d.name]
  | .define _ _ params _ _ => params.map (·.name)
  | _ => []

theorem Instr.Spelled.names_valid {i : Instr} (spelled : i.Spelled) :
    ∀ name ∈ i.boundNames, isValidName name := by
  cases i with
  | declare span d => simpa [boundNames] using spelled.1
  | define span name params body funcSpan => simpa [boundNames, Spelled] using spelled
  | _ => exact fun _ => nofun

theorem Cause.not_engineOnly_of_ordinary {cause : Cause} (ordinary : cause.isOrdinary) :
    cause.isEngineOnly = false := by
  cases cause <;> simp_all [isOrdinary, isEngineOnly]

/-- Instructions that a source can spell fail with no engine-only cause. -/
theorem tolerates_spelled :
    Tolerates Instr.Spelled (fun _ f => f.cause.isEngineOnly = false) where
  ordinary _ _ _ ordinary := Cause.not_engineOnly_of_ordinary ordinary
  locate _ fault := fault
  trace fault := by rwa [Fault.cause_trace]
  invalid _ _ _ spelled invalid := absurd spelled.1 invalid
  missing _ _ _ spelled mode := by simp [spelled.2.1] at mode
  traced _ _ _ spelled mode := absurd spelled.2.1 mode
  nameless _ _ _ _ spelled root := absurd (spelled "" root) (by decide)
  param _ _ _ _ spelled listed invalid := absurd (spelled _ listed) invalid
  header isStep spelled := by
    cases isStep with
    | false => exact .inl spelled.1
    | true => exact .inl spelled.2
  leave _ := rfl
  again _ := rfl
  result _ := rfl
  across _ _ := rfl

theorem Except.exists_of_isOk {ε α : Type} {result : Except ε α} (ok : result.isOk) :
    ∃ a, result = .ok a := by
  cases result with
  | error e => cases ok
  | ok a => exact ⟨a, rfl⟩

namespace Machine

open TraceLang.Action

/-- What is kept by a program from a source text. -/
abbrev sourceEffect : Effect :=
  blockEffect Instr.Spelled fun _ f => f.cause.isEngineOnly = false

theorem run_has (settings : Settings) (fuel unit : Nat) {prog : Program}
    (spelled : Instr.EveryOf Instr.Spelled prog.body) {m : Machine} (inv : sourceEffect.inv m)
    (rest : m.context = {}) :
    (run ((Env.standard settings).engine fuel) unit prog).HasAt sourceEffect m := by
  have rule := stacks_govern tolerates_spelled
  have call := standard_call_has rule settings fuel
  have plainCall := standard_call_has (stacks_govern tolerates_all) settings fuel
  refine hasAt_bind rule.lawful (fun flow _ => flow = .next)
    (runBlock_has rule call unit [] 0 prog.body spelled m inv)
    (runBody_next plainCall unit _ rest) ?_
  rintro flow m' inv' rfl
  exact has_pure rule.lawful () m' inv'

/-- The fault of a program from a source text, run on a new machine. -/
def sourceFault? (g : Engine) (source : String) : Option Fault :=
  match Program.read source with
  | .error _ => none
  | .ok prog =>
    match run g 0 prog {} with
    | .fault f _ => some f
    | _ => none

/-- A program from a source text and the machine that it leaves behind when it
succeeds on a new one. -/
def sourceRun? (g : Engine) (source : String) : Option (Program × Machine) :=
  match Program.read source with
  | .error _ => none
  | .ok prog =>
    match run g 0 prog {} with
    | .ok _ m => some (prog, m)
    | _ => none

theorem sourceRun?_eq_some {g : Engine} {source : String} {prog : Program} {m : Machine}
    (ran : sourceRun? g source = some (prog, m)) :
    Program.read source = .ok prog ∧ run g 0 prog {} = .ok () m := by
  unfold sourceRun? at ran
  cases read : Program.read source with
  | error e => simp [read] at ran
  | ok prog' =>
    simp only [read] at ran
    cases ended : run g 0 prog' {} with
    | ok _ m' => simp_all
    | fault f m' => simp [ended] at ran
    | outOfFuel => simp [ended] at ran

theorem sourceFault?_eq_some {g : Engine} {source : String} {f : Fault}
    (failed : sourceFault? g source = some f) :
    ∃ prog m, Program.read source = .ok prog ∧ run g 0 prog {} = .fault f m := by
  unfold sourceFault? at failed
  cases read : Program.read source with
  | error e => simp [read] at failed
  | ok prog =>
    simp only [read] at failed
    cases ended : run g 0 prog {} with
    | ok _ m => simp [ended] at failed
    | fault f' m =>
      simp only [ended, Option.some.injEq] at failed
      exact ⟨prog, m, rfl, failed ▸ ended⟩
    | outOfFuel => simp [ended] at failed

/-- A machine on which only programs from source texts have been run, each to
its end. -/
inductive AtRest : Machine → Prop
  | new (output : Output) : AtRest { output }
  | succeeded {m m' : Machine} {settings : Settings} {fuel unit : Nat} {source : String}
    {prog : Program} (before : AtRest m) (read : Program.read source = .ok prog)
    (ran : run ((Env.standard settings).engine fuel) unit prog m = .ok () m') : AtRest m'
  | failed {m m' : Machine} {settings : Settings} {fuel unit : Nat} {source : String}
    {prog : Program} {f : Fault} (before : AtRest m) (read : Program.read source = .ok prog)
    (ran : run ((Env.standard settings).engine fuel) unit prog m = .fault f m') : AtRest m'

/-- Nothing is open: no frame, no call and only the global scope. -/
structure Closed (m : Machine) : Prop where
  context : m.context = {}
  depth : m.scopes.depth = 1
  callDepth : m.callDepth = 0

theorem KeptBelow.closed {m m' : Machine} (kept : KeptBelow m m') (closed : m.Closed) :
    m'.Closed where
  context := kept.context.trans closed.context
  depth := kept.depth.trans closed.depth
  callDepth := kept.callDepth.trans closed.callDepth

theorem AtRest.closed_and_spelled {m : Machine} (rest : AtRest m) :
    m.Closed ∧ sourceEffect.inv m := by
  induction rest with
  | new output => exact ⟨⟨rfl, rfl, rfl⟩, fun _ _ => nofun⟩
  | succeeded _ read ran ih =>
    obtain ⟨inv, kept⟩ := (run_has _ _ _ (read_spelled read) ih.2 ih.1.context).of_ok ran
    exact ⟨kept.closed ih.1, inv⟩
  | failed _ read ran ih =>
    obtain ⟨inv, kept, -⟩ := (run_has _ _ _ (read_spelled read) ih.2 ih.1.context).of_fault ran
    exact ⟨kept.closed ih.1, inv⟩

/-- A program from a source text binds valid names only. Run on a machine at
rest, it fails with no engine-only cause, and however it ends it closes every
frame, scope and call. -/
theorem run_of_source {m : Machine} (rest : AtRest m) {source : String} {prog : Program}
    (read : Program.read source = .ok prog) (settings : Settings) (fuel unit : Nat) :
    Instr.EveryOf (fun i => ∀ name ∈ i.boundNames, isValidName name) prog.body ∧
      (run ((Env.standard settings).engine fuel) unit prog).Ends m (fun _ m' => m'.Closed)
        (fun f m' => f.cause.isEngineOnly = false ∧ m'.Closed) := by
  obtain ⟨closed, inv⟩ := rest.closed_and_spelled
  have spelled := read_spelled read
  refine ⟨Instr.EveryOf.mono (fun _ => Instr.Spelled.names_valid) _ spelled, ?_⟩
  refine (run_has settings fuel unit spelled inv closed.context).mono ?_ ?_
  · rintro _ m' ⟨-, kept⟩
    exact kept.closed closed
  · rintro f m' ⟨-, kept, ordinary⟩
    exact ⟨ordinary, kept.closed closed⟩

/-- A `break` that would leave a function: the fault is the program's own. -/
theorem run_of_source_break : ∃ prog,
    Program.read "func f(int x) \x7b if x > 0 \x7b break; \x7d return x; \x7d while true \x7b f(1); \x7d" =
        .ok prog ∧
      Instr.EveryOf (fun i => ∀ name ∈ i.boundNames, isValidName name) prog.body ∧
      (run ((Env.standard {}).engine 9) 0 prog).Ends {} (fun _ m' => m'.Closed)
        (fun f m' => f.cause.isEngineOnly = false ∧ m'.Closed) := by
  refine (Except.exists_of_isOk (by decide +kernel)).imp fun prog read => ⟨read, ?_⟩
  exact run_of_source (.new default) read {} 9 0

end Machine

end TraceLang
