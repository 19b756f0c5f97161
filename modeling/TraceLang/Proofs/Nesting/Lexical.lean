/-
# TraceLang.Proofs.Nesting.Lexical — runs that go by the text

Whether a `break` or a `continue` is allowed is decided from the frames in progress, and
its signal is caught by the first loop on its way out. `runLexical` decides by the text
instead: it knows the innermost loop around each instruction, in the same function or at
top level, aims every signal at that loop and lets each loop catch only what is aimed at
it. Where there is no such loop, it fails with a cause of our choice, the alarm.

`Follows` relates the outcomes of the two ways to run. An instruction that raises the alarm
has failed for a stray `break` or `continue`, or it gives a signal that slips out of its
function, as the frames can permit. Neither happens where all is tidy: where every `break`
and `continue` is enclosed by a loop (`Instr.isEnclosed`), in the instruction and in the
functions that are defined.
-/
import TraceLang.Proofs.Kinship.Programs
import TraceLang.Proofs.Sessions

namespace TraceLang

set_option autoImplicit false

/-- A complaint about a `break` or a `continue`. -/
def Cause.isStray : Cause → Bool
  | .misplaced .leave | .misplaced .again | .misplaced .acrossFunction => true
  | _ => false

/-! ## Enclosed instructions -/

namespace Instr

mutual

/-- Every `break` and `continue` in the instruction lies in the body of a loop of the same
function or of top level. The flag tells whether the instruction itself does. -/
def isEnclosed (inLoop : Bool) : Instr → Bool
  | .whileLoop _ _ body => areEnclosed true body
  | .forLoop _ init step _ body =>
    init.isEnclosed false && step.isEnclosed false && areEnclosed true body
  | .conditional _ _ onTrue onFalse => areEnclosed inLoop onTrue && areEnclosed inLoop onFalse
  | .define _ _ _ body _ => areEnclosed false body
  | .leave _ | .again _ => inLoop
  | _ => true

def areEnclosed (inLoop : Bool) : List Instr → Bool
  | [] => true
  | i :: rest => i.isEnclosed inLoop && areEnclosed inLoop rest

end

/-- In the body of a function that the instruction defines, all is enclosed. -/
def bodyIsEnclosed : Instr → Bool
  | .define _ _ _ body _ => areEnclosed false body
  | _ => true

mutual

theorem every_bodyIsEnclosed (inLoop : Bool) : (i : Instr) → i.isEnclosed inLoop →
    i.Every fun i => i.bodyIsEnclosed
  | .whileLoop _ _ body, enclosed => ⟨rfl, everyOf_bodyIsEnclosed true body enclosed⟩
  | .forLoop _ init step _ body, enclosed => by
    simp only [isEnclosed, Bool.and_eq_true] at enclosed
    obtain ⟨⟨inInit, inStep⟩, inBody⟩ := enclosed
    exact ⟨rfl, every_bodyIsEnclosed false init inInit, every_bodyIsEnclosed false step inStep,
      everyOf_bodyIsEnclosed true body inBody⟩
  | .conditional _ _ onTrue onFalse, enclosed => by
    simp only [isEnclosed, Bool.and_eq_true] at enclosed
    exact ⟨rfl, everyOf_bodyIsEnclosed inLoop onTrue enclosed.1,
      everyOf_bodyIsEnclosed inLoop onFalse enclosed.2⟩
  | .define _ _ _ body _, enclosed => ⟨enclosed, everyOf_bodyIsEnclosed false body enclosed⟩
  | .declare .., _ | .assign .., _ | .call .., _ | .trace .., _ | .leave .., _ | .again .., _
  | .result .., _ => rfl

theorem everyOf_bodyIsEnclosed (inLoop : Bool) : (block : List Instr) → areEnclosed inLoop block →
    EveryOf (fun i => i.bodyIsEnclosed) block
  | [], _ => trivial
  | i :: rest, enclosed => by
    simp only [areEnclosed, Bool.and_eq_true] at enclosed
    exact ⟨every_bodyIsEnclosed inLoop i enclosed.1, everyOf_bodyIsEnclosed inLoop rest enclosed.2⟩

end

/-- A source can spell the instruction, and if it defines a function, all in the body of
the function is enclosed. -/
def Tidy (i : Instr) : Prop :=
  i.Spelled ∧ i.bodyIsEnclosed

end Instr

/-! ## Signals that know their loop -/

/-- How control leaves an instruction, and which loop this is about. -/
inductive Aimed
  | next
  | leave (loop : Site)
  | again (loop : Site)
  | result (value : Option Variable)

namespace Machine

/-- The signal of an instruction whose innermost loop is given, if there is one. -/
def aim (alarm : Cause) (signal : Site → Aimed) : Option Site → Action Aimed
  | some loop => return signal loop
  | none => Action.fail alarm

/-- Repeat as the given loop, which heeds the signals that are aimed at it. -/
def repeatAimed (loop : Site) (cond : Action Bool) (body : Action Aimed) (step : Action Unit) :
    (fuel : Nat) → Action Aimed
  | 0 => fun _ => .outOfFuel
  | fuel + 1 => do
    if ← cond then
      match ← body with
      | .leave target => return if target = loop then .next else .leave target
      | .result value => return .result value
      | .next =>
        step
        repeatAimed loop cond body step fuel
      | .again target =>
        if target = loop then
          step
          repeatAimed loop cond body step fuel
        else
          return .again target
    else return .next

/-- Count a step and run an action under the frame of an instruction. -/
def enter {α : Type} (instr : Instr) (act : Action α) : Action α :=
  fun m =>
    let m := { m with steps := m.steps + 1 }
    Action.framed (m.frame instr) act m

mutual

/-- Execute an instruction; `loop` is the innermost loop around it in its function or at
top level. -/
def executeAimed (alarm : Cause) (g : Engine) (unit : Nat) (path : Path) (loop : Option Site) :
    Instr → Action Aimed
  | .whileLoop span cond body =>
    enter (.whileLoop span cond body)
      (repeatAimed ⟨unit, path⟩ (evalCondition g cond)
        (Action.withIterating ⟨unit, path⟩
          (Action.withScope (runAimed alarm g unit path.body 0 (some ⟨unit, path⟩) body)))
        (pure ()) g.fuel)
  | .forLoop span init step cond body =>
    enter (.forLoop span init step cond body)
      (Action.withScope do
        expectNext false (← execute g unit path.first init)
        repeatAimed ⟨unit, path⟩ (evalCondition g cond)
          (Action.withIterating ⟨unit, path⟩
            (Action.withScope (runAimed alarm g unit path.body 0 (some ⟨unit, path⟩) body)))
          (do expectNext true (← execute g unit path.second step)) g.fuel)
  | .conditional span cond onTrue onFalse =>
    enter (.conditional span cond onTrue onFalse) do
      if ← evalCondition g cond then
        Action.withScope (runAimed alarm g unit path.first 0 loop onTrue)
      else
        Action.withScope (runAimed alarm g unit path.second 0 loop onFalse)
  | .leave span => enter (.leave span) (aim alarm .leave loop)
  | .again span => enter (.again span) (aim alarm .again loop)
  | instr => do
    match ← execute g unit path instr with
    | .result value => return .result value
    | _ => return .next

/-- Execute the instructions of a block until one of them leaves it. -/
def runAimed (alarm : Cause) (g : Engine) (unit : Nat) (path : Path) (i : Nat)
    (loop : Option Site) : List Instr → Action Aimed
  | [] => return .next
  | instr :: rest => do
    match ← executeAimed alarm g unit (path.item i) loop instr with
    | .next => runAimed alarm g unit path (i + 1) loop rest
    | signal => return signal

end

/-- Call a user function. No loop is around its body, so no signal is left over. -/
def callUserAimed (alarm : Cause) (g : Engine) (f : Defined) (args : List Variable) (span : Span) :
    Action (Option Variable) := do
  let func := f.function
  if func.params.length ≠ args.length then
    Action.failAt (.arity func.name func.params.length args.length) span
  else
    let signal ← Action.withCall g.env.settings.maxCallDepth span <| Action.withScope do
      bindParams span func.params args
      runAimed alarm g f.site.unit f.site.path.body 0 none func.body
    match signal with
    | .result value => return value
    | _ => return none

/-- Call a function by name. -/
def callAimed (alarm : Cause) (env : Env) : (fuel : Nat) → Caller
  | 0 => fun _ _ _ _ => .outOfFuel
  | fuel + 1 => fun name args span => do
    match ← env.lookup name with
    | .builtin handler =>
      let v ← Action.located span (handler (callAimed alarm env fuel) args span)
      return some (.fresh v)
    | .user f => callUserAimed alarm { env, call := callAimed alarm env fuel, fuel } f args span

/-- The engine whose calls go by the text. -/
def lexicalEngine (alarm : Cause) (env : Env) (fuel : Nat) : Engine :=
  { env, call := callAimed alarm env fuel, fuel }

/-- Run a program by its text: every `break` and `continue` is about the innermost loop
around it, and those without one raise the alarm. -/
def runLexical (alarm : Cause) (env : Env) (fuel unit : Nat) (prog : Program) : Action Unit :=
  discard (runAimed alarm (lexicalEngine alarm env fuel) unit [] 0 none prog.body)

end Machine

/-- The signal is aimed at the loop around the instruction that gave it. -/
inductive Flow.Aims (loop : Option Site) : Flow → Aimed → Prop
  | next : Aims loop .next .next
  | leave {site : Site} (around : loop = some site) : Aims loop .leave (.leave site)
  | again {site : Site} (around : loop = some site) : Aims loop .again (.again site)
  | result (value : Option Variable) : Aims loop (.result value) (.result value)

/-- A `break` or `continue` that no loop is around, though the frames permit it. -/
def Flow.Slips (loop : Option Site) (flow : Flow) : Prop :=
  loop = none ∧ (flow = .leave ∨ flow = .again)

/-! ## Tidy machines -/

/-- All functions that are defined are tidy. -/
def Machine.Tidy (m : Machine) : Prop :=
  ∀ name f, m.function? name = some f → f.function.Every Instr.Tidy

/-- What expressions and calls do where all is tidy. -/
abbrev tidyEffect : Effect :=
  stackEffect Instr.Tidy fun _ f => f.cause.isStray = false

/-- What blocks do where all is tidy. -/
abbrev tidyBlock : Effect :=
  blockEffect Instr.Tidy fun _ f => f.cause.isStray = false

theorem condones_tidy : Condones Instr.Tidy (fun _ f => f.cause.isStray = false) where
  ordinary _ cause _ ordinary := by cases cause <;> simp_all [Cause.isOrdinary, Cause.isStray]
  locate _ fault := fault
  trace fault := by rwa [Fault.cause_trace]
  invalid _ _ _ _ _ := rfl
  missing _ _ _ _ _ := rfl
  traced _ _ _ _ _ := rfl
  nameless _ _ _ _ _ _ := rfl
  param _ _ _ _ _ _ _ := rfl
  header isStep tidy := by
    cases isStep with
    | false => exact .inl tidy.1.1
    | true => exact .inl tidy.1.2
  result _ := rfl

/-! ## Runs that follow each other -/

/-- Runs that differ in what they say about a stray `break` or `continue`. -/
def Kinship.nesting (alarm : Cause) : Kinship where
  hidden _ := False
  units _ := True
  excused f f' := f.cause.isStray ∧ f'.cause = alarm
  level := True
  excused_locate _ strays := strays
  excused_trace _ _ strays := by simpa only [Fault.cause_trace] using strays
  excused_defect unlevel := absurd trivial unlevel

/-- The outcomes of a run and of its lexical counterpart that started on `m`. They are the
same, or the second has raised the alarm: then the first has failed for a stray `break` or
`continue`, or is about to, by a signal that `slips`. Where all is tidy, this does not
happen. -/
inductive Follows (alarm : Cause) (tidy : Prop) {α β : Type} (good : α → β → Prop)
    (slips : α → Prop) (m : Machine) : Outcome α → Outcome β → Prop
  | ok {a : α} {b : β} {n : Machine} (like : good a b) (level : m.Level n)
    (remains : tidy → n.Tidy) : Follows alarm tidy good slips m (.ok a n) (.ok b n)
  | fault {f : Fault} {n : Machine} (proper : tidy → f.cause.isStray = false)
    (remains : tidy → n.Tidy) : Follows alarm tidy good slips m (.fault f n) (.fault f n)
  | strayed {f f' : Fault} {n n' : Machine} (untidy : ¬ tidy) (stray : f.cause.isStray)
    (alarmed : f'.cause = alarm) (level : m.Level n) (level' : m.Level n') :
    Follows alarm tidy good slips m (.fault f n) (.fault f' n')
  | slipped {a : α} {f' : Fault} {n n' : Machine} (untidy : ¬ tidy) (slip : slips a)
    (alarmed : f'.cause = alarm) (level : m.Level n) (level' : m.Level n') :
    Follows alarm tidy good slips m (.ok a n) (.fault f' n')
  | outOfFuel : Follows alarm tidy good slips m .outOfFuel .outOfFuel

namespace Follows

open TraceLang.Action Kinship Machine

variable {alarm : Cause} {tidy : Prop} {α β : Type} {good : α → β → Prop} {slips : α → Prop}
  {m n : Machine} {act : Action α} {act' : Action β}

theorem before {r : Outcome α} {r' : Outcome β} (level : m.Level n)
    (follows : Follows alarm tidy good slips n r r') : Follows alarm tidy good slips m r r' := by
  cases follows with
  | ok like level' remains => exact .ok like (level.trans level') remains
  | fault proper remains => exact .fault proper remains
  | strayed untidy stray alarmed first second =>
    exact .strayed untidy stray alarmed (level.trans first) (level.trans second)
  | slipped untidy slip alarmed first second =>
    exact .slipped untidy slip alarmed (level.trans first) (level.trans second)
  | outOfFuel => exact .outOfFuel

/-- What comes after the first action has to deal with a signal that slips. -/
theorem bind {γ δ : Type} {good' : γ → δ → Prop} {slips' : γ → Prop} {next : α → Action γ}
    {next' : β → Action δ} (first : Follows alarm tidy good slips m (act m) (act' m))
    (ofOk : ∀ a b n, good a b → m.Level n → (tidy → n.Tidy) →
      Follows alarm tidy good' slips' n (next a n) (next' b n))
    (ofSlip : ∀ a (f' : Fault) n n', slips a → ¬ tidy → f'.cause = alarm → m.Level n → m.Level n' →
      Follows alarm tidy good' slips' m (next a n) (.fault f' n')) :
    Follows alarm tidy good' slips' m ((act >>= next) m) ((act' >>= next') m) := by
  show Follows alarm tidy good' slips' m (Action.bind act next m) (Action.bind act' next' m)
  unfold Action.bind
  generalize act m = r, act' m = r' at first
  cases first with
  | ok like level remains => exact (ofOk _ _ _ like level remains).before level
  | fault proper remains => exact .fault proper remains
  | strayed untidy stray alarmed level level' =>
    exact .strayed untidy stray alarmed level level'
  | slipped untidy slip alarmed level level' =>
    exact ofSlip _ _ _ _ slip untidy alarmed level level'
  | outOfFuel => exact .outOfFuel

/-- Actions that keep in step without any control signal. -/
theorem of_akin {act act' : Action α} (akin : (nesting alarm).Akin Eq act act')
    (has : tidy → act.Has tidyBlock) (tidied : tidy → m.Tidy) :
    Follows alarm tidy Eq (fun _ => False) m (act m) (act' m) := by
  have alike := akin m m (.refl (within_all m))
  have known : tidy → act.HasAt tidyBlock m := fun yes => has yes m (tidied yes)
  cases ended : act m with
  | ok a n =>
    rw [ended] at alike
    generalize act' m = r' at alike
    cases alike with
    | ok like kin level =>
      obtain rfl := kin.eq fun _ => id
      exact .ok like level fun yes => ((known yes).of_ok ended).1
  | fault f n =>
    rw [ended] at alike
    generalize act' m = r' at alike
    cases alike with
    | fault kin =>
      obtain rfl := kin.eq fun _ => id
      exact .fault (fun yes => ((known yes).of_fault ended).2.2)
        fun yes => ((known yes).of_fault ended).1
    | excused strays first second =>
      refine .strayed (fun yes => ?_) strays.1 strays.2 (first trivial) second
      have proper : f.cause.isStray = false := ((known yes).of_fault ended).2.2
      exact absurd strays.1 (by simp [proper])
  | outOfFuel =>
    rw [ended] at alike
    generalize act' m = r' at alike
    cases alike
    exact .outOfFuel

theorem bind_akin {γ δ : Type} {good' : γ → δ → Prop} {slips' : γ → Prop} {act act' : Action α}
    {next : α → Action γ} {next' : α → Action δ} (akin : (nesting alarm).Akin Eq act act')
    (has : tidy → act.Has tidyBlock) (tidied : tidy → m.Tidy)
    (ofOk : ∀ a n, m.Level n → (tidy → n.Tidy) →
      Follows alarm tidy good' slips' n (next a n) (next' a n)) :
    Follows alarm tidy good' slips' m ((act >>= next) m) ((act' >>= next') m) := by
  refine (of_akin akin has tidied).bind ?_ fun _ _ _ _ never => never.elim
  rintro a _ n rfl level remains
  exact ofOk a n level remains

/-! ## Brackets -/

/-- A bracket that was opened on `m` and started its action on `n`. -/
theorem close (close : Machine → Machine)
    (follows : Follows alarm tidy good slips n (act n) (act' n))
    (level : ∀ o, n.Level o → m.Level (close o))
    (functions : ∀ o, (close o).functions = o.functions) :
    Follows alarm tidy good slips m (afterwards act close n) (afterwards act' close n) := by
  have remain (o : Machine) (remains : tidy → o.Tidy) (yes : tidy) : (close o).Tidy := by
    intro name f found
    exact remains yes name f (by simpa only [function?, functions] using found)
  unfold afterwards
  generalize act n = r, act' n = r' at follows
  cases follows with
  | ok like inside remains => exact .ok like (level _ inside) (remain _ remains)
  | fault proper remains => exact .fault proper (remain _ remains)
  | strayed untidy stray alarmed first second =>
    exact .strayed untidy stray alarmed (level _ first) (level _ second)
  | slipped untidy slip alarmed first second =>
    exact .slipped untidy slip alarmed (level _ first) (level _ second)
  | outOfFuel => exact .outOfFuel

theorem withScope
    (follows : Follows alarm tidy good slips { m with scopes := m.scopes.push }
      (act { m with scopes := m.scopes.push }) (act' { m with scopes := m.scopes.push })) :
    Follows alarm tidy good slips m (Action.withScope act m) (Action.withScope act' m) :=
  follows.close (fun o => { o with scopes := o.scopes.truncate m.scopes.depth })
    (fun _ => Level.unscoped) fun _ => rfl

theorem withIterating (loop : Site)
    (follows : Follows alarm tidy good slips
      { m with iterating := loop.setMark true m.iterating }
      (act { m with iterating := loop.setMark true m.iterating })
      (act' { m with iterating := loop.setMark true m.iterating })) :
    Follows alarm tidy good slips m (Action.withIterating loop act m)
      (Action.withIterating loop act' m) :=
  follows.close (fun o => { o with iterating := loop.setMark (m.isIterating loop) o.iterating })
    (fun _ inside => ⟨inside.context, inside.depth⟩) fun _ => rfl

theorem withCall (limit : Nat) (span : Span) (tidied : tidy → m.Tidy)
    (follows : Follows alarm tidy good slips { m with callDepth := m.callDepth + 1 }
      (act { m with callDepth := m.callDepth + 1 })
      (act' { m with callDepth := m.callDepth + 1 })) :
    Follows alarm tidy good slips m (Action.withCall limit span act m)
      (Action.withCall limit span act' m) := by
  unfold Action.withCall
  by_cases exceeded : limit < m.callDepth + 1
  · simp only [exceeded, if_true]
    exact .fault (fun _ => rfl) tidied
  · simp only [exceeded, if_false]
    exact follows.close (fun o => { o with callDepth := m.callDepth })
      (fun _ inside => ⟨inside.context, inside.depth⟩) fun _ => rfl

theorem framed (frame : Frame)
    (follows : Follows alarm tidy good slips { m with context := m.context.push frame }
      (act { m with context := m.context.push frame })
      (act' { m with context := m.context.push frame })) :
    Follows alarm tidy good slips m (Action.framed frame act m) (Action.framed frame act' m) := by
  simp only [Action.framed]
  generalize act { m with context := m.context.push frame } = r,
    act' { m with context := m.context.push frame } = r' at follows
  cases follows with
  | ok like level remains =>
    obtain ⟨even, level⟩ := level.unframed
    simp only [even]
    exact .ok like level remains
  | @fault f n proper remains =>
    dsimp only
    cases imbalance? m.context.depth m.scopes.depth n with
    | none =>
      exact .fault
        (by simpa only [Fault.cause_locate, Fault.cause_trace] using proper) remains
    | some d => exact .fault (fun _ => rfl) remains
  | strayed untidy stray alarmed level level' =>
    obtain ⟨even, level⟩ := level.unframed
    obtain ⟨even', level'⟩ := level'.unframed
    simp only [even, even']
    exact .strayed untidy (by simpa using stray) (by simpa using alarmed) level level'
  | slipped untidy slip alarmed level level' =>
    obtain ⟨even, level⟩ := level.unframed
    obtain ⟨even', level'⟩ := level'.unframed
    simp only [even, even']
    exact .slipped untidy slip (by simpa using alarmed) level level'
  | outOfFuel => exact .outOfFuel

/-- The work of an instruction. -/
theorem enter {good : Flow → β → Prop} {slips : Flow → Prop} (i : Instr) {work : Action Flow}
    (follows : Follows alarm tidy good slips (m.entered i) (work (m.entered i))
      (act' (m.entered i))) :
    Follows alarm tidy good slips m (stepped i work m) (Machine.enter i act' m) := by
  have same : Machine.frame { m with steps := m.steps + 1 } i = m.frame i := by
    cases i <;> rfl
  have level : m.Level { m with steps := m.steps + 1 } := ⟨rfl, rfl⟩
  dsimp only [stepped, Machine.enter]
  rw [same]
  exact (framed (m.frame i) follows).before level

end Follows

end TraceLang
