/-
# TraceLang.Proofs.Nesting.Programs — `break` and `continue` follow the text

Every instruction does what it does by the text around it (`execute_follows`), and so do
calls: the body of a function has no loop around it, and a signal that slips out of it is
a failure of the call. `run_follows_nesting` compares whole runs of programs from source
texts. They do the same, or else the alarm goes off and the run fails for a stray `break`
or `continue`. If all of these are enclosed by loops, in the program and in the functions
already defined, no run fails that way.
-/
import TraceLang.Proofs.Nesting.Lexical

namespace TraceLang

set_option autoImplicit false

/-! ## Instructions -/

namespace Machine

open TraceLang.Action Kinship

/-- An instruction that executes no others gives neither `break` nor `continue`. -/
theorem atomic_flow (g : Engine) (unit : Nat) (path : Path) {i : Instr} (atomic : i.isAtomic)
    (m : Machine) :
    (execute g unit path i).Ends m (fun flow _ => flow = .next ∨ ∃ value, flow = .result value)
      (fun _ _ => True) := by
  cases i <;> simp only [Instr.isAtomic, Bool.false_eq_true] at atomic
  case declare | assign | call => exact (execute_simple g unit path rfl m).onOk fun _ _ => .inl
  case define | trace =>
    unfold execute
    exact ends_framed_ok _ (ends_bind.mpr (ends_of_forall fun _ _ => .inl rfl))
  case result span value =>
    unfold execute
    refine ends_framed_ok _ (ends_bind.mpr (ends_of_forall fun _ _ => ?_))
    cases value with
    | none => exact .inr ⟨_, rfl⟩
    | some e => exact ends_bind.mpr (ends_of_forall fun _ _ => .inr ⟨_, rfl⟩)

theorem executeAimed_atomic (alarm : Cause) (g : Engine) (unit : Nat) (path : Path)
    (loop : Option Site) {i : Instr} (atomic : i.isAtomic) :
    executeAimed alarm g unit path loop i = (do
      match ← execute g unit path i with
      | .result value => return .result value
      | _ => return .next) := by
  cases i <;> simp only [Instr.isAtomic, Bool.false_eq_true] at atomic
  all_goals unfold executeAimed; rfl

theorem tidy_covers : Covers Instr.Tidy tidyEffect tidyBlock :=
  stacks_cover condones_tidy

section

variable {alarm : Cause} {tidy : Prop} {g g' : Engine}

/-- A loop that catches what is aimed at it. -/
theorem repeat_follows {site : Site} {loop : Option Site} {c : Context} {cond cond' : Action Bool}
    {body : Action Flow} {body' : Action Aimed} {step step' : Action Unit}
    (ofCond : (nesting alarm).Akin Eq cond cond') (condHas : tidy → cond.Has tidyBlock)
    (ofBody : ∀ n : Machine, n.context = c → (tidy → n.Tidy) →
      Follows alarm tidy (Flow.Aims (some site)) (Flow.Slips (some site)) n (body n) (body' n))
    (ofStep : (nesting alarm).Akin Eq step step') (stepHas : tidy → step.Has tidyBlock)
    (fuel : Nat) : ∀ m : Machine, m.context = c → (tidy → m.Tidy) →
      Follows alarm tidy (Flow.Aims loop) (Flow.Slips loop) m (repeatWhile cond body step fuel m)
        (repeatAimed site cond' body' step' fuel m) := by
  induction fuel with
  | zero => exact fun _ _ _ => .outOfFuel
  | succ fuel ih =>
    intro m same tidied
    unfold repeatWhile repeatAimed
    refine .bind_akin ofCond condHas tidied fun holds n level remains => ?_
    have same₁ : n.context = c := level.context.trans same
    cases holds with
    | false => exact .ok .next (.refl n) remains
    | true =>
      have onward : ∀ o : Machine, n.Level o → (tidy → o.Tidy) →
          Follows alarm tidy (Flow.Aims loop) (Flow.Slips loop) o
            ((step >>= fun _ => repeatWhile cond body step fuel) o)
            ((step' >>= fun _ => repeatAimed site cond' body' step' fuel) o) := by
        intro o level₁ remains₁
        refine .bind_akin ofStep stepHas remains₁ fun _ p level₂ remains₂ => ?_
        exact ih p (level₂.context.trans (level₁.context.trans same₁)) remains₂
      refine (ofBody n same₁ remains).bind ?_ fun _ _ _ _ slip => by cases slip.1
      intro flow aimed o aims level₁ remains₁
      cases aims with
      | next => exact onward o level₁ remains₁
      | again around =>
        cases around
        simp only [if_true]
        exact onward o level₁ remains₁
      | leave around =>
        cases around
        simp only [if_true]
        exact .ok .next (.refl o) remains₁
      | result value => exact .ok (.result value) (.refl o) remains₁

/-- A `break` or a `continue`. -/
theorem signal_follows {i : Instr} {loop : Option Site} {flow : Flow} {signal : Site → Aimed}
    {otherwise : Misplaced} {m : Machine} (noLoop : (m.frame i).status.isLoop = false)
    (noCall : (m.frame i).status ≠ .userFunction) (stray : (Cause.misplaced otherwise).isStray)
    (isSignal : flow = .leave ∨ flow = .again)
    (aims : ∀ site, loop = some site → flow.Aims loop (signal site))
    (inLoop : loop.isSome → m.context.loopDepth ≠ 0) (enclosed : tidy → loop.isSome)
    (tidied : tidy → m.Tidy) :
    Follows alarm tidy (Flow.Aims loop) (Flow.Slips loop) m
      (stepped i (control (fun c => c.loopDepth ≠ 0) otherwise flow) m)
      (enter i (aim alarm signal loop) m) := by
  have depth : (m.entered i).context.loopDepth = m.context.loopDepth := by
    simp [entered, Context.loopDepth_push, noLoop, noCall]
  refine .enter i ?_
  simp only [control, depth]
  cases loop with
  | some site =>
    simp only [inLoop rfl, ne_eq, not_false_eq_true, decide_true, if_true]
    exact .ok (aims site rfl) (.refl _) tidied
  | none =>
    have untidy : ¬ tidy := fun yes => by cases enclosed yes
    by_cases permitted : m.context.loopDepth = 0
    · simp only [permitted, ne_eq, not_true_eq_false, decide_false, Bool.false_eq_true, if_false]
      exact .strayed untidy stray rfl (.refl _) (.refl _)
    · simp only [permitted, ne_eq, not_false_eq_true, decide_true, if_true]
      exact .slipped untidy ⟨rfl, isSignal⟩ rfl (.refl _) (.refl _)

variable (call : tidy → ∀ name args span, (g.call name args span).Has tidyEffect)

include call

theorem condition_has (cond : Expr) (yes : tidy) : (evalCondition g cond).Has tidyBlock :=
  tidy_covers.weaken
    (evalCondition_has tidy_covers.permissive (invoke_has tidy_covers (call yes)) cond)

/-- The statement in the header of a loop. -/
theorem header_has {unit : Nat} {path : Path} {span : Span} {init step : Instr} {cond : Expr}
    {body : List Instr} (isStep : Bool)
    (every : tidy → (Instr.forLoop span init step cond body).Every Instr.Tidy) (yes : tidy) :
    (execute g unit path (if isStep then step else init) >>= expectNext isStep).Has tidyBlock := by
  obtain ⟨admitted, inInit, inStep, -⟩ := every yes
  have simple : (if isStep then step else init).isSimple := by
    cases isStep with
    | false => exact admitted.1.1
    | true => exact admitted.1.2
  have inHeader : (if isStep then step else init).Every Instr.Tidy := by
    cases isStep with
    | false => exact inInit
    | true => exact inStep
  refine tidy_covers.header isStep admitted (inner_of_effect tidy_covers
    (atomic_has tidy_covers (call yes) unit path ?_ inHeader))
  revert simple
  cases (if isStep then step else init) <;> simp [Instr.isSimple, Instr.isAtomic]

variable (akin : g.Akin (nesting alarm) g')

include akin

theorem atomic_follows (unit : Nat) (path : Path) (loop : Option Site) {i : Instr}
    (atomic : i.isAtomic) {m : Machine}
    (every : tidy → i.Every Instr.Tidy) (tidied : tidy → m.Tidy) :
    Follows alarm tidy (Flow.Aims loop) (Flow.Slips loop) m (execute g unit path i m)
      (executeAimed alarm g' unit path loop i m) := by
  have has : tidy → (execute g unit path i).Has tidyBlock := fun yes =>
    inner_of_effect tidy_covers (atomic_has tidy_covers (call yes) unit path atomic (every yes))
  have follows := Follows.of_akin (execute_akin akin trivial path i) has tidied
  have flows : ∀ flow n, execute g unit path i m = .ok flow n →
      flow = .next ∨ ∃ value, flow = .result value := fun _ _ ended =>
    (atomic_flow g unit path atomic m).of_ok ended
  rw [executeAimed_atomic alarm g' unit path loop atomic]
  show Follows alarm tidy (Flow.Aims loop) (Flow.Slips loop) m _ (Action.bind _ _ m)
  unfold Action.bind
  generalize execute g unit path i m = r, execute g' unit path i m = r' at follows flows ⊢
  cases follows with
  | ok like level remains =>
    obtain rfl := like
    rcases flows _ _ rfl with rfl | ⟨value, rfl⟩
    · exact .ok .next level remains
    · exact .ok (.result value) level remains
  | fault proper remains => exact .fault proper remains
  | strayed untidy stray alarmed level level' =>
    exact .strayed untidy stray alarmed level level'
  | slipped _ never => exact never.elim
  | outOfFuel => exact .outOfFuel

-- Blocks use the engines only through their instructions.
set_option linter.unusedSectionVars false in
mutual

/-- Every instruction does what it does by the text around it. -/
theorem execute_follows (unit : Nat) (path : Path) (loop : Option Site) : (i : Instr) →
    (m : Machine) → (loop.isSome → m.context.loopDepth ≠ 0) →
    (tidy → i.isEnclosed loop.isSome ∧ i.Every Instr.Tidy) → (tidy → m.Tidy) →
    Follows alarm tidy (Flow.Aims loop) (Flow.Slips loop) m (execute g unit path i m)
      (executeAimed alarm g' unit path loop i m)
  | .whileLoop span cond body, m, _, held, tidied => by
    unfold execute executeAimed
    refine .enter _ ?_
    rw [akin.fuel]
    refine repeat_follows (evalCondition_akin akin cond) (condition_has call cond) ?_
      (akin_pure rfl) (fun _ => has_pure tidy_covers.lawful ()) g.fuel _ rfl tidied
    intro n same remains
    refine .withIterating _ (.withScope (runBlock_follows unit path.body 0 _ body _ ?_ ?_ remains))
    · intro _
      simp only [same, entered, Context.loopDepth_push, frame, Status.isLoop]
      simp
    · exact fun yes => ⟨(held yes).1, (held yes).2.2⟩
  | .forLoop span init step cond body, m, _, held, tidied => by
    have ofHeader (isStep : Bool) (path : Path) (i : Instr) :
        (nesting alarm).Akin Eq (execute g unit path i >>= expectNext isStep)
          (execute g' unit path i >>= expectNext isStep) :=
      akin_bind_eq (execute_akin akin trivial path i) fun _ => expectNext_akin isStep _
    have every : tidy → (Instr.forLoop span init step cond body).Every Instr.Tidy := fun yes =>
      (held yes).2
    unfold execute executeAimed
    refine .enter _ (.withScope ?_)
    rw [← Action.bind_bind, ← Action.bind_bind, akin.fuel]
    refine .bind_akin (ofHeader false path.first init) (header_has call false every) tidied ?_
    intro _ n level remains
    refine repeat_follows (evalCondition_akin akin cond) (condition_has call cond) ?_
      (ofHeader true path.second step) (header_has call true every) g.fuel n level.context remains
    intro o same remains
    refine .withIterating _ (.withScope (runBlock_follows unit path.body 0 _ body _ ?_ ?_ remains))
    · intro _
      simp only [same, entered, Context.loopDepth_push, frame, Status.isLoop]
      simp
    · intro yes
      have enclosed := (held yes).1
      simp only [Instr.isEnclosed, Bool.and_eq_true] at enclosed
      exact ⟨enclosed.2, (held yes).2.2.2.2⟩
  | .conditional span cond onTrue onFalse, m, inLoop, held, tidied => by
    unfold execute executeAimed
    refine .enter _ ?_
    refine .bind_akin (evalCondition_akin akin cond) (condition_has call cond) tidied ?_
    intro holds n level remains
    have inside : loop.isSome → n.context.loopDepth ≠ 0 := by
      intro some
      simpa [level.context, entered, Context.loopDepth_push, frame, Status.isLoop] using inLoop some
    have enclosed : tidy → Instr.areEnclosed loop.isSome onTrue ∧
        Instr.areEnclosed loop.isSome onFalse := fun yes => by
      simpa only [Instr.isEnclosed, Bool.and_eq_true] using (held yes).1
    cases holds with
    | true =>
      exact .withScope (runBlock_follows unit path.first 0 loop onTrue _ inside
        (fun yes => ⟨(enclosed yes).1, (held yes).2.2.1⟩) remains)
    | false =>
      exact .withScope (runBlock_follows unit path.second 0 loop onFalse _ inside
        (fun yes => ⟨(enclosed yes).2, (held yes).2.2.2⟩) remains)
  | .leave span, m, inLoop, held, tidied => by
    unfold execute executeAimed
    exact signal_follows rfl (by simp [frame]) rfl (.inl rfl) (fun _ => .leave) inLoop
      (fun yes => (held yes).1) tidied
  | .again span, m, inLoop, held, tidied => by
    unfold execute executeAimed
    exact signal_follows rfl (by simp [frame]) rfl (.inr rfl) (fun _ => .again) inLoop
      (fun yes => (held yes).1) tidied
  | .declare .., _, _, held, tidied | .assign .., _, _, held, tidied | .call .., _, _, held, tidied
  | .define .., _, _, held, tidied | .trace .., _, _, held, tidied
  | .result .., _, _, held, tidied =>
    atomic_follows call akin unit path loop rfl (fun yes => (held yes).2) tidied

theorem runBlock_follows (unit : Nat) (path : Path) (k : Nat) (loop : Option Site) :
    (block : List Instr) → (m : Machine) → (loop.isSome → m.context.loopDepth ≠ 0) →
    (tidy → Instr.areEnclosed loop.isSome block ∧ Instr.EveryOf Instr.Tidy block) →
    (tidy → m.Tidy) →
    Follows alarm tidy (Flow.Aims loop) (Flow.Slips loop) m (runBlock g unit path k block m)
      (runAimed alarm g' unit path k loop block m)
  | [], m, _, _, tidied => .ok .next (.refl m) tidied
  | i :: rest, m, inLoop, held, tidied => by
    have enclosed : tidy → i.isEnclosed loop.isSome ∧ Instr.areEnclosed loop.isSome rest :=
      fun yes => by simpa only [Instr.areEnclosed, Bool.and_eq_true] using (held yes).1
    unfold runBlock runAimed
    refine (execute_follows unit (path.item k) loop i m inLoop
      (fun yes => ⟨(enclosed yes).1, (held yes).2.1⟩) tidied).bind ?_ ?_
    · intro flow aimed n aims level remains
      cases aims with
      | next =>
        exact runBlock_follows unit path (k + 1) loop rest n (level.context ▸ inLoop)
          (fun yes => ⟨(enclosed yes).2, (held yes).2.2⟩) remains
      | leave around => exact .ok (.leave around) (.refl n) remains
      | again around => exact .ok (.again around) (.refl n) remains
      | result value => exact .ok (.result value) (.refl n) remains
    · rintro flow f' n n' ⟨outside, rfl | rfl⟩ untidy alarmed level level'
      · exact .slipped untidy ⟨outside, .inl rfl⟩ alarmed level level'
      · exact .slipped untidy ⟨outside, .inr rfl⟩ alarmed level level'

end

/-! ## Calls -/

theorem callUser_follows {f : Defined} (every : tidy → f.function.Every Instr.Tidy)
    (args : List Variable) (span : Span) {m : Machine} (tidied : tidy → m.Tidy) :
    Follows alarm tidy Eq (fun _ => False) m (callUser g f args span m)
      (callUserAimed alarm g' f args span m) := by
  unfold callUser callUserAimed
  by_cases wrong : f.function.params.length ≠ args.length
  · simp only [if_pos wrong]
    exact .fault (fun _ => rfl) tidied
  · simp only [if_neg wrong]
    rw [akin.env]
    have called : Follows alarm tidy (Flow.Aims none) (Flow.Slips none) m _ _ :=
      .withCall g.env.settings.maxCallDepth span tidied (.withScope (.bind_akin
        (bindParams_akin span f.function.params args)
        (fun yes => by
          obtain ⟨_, admitted, -⟩ := every yes
          exact bindParams_has tidy_covers admitted _ (List.Subset.refl _) args)
        tidied fun _ n _ remains => runBlock_follows call akin f.site.unit f.site.path.body 0 none
          f.function.body n (fun outside => by cases outside) (fun yes => by
            obtain ⟨_, admitted, inBody⟩ := every yes
            exact ⟨admitted.2, inBody⟩) remains))
    refine called.bind ?_ ?_
    · intro flow aimed n aims _ remains
      cases aims with
      | next => exact .ok rfl (.refl n) remains
      | result value => exact .ok rfl (.refl n) remains
      | leave around | again around => cases around
    · rintro flow f' n n' ⟨-, rfl | rfl⟩ untidy alarmed level level'
      · exact .strayed untidy rfl alarmed level level'
      · exact .strayed untidy rfl alarmed level level'

end

/-- Outcomes that follow each other are alike. -/
theorem alike_of_follows {alarm : Cause} {tidy : Prop} {α : Type} {m : Machine} {r r' : Outcome α}
    (follows : Follows alarm tidy Eq (fun _ => False) m r r') :
    (nesting alarm).Alike Eq m r r' := by
  cases follows with
  | ok like level => exact .ok like (.refl (within_all _)) level
  | fault => exact .fault (.refl (within_all _))
  | strayed _ stray alarmed level level' => exact .excused ⟨stray, alarmed⟩ (fun _ => level) level'
  | slipped _ never => exact never.elim
  | outOfFuel => exact .outOfFuel

/-- Where all is tidy, an action that follows the text fails properly. -/
theorem hasAt_of_follows {alarm : Cause} {α : Type} {m : Machine} {act act' : Action α}
    (follows : Follows alarm True Eq (fun _ => False) m (act m) (act' m))
    (plain : act.HasAt plainEffect m) : act.HasAt tidyEffect m := by
  unfold HasAt Ends at plain ⊢
  generalize act m = r, act' m = r' at plain follows ⊢
  cases follows with
  | ok _ _ remains => exact ⟨remains trivial, plain.2⟩
  | fault proper remains => exact ⟨remains trivial, plain.2.1, proper trivial⟩
  | strayed untidy => exact absurd trivial untidy
  | slipped _ never => exact never.elim
  | outOfFuel => trivial

/-- Calls do what they do by the text of the functions. -/
theorem callByName_nesting (alarm : Cause) (settings : Settings) (fuel : Nat) (name : String)
    (args : List Variable) (span : Span) :
    (nesting alarm).Akin Eq (callByName (Env.standard settings) fuel name args span)
      (callAimed alarm (Env.standard settings) fuel name args span) := by
  induction fuel generalizing name args span with
  | zero => exact fun _ _ _ => .outOfFuel
  | succ fuel ih =>
    unfold callByName callAimed
    refine akin_lookup _ name (fun handler found => ?_) fun f _ m m' kin => ?_
    · refine akin_bind_eq (akin_located span ?_) fun _ => akin_pure rfl
      exact Builtins.standard_akin found _ _ args span
    · obtain rfl := kin.eq fun _ => id
      exact alike_of_follows (callUser_follows (fun never : False => never.elim) (akin_of_call ih)
        (fun never => never.elim) args span fun never => never.elim)

theorem lexicalEngine_akin (alarm : Cause) (settings : Settings) (fuel : Nat) :
    ((Env.standard settings).engine fuel).Akin (nesting alarm)
      (lexicalEngine alarm (Env.standard settings) fuel) :=
  akin_of_call (callByName_nesting alarm settings fuel)

/-- Where all is tidy, no call fails for a stray `break` or `continue`. -/
theorem call_tidy (settings : Settings) (fuel : Nat) : ∀ name args span,
    (((Env.standard settings).engine fuel).call name args span).Has tidyEffect := by
  have rule := stacks_govern tolerates_all
  refine call_has_of_user tidy_covers.permissive (fun found call _ args span =>
    Builtins.standard_has tidy_covers.permissive found call args span) ?_ fuel
  intro fuel ih m name f inv found args span
  have plain := callUser_has rule (standard_call_has rule settings fuel)
    (plainEffect_inv m name f found) args span m (plainEffect_inv m)
  have follows := callUser_follows (fun _ : True => ih)
    (lexicalEngine_akin (.misplaced .leave) settings fuel) (fun _ => inv name f found) args span
    fun _ => inv
  exact hasAt_of_follows follows plain

end Machine

/-! ## Programs -/

/-- Every `break` and `continue` of the program lies in the body of a loop, of the same
function or of top level. -/
def Program.isEnclosed (prog : Program) : Bool :=
  Instr.areEnclosed false prog.body

/-- Every `break` and `continue` of the function lies in the body of a loop, of the same
function. -/
def Function.isEnclosed (f : Function) : Bool :=
  Instr.areEnclosed false f.body

/-- The computation fails for such a cause. -/
def Outcome.FailsFor {α : Type} (kind : Cause → Prop) (r : Outcome α) : Prop :=
  ∃ f m, r = .fault f m ∧ kind f.cause

namespace Machine

open TraceLang.Action Kinship

variable {m : Machine}

/-- Functions from source texts in which all is enclosed are tidy. -/
theorem AtRest.tidy (rest : AtRest m)
    (enclosed : ∀ name f, m.function? name = some f → f.function.isEnclosed) : m.Tidy := by
  intro name f found
  obtain ⟨span, spelled⟩ := rest.closed_and_spelled.2 name f found
  exact ⟨span, Instr.Every.and _ spelled
    (Instr.every_bodyIsEnclosed false _ (enclosed name f found))⟩

/-- The bodies of a program and of its lexical counterpart, run from rest. -/
theorem run_follows (alarm : Cause) {tidy : Prop} (closed : m.context = {}) (settings : Settings)
    (fuel unit : Nat) (prog : Program)
    (held : tidy → prog.isEnclosed ∧ Instr.EveryOf Instr.Tidy prog.body) (tidied : tidy → m.Tidy) :
    Follows alarm tidy Eq (fun _ => False) m (run ((Env.standard settings).engine fuel) unit prog m)
      (runLexical alarm (Env.standard settings) fuel unit prog m) := by
  have plainCall := standard_call_has (stacks_govern tolerates_all) settings fuel
  have next : ∀ flow n,
      runBody ((Env.standard settings).engine fuel) unit prog.body m = .ok flow n →
      flow = .next := fun _ _ ended => (runBody_next plainCall unit prog.body closed).of_ok ended
  have follows := runBlock_follows (fun _ => call_tidy settings fuel)
    (lexicalEngine_akin alarm settings fuel) unit [] 0 none prog.body m
    (fun outside => by cases outside) held tidied
  show Follows alarm tidy Eq _ m (Action.bind _ _ m) (Action.bind _ _ m)
  unfold Action.bind
  change Follows _ _ _ _ m (runBody ((Env.standard settings).engine fuel) unit prog.body m) _
    at follows
  generalize runBody ((Env.standard settings).engine fuel) unit prog.body m = r at next follows ⊢
  generalize runAimed alarm (lexicalEngine alarm (Env.standard settings) fuel) unit [] 0 none
    prog.body m = r' at follows ⊢
  cases follows with
  | ok aims level remains =>
    obtain rfl := next _ _ rfl
    exact .ok rfl level remains
  | fault proper remains => exact .fault proper remains
  | strayed untidy stray alarmed level level' =>
    exact .strayed untidy stray alarmed level level'
  | slipped _ slip =>
    obtain rfl := next _ _ rfl
    rcases slip.2 with never | never <;> cases never
  | outOfFuel => exact .outOfFuel

theorem run_or_alarm (alarm : Cause) (closed : m.context = {}) (settings : Settings)
    (fuel unit : Nat) (prog : Program) :
    runLexical alarm (Env.standard settings) fuel unit prog m =
        run ((Env.standard settings).engine fuel) unit prog m ∨
      (runLexical alarm (Env.standard settings) fuel unit prog m).FailsFor (· = alarm) ∧
        (run ((Env.standard settings).engine fuel) unit prog m).FailsFor
          (fun cause => cause.isStray) := by
  have follows := run_follows alarm closed settings fuel unit prog
    (fun never : False => never.elim) fun never => never.elim
  generalize run _ unit prog m = r, runLexical alarm _ fuel unit prog m = r' at follows ⊢
  cases follows with
  | ok | fault | outOfFuel => exact .inl rfl
  | strayed _ stray alarmed => exact .inr ⟨⟨_, _, rfl, alarmed⟩, _, _, rfl, stray⟩
  | slipped _ never => exact never.elim

theorem run_proper (closed : m.context = {}) (settings : Settings) (fuel unit : Nat)
    {prog : Program} (enclosed : prog.isEnclosed) (every : Instr.EveryOf Instr.Tidy prog.body)
    (tidied : m.Tidy) :
    ¬ (run ((Env.standard settings).engine fuel) unit prog m).FailsFor
      (fun cause => cause.isStray) := by
  rintro ⟨f, n, failed, stray⟩
  have follows := run_follows (.misplaced .leave) closed settings fuel unit prog
    (fun _ : True => ⟨enclosed, every⟩) fun _ => tidied
  rw [failed] at follows
  generalize runLexical _ _ fuel unit prog m = r' at follows
  cases follows with
  | fault proper => simp [proper trivial] at stray
  | strayed untidy => exact untidy trivial

/-- A program from a source text, run on a machine at rest, does what it does by the
text, or the alarm goes off and it fails for a stray `break` or `continue`. If the alarm
goes off, whatever it is, the program fails that way. If all is enclosed, in the program
and in the functions that are already defined, it does not, and each `break` and
`continue` is about the innermost loop around it. -/
theorem run_follows_nesting (rest : AtRest m) {source : String} {prog : Program}
    (read : Program.read source = .ok prog) (settings : Settings) (fuel unit : Nat)
    {result : Outcome Unit} (ran : run ((Env.standard settings).engine fuel) unit prog m = result) :
    (∀ alarm, runLexical alarm (Env.standard settings) fuel unit prog m = result ∨
      (runLexical alarm (Env.standard settings) fuel unit prog m).FailsFor (· = alarm) ∧
        result.FailsFor (fun cause => cause.isStray)) ∧
    ((∀ alarm, (runLexical alarm (Env.standard settings) fuel unit prog m).FailsFor (· = alarm)) →
      result.FailsFor (fun cause => cause.isStray)) ∧
    (prog.isEnclosed → (∀ name f, m.function? name = some f → f.function.isEnclosed) →
      ¬ result.FailsFor (fun cause => cause.isStray) ∧
      ∀ alarm, runLexical alarm (Env.standard settings) fuel unit prog m = result) := by
  subst ran
  have closed := rest.closed_and_spelled.1.context
  have either := fun alarm => run_or_alarm alarm closed settings fuel unit prog
  refine ⟨either, fun raised => ?_, fun enclosed functions => ?_⟩
  · -- A run that agreed with two alarms would fail for two causes.
    rcases either (.callDepth 0) with same | ⟨-, strays⟩
    · rcases either (.callDepth 1) with same' | ⟨-, strays⟩
      · obtain ⟨f, n, failed, cause⟩ := raised (.callDepth 0)
        obtain ⟨f', n', failed', cause'⟩ := raised (.callDepth 1)
        cases failed.symm.trans (same.trans (same'.symm.trans failed'))
        simp [cause'] at cause
      · exact strays
    · exact strays
  · have every : Instr.EveryOf Instr.Tidy prog.body :=
      Instr.EveryOf.and _ (read_spelled read) (Instr.everyOf_bodyIsEnclosed false _ enclosed)
    have proper := run_proper closed settings fuel unit enclosed every (rest.tidy functions)
    exact ⟨proper, fun alarm => (either alarm).resolve_right fun strays => proper strays.2⟩

/-- A function with a loop of its own, called in a loop: every `break` and `continue` is
enclosed, and each is about its own loop. A function with a `break` and no loop, called in
a loop: the alarm goes off, and the `break` is stray. -/
theorem run_follows_nesting_nested :
    (∃ prog m,
      Program.read
        "func f() \x7b while true \x7b break; \x7d return 7; \x7d
        int i = 0; while true \x7b i = i + f(); if i < 9 \x7b continue; \x7d break; \x7d print(i);" =
          .ok prog ∧
        run ((Env.standard {}).engine 9) 0 prog {} = .ok () m ∧ m.output.text = "14\n" ∧
        ∀ alarm, runLexical alarm (Env.standard {}) 9 0 prog {} = .ok () m) ∧
    ∃ prog, Program.read "func f() \x7b break; \x7d while true \x7b f(); \x7d" = .ok prog ∧
      (runLexical .divisionByZero (Env.standard {}) 9 0 prog {}).FailsFor (· = .divisionByZero) ∧
      (run ((Env.standard {}).engine 9) 0 prog {}).FailsFor (fun cause => cause.isStray) := by
  constructor
  · have ran : (sourceRun? ((Env.standard {}).engine 9)
        "func f() \x7b while true \x7b break; \x7d return 7; \x7d
        int i = 0; while true \x7b i = i + f(); if i < 9 \x7b continue; \x7d break; \x7d print(i);").any
        fun r => r.1.isEnclosed ∧ r.2.output.text = "14\n" := by decide +kernel
    obtain ⟨⟨prog, m⟩, found, held⟩ := (Option.any_eq_true _ _).mp ran
    obtain ⟨enclosed, printed⟩ := of_decide_eq_true held
    obtain ⟨read, ended⟩ := sourceRun?_eq_some found
    obtain ⟨-, -, lexical⟩ := run_follows_nesting (.new {}) read {} 9 0 ended
    exact ⟨prog, m, read, ended, printed, (lexical enclosed fun _ _ found => by cases found).2⟩
  · have failed : (Program.read "func f() \x7b break; \x7d while true \x7b f(); \x7d").toOption.any
        fun prog =>
          (runLexical .divisionByZero (Env.standard {}) 9 0 prog {}).fault?.any
              (·.1.cause = .divisionByZero) ∧
            (run ((Env.standard {}).engine 9) 0 prog {}).fault?.any
              (·.1.cause = .divisionByZero) = false := by decide +kernel
    obtain ⟨prog, found, held⟩ := (Option.any_eq_true _ _).mp failed
    obtain ⟨alarmed, other⟩ := of_decide_eq_true held
    have read := Except.eq_of_toOption found
    obtain ⟨either, -, -⟩ := run_follows_nesting (.new {}) read {} 9 0 rfl
    refine ⟨prog, read, (either .divisionByZero).resolve_left fun same => ?_⟩
    -- Only the alarm is a division by zero.
    rw [same, other] at alarmed
    cases alarmed

end Machine

end TraceLang
