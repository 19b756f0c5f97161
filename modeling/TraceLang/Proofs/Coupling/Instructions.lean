/-
# TraceLang.Proofs.Coupling.Instructions — instructions and programs in two runs

`k.Lawful` adds to `k.Tends` what a coupling has to know about instructions: what
declarations and the header statements of loops do, how the notes about watched
variables go on, and that an instruction which the second program leaves out
changes nothing that corresponds. Then every instruction that is kept does the
same in both runs (`execute_mirrors`), and so do blocks, calls and whole programs
(`runBlock_mirrors`, `standard_answers`, `run_mirrors`). The two runs may know
their instructions by different paths.
-/
import TraceLang.Proofs.Control
import TraceLang.Proofs.Coupling.Expressions

namespace TraceLang

set_option autoImplicit false

namespace Coupling

open Machine

/-- What has to be known about the instructions of a coupling. -/
structure Lawful (k : Coupling) (settings : Settings) : Prop extends k.Tends where
  tick : ∀ {w : k.World} {s s' : Nat} {t t' : Tracer}, k.notes w s t s' t' →
    k.notes w (s + 1) t (s' + 1) t'
  declares : ∀ {g : Engine} {span : Span} {d : Declaration} (w : k.World), k.Answers g.call →
    k.admits (.declare span d) → k.Mirrors w k.cells (declare g d) (declare g d)
  -- The header statements of a loop.
  kept : ∀ {span : Span} {init step : Instr} {cond : Expr} {body : List Instr},
    k.admits (.forLoop span init step cond body) → k.drop init = false ∧ k.drop step = false
  header : ∀ {g : Engine} {unit unit' : Nat} {path path' : Path} {span : Span} {init step : Instr}
    {cond : Expr} {body : List Instr} {i' : Instr} {w : k.World} (isStep : Bool),
    k.admits (.forLoop span init step cond body) →
    k.Mirrors w k.Flows (execute g unit path (if isStep then step else init))
      (execute g unit' path' i') →
    k.Mirrors w k.same (execute g unit path (if isStep then step else init) >>= expectNext isStep)
      (execute g unit' path' i' >>= expectNext isStep)
  record : ∀ (w : k.World) (span : Span),
    k.Mirrors w k.same (recordTraces settings span) (recordTraces settings span)
  watch : ∀ {g : Engine} {span : Span} {targets : List Expr} (w : k.World), k.Answers g.call →
    k.drop (.trace span targets) = false →
    k.Mirrors w k.same (startTraces g targets) (startTraces g targets)
  skips : ∀ (g : Engine) (unit : Nat) (path : Path) {i : Instr} {w : k.World} {m m' : Machine},
    i.Every k.admits → k.drop i = true → k.Machines w m m' →
    (execute g unit path i).Ends m
      (fun flow n => flow = .next ∧ m.Level n ∧ ∃ w', k.le w w' ∧ k.Machines w' n m')
      (fun f n => m.Level n ∧ k.excused f)

variable {k : Coupling} {w : k.World} {α β : Type} {good : k.World → α → α → Prop}

/-- The first run does something more, and the second one waits. -/
theorem mirrors_skip {first : Action β} {next : β → Action α} {act' : Action α} {b : β}
    (skips : ∀ w' m m', k.le w w' → k.Machines w' m m' →
      first.Ends m (fun b' n => b' = b ∧ m.Level n ∧ ∃ w'', k.le w' w'' ∧ k.Machines w'' n m')
        (fun f n => m.Level n ∧ k.excused f))
    (ofNext : k.Mirrors w good (next b) act') : k.Mirrors w good (first >>= next) act' := by
  intro w₁ m m' later coupled
  unfold MirrorsAt
  rw [Action.ends_bind]
  refine (skips w₁ m m' later coupled).mono ?_ ?_
  · rintro _ n ⟨rfl, level, w₂, later₂, coupled₂⟩
    refine (ofNext w₂ n m' (k.trans later later₂) coupled₂).mono ?_ ?_
    · rintro a o ⟨level', w₃, a', o', ran, later₃, rest⟩
      exact ⟨level.trans level', w₃, a', o', ran, k.trans later₂ later₃, rest⟩
    · rintro f o ⟨level', excused | ⟨w₃, o', failed, later₃, rest⟩⟩
      · exact ⟨level.trans level', .inl excused⟩
      · exact ⟨level.trans level', .inr ⟨w₃, o', failed, k.trans later₂ later₃, rest⟩⟩
  · rintro f n ⟨level, excused⟩
    exact ⟨level, .inl excused⟩

/-- What is known of the value of the first action. -/
theorem Mirrors.and_ends {act act' : Action α} {p : α → Prop} (mirrors : k.Mirrors w good act act')
    (ends : ∀ m, act.Ends m (fun a _ => p a) (fun _ _ => True)) :
    k.Mirrors w (fun w a a' => good w a a' ∧ p a) act act' := by
  intro w₁ m m' later coupled
  refine ((mirrors w₁ m m' later coupled).and (ends m)).mono ?_ fun _ _ failed => failed.1
  rintro a n ⟨⟨level, w₂, a', n', ran, later₂, coupled₂, like⟩, holds⟩
  exact ⟨level, w₂, a', n', ran, later₂, coupled₂, like, holds⟩

/-! ## Declarations -/

theorem checkDeclaration_mirrors {d : Declaration} (mode : d.mode = .mustNotExist) :
    k.Mirrors w k.same (checkDeclaration d) (checkDeclaration d) := by
  intro w₁ m m' _ coupled
  have found := coupled.scopes.findLocal? d.name
  simp only [MirrorsAt, Action.Ends, checkDeclaration, mode]
  generalize m.scopes.findLocal? d.name = c, m'.scopes.findLocal? d.name = c' at found ⊢
  cases isValidName d.name with
  | false => exact ⟨.refl m, .inr ⟨w₁, m', rfl, k.refl w₁, coupled⟩⟩
  | true =>
    cases found with
    | some paired => exact ⟨.refl m, .inr ⟨w₁, m', rfl, k.refl w₁, coupled⟩⟩
    | none => exact ⟨.refl m, w₁, (), m', rfl, k.refl w₁, coupled, rfl⟩

/-- A declaration without initializer is checked and then reserves a variable. -/
theorem declare_unassigned (g : Engine) (name : String) (ty : Ty) (place : Span) :
    declare g (.unassigned name ty place) =
      (checkDeclaration (.unassigned name ty place) >>= fun _ m =>
        .ok (m.heap.reserve ty name).1
          { m with
            heap := (m.heap.reserve ty name).2
            scopes := m.scopes.define name (m.heap.reserve ty name).1 }) := by
  funext m
  cases ty <;> rfl

section

variable (tends : k.Tends)

include tends

theorem bindChecked_mirrors {d : Declaration} (assigned : d.assigned) {v v' : Variable}
    (like : k.Variables w v v') : k.Mirrors w k.cells (bindChecked d v) (bindChecked d v') := by
  refine mirrors_bind (used_mirrors d.init like) fun w₁ v v' _ like => ?_
  simp only [Value.isOf, like.shown.ty, assigned]
  refine mirrors_ite (fun _ => mirrors_failAt _ _) fun _ => ?_
  intro w₂ m m' later coupled
  obtain ⟨w₃, later₃, heap, paired⟩ := tends.alloc d.name coupled.heap (like.later later).shown
  have grown := coupled.grow later₃ heap
  refine ⟨⟨rfl, Scopes.depth_define _ _ _⟩, w₃, _, _, rfl, later₃, ?_, paired⟩
  exact { grown with scopes := grown.scopes.define d.name paired }

theorem bind_mirrors {d : Declaration} (mode : d.mode = .mustNotExist) (assigned : d.assigned)
    {v v' : Variable} (like : k.Variables w v v') :
    k.Mirrors w k.cells (Machine.bind d v) (Machine.bind d v') :=
  mirrors_bind (checkDeclaration_mirrors mode) fun _ _ _ later _ =>
    bindChecked_mirrors tends assigned (like.later later)

theorem declare_mirrors {g : Engine} (answers : k.Answers g.call) {d : Declaration}
    (mode : d.mode = .mustNotExist)
    (unassigned : d.assigned = false → ∃ place, d = .unassigned d.name d.ty place) :
    k.Mirrors w k.cells (declare g d) (declare g d) := by
  cases assigned : d.assigned with
  | true =>
    refine mirrors_bind (checkDeclaration_mirrors mode) fun _ _ _ _ _ => ?_
    refine mirrors_bind (eval_mirrors tends answers d.init) fun _ _ _ _ like => ?_
    exact bindChecked_mirrors tends assigned like
  | false =>
    obtain ⟨place, same⟩ := unassigned assigned
    rw [same, declare_unassigned, ← same]
    refine mirrors_bind (checkDeclaration_mirrors mode) fun _ _ _ _ _ => ?_
    intro w₁ m m' _ coupled
    obtain ⟨w₂, later, heap, paired⟩ := tends.reserve d.ty d.name coupled.heap
    have grown := coupled.grow later heap
    refine ⟨⟨rfl, Scopes.depth_define _ _ _⟩, w₂, _, _, rfl, later, ?_, paired⟩
    exact { grown with scopes := grown.scopes.define d.name paired }

theorem bindParams_mirrors (span : Span) : (params : List Param) → {w : k.World} →
    {args args' : List Variable} → List.Forall₂ (k.Given w) args args' →
    k.Mirrors w k.same (bindParams span params args) (bindParams span params args')
  | [], _, _, _, like => by cases like <;> exact mirrors_pure fun _ _ => rfl
  | _ :: _, _, _, _, .nil => mirrors_pure fun _ _ => rfl
  | p :: params, _, _, _, .cons first rest => by
    unfold bindParams
    refine mirrors_bind (mirrors_discard (bind_mirrors tends rfl rfl first.toVariables)) ?_
    intro _ _ _ later _
    exact bindParams_mirrors span params (rest.imp fun _ _ like => like.later later)

/-! ## Other simple instructions -/

theorem assign_mirrors {g : Engine} (answers : k.Answers g.call) (target value : Expr) :
    k.Mirrors w k.same (assign g target value) (assign g target value) := by
  unfold assign
  refine mirrors_ite (fun _ => mirrors_failAt _ _) fun _ => ?_
  refine mirrors_bind (evalValue_mirrors tends answers value) fun w₁ v v' _ like => ?_
  refine mirrors_bind (resolve_mirrors tends answers target) ?_
  intro w₂ c c' later₂ paired
  refine mirrors_modify fun w₃ m m' later₃ coupled => ?_
  obtain ⟨w₄, later₄, heap⟩ := tends.assign coupled.heap (k.cells_mono later₃ paired)
    (like.later (k.trans later₂ later₃)).shown
  exact ⟨⟨rfl, rfl⟩, w₄, later₄, coupled.grow later₄ heap⟩

end

theorem defineFunction_mirrors {f f' : Defined} (like : k.Functions f f') :
    k.Mirrors w k.same (defineFunction f) (defineFunction f') := by
  intro w₁ m m' _ coupled
  have name : f'.function.name = f.function.name := by
    rw [like.pruned, Function.without]
  simp only [MirrorsAt, Action.Ends, defineFunction, name, coupled.isUserFunction]
  cases m.isUserFunction f.function.name with
  | true => exact ⟨.refl m, .inr ⟨w₁, m', rfl, k.refl w₁, coupled⟩⟩
  | false =>
    refine ⟨⟨rfl, rfl⟩, w₁, (), _, rfl, k.refl w₁, ?_, rfl⟩
    exact { coupled with functions := .cons ⟨rfl, like⟩ coupled.functions }

theorem countCall_mirrors (site site' : Site) :
    k.Mirrors w k.same (countCall site) (countCall site') :=
  mirrors_modify fun w₁ _ _ _ coupled => ⟨⟨rfl, rfl⟩, w₁, k.refl w₁, { coupled with }⟩

theorem control_mirrors (allowed : Context → Bool) (otherwise : Misplaced) {flow : Flow}
    (like : ∀ w, k.Flows w flow flow) :
    k.Mirrors w k.Flows (Machine.control allowed otherwise flow)
      (Machine.control allowed otherwise flow) := by
  intro w₁ m m' _ coupled
  simp only [MirrorsAt, Action.Ends, Machine.control, coupled.context]
  cases allowed m.context with
  | false => exact ⟨.refl m, .inr ⟨w₁, m', rfl, k.refl w₁, coupled⟩⟩
  | true => exact ⟨.refl m, w₁, flow, m', rfl, k.refl w₁, coupled, like w₁⟩

/-- Simple instructions in the header of a loop give no signal. -/
theorem header_mirrors {g : Engine} {unit unit' : Nat} {path path' : Path} {init step i' : Instr}
    (simple : init.isSimple ∧ step.isSimple) (isStep : Bool)
    (mirrors : k.Mirrors w k.Flows (execute g unit path (if isStep then step else init))
      (execute g unit' path' i')) :
    k.Mirrors w k.same (execute g unit path (if isStep then step else init) >>= expectNext isStep)
      (execute g unit' path' i' >>= expectNext isStep) := by
  have simple : (if isStep then step else init).isSimple := by
    cases isStep with
    | false => exact simple.1
    | true => exact simple.2
  refine mirrors_bind (mirrors.and_ends (execute_simple g unit path simple)) ?_
  rintro w₁ flow flow' _ ⟨like, rfl⟩
  cases like
  exact mirrors_pure fun _ _ => rfl

theorem frame_without {m m' : Machine} (coupled : k.Machines w m m') (i : Instr) :
    m'.frame (i.without k.drop) = m.frame i := by
  cases i with
  | call span name args => simp only [Instr.without, frame, coupled.isUserFunction]
  | _ => rfl

section

variable {settings : Settings} (lawful : k.Lawful settings)

include lawful

theorem stepped_mirrors (i : Instr) {work work' : Action Flow}
    (mirrors : k.Mirrors w k.Flows work work') :
    k.Mirrors w k.Flows (stepped i work) (stepped (i.without k.drop) work') := by
  intro w₁ m m' later coupled
  have ticked : k.Machines w₁ { m with steps := m.steps + 1 } { m' with steps := m'.steps + 1 } :=
    { coupled with notes := lawful.tick coupled.notes }
  have unfolded : stepped (i.without k.drop) work' m' =
      Action.framed (m.frame i) work' { m' with steps := m'.steps + 1 } :=
    congrArg (Action.framed · work' { m' with steps := m'.steps + 1 }) (frame_without coupled i)
  unfold MirrorsAt
  rw [ends_stepped_iff, unfolded]
  refine (mirrors_framed (m.frame i) mirrors w₁ _ _ later ticked).mono ?_ ?_
  · exact fun _ _ ⟨level, rest⟩ => ⟨⟨level.context, level.depth⟩, rest⟩
  · exact fun _ _ ⟨level, rest⟩ => ⟨⟨level.context, level.depth⟩, rest⟩

/-! ## Instructions and blocks -/

variable {g : Engine} (settled : g.env.settings = settings) (answers : k.Answers g.call)

include settled answers

-- Blocks make calls only through their instructions.
set_option linter.unusedSectionVars false in
mutual

/-- An instruction that is kept does the same in both runs. -/
theorem execute_mirrors (unit unit' : Nat) : (path path' : Path) → (i : Instr) →
    i.Every k.admits → k.drop i = false →
    k.Mirrors w k.Flows (execute g unit path i) (execute g unit' path' (i.without k.drop))
  | path, path', .whileLoop span cond body, ⟨_, inBody⟩, _ => by
    have ofBody := runBlock_mirrors unit unit' path.body path'.body 0 0 body inBody
    unfold execute
    refine stepped_mirrors lawful (.whileLoop span cond body) (mirrors_repeatWhile ?_ ?_ ?_ g.fuel)
    · exact evalCondition_mirrors lawful.toTends answers cond
    · exact mirrors_withIterating _ _ (mirrors_withScope ofBody)
    · exact mirrors_pure fun _ _ => rfl
  | path, path', .forLoop span init step cond body, ⟨admitted, inInit, inStep, inBody⟩, _ => by
    obtain ⟨keptInit, keptStep⟩ := lawful.kept admitted
    have ofInit := lawful.header false admitted (execute_mirrors unit unit' path.first path'.first
      init inInit keptInit)
    have ofStep := lawful.header true admitted (execute_mirrors unit unit' path.second path'.second
      step inStep keptStep)
    have ofBody := runBlock_mirrors unit unit' path.body path'.body 0 0 body inBody
    unfold execute
    refine stepped_mirrors lawful (.forLoop span init step cond body) (mirrors_withScope ?_)
    rw [← Action.bind_bind, ← Action.bind_bind]
    refine mirrors_bind ofInit fun w₁ _ _ later _ => mirrors_repeatWhile ?_ ?_ ?_ g.fuel
    · exact evalCondition_mirrors lawful.toTends answers cond
    · exact mirrors_withIterating _ _ (mirrors_withScope (ofBody.later later))
    · exact ofStep.later later
  | path, path', .conditional span cond onTrue onFalse, ⟨_, inTrue, inFalse⟩, _ => by
    have ofTrue := runBlock_mirrors unit unit' path.first path'.first 0 0 onTrue inTrue
    have ofFalse := runBlock_mirrors unit unit' path.second path'.second 0 0 onFalse inFalse
    unfold execute
    refine stepped_mirrors lawful (.conditional span cond onTrue onFalse) ?_
    refine mirrors_bind (evalCondition_mirrors lawful.toTends answers cond) ?_
    rintro w₁ _ holds later rfl
    exact mirrors_ite (fun _ => mirrors_withScope (ofTrue.later later))
      fun _ => mirrors_withScope (ofFalse.later later)
  | path, path', .declare span d, admitted, _ => by
    unfold execute
    refine stepped_mirrors lawful (.declare span d) ?_
    refine mirrors_bind (mirrors_discard (lawful.declares _ answers admitted)) fun _ _ _ _ _ => ?_
    refine mirrors_bind (settled ▸ lawful.record _ span) fun _ _ _ _ _ => ?_
    exact mirrors_pure fun _ _ => .next
  | path, path', .assign span target value, _, _ => by
    unfold execute
    refine stepped_mirrors lawful (.assign span target value) ?_
    refine mirrors_bind (assign_mirrors lawful.toTends answers target value) fun _ _ _ _ _ => ?_
    refine mirrors_bind (settled ▸ lawful.record _ span) fun _ _ _ _ _ => ?_
    exact mirrors_pure fun _ _ => .next
  | path, path', .call span name args, _, _ => by
    unfold execute
    refine stepped_mirrors lawful (.call span name args) ?_
    refine mirrors_bind (evalArgs_mirrors lawful.toTends answers args) fun w₁ _ _ _ like => ?_
    refine mirrors_bind (mirrors_discard (answers w₁ name like span)) fun _ _ _ _ _ => ?_
    refine mirrors_bind (countCall_mirrors _ _) fun _ _ _ _ _ => ?_
    refine mirrors_bind (settled ▸ lawful.record _ span) fun _ _ _ _ _ => ?_
    exact mirrors_pure fun _ _ => .next
  | path, path', .define span name params body funcSpan, every, _ => by
    unfold execute
    refine stepped_mirrors lawful (.define span name params body funcSpan) ?_
    refine mirrors_bind (defineFunction_mirrors ⟨rfl, span, every⟩) fun _ _ _ _ _ => ?_
    exact mirrors_pure fun _ _ => .next
  | path, path', .trace span targets, _, kept => by
    unfold execute
    refine stepped_mirrors lawful (.trace span targets) ?_
    exact mirrors_bind (lawful.watch _ answers kept) fun _ _ _ _ _ => mirrors_pure fun _ _ => .next
  | path, path', .leave span, _, _ => by
    unfold execute
    exact stepped_mirrors lawful (.leave span) (control_mirrors _ _ fun _ => .leave)
  | path, path', .again span, _, _ => by
    unfold execute
    exact stepped_mirrors lawful (.again span) (control_mirrors _ _ fun _ => .again)
  | path, path', .result span value, _, _ => by
    unfold execute
    refine stepped_mirrors lawful (.result span value) ?_
    refine mirrors_bind (mirrors_discard (control_mirrors _ _ fun _ => .next)) fun _ _ _ _ _ => ?_
    cases value with
    | none => exact mirrors_pure fun _ _ => .nothing
    | some x =>
      refine mirrors_bind (evalValue_mirrors lawful.toTends answers x) fun _ _ _ _ like => ?_
      exact mirrors_pure fun _ later => .value (like.later later).shown

/-- A block does the same as what is left of it. -/
theorem runBlock_mirrors (unit unit' : Nat) (path path' : Path) : (n n' : Nat) →
    (block : List Instr) → Instr.EveryOf k.admits block →
    k.Mirrors w k.Flows (runBlock g unit path n block)
      (runBlock g unit' path' n' (Instr.withoutAll k.drop block))
  | _, _, [], _ => mirrors_pure fun _ _ => .next
  | n, n', i :: rest, ⟨inFirst, inRest⟩ => by
    cases dropped : k.drop i with
    | true =>
      have ofRest := runBlock_mirrors unit unit' path path' (n + 1) n' rest inRest
      simp only [Instr.withoutAll, dropped, if_true]
      rw [runBlock]
      have skips := fun (w' : k.World) m m' (_ : k.le w w') (coupled : k.Machines w' m m') =>
        lawful.skips g unit (path.item n) inFirst dropped coupled
      exact mirrors_skip skips ofRest
    | false =>
      have ofFirst := execute_mirrors unit unit' (path.item n) (path'.item n') i inFirst dropped
      have ofRest := runBlock_mirrors unit unit' path path' (n + 1) (n' + 1) rest inRest
      simp only [Instr.withoutAll, dropped]
      unfold runBlock
      refine mirrors_bind ofFirst fun w₁ flow flow' later like => ?_
      cases like with
      | next => exact ofRest.later later
      | leave => exact mirrors_pure fun _ _ => .leave
      | again => exact mirrors_pure fun _ _ => .again
      | nothing => exact mirrors_pure fun _ _ => .nothing
      | value like => exact mirrors_pure fun _ later => (Flows.value like).later later

end

/-! ## Calls -/

theorem callUser_mirrors {f f' : Defined} (function : k.Functions f f') {args args' : List Variable}
    (like : List.Forall₂ (k.Given w) args args') (span : Span) :
    k.Mirrors w (fun w => Option.Rel (k.Variables w)) (callUser g f args span)
      (callUser g f' args' span) := by
  obtain ⟨_, _, inBody⟩ := function.admitted
  unfold callUser
  simp only [function.pruned, Function.without, ← like.length_eq]
  refine mirrors_ite (fun _ => mirrors_failAt _ _) fun _ => ?_
  have body := mirrors_bind (bindParams_mirrors lawful.toTends span f.function.params like)
    fun _ _ _ later _ => (runBlock_mirrors lawful settled answers f.site.unit f'.site.unit
      f.site.path.body f'.site.path.body 0 0 f.function.body inBody)
  refine mirrors_bind (mirrors_withCall _ span (mirrors_withScope body)) ?_
  intro w₁ flow flow' _ like
  cases like with
  | next | nothing => exact mirrors_pure fun _ _ => .none
  | leave | again => exact mirrors_failAt _ _
  | value like => exact mirrors_pure fun _ later => .some ((variables_fresh like).later later)

end

/-- Calls by name do the same in both runs if the builtin functions do. -/
theorem callByName_answers (env : Env) (lawful : k.Lawful env.settings)
    (builtin : ∀ {w : k.World} {name : String} {handler : Handler} {args args' : List Variable},
      (name, handler) ∈ env.builtins → List.Forall₂ (k.Given w) args args' →
      ∀ call span, k.Answers call →
        k.Mirrors w k.Values (handler call args span) (handler call args' span))
    (fuel : Nat) : k.Answers (callByName env fuel) := by
  induction fuel with
  | zero => exact fun _ _ _ _ _ _ => mirrors_outOfFuel
  | succ fuel ih =>
    intro w name args args' like span
    refine mirrors_bind (lookup_mirrors env name) fun w₁ callee callee' later callees => ?_
    have like := like.imp fun _ _ like => Given.later like later
    cases callees with
    | @builtin handler found =>
      refine mirrors_bind (mirrors_located span (builtin (mem_of_lookup found) like _ span ih))
        fun _ _ _ _ value => ?_
      exact mirrors_pure fun _ later => .some ((variables_fresh value).later later)
    | user function =>
      exact callUser_mirrors lawful (g := { env, call := callByName env fuel, fuel }) rfl ih
        function like span

variable {settings : Settings} (lawful : k.Lawful settings)

include lawful

theorem standard_answers (fuel : Nat) :
    k.Answers ((Env.standard settings).engine fuel).call :=
  callByName_answers (Env.standard settings) lawful (fun listed like call span _ =>
    standard_mirrors lawful.toTends listed call like span) fuel

/-- A program does the same as what is left of it. -/
theorem run_mirrors (fuel unit unit' : Nat) {prog : Program}
    (every : Instr.EveryOf k.admits prog.body) {m m' : Machine} (coupled : k.Machines w m m')
    (rest : m.context = {}) :
    k.MirrorsAt w k.same (run ((Env.standard settings).engine fuel) unit prog)
      (run ((Env.standard settings).engine fuel) unit' ⟨Instr.withoutAll k.drop prog.body⟩)
      m m' := by
  have call := standard_call_has (stacks_govern tolerates_all) settings fuel
  have body := runBlock_mirrors (w := w) lawful (g := (Env.standard settings).engine fuel) rfl
    (standard_answers lawful fuel) unit unit' [] [] 0 0 prog.body every w m m' (k.refl w) coupled
  have ended := Action.Ends.and body (runBody_next call unit prog.body rest)
  unfold MirrorsAt run
  rw [Action.ends_bind]
  refine ended.mono ?_ ?_
  · rintro flow n ⟨⟨level, w₁, flow', n', ran, later, coupled₁, like⟩, rfl⟩
    cases like
    exact ⟨level, w₁, (), n', Action.bind_of_ok ran, later, coupled₁, rfl⟩
  · rintro f n ⟨⟨level, excused | ⟨w₁, n', failed, later, coupled₁⟩⟩, -⟩
    · exact ⟨level, .inl excused⟩
    · exact ⟨level, .inr ⟨w₁, n', Action.bind_of_fault failed, later, coupled₁⟩⟩

end Coupling

end TraceLang
