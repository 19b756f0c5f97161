/-
# TraceLang.Proofs.Regime — effects of instructions, calls and programs

Instructions of a block may bind names in the innermost scope; all others leave
it alone. A regime therefore has two effects: `outer`, of expressions, calls and
all instructions but declarations, and `inner`, of declarations and blocks.

`Governs p outer inner` lists what has to be known about the two, one item for
each elementary action and each bracket, so that every instruction that is
admitted by `p` at all depths has them (`execute_has`), and every call
(`callByName_has`). The items about instructions may rely on `p`. Those that have
nothing to do with `break` and `continue` are `Covers p outer inner`; they are
enough for all instructions that execute no others (`atomic_has`).
-/
import TraceLang.Proofs.Effect
import TraceLang.Proofs.Syntax.Program

namespace TraceLang

set_option autoImplicit false

/-- The machine with a name bound to a new variable in the innermost scope. -/
def Machine.bound (m : Machine) (name : String) (value : Value) (assigned : Bool) : Machine :=
  let (c, heap) := m.heap.alloc { value, assigned, name := some name }
  { m with heap, scopes := m.scopes.define name c }

/-- The machine in which the work of an instruction begins: its step is counted
and its frame is open. -/
def Machine.entered (m : Machine) (i : Instr) : Machine :=
  { m with steps := m.steps + 1, context := m.context.push (m.frame i) }

/-- Whether an instruction declares a variable. -/
def Instr.isDeclaration : Instr → Bool
  | .declare .. => true
  | _ => false

/-- The effect of an instruction under a regime. -/
def Instr.effect (i : Instr) (outer inner : Effect) : Effect :=
  if i.isDeclaration then inner else outer

/-- An instruction that executes no others and is neither `break` nor `continue`. -/
def Instr.isAtomic : Instr → Bool
  | .declare .. | .assign .. | .call .. | .define .. | .trace .. | .result .. => true
  | _ => false

open TraceLang.Action Machine in
/-- The effects of all instructions that are admitted by `p` and have nothing to do
with `break` and `continue`. -/
structure Covers (p : Instr → Prop) (outer inner : Effect) : Prop where
  permissive : outer.Permissive
  lawful : inner.Lawful
  weaken : ∀ {α : Type} {act : Action α}, act.Has outer → act.Has inner
  -- Brackets.
  scope : ∀ {α : Type} {act : Action α}, act.Has inner → (withScope act).Has outer
  iterating : ∀ {α : Type} {act : Action α} (loop : Site), act.Has outer →
    (withIterating loop act).Has outer
  called : ∀ {α : Type} {act : Action α} (limit : Nat) (span : Span), act.Has outer →
    (withCall limit span act).Has outer
  framed : ∀ {α : Type} {act : Action α} (frame : Frame), act.Has outer →
    (Action.framed frame act).Has outer
  framed_inner : ∀ {α : Type} {act : Action α} (frame : Frame), act.Has inner →
    (Action.framed frame act).Has inner
  -- Declarations and assignments.
  check : ∀ {span : Span} {d : Declaration}, p (.declare span d) → (checkDeclaration d).Has outer
  bound : ∀ {m : Machine} (name : String) (value : Value) (assigned : Bool),
    isValidName name → inner.inv m →
    inner.inv (m.bound name value assigned) ∧ inner.change m (m.bound name value assigned)
  nameless : ∀ {span : Span} {target value : Expr} (m : Machine), p (.assign span target value) →
    target.rootName? = some "" →
    outer.fault m { cause := .invalidName "", span := some target.span }
  -- Functions.
  define : ∀ {span : Span} {f : Function} (site : Site),
    (Instr.define span f.name f.params f.body f.span).Every p → (defineFunction ⟨f, site⟩).Has outer
  function : ∀ {m : Machine} {name : String} {f : Defined}, outer.inv m →
    m.function? name = some f → f.function.Every p
  param : ∀ {span : Span} {f : Function} {x : Param} (place : Span),
    p (.define span f.name f.params f.body f.span) → x ∈ f.params →
    (checkDeclaration { name := x.name, ty := x.ty, init := .none place }).Has outer
  -- Control.
  header : ∀ {g : Engine} {unit : Nat} {path : Path} {span : Span} {init step : Instr} {cond : Expr}
    {body : List Instr} (isStep : Bool), p (.forLoop span init step cond body) →
    (execute g unit path (if isStep then step else init)).Has inner →
    (execute g unit path (if isStep then step else init) >>= expectNext isStep).Has inner
  result : (control Context.inFunction .result .next).Has outer

open TraceLang.Action Machine in
/-- The effects of all instructions that are admitted by `p` at all depths. -/
structure Governs (p : Instr → Prop) (outer inner : Effect) : Prop extends
    Covers p outer inner where
  leave : (control (fun c => c.loopDepth ≠ 0) .leave .leave).Has outer
  again : (control (fun c => c.loopDepth ≠ 0) .again .again).Has outer
  across : ∀ (m : Machine) (span : Span),
    outer.fault m { cause := .misplaced .acrossFunction, span := some span }

theorem Action.bind_bind {α β γ : Type} (act : Action α) (f : α → Action β) (k : β → Action γ) :
    (act >>= f >>= k) = (act >>= fun a => f a >>= k) := by
  funext m
  show Action.bind (Action.bind act f) k m = Action.bind act (fun a => Action.bind (f a) k) m
  unfold Action.bind
  cases act m <;> rfl

namespace Env

variable {env : Env} {m : Machine} {name : String}

theorem lookup_of_callee?_builtin {handler : Handler}
    (found : env.callee? m name = some (.builtin handler)) :
    env.builtins.lookup name = some handler := by
  unfold callee? at found
  cases user : m.function? name with
  | some f => simp [user] at found
  | none => simpa [user] using found

theorem function?_of_callee?_user {f : Defined} (found : env.callee? m name = some (.user f)) :
    m.function? name = some f := by
  unfold callee? at found
  cases user : m.function? name with
  | some f' => simpa [user] using found
  | none => simp [user] at found

end Env

namespace Machine

open TraceLang.Action

section Simple

variable {e : Effect} {g : Engine}

/-! ## Instructions without blocks -/

theorem echoAll_permitted (permissive : e.Permissive) (lines : List String) :
    ∀ {m : Machine}, e.inv m → e.inv (lines.foldl echo m) ∧ e.change m (lines.foldl echo m) := by
  induction lines with
  | nil => exact fun {m} inv => ⟨inv, permissive.refl m⟩
  | cons line rest ih =>
    intro m inv
    obtain ⟨inv', change⟩ := permissive.edit (.ask (.write line)) inv
    obtain ⟨inv'', change'⟩ := ih inv'
    exact ⟨inv'', permissive.trans change change'⟩

theorem recordTraces_has (permissive : e.Permissive) (settings : Settings) (span : Span) :
    (recordTraces settings span).Has e := by
  intro m inv
  unfold HasAt recordTraces
  rw [ends_modify]
  obtain ⟨inv', change⟩ := permissive.edit (.record span) inv
  dsimp only
  split
  · exact ⟨inv', change⟩
  · obtain ⟨inv'', change'⟩ := echoAll_permitted permissive
      (((m.tracer.update m.heap m.steps span).2.watched.toList.filterMap (echoLine? m.steps))) inv'
    exact ⟨inv'', permissive.trans change change'⟩

theorem startTraces_has_of_calls (permissive : e.Permissive) (targets : List Expr)
    (calls : ∀ x ∈ targets, ∀ span name args, x.Part (.call span name args) →
      ∀ values, (g.invoke name values span).Has e) :
    (startTraces g targets).Has e := by
  have lawful := permissive.toLawful
  induction targets with
  | nil => exact has_pure lawful ()
  | cons target rest ih =>
    obtain ⟨ofTarget, ofRest⟩ := List.forall_mem_cons.mp calls
    unfold startTraces
    refine has_ite (fun _ => ?_) (fun _ => has_failAt permissive rfl target.span)
    intro m inv
    -- The place is watched in the machine that has just resolved it.
    refine hasAt_bind lawful _ (resolve_has_of_calls permissive target ofTarget m inv)
      (resolve_holds target) ?_
    intro c m' inv' held
    refine hasAt_bind lawful (fun traced m'' => m'' = m' ∧ traced = (m'.heap.read c).traced)
      (has_read lawful _ m' inv') ((ends_read _).mpr ⟨rfl, rfl⟩) ?_
    rintro traced m'' inv'' ⟨rfl, rfl⟩
    cases untraced : (m''.heap.read c).traced with
    | true => exact has_failAt permissive rfl target.span m'' inv''
    | false =>
      refine hasAt_bind lawful (fun _ _ => True) ?_ trivial (fun _ m₃ inv₃ _ => ih ofRest m₃ inv₃)
      exact permissive.edit (.watch c target.text held untraced) inv''

theorem startTraces_has (permissive : e.Permissive)
    (invoke : ∀ name args span, (g.invoke name args span).Has e) (targets : List Expr) :
    (startTraces g targets).Has e :=
  startTraces_has_of_calls permissive targets fun _ _ span name _ _ values =>
    invoke name values span

theorem stepped_has (lawful : e.Lawful)
    (tick : ∀ m, e.inv m →
      e.inv { m with steps := m.steps + 1 } ∧ e.change m { m with steps := m.steps + 1 })
    {work : Action Flow} (framed : ∀ frame, (Action.framed frame work).Has e) (i : Instr) :
    (stepped i work).Has e := by
  intro m inv
  obtain ⟨inv', change⟩ := tick m inv
  refine Ends.mono (framed _ _ inv') ?_ ?_
  · rintro flow m' ⟨inv'', change'⟩
    exact ⟨inv'', lawful.trans change change'⟩
  · rintro f m' ⟨inv'', change', fault⟩
    exact ⟨inv'', lawful.trans change change', lawful.fault_after change fault⟩

theorem ends_stepped_iff {m : Machine} {i : Instr} {work : Action Flow}
    {good : Flow → Machine → Prop} {bad : Fault → Machine → Prop} :
    (stepped i work).Ends m good bad ↔
      (framed (m.frame i) work).Ends { m with steps := m.steps + 1 } good bad := by
  cases i <;> rfl

/-- The work of an instruction that closes what it opens. -/
theorem ends_stepped {m : Machine} {i : Instr} {work : Action Flow} {good : Flow → Machine → Prop}
    {bad : Fault → Machine → Prop}
    (ends : work.Ends (m.entered i)
      (fun flow m' => m'.context = (m.entered i).context ∧ m'.scopes.depth = m.scopes.depth ∧
        good flow { m' with context := m.context })
      (fun f m' => m'.context = (m.entered i).context ∧ m'.scopes.depth = m.scopes.depth ∧
        bad ((f.trace (m.entered i).context).locate (m.frame i).span)
          { m' with context := m.context })) :
    (stepped i work).Ends m good bad :=
  ends_stepped_iff.mpr (ends_framed (m.frame i) ends)

theorem ends_stepped_ok {m : Machine} {i : Instr} {work : Action Flow}
    {good : Flow → Machine → Prop}
    (ends : work.Ends (m.entered i)
      (fun flow m' => good flow { m' with context := m'.context.truncate m.context.depth })
      (fun _ _ => True)) :
    (stepped i work).Ends m good (fun _ _ => True) :=
  ends_stepped_iff.mpr (ends_framed_ok (m.frame i) ends)

theorem lookup_has (allocating : e.Allocating) (env : Env) (name : String) :
    (env.lookup name).Has e := by
  intro m inv
  simp only [HasAt, Ends, Env.lookup]
  cases env.callee? m name with
  | some callee => exact ⟨inv, allocating.refl m⟩
  | none => exact ⟨inv, allocating.refl m, allocating.ordinary m none rfl⟩

theorem lookup_ends (env : Env) (name : String) (m : Machine) :
    (env.lookup name).Ends m (fun callee m' => env.callee? m' name = some callee ∧ m' = m)
      (fun _ _ => True) := by
  simp only [Ends, Env.lookup]
  cases found : env.callee? m name with
  | some callee => exact ⟨found, rfl⟩
  | none => trivial

theorem checkDeclaration_valid (d : Declaration) (m : Machine) :
    (checkDeclaration d).Ends m (fun _ _ => isValidName d.name) (fun _ _ => True) := by
  cases valid : isValidName d.name with
  | true => exact ends_of_forall fun _ _ => rfl
  | false => simp [Ends, checkDeclaration, valid]

/-- What follows the check of a declaration, which has a valid name by then. -/
theorem has_checked {α : Type} (lawful : e.Lawful) {d : Declaration} {act : Action α}
    (check : (checkDeclaration d).Has e) (ofNext : isValidName d.name → act.Has e) :
    (checkDeclaration d >>= fun _ => act).Has e :=
  fun m inv => hasAt_bind lawful (fun _ _ => isValidName d.name) (check m inv)
    (checkDeclaration_valid d m) fun _ m' inv' valid => ofNext valid m' inv'

/-- Every call has an effect that the builtin functions have, if the user functions have
it on the machines that know them. -/
theorem call_has_of_user (permissive : e.Permissive) {env : Env}
    (builtin : ∀ {name : String} {handler : Handler}, env.builtins.lookup name = some handler →
      ∀ call : Caller, (∀ name args span, (call name args span).Has e) →
      ∀ args span, (handler call args span).Has e)
    (user : ∀ fuel, (∀ name args span, (callByName env fuel name args span).Has e) →
      ∀ m name f, e.inv m → m.function? name = some f → ∀ args span,
      (callUser ⟨env, callByName env fuel, fuel⟩ f args span).HasAt e m)
    (fuel : Nat) : ∀ name args span, (callByName env fuel name args span).Has e := by
  have lawful := permissive.toLawful
  induction fuel with
  | zero => exact fun _ _ _ => has_outOfFuel
  | succ fuel ih =>
    intro name args span m inv
    refine hasAt_bind lawful (fun callee m' => env.callee? m' name = some callee ∧ m' = m)
      (lookup_has permissive env name m inv) (lookup_ends env name m) ?_
    rintro callee m' inv' ⟨found, -⟩
    cases callee with
    | builtin handler =>
      have listed := Env.lookup_of_callee?_builtin found
      refine has_bind lawful (has_located lawful span ?_) (fun v => has_pure lawful _) m' inv'
      exact builtin listed _ ih args span
    | user f => exact user fuel ih m' name f inv' (Env.function?_of_callee?_user found) args span

end Simple

section Covered

variable {p : Instr → Prop} {outer inner : Effect} {g : Engine} (rule : Covers p outer inner)

include rule

theorem bindChecked_has {d : Declaration} (valid : isValidName d.name) (v : Variable) :
    (bindChecked d v).Has inner := by
  refine has_bind rule.lawful (rule.weaken (used_has rule.permissive d.init v)) fun v => ?_
  refine has_ite (fun _ => rule.weaken (has_failAt rule.permissive rfl d.init.span)) fun _ => ?_
  exact fun m inv => rule.bound d.name v.value d.assigned valid inv

theorem declare_has (span : Span) {d : Declaration} (admitted : p (.declare span d))
    (invoke : ∀ name args span, (g.invoke name args span).Has outer) : (declare g d).Has inner := by
  refine has_checked rule.lawful (rule.weaken (rule.check admitted)) fun valid => ?_
  refine has_bind rule.lawful (rule.weaken (eval_has rule.permissive invoke d.init)) fun v => ?_
  exact bindChecked_has rule valid v

theorem assign_has {span : Span} {target value : Expr} (admitted : p (.assign span target value))
    (invoke : ∀ name args span, (g.invoke name args span).Has outer) :
    (assign g target value).Has outer := by
  have lawful := rule.permissive.toLawful
  unfold assign
  refine has_ite (fun nameless m inv => ⟨inv, lawful.refl m, rule.nameless m admitted nameless⟩)
    fun _ => ?_
  refine has_bind lawful (evalValue_has rule.permissive invoke value) fun v => ?_
  intro m inv
  refine hasAt_bind lawful _ (resolve_has rule.permissive invoke target m inv)
    (resolve_holds target) ?_
  exact fun c m' inv' held => rule.permissive.edit (.assign c v.value held) inv'

theorem tick_permitted (m : Machine) (inv : inner.inv m) :
    inner.inv { m with steps := m.steps + 1 } ∧ inner.change m { m with steps := m.steps + 1 } :=
  rule.weaken (has_modify rule.permissive fun _ => .tick) m inv

theorem stepped_outer {work : Action Flow} (has : work.Has outer) (i : Instr) :
    (stepped i work).Has outer :=
  stepped_has rule.permissive.toLawful (fun _ inv => rule.permissive.edit .tick inv)
    (fun frame => rule.framed frame has) i

theorem stepped_inner {work : Action Flow} (has : work.Has inner) (i : Instr) :
    (stepped i work).Has inner :=
  stepped_has rule.lawful (tick_permitted rule) (fun frame => rule.framed_inner frame has) i

/-- Inside a block every instruction has the inner effect. -/
theorem inner_of_effect {i : Instr} {act : Action Flow} (has : act.Has (i.effect outer inner)) :
    act.Has inner := by
  unfold Instr.effect at has
  split at has
  · exact has
  · exact rule.weaken has

theorem bindParams_has {span place : Span} {f : Function}
    (admitted : p (.define span f.name f.params f.body f.span)) :
    (params : List Param) → params ⊆ f.params → (args : List Variable) →
      (bindParams place params args).Has inner
  | [], _, _ | _ :: _, _, [] => has_pure rule.lawful ()
  | x :: params, listed, v :: args => by
    obtain ⟨first, rest⟩ := List.cons_subset.mp listed
    unfold bindParams
    refine has_bind rule.lawful (has_discard rule.lawful ?_) fun _ =>
      bindParams_has admitted params rest args
    exact has_checked rule.lawful (rule.weaken (rule.param place admitted first)) fun valid =>
      bindChecked_has rule valid v

section

variable (call : ∀ name args span, (g.call name args span).Has outer)

include call

theorem invoke_has (name : String) (args : List Variable) (span : Span) :
    (g.invoke name args span).Has outer := by
  have lawful := rule.permissive.toLawful
  have found := has_located lawful span (lookup_has rule.permissive g.env name)
  refine has_bind lawful found fun callee => ?_
  refine has_bind lawful (rule.framed _ (call name args span)) fun result => ?_
  exact has_pure lawful _

/-- Every admitted instruction that executes no others has its effect. -/
theorem atomic_has (unit : Nat) (path : Path) {i : Instr} (atomic : i.isAtomic)
    (every : i.Every p) :
    (execute g unit path i).Has (i.effect outer inner) := by
  have lawful := rule.permissive.toLawful
  cases i <;> simp only [Instr.isAtomic, Bool.false_eq_true] at atomic
  case declare span d =>
    unfold execute
    refine stepped_inner rule ?_ _
    refine has_bind rule.lawful (has_discard rule.lawful
      (declare_has rule span every (invoke_has rule call))) fun _ => ?_
    refine has_bind rule.lawful (rule.weaken (recordTraces_has rule.permissive _ span)) fun _ => ?_
    exact has_pure rule.lawful _
  case assign span target value =>
    unfold execute
    refine stepped_outer rule ?_ _
    refine has_bind lawful (assign_has rule every (invoke_has rule call)) fun _ => ?_
    exact has_bind lawful (recordTraces_has rule.permissive _ span) fun _ => has_pure lawful _
  case call span name args =>
    unfold execute
    refine stepped_outer rule ?_ _
    refine has_bind lawful (evalArgs_has rule.permissive (invoke_has rule call) args)
      fun values => ?_
    refine has_bind lawful (has_discard lawful (call name values span)) fun _ => ?_
    refine has_bind lawful (has_modify rule.permissive fun _ => .count _) fun _ => ?_
    exact has_bind lawful (recordTraces_has rule.permissive _ span) fun _ => has_pure lawful _
  case define span name params body funcSpan =>
    unfold execute
    refine stepped_outer rule ?_ _
    exact has_bind lawful (rule.define _ every) fun _ => has_pure lawful _
  case trace span targets =>
    unfold execute
    refine stepped_outer rule ?_ _
    exact has_bind lawful (startTraces_has rule.permissive (invoke_has rule call) targets)
      fun _ => has_pure lawful _
  case result span value =>
    unfold execute
    refine stepped_outer rule ?_ _
    refine has_bind lawful (has_discard lawful rule.result) fun _ => ?_
    cases value with
    | none => exact has_pure lawful _
    | some x =>
      exact has_bind lawful (evalValue_has rule.permissive (invoke_has rule call) x)
        fun _ => has_pure lawful _

end

end Covered

section Governed

variable {p : Instr → Prop} {outer inner : Effect} {g : Engine} (rule : Governs p outer inner)

include rule

section

variable (call : ∀ name args span, (g.call name args span).Has outer)

include call

/-! ## Instructions and blocks -/

-- Blocks make calls only through their instructions.
set_option linter.unusedSectionVars false in
mutual

/-- Every admitted instruction has its effect under the regime. -/
theorem execute_has (unit : Nat) (path : Path) : (i : Instr) → i.Every p →
    (execute g unit path i).Has (i.effect outer inner)
  | .whileLoop span cond body, ⟨_, inBody⟩ => by
    unfold execute
    refine stepped_outer rule.toCovers (has_repeatWhile rule.permissive.toLawful ?_ ?_ ?_ g.fuel) _
    · exact evalCondition_has rule.permissive (invoke_has rule.toCovers call) cond
    · exact rule.iterating _ (rule.scope (runBlock_has unit path.body 0 body inBody))
    · exact has_pure rule.permissive.toLawful ()
  | .forLoop span init step cond body, ⟨admitted, inInit, inStep, inBody⟩ => by
    have ofInit := inner_of_effect rule.toCovers (execute_has unit path.first init inInit)
    have ofStep := inner_of_effect rule.toCovers (execute_has unit path.second step inStep)
    unfold execute
    refine stepped_outer rule.toCovers (rule.scope ?_) _
    rw [← Action.bind_bind]
    refine has_bind rule.lawful (rule.header false admitted ofInit) fun _ => ?_
    refine has_repeatWhile rule.lawful (rule.weaken ?_) (rule.weaken ?_) ?_ g.fuel
    · exact evalCondition_has rule.permissive (invoke_has rule.toCovers call) cond
    · exact rule.iterating _ (rule.scope (runBlock_has unit path.body 0 body inBody))
    · exact rule.header true admitted ofStep
  | .conditional span cond onTrue onFalse, ⟨_, inTrue, inFalse⟩ => by
    unfold execute
    refine stepped_outer rule.toCovers ?_ _
    refine has_bind rule.permissive.toLawful
      (evalCondition_has rule.permissive (invoke_has rule.toCovers call) cond) fun b => ?_
    exact has_ite (fun _ => rule.scope (runBlock_has unit path.first 0 onTrue inTrue))
      fun _ => rule.scope (runBlock_has unit path.second 0 onFalse inFalse)
  | .declare .., every | .assign .., every | .call .., every | .define .., every
  | .trace .., every | .result .., every => atomic_has rule.toCovers call unit path rfl every
  | .leave span, _ => by
    unfold execute
    exact stepped_outer rule.toCovers rule.leave _
  | .again span, _ => by
    unfold execute
    exact stepped_outer rule.toCovers rule.again _

theorem runBlock_has (unit : Nat) (path : Path) (n : Nat) : (block : List Instr) →
    Instr.EveryOf p block → (runBlock g unit path n block).Has inner
  | [], _ => has_pure rule.lawful _
  | i :: rest, ⟨inFirst, inRest⟩ => by
    unfold runBlock
    have ofFirst := inner_of_effect rule.toCovers (execute_has unit (path.item n) i inFirst)
    refine has_bind rule.lawful ofFirst fun flow => ?_
    cases flow with
    | next => exact runBlock_has unit path (n + 1) rest inRest
    | leave | again | result => exact has_pure rule.lawful _

end

/-! ## Calls -/

theorem callUser_has {f : Defined} (every : f.function.Every p) (args : List Variable)
    (span : Span) : (callUser g f args span).Has outer := by
  have lawful := rule.permissive.toLawful
  obtain ⟨_, admitted, inBody⟩ := every
  unfold callUser
  refine has_ite (fun _ => has_failAt rule.permissive rfl span) fun _ => ?_
  refine has_bind lawful (rule.called _ span (rule.scope ?_)) fun flow => ?_
  · refine has_bind rule.lawful ?_ fun _ => runBlock_has rule call _ _ 0 _ inBody
    exact bindParams_has rule.toCovers admitted _ (List.Subset.refl _) args
  · cases flow with
    | result | next => exact has_pure lawful _
    | leave | again => exact fun m inv => ⟨inv, lawful.refl m, rule.across m span⟩

end

/-- Every call has the outer effect if every builtin function has it whenever
the calls it makes have it. -/
theorem callByName_has {env : Env}
    (builtin : ∀ {name : String} {handler : Handler}, env.builtins.lookup name = some handler →
      ∀ call : Caller, (∀ name args span, (call name args span).Has outer) →
      ∀ args span, (handler call args span).Has outer)
    (fuel : Nat) : ∀ name args span, (callByName env fuel name args span).Has outer :=
  call_has_of_user rule.permissive builtin (fun fuel ih m _ _ inv found args span =>
    callUser_has rule (g := ⟨env, callByName env fuel, fuel⟩) ih (rule.function inv found) args span
      m inv) fuel

/-- Every call has the outer effect where only the standard functions are
builtin. -/
theorem standard_call_has (settings : Settings) (fuel : Nat) (name : String)
    (args : List Variable) (span : Span) :
    (((Env.standard settings).engine fuel).call name args span).Has outer :=
  callByName_has rule (fun found call _ args span =>
    Builtins.standard_has rule.permissive found call args span) fuel name args span

end Governed

end Machine

end TraceLang
