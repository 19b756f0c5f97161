/-
# TraceLang.Proofs.Backtraces — a backtrace leads to what failed

Instructions and the calls in expressions are tasks: each runs under a frame of its own.
Inside a task other tasks are begun: the instructions of its blocks and headers, the calls
that its expressions make, and the instructions of the function that it calls
(`Task.Contains`). `t.Fails env m f frames` says that the task `t`, begun on the machine
`m`, fails with the fault `f` and how this came about: it failed by itself, its own work
having raised a fault without a backtrace (`Fault.Raised`), or a task inside it failed with
the very same fault, begun under its frame. The frames are those of the tasks on this way,
from `t` to the one that failed by itself.

A fault has no backtrace until it leaves the first frame, and then it has all frames in
progress; nothing is added to it or taken away by the frames further out. So the backtrace
is the frames that were in progress when `t` was begun, followed by the frames on the way
(`Task.Fails.backtrace_eq`), and all faults of instructions come about in this way
(`execute_fails`).
-/
import TraceLang.Proofs.Sessions

namespace TraceLang

set_option autoImplicit false

/-! ## Tasks -/

/-- The instruction has this one directly inside it, at a path of its own. -/
inductive Instr.Inner (path : Path) : Instr → Path → Instr → Prop
  | whileBody {span : Span} {cond : Expr} {body : List Instr} {k : Nat} {i : Instr}
    (here : body[k]? = some i) : Inner path (.whileLoop span cond body) (path.body.item k) i
  | init {span : Span} {init step : Instr} {cond : Expr} {body : List Instr} :
    Inner path (.forLoop span init step cond body) path.first init
  | step {span : Span} {init step : Instr} {cond : Expr} {body : List Instr} :
    Inner path (.forLoop span init step cond body) path.second step
  | forBody {span : Span} {init step : Instr} {cond : Expr} {body : List Instr} {k : Nat}
    {i : Instr} (here : body[k]? = some i) :
    Inner path (.forLoop span init step cond body) (path.body.item k) i
  | onTrue {span : Span} {cond : Expr} {onTrue onFalse : List Instr} {k : Nat} {i : Instr}
    (here : onTrue[k]? = some i) :
    Inner path (.conditional span cond onTrue onFalse) (path.first.item k) i
  | onFalse {span : Span} {cond : Expr} {onTrue onFalse : List Instr} {k : Nat} {i : Instr}
    (here : onFalse[k]? = some i) :
    Inner path (.conditional span cond onTrue onFalse) (path.second.item k) i

/-- What an instruction does under its frame. -/
def Machine.work (g : Engine) (unit : Nat) (path : Path) : Instr → Action Flow
  | .whileLoop _ cond body =>
    Action.repeatWhile (evalCondition g cond)
      (Action.withIterating ⟨unit, path⟩ (Action.withScope (runBlock g unit path.body 0 body)))
      (pure ()) g.fuel
  | .forLoop _ init step cond body =>
    Action.withScope do
      expectNext false (← execute g unit path.first init)
      Action.repeatWhile (evalCondition g cond)
        (Action.withIterating ⟨unit, path⟩ (Action.withScope (runBlock g unit path.body 0 body)))
        (do expectNext true (← execute g unit path.second step)) g.fuel
  | .conditional _ cond onTrue onFalse => do
    if ← evalCondition g cond then
      Action.withScope (runBlock g unit path.first 0 onTrue)
    else
      Action.withScope (runBlock g unit path.second 0 onFalse)
  | .declare span d => do
    discard (declare g d)
    recordTraces g.env.settings span
    return .next
  | .assign span target value => do
    assign g target value
    recordTraces g.env.settings span
    return .next
  | .call span name args => do
    let values ← evalArgs g args
    discard (g.call name values span)
    countCall ⟨unit, path⟩
    recordTraces g.env.settings span
    return .next
  | .define _ name params body funcSpan => do
    defineFunction ⟨{ name, params, body, span := funcSpan }, ⟨unit, path⟩⟩
    return .next
  | .trace _ targets => do
    startTraces g targets
    return .next
  | .leave _ => control (fun c => c.loopDepth ≠ 0) .leave .leave
  | .again _ => control (fun c => c.loopDepth ≠ 0) .again .again
  | .result _ value => do
    discard (control Context.inFunction .result .next)
    match value with
    | none => return .result none
    | some e => return .result (some (.fresh (← evalValue g e).value))

/-- An instruction counts a step and does its work under its frame. -/
theorem Machine.execute_eq_stepped (g : Engine) (unit : Nat) (path : Path) (i : Instr) :
    execute g unit path i = stepped i (work g unit path i) := by
  cases i <;> (unfold execute; rfl)

/-- The fault comes out of the frame, under which it was raised without a backtrace. -/
structure Fault.Raised {α : Type} (c : Context) (frame : Frame) (r : Outcome α) (f : Fault) :
    Prop where
  untraced : ∃ raised n, r = .fault raised n ∧ raised.backtrace = [] ∧ raised.cause = f.cause
  located : f.span.isSome
  last : f.backtrace = c.frames.toList ++ [frame]

theorem Fault.Raised.discard {α : Type} {c : Context} {frame : Frame} {f : Fault} {act : Action α}
    {m : Machine} (raised : f.Raised c frame (act m)) :
    f.Raised c frame ((Functor.discard act : Action Unit) m) := by
  obtain ⟨⟨f₀, n, ended, untraced⟩, located, last⟩ := raised
  exact ⟨⟨f₀, n, Action.bind_of_fault ended, untraced⟩, located, last⟩

/-- What runs under a frame of its own: an instruction, or a call in an expression with
its arguments evaluated. -/
inductive Task
  | instr (site : Site) (i : Instr)
  | call (span : Span) (name : String) (values : List Variable)

namespace Task

/-- Begin a task. -/
def perform (g : Engine) : Task → Action Unit
  | .instr site i => discard (Machine.execute g site.unit site.path i)
  | .call span name values => discard (g.invoke name values span)

/-- The frame of a task that is begun on a machine. -/
def frame (m : Machine) : Task → Frame
  | .instr _ i => m.frame i
  | .call span name _ =>
    { status := if m.isUserFunction name then .userFunction else .predefinedCall
      span
      detail := some name }

/-- What a task does under its frame. -/
def work (g : Engine) : Task → Action Unit
  | .instr site i => discard (Machine.work g site.unit site.path i)
  | .call span name values => discard (g.call name values span)

/-- The machine on which a task that is begun on another one does its work. -/
def entered (m : Machine) : Task → Machine
  | .instr _ i => m.entered i
  | .call span name values =>
    { m with context := m.context.push (frame m (.call span name values)) }

/-- The function that the task calls once its arguments are evaluated. -/
def callee? : Task → Option String
  | .call _ name _ | .instr _ (.call _ name _) => some name
  | .instr _ _ => none

/-- The second task belongs to the first one and is begun on the machine. -/
inductive Contains (n : Machine) : Task → Task → Prop
  | inner {unit : Nat} {path path' : Path} {i i' : Instr} (inner : i.Inner path path' i') :
    Contains n (.instr ⟨unit, path⟩ i) (.instr ⟨unit, path'⟩ i')
  | argument {site : Site} {i : Instr} {x : Expr} {span : Span} {name : String} {args : List Expr}
    (mem : x ∈ i.exprs) (part : x.Part (.call span name args)) (values : List Variable) :
    Contains n (.instr site i) (.call span name values)
  | body {t : Task} {name : String} {f : Defined} {k : Nat} {i : Instr}
    (calls : t.callee? = some name) (defined : n.function? name = some f)
    (here : f.function.body[k]? = some i) :
    Contains n t (.instr ⟨f.site.unit, f.site.path.body.item k⟩ i)

/-- The task is begun on the machine and fails with the fault. The frames are those of the
tasks from this one to the one that failed by itself, each inside the one before. -/
inductive Fails (env : Env) : Task → Machine → Fault → List Frame → Prop
  | itself {t : Task} {m m' : Machine} {f : Fault} {fuel : Nat}
    (ended : t.perform (env.engine fuel) m = .fault f m')
    (raised : f.Raised m.context (t.frame m) (t.work (env.engine fuel) (t.entered m))) :
    Fails env t m f [t.frame m]
  | inside {t t' : Task} {m m' n : Machine} {f : Fault} {fuel : Nat} {frames : List Frame}
    (ended : t.perform (env.engine fuel) m = .fault f m') (contains : Contains n t t')
    (under : n.context = m.context.push (t.frame m)) (fails : Fails env t' n f frames) :
    Fails env t m f (t.frame m :: frames)

section

variable {env : Env} {t : Task} {m : Machine} {f : Fault} {frames : List Frame}

/-- The backtrace is what was in progress and the way to what failed. -/
theorem Fails.backtrace_eq (fails : t.Fails env m f frames) :
    f.backtrace = m.context.frames.toList ++ frames := by
  induction fails with
  | itself _ raised => exact raised.last
  | inside _ _ under _ ih =>
    rw [ih, under, Context.push, Array.toList_push, List.append_assoc]
    rfl

theorem Fails.starts (fails : t.Fails env m f frames) : ∃ rest, frames = t.frame m :: rest := by
  cases fails with
  | itself => exact ⟨[], rfl⟩
  | inside => exact ⟨_, rfl⟩

theorem Fails.located (fails : t.Fails env m f frames) : f.span.isSome := by
  induction fails with
  | itself _ raised => exact raised.located
  | inside _ _ _ _ ih => exact ih

/-- What is around a task that has failed leaves the fault as it is. -/
theorem Fails.locate_eq (fails : t.Fails env m f frames) (span : Span) : f.locate span = f := by
  have located := fails.located
  obtain ⟨cause, place, backtrace⟩ := f
  cases place with
  | none => cases located
  | some => rfl

theorem Fails.trace_eq (fails : t.Fails env m f frames) (c : Context) : f.trace c = f := by
  obtain ⟨rest, rfl⟩ := fails.starts
  simp [Fault.trace, fails.backtrace_eq]

end

end Task

/-! ## What actions fail with -/

/-- The same frames and as many scopes, and every function is still defined. -/
structure Machine.Evens (m m' : Machine) : Prop where
  context : m'.context = m.context
  depth : m'.scopes.depth = m.scopes.depth
  functions : ∀ name f, m.function? name = some f → m'.function? name = some f

/-- Under the frames of a machine, a task has failed with the fault. -/
inductive Fault.Arises (env : Env) (begun : Machine → Task → Prop) (m : Machine) (f : Fault) : Prop
  | inside {n : Machine} {t : Task} {frames : List Frame} (under : n.context = m.context)
    (functions : ∀ name f, m.function? name = some f → n.function? name = some f)
    (task : begun n t) (fails : t.Fails env n f frames)

/-- Actions that begin tasks of some kind. A fault of their own has no backtrace yet. -/
def begins (env : Env) (begun : Machine → Task → Prop) : Effect where
  inv _ := True
  change := Machine.Evens
  fault m f := f.backtrace = [] ∨ f.Arises env begun m

/-- Actions that begin tasks of some kind and have no faults of their own. -/
def passes (env : Env) (begun : Machine → Task → Prop) : Effect where
  inv _ := True
  change := Machine.Evens
  fault m f := f.Arises env begun m

/-- The fault has left the frame of a task that was begun on the machine. -/
def Fault.Leaves (env : Env) (fuel : Nat) (t : Task) (m : Machine) (f : Fault) : Prop :=
  f.Raised m.context (t.frame m) (t.work (env.engine fuel) (t.entered m)) ∨
    f.Arises env (Task.Contains · t) (t.entered m)

theorem Task.context_entered (t : Task) (m : Machine) :
    (t.entered m).context = m.context.push (t.frame m) := by
  cases t <;> rfl

theorem Task.fails_of_leaves {env : Env} {t : Task} {m m' : Machine} {f : Fault} {fuel : Nat}
    (ended : t.perform (env.engine fuel) m = .fault f m') (leaves : f.Leaves env fuel t m) :
    ∃ frames, t.Fails env m f frames := by
  rcases leaves with raised | ⟨under, -, contains, fails⟩
  · exact ⟨_, .itself ended raised⟩
  · exact ⟨_, .inside ended contains (under.trans (t.context_entered m)) fails⟩

/-- The status of the frame of a call, as the frame of the instruction has it. -/
theorem Env.status_of_callee? {env : Env} {m : Machine} {name : String} {callee : Callee}
    (found : env.callee? m name = some callee) :
    callee.status = if m.isUserFunction name then Status.userFunction else .predefinedCall := by
  unfold callee? at found
  unfold Machine.isUserFunction
  cases user : m.function? name with
  | some f =>
    simp only [user] at found
    cases found
    rfl
  | none =>
    simp only [user, Option.map_eq_some_iff] at found
    obtain ⟨handler, -, rfl⟩ := found
    rfl

namespace Machine

open TraceLang.Action

variable {env : Env} {begun begun' : Machine → Task → Prop} {m m' m'' n : Machine}

theorem Evens.refl (m : Machine) : m.Evens m :=
  ⟨rfl, rfl, fun _ _ found => found⟩

theorem Evens.trans (first : m.Evens m') (second : m'.Evens m'') : m.Evens m'' :=
  ⟨second.context.trans first.context, second.depth.trans first.depth,
    fun name f found => second.functions name f (first.functions name f found)⟩

/-- What is known of the tasks that are begun does not depend on the rest of the
machine. -/
theorem arises_mono {f : Fault} (arises : f.Arises env begun n) (context : n.context = m.context)
    (functions : ∀ name f, m.function? name = some f → n.function? name = some f)
    (more : ∀ o t, (∀ name f, m.function? name = some f → o.function? name = some f) →
      begun o t → begun' o t) : f.Arises env begun' m := by
  obtain ⟨under, functions', task, fails⟩ := arises
  have kept := fun name f found => functions' name f (functions name f found)
  exact .inside (under.trans context) kept (more _ _ kept task) fails

theorem arises_after {f : Fault} (change : m.Evens n) (arises : f.Arises env begun n) :
    f.Arises env begun m :=
  arises_mono arises change.context change.functions fun _ _ _ task => task

theorem arises_locate {f : Fault} (span : Span) (arises : f.Arises env begun m) :
    (f.locate span).Arises env begun m := by
  obtain ⟨under, functions, task, fails⟩ := arises
  rw [fails.locate_eq]
  exact .inside under functions task fails

theorem begins_permissive : (begins env begun).Permissive where
  refl := Evens.refl
  trans := Evens.trans
  fault_after change := Or.imp_right (arises_after change)
  fault_locate span := Or.imp_right (arises_locate span)
  edit edit _ := by
    have kept := edit_kept edit
    exact ⟨trivial, kept.context, by rw [kept.scopes], kept.functions⟩
  ordinary _ _ _ _ := .inl rfl

theorem passes_lawful : (passes env begun).Lawful where
  refl := Evens.refl
  trans := Evens.trans
  fault_after := arises_after
  fault_locate := arises_locate

theorem begins_lawful : (begins env begun).Lawful :=
  begins_permissive.toLawful

theorem begins_allocating : (begins env begun).Allocating :=
  begins_permissive.toAllocating

theorem begins_mono {α : Type} {act : Action α} (has : act.Has (begins env begun))
    (more : ∀ n t, begun n t → begun' n t) : act.Has (begins env begun') := by
  intro m _
  refine (has m trivial).mono (fun _ _ good => good) ?_
  rintro f m' ⟨inv, change, fault⟩
  refine ⟨inv, change, fault.imp_right fun arises => ?_⟩
  exact arises_mono arises rfl (fun _ _ found => found) fun o t _ => more o t

theorem passes_mono {α : Type} {act : Action α} (has : act.Has (passes env begun))
    (more : ∀ n t, begun n t → begun' n t) : act.Has (passes env begun') := by
  intro m _
  refine (has m trivial).mono (fun _ _ good => good) ?_
  rintro f m' ⟨inv, change, arises⟩
  refine ⟨inv, change, ?_⟩
  exact arises_mono arises rfl (fun _ _ found => found) fun o t _ => more o t

theorem begins_of_passes {α : Type} {act : Action α} (has : act.Has (passes env begun)) :
    act.Has (begins env begun) := by
  intro m _
  refine (has m trivial).mono (fun _ _ good => good) ?_
  exact fun f m' bad => ⟨bad.1, bad.2.1, .inr bad.2.2⟩

/-! ## Brackets -/

theorem begins_withScope {α : Type} {act : Action α} (has : act.Has (begins env begun)) :
    (withScope act).Has (begins env begun) := by
  intro m _
  refine ends_withScope.mpr ((has { m with scopes := m.scopes.push } trivial).close ?_ ?_)
  · intro m' _ even
    refine ⟨trivial, even.context, ?_, even.functions⟩
    have positive := m.scopes.depth_pos
    have deeper : m'.scopes.stack.size = m.scopes.depth + 1 :=
      even.depth.trans (Scopes.depth_push _)
    simp only [Scopes.depth, Scopes.truncate, Array.size_shrink] at deeper positive ⊢
    omega
  · exact fun f => Or.imp_right fun arises =>
      arises_mono arises rfl (fun _ _ found => found) fun _ _ _ task => task

theorem begins_withIterating {α : Type} {act : Action α} (loop : Site)
    (has : act.Has (begins env begun)) : (withIterating loop act).Has (begins env begun) := by
  intro m _
  refine (ends_withIterating loop).mpr ((has _ trivial).close ?_ ?_)
  · exact fun m' _ even => ⟨trivial, even.context, even.depth, even.functions⟩
  · exact fun f => Or.imp_right fun arises =>
      arises_mono arises rfl (fun _ _ found => found) fun _ _ _ task => task

theorem begins_withCall {α : Type} {act : Action α} (limit : Nat) (span : Span)
    (has : act.Has (begins env begun)) : (withCall limit span act).Has (begins env begun) := by
  intro m _
  refine (ends_withCall limit span).mpr ⟨fun _ => ⟨trivial, .refl m, .inl rfl⟩, fun _ =>
    (has { m with callDepth := m.callDepth + 1 } trivial).close ?_ ?_⟩
  · exact fun m' _ even => ⟨trivial, even.context, even.depth, even.functions⟩
  · exact fun f => Or.imp_right fun arises =>
      arises_mono arises rfl (fun _ _ found => found) fun _ _ _ task => task

/-- A fault that was raised without a backtrace takes the frames with it; any other is left
as it is. -/
theorem framed_raises {α : Type} {act : Action α} (frame : Frame)
    (has : act.Has (begins env begun)) (m : Machine) :
    (framed frame act).Ends m (fun _ m' => m.Evens m')
      (fun f m' => m.Evens m' ∧
        (f.Raised m.context frame (act { m with context := m.context.push frame }) ∨
          f.Arises env begun { m with context := m.context.push frame })) := by
  have ends := (ends_self act { m with context := m.context.push frame }).and (has _ trivial)
  refine ends_framed frame (ends.mono ?_ ?_)
  · rintro _ m' ⟨-, -, even⟩
    exact ⟨even.context, even.depth, rfl, even.depth, even.functions⟩
  · rintro f m' ⟨ended, -, even, fault⟩
    refine ⟨even.context, even.depth, ⟨rfl, even.depth, even.functions⟩, ?_⟩
    rcases fault with untraced | ⟨under, functions, task, fails⟩
    · refine .inl ⟨⟨f, m', ended, untraced, by simp⟩, rfl, ?_⟩
      simp [Fault.trace, Fault.locate, untraced, Context.push]
    · rw [fails.trace_eq, fails.locate_eq]
      exact .inr (.inside under functions task fails)

/-! ## Actions that begin no tasks -/

theorem checkDeclaration_begins (d : Declaration) :
    (checkDeclaration d).Has (begins env begun) := by
  intro m _
  refine (checkDeclaration_ends d m).mono ?_ ?_
  · rintro _ m rfl
    exact ⟨trivial, .refl m⟩
  · rintro f m ⟨rfl, refused⟩
    refine ⟨trivial, .refl m, .inl ?_⟩
    cases refused <;> rfl

theorem bindChecked_begins (d : Declaration) (v : Variable) :
    (bindChecked d v).Has (begins env begun) := by
  refine has_bind begins_lawful (used_has begins_allocating d.init v) fun v => ?_
  refine has_ite (fun _ => has_failAt begins_allocating rfl d.init.span) fun _ m _ => ?_
  exact ⟨trivial, rfl, Scopes.depth_define .., fun _ _ found => found⟩

theorem control_begins (allowed : Context → Bool) (otherwise : Misplaced) (flow : Flow) :
    (control allowed otherwise flow).Has (begins env begun) := by
  intro m _
  refine (control_ends allowed otherwise flow m).mono ?_ ?_
  · rintro _ m ⟨-, -, rfl⟩
    exact ⟨trivial, .refl m⟩
  · rintro _ m ⟨-, rfl, rfl⟩
    exact ⟨trivial, .refl m, .inl rfl⟩

theorem expectNext_begins (isStep : Bool) (flow : Flow) :
    (expectNext isStep flow).Has (begins env begun) :=
  fun m _ => expectNext_ends ⟨trivial, .refl m⟩ fun _ => ⟨trivial, .refl m, .inl rfl⟩

theorem defineFunction_begins (f : Defined) : (defineFunction f).Has (begins env begun) := by
  intro m _
  simp only [HasAt, Ends, defineFunction]
  cases taken : m.isUserFunction f.function.name with
  | true => exact ⟨trivial, .refl m, .inl rfl⟩
  | false =>
    have absent : m.function? f.function.name = none := by simpa [isUserFunction] using taken
    refine ⟨trivial, rfl, rfl, fun name d found => ?_⟩
    have apart : name ≠ f.function.name := by
      rintro rfl
      rw [absent] at found
      cases found
    simpa only [function?, lookup_entry, apart, if_false] using found

theorem bindParams_begins (span : Span) : (params : List Param) → (args : List Variable) →
    (bindParams span params args).Has (begins env begun)
  | [], _ | _ :: _, [] => has_pure begins_lawful ()
  | x :: params, v :: args => by
    unfold bindParams
    refine has_bind begins_lawful (has_discard begins_lawful ?_) fun _ =>
      bindParams_begins span params args
    exact has_bind begins_lawful (checkDeclaration_begins _) fun _ => bindChecked_begins _ v

/-! ## Instructions -/

/-- The instructions of a block, from a number on. -/
def tasksOf (unit : Nat) (path : Path) (first : Nat) (block : List Instr) (t : Task) : Prop :=
  ∃ k i, block[k]? = some i ∧ t = .instr ⟨unit, path.item (first + k)⟩ i

/-- The instructions of the function that has the name in the machine. -/
def tasksOfCall (name : String) (n : Machine) (t : Task) : Prop :=
  ∃ f, n.function? name = some f ∧ tasksOf f.site.unit f.site.path.body 0 f.function.body t

theorem contains_of_call {t : Task} {name : String} (calls : t.callee? = some name) {n : Machine}
    {t' : Task} (task : tasksOfCall name n t') : Task.Contains n t t' := by
  obtain ⟨f, defined, k, i, here, rfl⟩ := task
  rw [Nat.zero_add]
  exact .body calls defined here

theorem arises_of_leaves {t : Task} {m m' : Machine} {f : Fault} {fuel : Nat}
    (ended : t.perform (env.engine fuel) m = .fault f m') (leaves : f.Leaves env fuel t m)
    (task : begun m t) : f.Arises env begun m := by
  obtain ⟨frames, fails⟩ := Task.fails_of_leaves ended leaves
  exact .inside rfl (fun _ _ found => found) task fails

section

variable {fuel : Nat}
  (call : ∀ name args span, ((env.engine fuel).call name args span).Has
    (begins env (tasksOfCall name)))

include call

theorem invoke_leaves (name : String) (values : List Variable) (span : Span) (m : Machine) :
    ((env.engine fuel).invoke name values span).Ends m (fun _ m' => m.Evens m')
      (fun f m' => m.Evens m' ∧
        (f.backtrace = [] ∨ f.Leaves env fuel (.call span name values) m)) := by
  have calls : Task.callee? (.call span name values) = some name := rfl
  unfold Engine.invoke
  refine ends_bind.mpr ((ends_located span).mpr ?_)
  simp only [Ends, Env.lookup]
  cases found : env.callee? m name with
  | none =>
    have absent : (env.engine fuel).env.callee? m name = none := found
    simp only [absent]
    exact ⟨.refl m, .inl rfl⟩
  | some callee =>
    have present : (env.engine fuel).env.callee? m name = some callee := found
    simp only [present]
    refine ends_bind.mpr ?_
    rw [Env.status_of_callee? found]
    refine (framed_raises _ (begins_mono (call name values span) fun n t' =>
      contains_of_call calls) m).mono ?_ ?_
    · exact fun _ m' even => even
    · exact fun f m' bad => ⟨bad.1, .inr (bad.2.imp_left (·.discard))⟩

theorem invoke_begins (name : String) (values : List Variable) (span : Span)
    (task : ∀ n, begun n (.call span name values)) :
    ((env.engine fuel).invoke name values span).Has (begins env begun) := by
  intro m _
  refine ((ends_self _ m).and (invoke_leaves call name values span m)).mono ?_ ?_
  · exact fun _ _ good => ⟨trivial, good.2⟩
  · rintro f m' ⟨ended, even, fault⟩
    refine ⟨trivial, even, fault.imp_right fun leaves => ?_⟩
    exact arises_of_leaves (t := .call span name values) (bind_of_fault ended) leaves (task m)

/-- The calls in the expressions of an instruction. -/
theorem argument_begins {site : Site} {i : Instr} {x : Expr} (mem : x ∈ i.exprs) (span : Span)
    (name : String) (args : List Expr) (part : x.Part (.call span name args))
    (values : List Variable) :
    ((env.engine fuel).invoke name values span).Has
      (begins env (Task.Contains · (.instr site i))) :=
  invoke_begins call name values span fun _ => .argument mem part values

omit call

/-- A fault of an instruction has left its frame. -/
theorem execute_leaves {unit : Nat} {path : Path} {i : Instr}
    (has : (work (env.engine fuel) unit path i).Has
      (begins env (Task.Contains · (.instr ⟨unit, path⟩ i)))) (m : Machine) :
    (execute (env.engine fuel) unit path i).Ends m (fun _ m' => m.Evens m')
      (fun f m' => m.Evens m' ∧ f.Leaves env fuel (.instr ⟨unit, path⟩ i) m) := by
  rw [execute_eq_stepped]
  refine ends_stepped_iff.mpr ((framed_raises (m.frame i) has _).mono ?_ ?_)
  · exact fun _ m' even => ⟨even.context, even.depth, even.functions⟩
  · rintro f m' ⟨even, raised | arises⟩
    · exact ⟨⟨even.context, even.depth, even.functions⟩, .inl raised.discard⟩
    · exact ⟨⟨even.context, even.depth, even.functions⟩, .inr arises⟩

theorem execute_passes {unit : Nat} {path : Path} {i : Instr}
    (task : ∀ n, begun n (.instr ⟨unit, path⟩ i))
    (has : (work (env.engine fuel) unit path i).Has
      (begins env (Task.Contains · (.instr ⟨unit, path⟩ i)))) :
    (execute (env.engine fuel) unit path i).Has (passes env begun) := by
  intro m _
  refine ((ends_self _ m).and (execute_leaves has m)).mono ?_ ?_
  · exact fun _ _ good => ⟨trivial, good.2⟩
  · rintro f m' ⟨ended, even, leaves⟩
    refine ⟨trivial, even, ?_⟩
    exact arises_of_leaves (t := .instr ⟨unit, path⟩ i) (bind_of_fault ended) leaves (task m)

/-- The instructions of a block that belongs to an instruction. -/
theorem inner_begins {α : Type} {act : Action α} {unit : Nat} {path inside : Path}
    {block : List Instr} {i : Instr}
    (has : act.Has (passes env fun _ => tasksOf unit inside 0 block))
    (inner : ∀ {k : Nat} {i' : Instr}, block[k]? = some i' → i.Inner path (inside.item k) i') :
    act.Has (begins env (Task.Contains · (.instr ⟨unit, path⟩ i))) := by
  refine begins_of_passes (passes_mono has ?_)
  rintro n _ ⟨k, i', here, rfl⟩
  rw [Nat.zero_add]
  exact .inner (inner here)

include call

-- Blocks make calls only through their instructions.
set_option linter.unusedSectionVars false in
mutual

/-- The work of an instruction begins the tasks that it contains. -/
theorem work_begins (unit : Nat) (path : Path) : (i : Instr) →
    (work (env.engine fuel) unit path i).Has
      (begins env (Task.Contains · (.instr ⟨unit, path⟩ i)))
  | .whileLoop span cond body => by
    unfold work
    refine has_repeatWhile begins_lawful ?_ ?_ ?_ _
    · exact evalCondition_has_of_calls begins_allocating
        (argument_begins call (List.mem_singleton_self cond))
    · exact begins_withIterating _ (begins_withScope
        (inner_begins (runBlock_passes unit path.body 0 body) .whileBody))
    · exact has_pure begins_lawful ()
  | .forLoop span init step cond body => by
    unfold work
    refine begins_withScope ?_
    refine has_bind begins_lawful (begins_of_passes (execute_passes (fun _ => .inner .init)
      (work_begins unit path.first init))) fun flow => ?_
    refine has_bind begins_lawful (expectNext_begins false flow) fun _ => ?_
    refine has_repeatWhile begins_lawful ?_ ?_ ?_ _
    · exact evalCondition_has_of_calls begins_allocating
        (argument_begins call (List.mem_singleton_self cond))
    · exact begins_withIterating _ (begins_withScope
        (inner_begins (runBlock_passes unit path.body 0 body) .forBody))
    · exact has_bind begins_lawful (begins_of_passes (execute_passes (fun _ => .inner .step)
        (work_begins unit path.second step))) (expectNext_begins true)
  | .conditional span cond onTrue onFalse => by
    unfold work
    refine has_bind begins_lawful (evalCondition_has_of_calls begins_allocating
      (argument_begins call (List.mem_singleton_self cond))) fun holds => ?_
    refine has_ite (fun _ => ?_) fun _ => ?_
    · exact begins_withScope (inner_begins (runBlock_passes unit path.first 0 onTrue) .onTrue)
    · exact begins_withScope (inner_begins (runBlock_passes unit path.second 0 onFalse) .onFalse)
  | .declare span d => by
    unfold work
    refine has_bind begins_lawful (has_discard begins_lawful ?_) fun _ =>
      has_bind begins_lawful (recordTraces_has begins_permissive _ span) fun _ =>
        has_pure begins_lawful _
    refine has_bind begins_lawful (checkDeclaration_begins d) fun _ => ?_
    exact has_bind begins_lawful (eval_has_of_calls begins_allocating d.init
      (argument_begins call (List.mem_singleton_self d.init))) (bindChecked_begins d)
  | .assign span target value => by
    unfold work
    refine has_bind begins_lawful ?_ fun _ =>
      has_bind begins_lawful (recordTraces_has begins_permissive _ span) fun _ =>
        has_pure begins_lawful _
    unfold assign
    refine has_ite (fun _ m _ => ⟨trivial, .refl m, .inl rfl⟩) fun _ => ?_
    refine has_bind begins_lawful (evalValue_has_of_calls begins_allocating
      (argument_begins call (List.mem_cons_of_mem _ (List.mem_singleton_self value)))) fun v => ?_
    intro m _
    refine hasAt_bind begins_lawful _ (resolve_has_of_calls begins_allocating target
      (argument_begins call (List.mem_cons_self ..)) m trivial) (resolve_holds target) ?_
    exact fun c m' _ held => begins_permissive.edit (.assign c v.value held) trivial
  | .call span name args => by
    unfold work
    refine has_bind begins_lawful (evalArgs_has_of_calls begins_allocating args
      fun x mem => argument_begins call (i := .call span name args) mem) fun values => ?_
    refine has_bind begins_lawful (has_discard begins_lawful
      (begins_mono (call name values span) fun _ _ => contains_of_call rfl)) fun _ => ?_
    refine has_bind begins_lawful (has_modify begins_permissive fun _ => .count _) fun _ => ?_
    exact has_bind begins_lawful (recordTraces_has begins_permissive _ span) fun _ =>
      has_pure begins_lawful _
  | .define span name params body funcSpan => by
    unfold work
    exact has_bind begins_lawful (defineFunction_begins _) fun _ => has_pure begins_lawful _
  | .trace span targets => by
    unfold work
    refine has_bind begins_lawful
      (startTraces_has_of_calls begins_permissive targets fun x mem => ?_) fun _ =>
        has_pure begins_lawful _
    exact argument_begins call mem
  | .leave span | .again span => by
    unfold work
    exact control_begins _ _ _
  | .result span value => by
    unfold work
    refine has_bind begins_lawful
      (has_discard begins_lawful (control_begins _ _ _)) fun _ => ?_
    cases value with
    | none => exact has_pure begins_lawful _
    | some x =>
      exact has_bind begins_lawful (evalValue_has_of_calls begins_allocating
        (argument_begins call (List.mem_singleton_self x))) fun _ => has_pure begins_lawful _

theorem runBlock_passes (unit : Nat) (path : Path) (first : Nat) : (block : List Instr) →
    (runBlock (env.engine fuel) unit path first block).Has
      (passes env fun _ => tasksOf unit path first block)
  | [] => has_pure passes_lawful _
  | i :: rest => by
    unfold runBlock
    refine has_bind passes_lawful (execute_passes (fun _ => ⟨0, i, rfl, rfl⟩)
      (work_begins unit (path.item first) i)) fun flow => ?_
    cases flow with
    | next =>
      refine passes_mono (runBlock_passes unit path (first + 1) rest) ?_
      rintro n _ ⟨k, i', here, rfl⟩
      exact ⟨k + 1, i', here, by rw [Nat.add_assoc, Nat.add_comm 1 k]⟩
    | leave | again | result => exact has_pure passes_lawful _

end

/-- A call of a user function, where the machine knows it by the name. -/
theorem callUser_begins {name : String} {f : Defined} {m : Machine}
    (known : m.function? name = some f) (args : List Variable) (span : Span) :
    (callUser (env.engine fuel) f args span).HasAt (begins env (tasksOfCall name)) m := by
  have has : (callUser (env.engine fuel) f args span).Has
      (begins env fun _ => tasksOf f.site.unit f.site.path.body 0 f.function.body) := by
    unfold callUser
    refine has_ite (fun _ => has_failAt begins_allocating rfl span) fun _ => ?_
    refine has_bind begins_lawful (begins_withCall _ span (begins_withScope
      (has_bind begins_lawful (bindParams_begins span _ args) fun _ =>
        begins_of_passes (runBlock_passes call _ _ 0 _)))) fun flow => ?_
    cases flow with
    | result | next => exact has_pure begins_lawful _
    | leave | again => exact fun m _ => ⟨trivial, .refl m, .inl rfl⟩
  refine (has m trivial).mono (fun _ _ good => good) ?_
  rintro fault m' ⟨inv, even, bad⟩
  refine ⟨inv, even, bad.imp_right fun arises => ?_⟩
  refine arises_mono arises rfl (fun _ _ found => found) fun o t kept task => ?_
  exact ⟨f, kept name f known, task⟩

end

/-- Every call begins the instructions of the function that it calls. -/
theorem callByName_begins (settings : Settings) (fuel : Nat) : ∀ name args span,
    (callByName (Env.standard settings) fuel name args span).Has
      (begins (Env.standard settings) (tasksOfCall name)) := by
  induction fuel with
  | zero => exact fun _ _ _ => has_outOfFuel
  | succ fuel ih =>
    intro name args span m _
    refine hasAt_bind begins_lawful _ (lookup_has begins_allocating _ name m trivial)
      (lookup_ends _ name m) ?_
    rintro callee m' - ⟨found, -⟩
    cases callee with
    | builtin handler =>
      have listed := Env.lookup_of_callee?_builtin found
      exact has_bind begins_lawful (has_located begins_lawful span
        (Builtins.standard_has begins_permissive.toServing listed _ args span))
        (fun v => has_pure begins_lawful _) m' trivial
    | user f => exact callUser_begins ih (Env.function?_of_callee?_user found) args span

/-! ## Faults of instructions and programs -/

/-- Every fault of an instruction comes about by tasks that fail inside each other. -/
theorem execute_fails (settings : Settings) (fuel unit : Nat) (path : Path) (i : Instr)
    (m : Machine) :
    (execute ((Env.standard settings).engine fuel) unit path i).Ends m (fun _ _ => True)
      (fun f _ =>
        ∃ frames, (Task.instr ⟨unit, path⟩ i).Fails (Env.standard settings) m f frames) := by
  refine ((ends_self _ m).and
    (execute_leaves (work_begins (callByName_begins settings fuel) unit path i) m)).mono ?_ ?_
  · exact fun _ _ _ => trivial
  · rintro f m' ⟨ended, -, leaves⟩
    exact Task.fails_of_leaves (t := .instr ⟨unit, path⟩ i) (bind_of_fault ended) leaves

/-- A program that fails from rest has an instruction that fails. -/
theorem run_fails (settings : Settings) (fuel unit : Nat) (prog : Program) {m : Machine}
    (rest : m.context = {}) :
    (run ((Env.standard settings).engine fuel) unit prog).Ends m (fun _ _ => True)
      (fun f _ => f.Arises (Env.standard settings) (fun _ => tasksOf unit [] 0 prog.body) m) := by
  have signals := runBody_next (standard_call_has (stacks_govern tolerates_all) settings fuel) unit
    prog.body rest
  have block := runBlock_passes (callByName_begins settings fuel) unit [] 0 prog.body m trivial
  refine ends_bind.mpr ((signals.and block).mono ?_ ?_)
  · rintro _ m' ⟨rfl, -⟩
    trivial
  · exact fun f m' bad => bad.2.2.2

/-- The backtrace of a fault of an instruction is the live context, the frame of the
instruction and then those of the tasks inside it, each inside the one before, down to the
one that failed by itself; and the place of the fault is set. A fault of a program that is
run while no frame is open comes from an instruction of its body, and the backtrace is the
way from there. -/
theorem backtraces_extend_context (settings : Settings) (fuel unit : Nat) :
    (∀ (path : Path) (i : Instr) (m : Machine),
      (execute ((Env.standard settings).engine fuel) unit path i).Ends m (fun _ _ => True)
        (fun f _ => f.span.isSome ∧
          ∃ inside : List Frame,
            (Task.instr ⟨unit, path⟩ i).Fails (Env.standard settings) m f (m.frame i :: inside) ∧
            f.backtrace.map Frame.text =
              m.context.describe ++ (m.frame i).text :: inside.map Frame.text)) ∧
    ∀ (prog : Program) (m : Machine), m.context = {} →
      (run ((Env.standard settings).engine fuel) unit prog).Ends m (fun _ _ => True)
        (fun f _ => f.span.isSome ∧
          ∃ (k : Nat) (i : Instr) (n : Machine) (inside : List Frame),
            prog.body[k]? = some i ∧ n.context = {} ∧
            (Task.instr ⟨unit, Path.item [] k⟩ i).Fails (Env.standard settings) n f f.backtrace ∧
            f.backtrace = n.frame i :: inside) := by
  refine ⟨fun path i m => ?_, fun prog m rest => ?_⟩
  · refine (execute_fails settings fuel unit path i m).mono (fun _ _ _ => trivial) ?_
    rintro f - ⟨frames, fails⟩
    obtain ⟨inside, rfl⟩ := fails.starts
    refine ⟨fails.located, inside, fails, ?_⟩
    rw [fails.backtrace_eq, List.map_append]
    rfl
  · refine (run_fails settings fuel unit prog rest).mono (fun _ _ _ => trivial) ?_
    rintro f - ⟨under, -, ⟨k, i, here, rfl⟩, fails⟩
    have way := fails.backtrace_eq
    rw [under, rest, List.nil_append] at way
    obtain ⟨inside, starts⟩ := fails.starts
    refine ⟨fails.located, k, i, _, inside, here, under.trans rest, ?_, way.trans starts⟩
    rw [way]
    simpa using fails

/-- A loop in a function fails, and the function is called in an expression inside a
conditional. -/
theorem backtraces_extend_context_nested :
    ∃ prog f m, Program.read
        "func f(int n) \x7b while (true) \x7b n = 1 / n; \x7d \x7d if (true) \x7b int x = f(0); \x7d" =
          .ok prog ∧
      run ((Env.standard {}).engine 9) 0 prog {} = .fault f m ∧
      f.backtrace.map Frame.text =
        ["if at 46..73", "declaration `x` at 58..71", "user-function `f` at 66..70",
         "while-loop at 16..43", "assignment `n` at 31..41"] ∧
      f.span.isSome ∧
      ∃ (k : Nat) (i : Instr) (n : Machine) (inside : List Frame),
        prog.body[k]? = some i ∧ n.context = {} ∧
        (Task.instr ⟨0, Path.item [] k⟩ i).Fails (Env.standard {}) n f f.backtrace ∧
        f.backtrace = n.frame i :: inside := by
  have decided : (sourceFault? ((Env.standard {}).engine 9)
      "func f(int n) \x7b while (true) \x7b n = 1 / n; \x7d \x7d if (true) \x7b int x = f(0); \x7d").map
        (·.backtrace.map Frame.text) =
      some ["if at 46..73", "declaration `x` at 58..71", "user-function `f` at 66..70",
         "while-loop at 16..43", "assignment `n` at 31..41"] := by decide +kernel
  obtain ⟨f, failed, texts⟩ := Option.map_eq_some_iff.mp decided
  obtain ⟨prog, m, read, ended⟩ := sourceFault?_eq_some failed
  exact ⟨prog, f, m, read, ended, texts,
    ((backtraces_extend_context {} 9 0).2 prog {} rfl).of_fault ended⟩

end Machine

end TraceLang
