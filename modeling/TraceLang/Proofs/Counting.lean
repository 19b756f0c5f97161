/-
# TraceLang.Proofs.Counting — loops that count

A loop `for (int i = a; i < b; i = i + 1)` makes one pass for each integer from `a` on that
is less than `b`, in increasing order. What is asked of its body is that every run of it
comes to an end, proceeds, and leaves the counter as it was; nothing is asked of the state
in which the loop begins. The counter is a new variable in a scope around the passes, so
the body may hide it by a variable of its own, and after the loop its name denotes what it
did before. The counter never exceeds `b`, so counting does not overflow.

`Rounds` says what the passes of a loop are: its derivations are the finite runs of the
loop, without fuel. One pass is one step of the count (`rounds_step`), all passes are found
by induction on how many are left (`exists_rounds`), and `execute_counting` is about the
whole loop. An invariant of the heap can be carried along.
-/
import TraceLang.Proofs.Exactness
import TraceLang.Proofs.Tracing

namespace TraceLang

set_option autoImplicit false

/-! ## Actions that come to an end -/

/-- With any amount of fuel from a certain one on, the action ends with this value in this
machine. -/
def Env.Completes {α : Type} (env : Env) (act : Engine → Action α) (m : Machine) (a : α)
    (m' : Machine) : Prop :=
  ∃ least, ∀ fuel, least ≤ fuel → act (env.engine fuel) m = .ok a m'

/-- The work of an instruction, and then its frame is closed. -/
theorem Machine.stepped_of_ok {work : Action Flow} {i : Instr} {flow : Flow} {m m' : Machine}
    (ran : work (m.entered i) = .ok flow m') (context : m'.context = (m.entered i).context)
    (depth : m'.scopes.depth = m.scopes.depth) :
    stepped i work m = .ok flow { m' with context := m.context } := by
  cases i <;> exact Action.framed_of_ok_balanced ran context depth

namespace Env.Completes

open TraceLang.Action

variable {α β : Type} {env : Env} {act : Engine → Action α} {m m₁ m₂ : Machine} {a : α} {b : β}

theorem of_ok (ran : ∀ fuel, act (env.engine fuel) m = .ok a m₁) : env.Completes act m a m₁ :=
  ⟨0, fun fuel _ => ran fuel⟩

theorem bind {next : Engine → α → Action β} (first : env.Completes act m a m₁)
    (second : env.Completes (fun g => next g a) m₁ b m₂) :
    env.Completes (fun g => act g >>= next g) m b m₂ := by
  obtain ⟨least, ran⟩ := first
  obtain ⟨least', ran'⟩ := second
  exact ⟨max least least', fun fuel enough =>
    (bind_of_ok (ran fuel (by omega))).trans (ran' fuel (by omega))⟩

theorem unique {a' : α} (first : env.Completes act m a m₁) (second : env.Completes act m a' m₂) :
    a = a' ∧ m₁ = m₂ := by
  obtain ⟨least, ran⟩ := first
  obtain ⟨least', ran'⟩ := second
  have same := (ran (max least least') (by omega)).symm.trans (ran' (max least least') (by omega))
  exact ⟨(Outcome.ok.inj same).1, (Outcome.ok.inj same).2⟩

/-- The action in a scope of its own. -/
theorem withScope (ran : env.Completes act { m with scopes := m.scopes.push } a m₁) :
    env.Completes (fun g => Action.withScope (act g)) m a
      { m₁ with scopes := m₁.scopes.truncate m.scopes.depth } := by
  obtain ⟨least, ran⟩ := ran
  exact ⟨least, fun fuel enough => afterwards_of_ok (ran fuel enough)⟩

/-- The action under the frame of an instruction. -/
theorem stepped {work : Engine → Action Flow} {i : Instr} {flow : Flow}
    (ran : env.Completes work (m.entered i) flow m₁) (context : m₁.context = (m.entered i).context)
    (depth : m₁.scopes.depth = m.scopes.depth) :
    env.Completes (fun g => Machine.stepped i (work g)) m flow
      { m₁ with context := m.context } := by
  obtain ⟨least, ran⟩ := ran
  exact ⟨least, fun fuel enough => Machine.stepped_of_ok (ran fuel enough) context depth⟩

end Env.Completes

/-! ## Passes -/

namespace Machine

open TraceLang.Action

/-- The machine in which a pass over the body of a loop begins: the loop is marked, and an
empty scope is open. -/
def passing (m : Machine) (loop : Site) : Machine :=
  { m with iterating := loop.setMark true m.iterating, scopes := m.scopes.push }

/-- The machine after a pass that began on `m`: mark and scopes are as they were. -/
def passed (m' : Machine) (loop : Site) (m : Machine) : Machine :=
  { m' with
    iterating := loop.setMark (m.isIterating loop) m'.iterating
    scopes := m'.scopes.truncate m.scopes.depth }

theorem pass_of_ok {act : Action Flow} {m m' : Machine} {loop : Site} {flow : Flow}
    (ran : act (m.passing loop) = .ok flow m') :
    withIterating loop (withScope act) m = .ok flow (m'.passed loop m) :=
  afterwards_of_ok (afterwards_of_ok ran)

section

variable (env : Env) (unit : Nat) (path : Path) (step : Instr) (cond : Expr) (body : List Instr)

/-- The passes of a loop that ends because its condition does not hold: the machines in
which the runs of its body begin, and the machine at the end. -/
inductive Rounds : Machine → List Machine → Machine → Prop
  | done {m m' : Machine} (test : env.Completes (evalCondition · cond) m false m') :
    Rounds m [] m'
  | pass {m m₁ m₂ m₃ m' : Machine} {flow : Flow} {starts : List Machine}
    (test : env.Completes (evalCondition · cond) m true m₁)
    (ran : env.Completes (runBlock · unit path.body 0 body) (m₁.passing ⟨unit, path⟩) flow m₂)
    (proceeds : flow = .next ∨ flow = .again)
    (stepped : env.Completes (execute · unit path.second step) (m₂.passed ⟨unit, path⟩ m₁) .next
      m₃)
    (others : Rounds m₃ starts m') : Rounds m (m₁.passing ⟨unit, path⟩ :: starts) m'

end

theorem repeatWhile_of_false {cond : Action Bool} {body : Action Flow} {step : Action Unit}
    {n : Nat} {m m' : Machine} (test : cond m = .ok false m') :
    repeatWhile cond body step (n + 1) m = .ok .next m' := by
  rw [repeatWhile, bind_of_ok test]
  rfl

theorem repeatWhile_of_true {cond : Action Bool} {body : Action Flow} {step : Action Unit}
    {n : Nat} {m m₁ m₂ m₃ : Machine} {flow : Flow} (test : cond m = .ok true m₁)
    (ran : body m₁ = .ok flow m₂) (proceeds : flow = .next ∨ flow = .again)
    (stepped : step m₂ = .ok () m₃) :
    repeatWhile cond body step (n + 1) m = repeatWhile cond body step n m₃ := by
  rw [repeatWhile, bind_of_ok test, if_pos rfl, bind_of_ok ran]
  rcases proceeds with rfl | rfl <;> exact bind_of_ok stepped

variable {env : Env} {unit : Nat} {path : Path} {step : Instr} {cond : Expr} {body : List Instr}
  {m m' : Machine} {starts : List Machine}

theorem Rounds.unique {m'' : Machine} {starts' : List Machine}
    (first : Rounds env unit path step cond body m starts m')
    (second : Rounds env unit path step cond body m starts' m'') : starts = starts' ∧ m' = m'' := by
  induction first generalizing starts' with
  | done test =>
    cases second with
    | done test' => exact ⟨rfl, (test.unique test').2⟩
    | pass test' => cases (test.unique test').1
  | pass test ran _ stepped _ ih =>
    cases second with
    | done test' => cases (test.unique test').1
    | pass test' ran' _ stepped' others' =>
      obtain ⟨-, rfl⟩ := test.unique test'
      obtain ⟨-, rfl⟩ := ran.unique ran'
      obtain ⟨-, rfl⟩ := stepped.unique stepped'
      obtain ⟨rfl, rfl⟩ := ih others'
      exact ⟨rfl, rfl⟩

/-- Fuel for one pass more than there are is enough. -/
theorem Rounds.repeats (rounds : Rounds env unit path step cond body m starts m') :
    ∃ least, ∀ fuel, least ≤ fuel → ∀ n, starts.length < n →
      repeatWhile (evalCondition (env.engine fuel) cond)
        (withIterating ⟨unit, path⟩
          (withScope (runBlock (env.engine fuel) unit path.body 0 body)))
        (do expectNext true (← execute (env.engine fuel) unit path.second step)) n m =
      .ok .next m' := by
  induction rounds with
  | done test =>
    obtain ⟨least, stops⟩ := test
    refine ⟨least, fun fuel enough n more => ?_⟩
    obtain ⟨n, rfl⟩ := Nat.exists_eq_add_one_of_ne_zero (Nat.ne_of_gt more)
    exact repeatWhile_of_false (stops fuel enough)
  | @pass m m₁ m₂ m₃ _ flow starts test ran proceeds stepped _ ih =>
    obtain ⟨l₁, goesOn⟩ := test
    obtain ⟨l₂, ran⟩ := ran
    obtain ⟨l₃, stepped⟩ := stepped
    obtain ⟨l₄, rest⟩ := ih
    refine ⟨max (max l₁ l₂) (max l₃ l₄), fun fuel enough n more => ?_⟩
    obtain ⟨n, rfl⟩ := Nat.exists_eq_add_one_of_ne_zero (Nat.ne_of_gt (Nat.zero_lt_of_lt more))
    have header : (execute (env.engine fuel) unit path.second step >>= expectNext true)
        (m₂.passed ⟨unit, path⟩ m₁) = .ok () m₃ := bind_of_ok (stepped fuel (by omega))
    exact (repeatWhile_of_true (goesOn fuel (by omega)) (pass_of_ok (ran fuel (by omega))) proceeds
      header).trans (rest fuel (by omega) n (Nat.lt_of_succ_lt_succ more))

theorem Rounds.completes (rounds : Rounds env unit path step cond body m starts m') :
    env.Completes (fun g => repeatWhile (evalCondition g cond)
      (withIterating ⟨unit, path⟩ (withScope (runBlock g unit path.body 0 body)))
      (do expectNext true (← execute g unit path.second step)) g.fuel) m .next m' := by
  obtain ⟨least, repeats⟩ := rounds.repeats
  exact ⟨max least (starts.length + 1), fun fuel enough =>
    repeats fuel (by omega) fuel (by omega)⟩

/-- A loop whose initializer ends, whose passes come to an end, and that leaves the stacks as
it found them. -/
theorem Rounds.forLoop_completes {init : Instr} {span : Span} {begun last : Machine}
    (rounds : Rounds env unit path step cond body begun starts last)
    (declared : env.Completes (execute · unit path.first init)
      { m.entered (.forLoop span init step cond body) with scopes := m.scopes.push } .next begun)
    (context : last.context = (m.entered (.forLoop span init step cond body)).context)
    (scopes : last.scopes.truncate m.scopes.depth = m.scopes) :
    env.Completes (execute · unit path (.forLoop span init step cond body)) m .next
      { last with scopes := m.scopes, context := m.context } := by
  have header : env.Completes (fun _ => expectNext false .next) begun () begun :=
    .of_ok fun _ => rfl
  have work : env.Completes (fun g => withScope do
      expectNext false (← execute g unit path.first init)
      repeatWhile (evalCondition g cond)
        (withIterating ⟨unit, path⟩ (withScope (runBlock g unit path.body 0 body)))
        (do expectNext true (← execute g unit path.second step)) g.fuel)
      (m.entered (.forLoop span init step cond body)) .next
      { last with scopes := last.scopes.truncate m.scopes.depth } :=
    .withScope (.bind declared (.bind header rounds.completes))
  rw [scopes] at work
  obtain ⟨least, ran⟩ := work.stepped context rfl
  refine ⟨least, fun fuel enough => ?_⟩
  unfold execute
  exact ran fuel enough

end Machine

/-! ## The header of a counting loop -/

/-- The variable holds this integer. -/
def Heap.HasInt (h : Heap) (c : CellId) (k : Int) : Prop :=
  (h.read c).assigned ∧ ∃ x : Int64, (h.read c).value = .int x ∧ x.toInt = k

/-- The expression has this value wherever it is evaluated. -/
def Expr.Gives (e : Expr) (n : Int64) : Prop :=
  ∀ g m, Machine.Yields g m e n

/-- The parts of `for (int name = a; name < b; name = name + 1)`, wherever they stand and
however the bounds are written. -/
inductive CountsUp (name : String) (a b : Int64) : (init step : Instr) → (cond : Expr) → Prop
  | header {s₁ s₂ s₃ s₄ s₅ s₆ s₇ s₈ : Span} {low high : Expr} (low_gives : low.Gives a)
    (high_gives : high.Gives b) :
    CountsUp name a b (.declare s₁ { name, ty := .int, init := low })
      (.assign s₂ (.var s₃ name) (.binary s₄ .add (.var s₅ name) (.int s₆ 1)))
      (.binary s₇ .lt (.var s₈ name) high)

/-- An integer that is less than another can be increased. -/
theorem fits_succ {x y : Int64} (less : x.toInt < y.toInt) : fits (x.toInt + 1) := by
  have low := x.minValue_le_toInt
  have high := y.toInt_le
  exact fits_iff.mpr ⟨by omega, by omega⟩

namespace Heap.HasInt

variable {h : Heap} {c d : CellId} {k : Int}

theorem inHeap (has : h.HasInt c k) : c.index < h.cells.size := by
  obtain ⟨-, x, isInt, -⟩ := has
  by_cases inside : c.index < h.cells.size
  · exact inside
  · simp [Heap.read, Array.getD, inside, Variable.fresh] at isInt

theorem assign_ne (has : h.HasInt c k) (different : c ≠ d) (v : Value) :
    (h.assign d v).HasInt c k := by
  rw [HasInt, Heap.assign, read_modify_ne different]
  exact has

theorem increase {y : Int64} (has : h.HasInt c k) (less : k < y.toInt) :
    (h.assign c (.int (Int64.ofInt (k + 1)))).HasInt c (k + 1) := by
  rw [HasInt, Heap.assign, read_modify_self has.inHeap]
  obtain ⟨-, x, -, rfl⟩ := has
  exact ⟨rfl, Int64.ofInt (x.toInt + 1), rfl, toInt_ofInt_of_fits (fits_succ less)⟩

end Heap.HasInt

/-- A constant expression of the arithmetic operators. -/
theorem Expr.gives_of_exact {e : Expr} {n : Int64} (arithmetic : e.isArithmetic)
    (closed : ∀ span name, .var span name ∉ e.postorder)
    (sound : ∀ s ∈ e.postorder, s.isSound fun _ => 0) (value : e.exact (fun _ => 0) = n.toInt) :
    e.Gives n := by
  intro g m
  have exactly := Machine.exact_of_arithmetic (g := g) (m := m) (ρ := fun _ => 0) e arithmetic
    fun span name inside => absurd inside (closed span name)
  obtain ⟨x, yields, same⟩ := exactly.ok sound
  obtain rfl : x = n := Int64.toInt_inj.mp (same.trans value)
  exact yields

namespace Machine

open TraceLang.Action

variable {settings : Settings} {g : Engine} {n : Machine} {name : String} {c : CellId} {k : Int}
  {a b x : Int64} {e : Expr} {span s₁ s₂ : Span}

theorem hasInt_of_find? (found : n.scopes.find? name = some c) (has : n.heap.HasInt c k) :
    n.HasInt name k := by
  obtain ⟨assigned, x, isInt, value⟩ := has
  exact ⟨n.heap.read c, x, by rw [lookup?, found]; rfl, assigned, isInt, value⟩

/-- A simple instruction whose work changes variables and the innermost scope. -/
theorem stepped_recorded (settings : Settings) (span : Span) (i : Instr) (n : Machine) (heap : Heap)
    (scopes : Scopes) (depth : scopes.depth = n.scopes.depth) :
    ∃ steps tracer output, ∀ act : Action Unit,
      act (n.entered i) = .ok () { n.entered i with heap, scopes } →
        stepped i (do act; recordTraces settings span; return .next) n =
          .ok .next { n with heap, scopes, steps, tracer, output } := by
  let worked : Machine := { n.entered i with heap, scopes }
  refine ⟨worked.steps, (worked.tracer.update heap worked.steps span).2,
    worked.recordOutput settings span, fun act ran => ?_⟩
  have recorded : (do act; recordTraces settings span; return .next : Action Flow) (n.entered i) =
      .ok .next { worked with
        tracer := (worked.tracer.update heap worked.steps span).2
        output := worked.recordOutput settings span } := by
    rw [bind_of_ok ran, bind_of_ok (recordTraces_eq settings span worked)]
    rfl
  exact stepped_of_ok recorded rfl depth

/-- The declaration of a variable in a scope without variables. -/
theorem declare_of_yields {d : Declaration} (valid : isValidName d.name) (isInt : d.ty = .int)
    (isNew : d.mode = .mustNotExist) (free : n.scopes.findLocal? d.name = none)
    (yields : Yields g n d.init a) :
    declare g d n = .ok ⟨n.heap.cells.size⟩ (n.bound d.name (.int a) d.assigned) := by
  obtain ⟨v, ran, assigned, value⟩ := yields
  have checked : checkDeclaration d n = .ok () n := by
    simp [checkDeclaration, valid, isNew, free]
  have fits : v.value.isOf d.ty := by rw [value, isInt]; rfl
  rw [declare, bind_of_ok checked, bind_of_ok ran, bindChecked,
    bind_of_ok (used_of_assigned assigned)]
  refine (congrFun (if_neg (by simp [fits])) n).trans ?_
  rw [value]
  rfl

/-- The assignment of an integer to a variable. -/
theorem assign_of_yields (nonempty : name ≠ "") (yields : Yields g n e x)
    (found : n.scopes.find? name = some c) :
    assign g (.var span name) e n = .ok () { n with heap := n.heap.assign c (.int x) } := by
  obtain ⟨v, ran, assigned, value⟩ := yields
  have evaluated : evalValue g e n = .ok v n := by
    rw [evalValue, bind_of_ok ran, used_of_assigned assigned]
  have resolved : resolve g (.var span name) n = .ok c n := by
    rw [resolve]
    refine located_of_ok ?_
    rw [locate, found]
  rw [assign, if_neg (by simpa [Expr.rootName?] using nonempty), bind_of_ok evaluated,
    bind_of_ok resolved, value]
  rfl

theorem evalCondition_less (has : n.HasInt name k) (gives : e.Gives b) :
    evalCondition g (.binary s₁ .lt (.var s₂ name) e) n = .ok (decide (k < b.toInt)) n := by
  obtain ⟨x, yields, rfl⟩ := yields_var g s₂ has
  have compared : eval g (.binary s₁ .lt (.var s₂ name) e) n =
      .ok (.fresh (.bool (decide (x.toInt < b.toInt)))) n := by
    rw [eval_binary_of_yields (by decide) (by decide) yields (gives g n)]
    exact located_of_ok (applyBinary_of_ok rfl)
  rw [evalCondition, bind_of_ok compared, truth, bind_of_ok (used_of_assigned rfl)]
  rfl

theorem yields_successor (has : n.HasInt name k) (less : k < b.toInt) :
    Yields g n (.binary span .add (.var s₁ name) (.int s₂ 1)) (Int64.ofInt (k + 1)) := by
  have ⟨now, small⟩ : fits k ∧ fits (k + 1) := by
    obtain ⟨-, x, -, -, -, rfl⟩ := has
    exact ⟨fits_toInt x, fits_succ less⟩
  have exactly : Exact g n (fun _ => k) (.binary span .add (.var s₁ name) (.int s₂ 1)) :=
    exact_binary rfl (exact_var has) (exact_int 1)
  have sound : ∀ s ∈ (Expr.binary span .add (.var s₁ name) (.int s₂ 1)).postorder,
      s.isSound fun _ => k := by
    simp only [Expr.postorder, List.forall_mem_append, List.forall_mem_singleton]
    exact ⟨⟨now, fits_toInt 1⟩, small⟩
  obtain ⟨y, yields, value⟩ := exactly.ok sound
  obtain rfl : y = Int64.ofInt (k + 1) :=
    Int64.toInt_inj.mp (value.trans (toInt_ofInt_of_fits small).symm)
  exact yields

/-- `name = name + 1` for a variable that is not at the top of the range. -/
theorem execute_increment (settings : Settings) (nonempty : name ≠ "")
    (found : n.scopes.find? name = some c) (has : n.heap.HasInt c k) (less : k < b.toInt)
    (s₁ s₂ s₃ s₄ s₅ : Span) :
    ∃ steps tracer output, ∀ fuel unit path, execute ((Env.standard settings).engine fuel) unit path
        (.assign s₁ (.var s₂ name) (.binary s₃ .add (.var s₄ name) (.int s₅ 1))) n =
      .ok .next { n with
        heap := n.heap.assign c (.int (Int64.ofInt (k + 1))), steps, tracer, output } := by
  let i : Instr := .assign s₁ (.var s₂ name) (.binary s₃ .add (.var s₄ name) (.int s₅ 1))
  have has' : (n.entered i).HasInt name k := hasInt_of_find? found has
  obtain ⟨steps, tracer, output, ran⟩ := stepped_recorded settings s₁ i n
    (n.heap.assign c (.int (Int64.ofInt (k + 1)))) n.scopes rfl
  refine ⟨steps, tracer, output, fun fuel unit path => ?_⟩
  unfold execute
  exact ran _ (assign_of_yields nonempty (yields_successor has' less) found)

/-- `continue` within a loop. -/
theorem execute_again (inLoop : (n.entered (.again span)).context.loopDepth ≠ 0) (g : Engine)
    (unit : Nat) (path : Path) :
    execute g unit path (.again span) n = .ok .again { n with steps := n.steps + 1 } := by
  unfold execute
  have allowed : control (fun c => c.loopDepth ≠ 0) .again .again (n.entered (.again span)) =
      .ok .again (n.entered (.again span)) := if_pos (decide_eq_true inLoop)
  exact stepped_of_ok allowed rfl rfl

/-! ## Inside a counting loop -/

/-- The variable with which a loop counts that is entered from this machine. -/
def counter (m : Machine) : CellId :=
  ⟨m.heap.cells.size⟩

/-- The scopes around the passes of this loop. -/
def countingScopes (m : Machine) (name : String) : Scopes :=
  m.scopes.push.define name m.counter

/-- The machine `n` is in the loop that was entered from `m`, with these scopes open. -/
structure Inside (m : Machine) (loop : Instr) (scopes : Scopes) (n : Machine) : Prop where
  context : n.context = (m.entered loop).context
  callDepth : n.callDepth = m.callDepth
  functions : ∀ f d, m.function? f = some d → n.function? f = some d
  scopes : n.scopes = scopes

variable {m n' : Machine} {loop : Instr} {scopes : Scopes} {site : Site} {unit : Nat} {path : Path}
  {init step : Instr} {cond : Expr} {body : List Instr} {inv : Int → Heap → Prop}

theorem Inside.passing (inside : m.Inside loop scopes n) (site : Site) :
    m.Inside loop scopes.push (n.passing site) :=
  ⟨inside.context, inside.callDepth, inside.functions, congrArg Scopes.push inside.scopes⟩

/-- After a pass the scopes are those from before. -/
theorem Inside.passed (inside : m.Inside loop scopes n) (kept : KeptBelow (n.passing site) n') :
    m.Inside loop scopes (n'.passed site n) where
  context := kept.context.trans inside.context
  callDepth := kept.callDepth.trans inside.callDepth
  functions f d found := kept.functions f d (inside.functions f d found)
  scopes := by
    rw [← inside.scopes]
    refine Scopes.truncate_of_below (kept.depth.trans (Scopes.depth_push _)) ?_
    rw [kept.below]
    simp [Machine.passing, Scopes.push]

theorem Inside.denotes (inside : m.Inside loop (m.countingScopes name) n) :
    n.scopes.find? name = some m.counter := by
  rw [inside.scopes]
  exact Scopes.find?_define_self ..

theorem block_kept {fuel : Nat} {flow : Flow} (settings : Settings)
    (ran : runBlock ((Env.standard settings).engine fuel) unit path 0 body n = .ok flow n') :
    KeptBelow n n' := by
  have rule := stacks_govern tolerates_all
  have every : Instr.EveryOf (fun _ => True) body := Instr.everyOf_of_forall (fun _ => trivial) body
  have has := runBlock_has rule (standard_call_has rule settings fuel) unit path 0 body every
  exact ((has n (plainEffect_inv n)).of_ok ran).2

/-- The initializer makes the counter. -/
theorem declare_counter (counts : CountsUp name a b init step cond) (valid : isValidName name)
    (settings : Settings) (unit : Nat) (path : Path) (m : Machine) (loop : Instr) :
    ∃ n, (Env.standard settings).Completes (execute · unit path init)
        { m.entered loop with scopes := m.scopes.push } .next n ∧
      m.Inside loop (m.countingScopes name) n ∧
      n.heap = (m.heap.alloc { value := .int a, name := some name }).2 := by
  cases counts with
  | @header s₁ _ _ _ _ _ _ _ low _ ofLow _ =>
    let start : Machine := { m.entered loop with scopes := m.scopes.push }
    let heap := (m.heap.alloc { value := .int a, name := some name }).2
    let d : Declaration := { name, ty := .int, init := low }
    have free : (start.entered (.declare s₁ d)).scopes.findLocal? name = none := by
      rw [Scopes.findLocal?]
      show m.scopes.push.innermost.lookup name = none
      rw [Scopes.innermost_push]
      rfl
    obtain ⟨steps, tracer, output, ran⟩ := stepped_recorded settings s₁ (.declare s₁ d) start heap
      (m.countingScopes name) (Scopes.depth_define ..)
    refine ⟨{ start with heap, scopes := m.countingScopes name, steps, tracer, output },
      .of_ok fun fuel => ?_, ⟨rfl, rfl, fun _ _ found => found, rfl⟩, rfl⟩
    unfold execute
    exact ran _ (bind_of_ok (declare_of_yields valid rfl rfl free (ofLow _ _)))

/-- The step increases the counter. -/
theorem increase_counter (counts : CountsUp name a b init step cond) (valid : isValidName name)
    (settings : Settings) (unit : Nat) (path : Path)
    (inside : m.Inside loop (m.countingScopes name) n) (has : n.heap.HasInt m.counter k)
    (less : k < b.toInt) :
    ∃ n', (Env.standard settings).Completes (execute · unit path step) n .next n' ∧
      m.Inside loop (m.countingScopes name) n' ∧
      n'.heap = n.heap.assign m.counter (.int (Int64.ofInt (k + 1))) := by
  cases counts with
  | @header _ s₂ s₃ s₄ s₅ s₆ =>
    have nonempty : name ≠ "" := by
      rintro rfl
      cases valid
    obtain ⟨steps, tracer, output, ran⟩ :=
      execute_increment settings nonempty inside.denotes has less s₂ s₃ s₄ s₅ s₆
    exact ⟨_, .of_ok fun fuel => ran fuel unit path,
      ⟨inside.context, inside.callDepth, inside.functions, inside.scopes⟩, rfl⟩

/-- The condition compares the counter. -/
theorem test_counter (counts : CountsUp name a b init step cond) (settings : Settings)
    (inside : m.Inside loop (m.countingScopes name) n) (has : n.heap.HasInt m.counter k) :
    (Env.standard settings).Completes (evalCondition · cond) n (decide (k < b.toInt)) n := by
  cases counts with
  | header _ ofHigh =>
    exact .of_ok fun fuel => evalCondition_less (hasInt_of_find? inside.denotes has) ofHigh

/-! ## Counting loops -/

/-- Every run of the body with the counter at `k` comes to an end and proceeds, with the
counter as it was and the invariant ready for the next pass. -/
def Sustains (settings : Settings) (unit : Nat) (path : Path) (body : List Instr) (m : Machine)
    (loop : Instr) (name : String) (inv : Int → Heap → Prop) (k : Int) : Prop :=
  ∀ n, m.Inside loop (m.countingScopes name).push n → n.heap.HasInt m.counter k → inv k n.heap →
    ∃ flow n', (Env.standard settings).Completes (runBlock · unit path.body 0 body) n flow n' ∧
      (flow = .next ∨ flow = .again) ∧ n'.heap.HasInt m.counter k ∧
      inv (k + 1) (n'.heap.assign m.counter (.int (Int64.ofInt (k + 1))))

/-- One pass and one step of the count. -/
theorem rounds_step (counts : CountsUp name a b init step cond) (valid : isValidName name)
    (inside : m.Inside loop (m.countingScopes name) n) (has : n.heap.HasInt m.counter k)
    (ready : inv k n.heap) (less : k < b.toInt)
    (sustains : Sustains settings unit path body m loop name inv k) :
    ∃ n', m.Inside loop (m.countingScopes name) n' ∧ n'.heap.HasInt m.counter (k + 1) ∧
      inv (k + 1) n'.heap ∧ ∀ starts last,
        Rounds (Env.standard settings) unit path step cond body n' starts last →
        Rounds (Env.standard settings) unit path step cond body n
          (n.passing ⟨unit, path⟩ :: starts) last := by
  have test := test_counter counts settings inside has
  rw [decide_eq_true less] at test
  obtain ⟨flow, n₁, ran, proceeds, has₁, next⟩ := sustains _ (inside.passing ⟨unit, path⟩) has ready
  have inside₁ : m.Inside loop (m.countingScopes name) (n₁.passed ⟨unit, path⟩ n) := by
    obtain ⟨least, ran⟩ := ran
    exact inside.passed (block_kept settings (ran least (Nat.le_refl least)))
  obtain ⟨n₂, stepped, inside₂, heap⟩ :=
    increase_counter counts valid settings unit path.second inside₁ has₁ less
  refine ⟨n₂, inside₂, ?_, ?_, fun _ _ => .pass test ran proceeds stepped⟩
  · rw [heap]
    exact has₁.increase less
  · rw [heap]
    exact next

/-- All passes that are left. -/
theorem exists_rounds (counts : CountsUp name a b init step cond) (valid : isValidName name)
    (sustains : ∀ k, a.toInt ≤ k → k < b.toInt →
      Sustains settings unit path body m loop name inv k)
    (left : Nat) : ∀ {k : Int} {n : Machine}, (b.toInt - k).toNat = left → a.toInt ≤ k →
      m.Inside loop (m.countingScopes name) n → n.heap.HasInt m.counter k → inv k n.heap →
      ∃ starts last, Rounds (Env.standard settings) unit path step cond body n starts last ∧
        starts.length = left ∧
        (∀ (j : Nat) s, starts[j]? = some s → m.Inside loop (m.countingScopes name).push s ∧
          s.heap.HasInt m.counter (k + j) ∧ inv (k + j) s.heap) ∧
        m.Inside loop (m.countingScopes name) last ∧ inv (max k b.toInt) last.heap := by
  induction left with
  | zero =>
    intro k n none _ inside has ready
    have test := test_counter counts settings inside has
    rw [decide_eq_false (by omega)] at test
    rw [← Int.max_eq_left (show b.toInt ≤ k by omega)] at ready
    exact ⟨[], n, .done test, rfl, by simp, inside, ready⟩
  | succ left ih =>
    intro k n some low inside has ready
    have less : k < b.toInt := by omega
    obtain ⟨n', inside', has', ready', rounds⟩ :=
      rounds_step counts valid inside has ready less (sustains k low less)
    obtain ⟨starts, last, others, length, passes, insideLast, final⟩ :=
      ih (by omega) (by omega) inside' has' ready'
    refine ⟨_, last, rounds starts last others, by simp [length], fun j s found => ?_, insideLast,
      ?_⟩
    · cases j with
      | zero =>
        cases found
        simpa using ⟨inside.passing ⟨unit, path⟩, has, ready⟩
      | succ j =>
        have later := passes j s (by simpa using found)
        rw [Int.natCast_succ, Int.add_comm (j : Int), ← Int.add_assoc]
        exact later
    · rw [Int.max_eq_right (by omega)] at final ⊢
      exact final

theorem truncate_countingScopes (m : Machine) (name : String) :
    (m.countingScopes name).truncate m.scopes.depth = m.scopes := by
  refine Scopes.truncate_of_below ?_ ?_
  · rw [countingScopes, Scopes.depth_define, Scopes.depth_push]
  · rw [countingScopes, Scopes.pop_define]
    simp [Scopes.push]

/-- A loop that counts from `a` up to `b` comes to an end in every machine if the runs of its
body do. It makes one pass for each integer from `a` on that is less than `b`, in this order,
each with the counter at this integer and an empty scope for itself. At the end the scopes and
frames are those from before, so the name of the counter denotes what it did. -/
theorem execute_counting (settings : Settings) (unit : Nat) (path : Path) (m : Machine)
    (counts : CountsUp name a b init step cond) (valid : isValidName name)
    (first : inv a.toInt (m.heap.alloc { value := .int a, name := some name }).2)
    (sustains : ∀ k, a.toInt ≤ k → k < b.toInt →
      Sustains settings unit path body m (.forLoop span init step cond body) name inv k) :
    ∃ begun starts last,
      (Env.standard settings).Completes (execute · unit path.first init)
        { m.entered (.forLoop span init step cond body) with scopes := m.scopes.push } .next begun ∧
      Rounds (Env.standard settings) unit path step cond body begun starts last ∧
      (∀ starts' last',
        Rounds (Env.standard settings) unit path step cond body begun starts' last' →
          starts' = starts) ∧
      (Env.standard settings).Completes (execute · unit path (.forLoop span init step cond body)) m
        .next { last with scopes := m.scopes, context := m.context } ∧
      starts.length = (b.toInt - a.toInt).toNat ∧
      (∀ (j : Nat) s, starts[j]? = some s → s.HasInt name (a.toInt + j) ∧
        s.heap.HasInt m.counter (a.toInt + j) ∧ s.scopes = (m.countingScopes name).push ∧
        s.scopes.innermost = [] ∧ inv (a.toInt + j) s.heap) ∧
      inv (max a.toInt b.toInt) last.heap := by
  obtain ⟨begun, declared, inside, heap⟩ := declare_counter counts valid settings unit path.first m
    (.forLoop span init step cond body)
  have has : begun.heap.HasInt m.counter a.toInt := by
    rw [heap]
    simp [Heap.HasInt, counter, Heap.alloc, Heap.read, Array.getD]
  obtain ⟨starts, last, rounds, length, passes, insideLast, final⟩ :=
    exists_rounds counts valid sustains _ rfl (Int.le_refl _) inside has (by rwa [heap])
  refine ⟨begun, starts, last, declared, rounds, fun _ _ others => (others.unique rounds).1, ?_,
    length, fun j s found => ?_, final⟩
  · refine rounds.forLoop_completes declared insideLast.context ?_
    rw [insideLast.scopes, truncate_countingScopes]
  · obtain ⟨insidePass, counted, ready⟩ := passes j s found
    have empty : s.scopes.innermost = [] := by
      rw [insidePass.scopes, Scopes.innermost_push]
    have denotes : s.scopes.find? name = some m.counter := by
      rw [insidePass.scopes, Scopes.find?_push]
      exact Scopes.find?_define_self ..
    exact ⟨hasInt_of_find? denotes counted, counted, insidePass.scopes, empty, ready⟩

/-- Three passes at the top of the range, with another counter and a `continue` in the body. -/
theorem execute_counting_top :
    let high : Expr := .int {} Int64.maxValue
    let m : Machine :=
      { heap := { cells := #[.fresh (.int 0)] }, scopes := Scopes.global.define "count" ⟨0⟩ }
    let count : Expr := .var {} "count"
    let loop : Instr := .forLoop {}
      (.declare {} { name := "i", ty := .int, init := .binary {} .sub high (.int {} 3) })
      (.assign {} (.var {} "i") (.binary {} .add (.var {} "i") (.int {} 1)))
      (.binary {} .lt (.var {} "i") high)
      [.assign {} count (.binary {} .add count (.int {} 1)), .again {}]
    ∃ m', (Env.standard {}).Completes (execute · 0 [] loop) m .next m' ∧ m'.heap.HasInt ⟨0⟩ 3 ∧
      m'.scopes = m.scopes := by
  intro high m count loop
  let i : Int64 := 9223372036854775804
  have ofLow : (Expr.binary {} .sub high (.int {} 3)).Gives i :=
    Expr.gives_of_exact rfl (by simp [high, Expr.postorder]) (by decide +kernel) (by decide +kernel)
  have ofHigh : high.Gives Int64.maxValue :=
    Expr.gives_of_exact rfl (by simp [high, Expr.postorder]) (by decide +kernel) rfl
  have sustains : ∀ k, i.toInt ≤ k → k < Int64.maxValue.toInt →
      Sustains {} 0 [] [.assign {} count (.binary {} .add count (.int {} 1)), .again {}] m loop "i"
        (fun k h => h.HasInt ⟨0⟩ (k - i.toInt)) k := by
    intro k _ below n inside has ready
    have found : n.scopes.find? "count" = some ⟨0⟩ := by
      rw [inside.scopes]
      rfl
    have less : k - i.toInt < Int64.maxValue.toInt :=
      Int.lt_of_le_of_lt (Int.sub_le_self k (by decide)) below
    obtain ⟨steps, tracer, output, ran⟩ :=
      execute_increment {} (by decide) found ready less {} {} {} {} {}
    let counted : Machine := { n with
      heap := n.heap.assign ⟨0⟩ (.int (Int64.ofInt (k - i.toInt + 1))), steps, tracer, output }
    have inLoop : (counted.entered (.again {})).context.loopDepth ≠ 0 := by
      simp [counted, entered, inside.context, Context.loopDepth_push, frame, Status.isLoop, loop]
    refine ⟨.again, { counted with steps := counted.steps + 1 }, .of_ok fun fuel => ?_, .inr rfl,
      has.assign_ne (by decide) _, ?_⟩
    · rw [runBlock, bind_of_ok (ran fuel 0 _)]
      show runBlock _ _ _ _ [.again {}] counted = _
      rw [runBlock, bind_of_ok (execute_again inLoop ..)]
      rfl
    · have more := (ready.increase less).assign_ne (d := m.counter) (by decide)
        (.int (Int64.ofInt (k + 1)))
      show Heap.HasInt _ _ (k + 1 - i.toInt)
      rw [← show k - i.toInt + 1 = k + 1 - i.toInt by omega]
      exact more
  obtain ⟨_, _, last, -, -, -, ran, -, -, final⟩ := execute_counting {} 0 [] m
    (.header ofLow ofHigh) (by decide) ⟨rfl, 0, rfl, by decide⟩ sustains
  exact ⟨_, ran, final, rfl⟩

end Machine

end TraceLang
