/-
# TraceLang.Proofs.Accord — engines that run a program in the same way

Two engines with the same builtin functions and the same say about the echo can
differ in how they call user functions: under another limit, with other fuel, or
under watch. An accord says what is compared: the machines that occur, the faults
of the first engine that the second need not share, and whether actions may run
out of fuel. `k.Agrees act act'` says that the actions end in the same way on one
and the same machine, with the very same machine left behind.

All that happens between calls is plain: it ends, it opens and closes the same
scopes and frames, and it leaves the functions, the count of calls and the marks of
loops alone. So two engines agree on every instruction if they agree on calls
(`execute_agrees`), provided that they agree on loops where loops occur. Engines can
agree on calls at some stages of a run only: a `Stage` tells how many calls are in
progress and which loops are marked.
-/
import TraceLang.Proofs.Coupling.Basic

namespace TraceLang

set_option autoImplicit false

/-! ## Plain actions -/

/-- How far a run has come: the calls of user functions in progress and the loops that
are marked. -/
structure Stage where
  calls : Nat
  loops : List Site

/-- One more call. -/
def Stage.call (s : Stage) : Stage :=
  { s with calls := s.calls + 1 }

/-- One more pass over the body of a loop. -/
def Stage.pass (s : Stage) (loop : Site) : Stage :=
  { s with loops := loop.setMark true s.loops }

def Machine.stage (m : Machine) : Stage :=
  ⟨m.callDepth, m.iterating⟩

/-- The same frames and functions, the same stage, and as many scopes. -/
structure Machine.Calm (m n : Machine) : Prop extends m.Level n where
  stage : n.stage = m.stage
  functions : n.functions = m.functions

theorem Machine.Calm.refl (m : Machine) : m.Calm m :=
  ⟨.refl m, rfl, rfl⟩

theorem Machine.Calm.trans {m n o : Machine} (first : m.Calm n) (second : n.Calm o) : m.Calm o :=
  ⟨first.toLevel.trans second.toLevel, second.stage.trans first.stage,
    second.functions.trans first.functions⟩

/-- The action ended, on a machine that is calm as seen from the first one. -/
inductive Outcome.Calm {α : Type} (m : Machine) : Outcome α → Prop
  | ok {a : α} {n : Machine} (calm : m.Calm n) : Calm m (.ok a n)
  | fault {f : Fault} {n : Machine} (calm : m.Calm n) : Calm m (.fault f n)

namespace Action

/-- The action ends and leaves scopes, frames, functions, the count of calls and the
marks of loops as they are, apart from the names in the scopes. -/
def Plain {α : Type} (act : Action α) : Prop :=
  ∀ m, (act m).Calm m

section

variable {α β : Type} {act : Action α}

theorem plain_pure (a : α) : (pure a : Action α).Plain :=
  fun m => .ok (.refl m)

theorem plain_fail (cause : Cause) : (fail cause : Action α).Plain :=
  fun m => .fault (.refl m)

theorem plain_failAt (cause : Cause) (span : Span) : (failAt cause span : Action α).Plain :=
  fun m => .fault (.refl m)

theorem plain_read (f : Machine → α) : (read f).Plain :=
  fun m => .ok (.refl m)

theorem plain_modify {f : Machine → Machine} (calm : ∀ m : Machine, m.Calm (f m)) :
    (modify f).Plain :=
  fun m => .ok (calm m)

theorem plain_ask (r : Request) : (ask r).Plain := by
  intro m
  unfold ask
  cases m.output.refusal? r with
  | none => exact .ok ⟨⟨rfl, rfl⟩, rfl, rfl⟩
  | some refusal => exact .fault ⟨⟨rfl, rfl⟩, rfl, rfl⟩

theorem plain_onHeap (f : Heap → α × Heap) : (onHeap f).Plain :=
  fun _ => .ok ⟨⟨rfl, rfl⟩, rfl, rfl⟩

theorem plain_bind {first : Action β} {next : β → Action α} (ofFirst : first.Plain)
    (ofNext : ∀ b, (next b).Plain) : (first >>= next).Plain := by
  intro m
  show (Action.bind first next m).Calm m
  have ended := ofFirst m
  unfold Action.bind
  generalize first m = r at ended
  cases ended with
  | fault calm => exact .fault calm
  | @ok b n calm =>
    have ended' := ofNext b n
    simp only
    generalize next b n = r' at ended'
    cases ended' with
    | ok calm' => exact .ok (calm.trans calm')
    | fault calm' => exact .fault (calm.trans calm')

theorem plain_located (span : Span) (plain : act.Plain) : (located span act).Plain := by
  intro m
  have ended := plain m
  unfold located
  generalize act m = r at ended
  cases ended with
  | ok calm => exact .ok calm
  | fault calm => exact .fault calm

theorem plain_ite {p : Prop} [Decidable p] {other : Action α} (yes : act.Plain)
    (no : other.Plain) : (if p then act else other).Plain := by
  split
  · exact yes
  · exact no

end

end Action

/-! ## Parts of expressions and instructions -/

namespace Machine

open TraceLang.Action

theorem locate_plain (name : String) : (locate name).Plain := by
  intro m
  unfold locate
  cases m.scopes.find? name with
  | none => exact .fault (.refl m)
  | some c => exact .ok (.refl m)

theorem used_plain (x : Expr) (v : Variable) : (used x v).Plain :=
  plain_ite (plain_pure _) (plain_failAt _ _)

theorem truth_plain (x : Expr) (v : Variable) : (truth x v).Plain := by
  refine plain_bind (used_plain x v) fun v => ?_
  split
  · exact plain_pure _
  · exact plain_failAt _ _

theorem position_plain (x : Expr) (v : Variable) : (position x v).Plain := by
  refine plain_bind (used_plain x v) fun v => ?_
  split
  · exact plain_pure _
  · exact plain_failAt _ _

theorem ofExcept_plain {α : Type} (result : Except Cause α) : (ofExcept result).Plain := by
  cases result with
  | ok a => exact plain_pure a
  | error cause => exact plain_fail cause

theorem elementOf_plain (l : ListId) (i : Int64) :
    Plain fun m => ofExcept (item (m.heap.elements l) i) m :=
  fun m => ofExcept_plain (item (m.heap.elements l) i) m

theorem element_plain (base : Expr) (v : Variable) (i : Int64) : (element base v i).Plain := by
  unfold element
  split
  · exact plain_bind (elementOf_plain _ i) fun _ => plain_read _
  · exact plain_bind (ofExcept_plain _) fun _ => plain_pure _
  · exact plain_failAt _ _

theorem applyBinary_plain (op : BinOp) (a b : Value) : (applyBinary op a b).Plain := by
  intro m
  unfold applyBinary
  cases Operators.binary m.heap op a b with
  | ok result => exact .ok ⟨⟨rfl, rfl⟩, rfl, rfl⟩
  | error cause => exact .fault (.refl m)

theorem lookup_plain (env : Env) (name : String) : (env.lookup name).Plain := by
  intro m
  unfold Env.lookup
  cases env.callee? m name with
  | none => exact .fault (.refl m)
  | some callee => exact .ok (.refl m)

theorem recordTraces_plain (settings : Settings) (span : Span) :
    (recordTraces settings span).Plain := by
  have echoed (lines : List String) : ∀ m : Machine, m.Calm (lines.foldl echo m) := by
    induction lines with
    | nil => exact .refl
    | cons line rest ih =>
      intro m
      have once : m.Calm (m.echo line) := ⟨⟨rfl, rfl⟩, rfl, rfl⟩
      exact once.trans (ih _)
  refine plain_modify fun m => ?_
  have noted : m.Calm { m with tracer := (m.tracer.update m.heap m.steps span).2 } :=
    ⟨⟨rfl, rfl⟩, rfl, rfl⟩
  dsimp only
  split
  · exact noted
  · exact noted.trans (echoed _ _)

theorem checkDeclaration_plain (d : Declaration) : (checkDeclaration d).Plain := by
  intro m
  unfold checkDeclaration
  cases isValidName d.name with
  | false => exact .fault (.refl m)
  | true =>
    cases m.scopes.findLocal? d.name with
    | none =>
      cases d.mode with
      | mustExist => exact .fault (.refl m)
      | mustNotExist | either => exact .ok (.refl m)
    | some c =>
      cases d.mode with
      | mustNotExist => exact .fault (.refl m)
      | mustExist | either =>
        simp only [Bool.not_true, Bool.false_eq_true, if_false]
        cases (m.heap.read c).traced with
        | true => exact .fault (.refl m)
        | false => exact .ok (.refl m)

theorem bindChecked_plain (d : Declaration) (v : Variable) : (bindChecked d v).Plain := by
  refine plain_bind (used_plain d.init v) fun v => plain_ite (plain_failAt _ _) ?_
  exact fun m => .ok ⟨⟨rfl, Scopes.depth_define ..⟩, rfl, rfl⟩

theorem control_plain (allowed : Context → Bool) (otherwise : Misplaced) (flow : Flow) :
    (control allowed otherwise flow).Plain := by
  intro m
  unfold control
  cases allowed m.context with
  | true => exact .ok (.refl m)
  | false => exact .fault (.refl m)

theorem bindParams_plain (span : Span) : (params : List Param) → (args : List Variable) →
    (bindParams span params args).Plain
  | [], _ | _ :: _, [] => plain_pure ()
  | x :: params, v :: args => by
    unfold bindParams
    refine plain_bind (plain_bind (plain_bind ?_ fun _ => bindChecked_plain _ v)
      fun _ => plain_pure _) fun _ => bindParams_plain span params args
    exact checkDeclaration_plain _

end Machine

namespace Builtins

open TraceLang.Action Machine

theorem one_plain (name : String) (args : List Variable) : (one name args).Plain := by
  unfold one
  split
  · exact plain_pure _
  · exact plain_fail _

theorem two_plain (name : String) (args : List Variable) : (two name args).Plain := by
  unfold two
  split
  · exact plain_pure _
  · exact plain_fail _

theorem print_plain (call : Caller) (args : List Variable) (span : Span) :
    (print call args span).Plain := by
  refine plain_bind (plain_read _) fun texts => plain_bind ?_ fun _ => plain_pure _
  exact plain_bind (plain_ask _) fun _ => plain_ask _

theorem len_plain (call : Caller) (args : List Variable) (span : Span) :
    (len call args span).Plain := by
  refine plain_bind (one_plain _ args) fun v => ?_
  split
  · exact plain_bind (plain_read _) fun _ => ofExcept_plain _
  · exact ofExcept_plain _
  · exact plain_fail _

theorem append_plain (call : Caller) (args : List Variable) (span : Span) :
    (append call args span).Plain := by
  refine plain_bind (two_plain _ args) fun v => ?_
  split
  · exact plain_bind (plain_modify fun _ => ⟨⟨rfl, rfl⟩, rfl, rfl⟩) fun _ => plain_pure _
  · exact plain_fail _

theorem copy_plain (call : Caller) (args : List Variable) (span : Span) :
    (copy call args span).Plain := by
  refine plain_bind (one_plain _ args) fun v => ?_
  split
  · exact plain_onHeap _
  · exact plain_fail _

theorem assert_plain (call : Caller) (args : List Variable) (span : Span) :
    (assert call args span).Plain := by
  refine plain_bind (one_plain _ args) fun v => ?_
  split
  · exact plain_pure _
  · exact plain_fail _
  · exact plain_fail _

/-- The standard functions are plain and make no calls. -/
theorem standard_plain {name : String} {handler : Handler}
    (found : standard.lookup name = some handler) (call call' : Caller) (args : List Variable)
    (span : Span) :
    (handler call args span).Plain ∧ handler call' args span = handler call args span := by
  have listed := mem_of_lookup found
  simp only [standard, List.mem_cons, Prod.mk.injEq, List.not_mem_nil, or_false] at listed
  rcases listed with ⟨-, rfl⟩ | ⟨-, rfl⟩ | ⟨-, rfl⟩ | ⟨-, rfl⟩ | ⟨-, rfl⟩ | ⟨-, rfl⟩
  · exact ⟨print_plain call args span, rfl⟩
  · exact ⟨len_plain call args span, rfl⟩
  · exact ⟨append_plain call args span, rfl⟩
  · exact ⟨copy_plain call args span, rfl⟩
  · exact ⟨plain_bind (one_plain _ args) fun _ => plain_read _, rfl⟩
  · exact ⟨assert_plain call args span, rfl⟩

end Builtins

/-! ## Accords -/

/-- What is compared of two engines that run a program. -/
structure Accord where
  /-- What is known of all instructions. -/
  admits : Instr → Prop
  /-- The faults of the first engine that the second need not share. -/
  excused : Fault → Prop
  /-- Actions may run out of fuel, as long as they do so in both engines. -/
  hangs : Prop
  excused_locate : ∀ {f : Fault} (span : Span), excused f → excused (f.locate span)
  excused_trace : ∀ {f : Fault} (c : Context), excused f → excused (f.trace c)

/-- The machine is at the stage, and all instructions of the functions have the
property. -/
structure Machine.Ready (p : Instr → Prop) (s : Stage) (m : Machine) : Prop where
  stage : m.stage = s
  functions : ∀ name f, m.function? name = some f → f.function.Every p

theorem Machine.Ready.calm {p : Instr → Prop} {s : Stage} {m n : Machine}
    (ready : m.Ready p s) (stage : n.stage = m.stage) (functions : n.functions = m.functions) :
    n.Ready p s := by
  refine ⟨stage.trans ready.stage, fun name f found => ready.functions name f ?_⟩
  rwa [Machine.function?, functions] at found

theorem Machine.Ready.define {p : Instr → Prop} {s : Stage} {m : Machine}
    (ready : m.Ready p s) {f : Defined} (every : f.function.Every p) :
    Machine.Ready p s { m with functions := (f.function.name, f) :: m.functions } := by
  refine ⟨ready.stage, fun name f' found => ?_⟩
  rw [Machine.function?, List.lookup_cons] at found
  split at found
  · cases found
    exact every
  · exact ready.functions name f' found

namespace Accord

variable (k : Accord) (s : Stage)

/-- The two outcomes of actions that started on `m` are the same. -/
inductive Concurs {α : Type} (m : Machine) : Outcome α → Outcome α → Prop
  | ok {a : α} {n : Machine} (level : m.Level n) (ready : n.Ready k.admits s) :
    Concurs m (.ok a n) (.ok a n)
  | fault {f : Fault} {n : Machine} (level : m.Level n) (ready : n.Ready k.admits s) :
    Concurs m (.fault f n) (.fault f n)
  | excused {f : Fault} {n : Machine} {other : Outcome α} (level : m.Level n)
    (ready : n.Ready k.admits s) (excused : k.excused f) : Concurs m (.fault f n) other
  | outOfFuel (hangs : k.hangs) : Concurs m .outOfFuel .outOfFuel

/-- Wherever the two actions start at the stage, their outcomes are the same. -/
def Agrees {α : Type} (act act' : Action α) : Prop :=
  ∀ m, m.Ready k.admits s → k.Concurs s m (act m) (act' m)

variable {k s} {α β : Type} {act act' : Action α}

theorem Concurs.before {m n : Machine} {r r' : Outcome α} (level : m.Level n)
    (concurs : k.Concurs s n r r') : k.Concurs s m r r' := by
  cases concurs with
  | ok level' ready => exact .ok (level.trans level') ready
  | fault level' ready => exact .fault (level.trans level') ready
  | excused level' ready excused => exact .excused (level.trans level') ready excused
  | outOfFuel hangs => exact .outOfFuel hangs

/-- The outcomes are equal unless the first is an excused fault. -/
theorem Concurs.eq_or_excused {m : Machine} {r r' : Outcome α} (concurs : k.Concurs s m r r') :
    r' = r ∨ ∃ f n, r = .fault f n ∧ k.excused f := by
  cases concurs with
  | ok | fault | outOfFuel => exact .inl rfl
  | excused _ _ excused => exact .inr ⟨_, _, rfl, excused⟩

theorem Concurs.ne_outOfFuel {m : Machine} {r r' : Outcome α} (concurs : k.Concurs s m r r')
    (halts : ¬ k.hangs) : r ≠ .outOfFuel := by
  rintro rfl
  cases concurs with
  | outOfFuel hangs => exact halts hangs

theorem agrees_plain (plain : act.Plain) : k.Agrees s act act := by
  intro m ready
  have ended := plain m
  generalize act m = r at ended
  cases ended with
  | ok calm => exact .ok calm.toLevel (ready.calm calm.stage calm.functions)
  | fault calm => exact .fault calm.toLevel (ready.calm calm.stage calm.functions)

theorem agrees_pure (a : α) : k.Agrees s (pure a) (pure a) :=
  agrees_plain (Action.plain_pure a)

/-- The account of a control signal may have no end. -/
theorem agrees_stray (hangs : k.hangs) (defect : String → Defect) (flow : Flow) :
    k.Agrees s (Action.stray defect flow : Action α) (Action.stray defect flow) := by
  intro m ready
  unfold Action.stray
  cases flow.detail m.heap with
  | none => exact .outOfFuel hangs
  | some account => exact .fault (.refl m) ready

theorem agrees_bind {first first' : Action β} {next next' : β → Action α}
    (ofFirst : k.Agrees s first first') (ofNext : ∀ b, k.Agrees s (next b) (next' b)) :
    k.Agrees s (first >>= next) (first' >>= next') := by
  intro m ready
  show k.Concurs s m (Action.bind first next m) (Action.bind first' next' m)
  have concurs := ofFirst m ready
  unfold Action.bind
  generalize first m = r, first' m = r' at concurs
  cases concurs with
  | ok level ready' => exact (ofNext _ _ ready').before level
  | fault level ready' => exact .fault level ready'
  | excused level ready' excused => exact .excused level ready' excused
  | outOfFuel hangs => exact .outOfFuel hangs

theorem agrees_discard (agrees : k.Agrees s act act') : k.Agrees s (discard act) (discard act') :=
  agrees_bind agrees fun _ => agrees_pure ()

theorem agrees_located (span : Span) (agrees : k.Agrees s act act') :
    k.Agrees s (Action.located span act) (Action.located span act') := by
  intro m ready
  have concurs := agrees m ready
  unfold Action.located
  generalize act m = r, act' m = r' at concurs
  cases concurs with
  | ok level ready' => exact .ok level ready'
  | fault level ready' => exact .fault level ready'
  | excused level ready' excused => exact .excused level ready' (k.excused_locate span excused)
  | outOfFuel hangs => exact .outOfFuel hangs

theorem agrees_ite {p : Prop} [Decidable p] {other other' : Action α}
    (yes : k.Agrees s act act') (no : k.Agrees s other other') :
    k.Agrees s (if p then act else other) (if p then act' else other') := by
  split
  · exact yes
  · exact no

/-! ## Brackets and loops -/

/-- The outcomes of actions inside a bracket that started on `n` at another stage, while
the whole started on `m`. -/
theorem concurs_close {t : Stage} {m n : Machine} (close : Machine → Machine)
    (concurs : k.Concurs t n (act n) (act' n))
    (closed : ∀ o, n.Level o → o.Ready k.admits t →
      m.Level (close o) ∧ (close o).Ready k.admits s) :
    k.Concurs s m (Action.afterwards act close n) (Action.afterwards act' close n) := by
  unfold Action.afterwards
  generalize act n = r, act' n = r' at concurs
  cases concurs with
  | ok level ready =>
    obtain ⟨level', ready'⟩ := closed _ level ready
    exact .ok level' ready'
  | fault level ready =>
    obtain ⟨level', ready'⟩ := closed _ level ready
    exact .fault level' ready'
  | excused level ready excused =>
    obtain ⟨level', ready'⟩ := closed _ level ready
    exact .excused level' ready' excused
  | outOfFuel hangs => exact .outOfFuel hangs

theorem agrees_withScope (agrees : k.Agrees s act act') :
    k.Agrees s (Action.withScope act) (Action.withScope act') := by
  intro m ready
  have opened : Machine.Ready k.admits s { m with scopes := m.scopes.push } := ready.calm rfl rfl
  refine concurs_close (fun n => { n with scopes := n.scopes.truncate m.scopes.depth })
    (agrees _ opened) fun o inside ready' => ⟨⟨inside.context, ?_⟩, ready'.calm rfl rfl⟩
  have positive := m.scopes.depth_pos
  have deeper : o.scopes.stack.size = m.scopes.depth + 1 :=
    inside.depth.trans (Scopes.depth_push _)
  simp only [Scopes.depth, Scopes.truncate, Array.size_shrink] at deeper positive ⊢
  omega

/-- The mark of the loop is set for the pass, and put back to what it was. -/
theorem agrees_withIterating (loop : Site) (agrees : k.Agrees (s.pass loop) act act') :
    k.Agrees s (Action.withIterating loop act) (Action.withIterating loop act') := by
  intro m ready
  have opened : Machine.Ready k.admits (s.pass loop)
      { m with iterating := loop.setMark true m.iterating } :=
    ⟨by rw [← ready.stage]; rfl, ready.functions⟩
  refine concurs_close
    (fun n => { n with iterating := loop.setMark (m.isIterating loop) n.iterating })
    (agrees _ opened) fun o inside ready' => ⟨⟨inside.context, inside.depth⟩, ?_, ready'.functions⟩
  have depth : o.callDepth = m.callDepth :=
    (congrArg Stage.calls ready'.stage).trans (congrArg Stage.calls ready.stage).symm
  have loops : o.iterating = loop.setMark true m.iterating :=
    (congrArg Stage.loops ready'.stage).trans (by rw [← ready.stage]; rfl)
  rw [← ready.stage, Machine.stage, depth, loops]
  exact congrArg _ (Site.setMark_setMark loop m.iterating)

/-- One more call is within both limits, or it is beyond both, or the second
limit is higher and the difference is excused. -/
theorem agrees_withCall {limit limit' : Nat} (span : Span) (le : limit ≤ limit')
    (excused : limit < limit' → k.excused { cause := .callDepth limit, span := some span })
    (agrees : s.calls < limit → k.Agrees s.call act act') :
    k.Agrees s (Action.withCall limit span act) (Action.withCall limit' span act') := by
  intro m ready
  have depth : m.callDepth = s.calls := congrArg Stage.calls ready.stage
  by_cases exceeded : limit < m.callDepth + 1
  · simp only [Action.withCall, exceeded, if_true]
    rcases Nat.eq_or_lt_of_le le with rfl | higher
    · simp only [exceeded, if_true]
      exact .fault (.refl m) ready
    · exact .excused (.refl m) ready (excused higher)
  · have within : ¬ limit' < m.callDepth + 1 := by omega
    have opened : Machine.Ready k.admits s.call { m with callDepth := m.callDepth + 1 } :=
      ⟨by rw [← ready.stage]; rfl, ready.functions⟩
    simp only [Action.withCall, exceeded, within, if_false]
    refine concurs_close (fun n => { n with callDepth := m.callDepth })
      (agrees (by omega) _ opened) fun o inside ready' => ?_
    have loops : o.iterating = s.loops := congrArg Stage.loops ready'.stage
    exact ⟨⟨inside.context, inside.depth⟩, by rw [Machine.stage, loops, depth], ready'.functions⟩

theorem agrees_framed (frame : Frame) (agrees : k.Agrees s act act') :
    k.Agrees s (Action.framed frame act) (Action.framed frame act') := by
  intro m ready
  have concurs := agrees { m with context := m.context.push frame } (ready.calm rfl rfl)
  generalize ended : act { m with context := m.context.push frame } = r,
    ended' : act' { m with context := m.context.push frame } = r' at concurs
  cases concurs with
  | ok level ready' =>
    rw [Action.framed_of_ok_balanced ended level.context level.depth,
      Action.framed_of_ok_balanced ended' level.context level.depth]
    exact .ok ⟨rfl, level.depth⟩ (ready'.calm rfl rfl)
  | fault level ready' =>
    rw [Action.framed_of_fault_balanced ended level.context level.depth,
      Action.framed_of_fault_balanced ended' level.context level.depth]
    exact .fault ⟨rfl, level.depth⟩ (ready'.calm rfl rfl)
  | excused level ready' excused =>
    rw [Action.framed_of_fault_balanced ended level.context level.depth]
    exact .excused ⟨rfl, level.depth⟩ (ready'.calm rfl rfl)
      (k.excused_locate _ (k.excused_trace _ excused))
  | outOfFuel hangs =>
    simp only [Action.framed, ended, ended']
    exact .outOfFuel hangs

theorem agrees_stepped (i : Instr) {work work' : Action Flow} (agrees : k.Agrees s work work') :
    k.Agrees s (Machine.stepped i work) (Machine.stepped i work') := by
  intro m ready
  have framed := agrees_framed (Machine.frame { m with steps := m.steps + 1 } i) agrees
  have level : m.Level { m with steps := m.steps + 1 } := ⟨rfl, rfl⟩
  exact (framed { m with steps := m.steps + 1 } (ready.calm rfl rfl)).before level

theorem agrees_repeatWhile (hangs : k.hangs) {cond cond' : Action Bool} {body body' : Action Flow}
    {step step' : Action Unit} (ofCond : k.Agrees s cond cond') (ofBody : k.Agrees s body body')
    (ofStep : k.Agrees s step step') (fuel : Nat) :
    k.Agrees s (Action.repeatWhile cond body step fuel)
      (Action.repeatWhile cond' body' step' fuel) := by
  induction fuel with
  | zero => exact fun _ _ => .outOfFuel hangs
  | succ fuel ih =>
    unfold Action.repeatWhile
    refine agrees_bind ofCond fun holds => agrees_ite ?_ (agrees_pure _)
    refine agrees_bind ofBody fun flow => ?_
    cases flow with
    | next | again => exact agrees_bind ofStep fun _ => ih
    | leave | result => exact agrees_pure _

theorem agrees_expectNext (hangs : k.hangs) (isStep : Bool) (flow : Flow) :
    k.Agrees s (Machine.expectNext isStep flow) (Machine.expectNext isStep flow) := by
  unfold Machine.expectNext
  cases flow with
  | next => exact agrees_pure ()
  | leave | again | result => exact agrees_stray hangs _ _

theorem agrees_defineFunction {f : Defined} (every : f.function.Every k.admits) :
    k.Agrees s (Machine.defineFunction f) (Machine.defineFunction f) := by
  intro m ready
  unfold Machine.defineFunction
  split
  · exact .fault (.refl m) ready
  · exact .ok ⟨rfl, rfl⟩ (ready.define every)

end Accord

/-! ## Engines that agree on calls -/

/-- Whether an instruction repeats others. -/
def Instr.isLoop : Instr → Bool
  | .whileLoop .. | .forLoop .. => true
  | _ => false

/-- The engines differ at most in how they call functions, and in their fuel for
loops if there are none. At the stage they agree on calls. -/
structure Engine.Alike (k : Accord) (s : Stage) (g g' : Engine) : Prop where
  builtins : g'.env.builtins = g.env.builtins
  echo : g'.env.settings.echoTraces = g.env.settings.echoTraces
  call : ∀ name args span, k.Agrees s (g.call name args span) (g'.call name args span)
  loops : ∀ i, k.admits i → i.isLoop → k.hangs ∧ g'.fuel = g.fuel

namespace Machine

open TraceLang.Action Accord

theorem lookup_congr {env env' : Env} (builtins : env'.builtins = env.builtins) (name : String) :
    env'.lookup name = env.lookup name := by
  funext m
  simp only [Env.lookup, Env.callee?, Env.functionNames, builtins]

theorem recordTraces_congr {settings settings' : Settings}
    (echo : settings'.echoTraces = settings.echoTraces) (span : Span) :
    recordTraces settings' span = recordTraces settings span := by
  simp only [recordTraces, echo]

section

variable {k : Accord} {s : Stage} {g g' : Engine} (alike : g.Alike k s g')

include alike

theorem invoke_agrees (name : String) (args : List Variable) (span : Span) :
    k.Agrees s (g.invoke name args span) (g'.invoke name args span) := by
  unfold Engine.invoke
  rw [lookup_congr alike.builtins]
  refine agrees_bind (agrees_located span (agrees_plain (lookup_plain g.env name))) fun callee => ?_
  exact agrees_bind (agrees_framed _ (alike.call name args span)) fun _ => agrees_pure _

/-! ## Expressions -/

-- The list case uses the engines only through the elements.
set_option linter.unusedSectionVars false in
mutual

/-- The engines agree on expressions. -/
theorem eval_agrees : (x : Expr) → k.Agrees s (eval g x) (eval g' x)
  | .int .. | .float .. | .bool .. | .str .. | .none .. => by
    unfold eval
    exact agrees_pure _
  | .default _ ty => by
    unfold eval
    exact agrees_bind (agrees_plain (plain_onHeap _)) fun _ => agrees_pure _
  | .list span items => by
    unfold eval
    refine agrees_located span (agrees_bind (evalArgs_agrees items) fun values => ?_)
    exact agrees_bind (agrees_plain (plain_onHeap _)) fun _ => agrees_pure _
  | .var span name => by
    unfold eval
    refine agrees_located span (agrees_bind (agrees_plain (locate_plain name)) fun _ => ?_)
    exact agrees_plain (plain_read _)
  | .index span base index => by
    unfold eval
    refine agrees_located span (agrees_bind (eval_agrees base) fun v => ?_)
    refine agrees_bind (agrees_plain (used_plain base v)) fun v => ?_
    refine agrees_bind (eval_agrees index) fun w => ?_
    refine agrees_bind (agrees_plain (position_plain index w)) fun i => ?_
    exact agrees_plain (element_plain base v i)
  | .binary span op left right => by
    have ofLeft := eval_agrees left
    have ofRight := eval_agrees right
    cases op
    case and | or =>
      unfold eval
      refine agrees_located span (agrees_bind ofLeft fun v => ?_)
      refine agrees_bind (agrees_plain (truth_plain left v)) fun b => ?_
      have rest := agrees_bind ofRight fun w => agrees_bind (agrees_plain (truth_plain right w))
        fun b => agrees_pure (Variable.fresh (.bool b))
      -- One of the two values decides without the right operand.
      cases b <;> first | exact rest | exact agrees_pure _
    all_goals
      unfold eval
      refine agrees_located span (agrees_bind ofLeft fun v => ?_)
      refine agrees_bind (agrees_plain (used_plain left v)) fun a => ?_
      refine agrees_bind ofRight fun w => ?_
      refine agrees_bind (agrees_plain (used_plain right w)) fun b => ?_
      exact agrees_plain (applyBinary_plain _ a.value b.value)
  | .unary span op operand => by
    unfold eval
    refine agrees_located span (agrees_bind (eval_agrees operand) fun v => ?_)
    refine agrees_bind (agrees_plain (used_plain operand v)) fun v => ?_
    exact agrees_bind (agrees_plain (ofExcept_plain _)) fun _ => agrees_pure _
  | .call span name args => by
    unfold eval
    refine agrees_located span (agrees_bind (evalArgs_agrees args) fun args => ?_)
    exact invoke_agrees alike name args span

theorem evalArgs_agrees : (xs : List Expr) → k.Agrees s (evalArgs g xs) (evalArgs g' xs)
  | [] => agrees_pure []
  | x :: rest => by
    unfold evalArgs
    refine agrees_bind (eval_agrees x) fun v => ?_
    refine agrees_bind (agrees_plain (used_plain x v)) fun v => ?_
    exact agrees_bind (evalArgs_agrees rest) fun _ => agrees_pure _

end

theorem evalValue_agrees (x : Expr) : k.Agrees s (evalValue g x) (evalValue g' x) :=
  agrees_bind (eval_agrees alike x) fun v => agrees_plain (used_plain x v)

theorem evalCondition_agrees (x : Expr) : k.Agrees s (evalCondition g x) (evalCondition g' x) :=
  agrees_bind (eval_agrees alike x) fun v => agrees_plain (truth_plain x v)

theorem resolve_agrees : (x : Expr) → k.Agrees s (resolve g x) (resolve g' x)
  | .var span name => by
    unfold resolve
    exact agrees_located span (agrees_plain (locate_plain name))
  | .index span base index => by
    unfold resolve
    refine agrees_bind (resolve_agrees base) fun cell => ?_
    refine agrees_bind (eval_agrees alike index) fun w => ?_
    refine agrees_bind (agrees_plain (position_plain index w)) fun i => agrees_plain ?_
    refine plain_bind (plain_read _) fun v => plain_ite ?_ (plain_failAt _ _)
    split
    · exact plain_located span (elementOf_plain _ i)
    · exact plain_failAt _ _
    · exact plain_failAt _ _
  | .int .. | .float .. | .bool .. | .str .. | .none .. | .list .. | .binary .. | .unary ..
  | .call .. | .default .. => agrees_plain (plain_failAt _ _)

/-! ## Instructions and blocks -/

theorem declare_agrees (x : Declaration) : k.Agrees s (declare g x) (declare g' x) := by
  refine agrees_bind (agrees_plain (checkDeclaration_plain x)) fun _ => ?_
  exact agrees_bind (eval_agrees alike x.init) fun v => agrees_plain (bindChecked_plain x v)

theorem assign_agrees (target value : Expr) :
    k.Agrees s (assign g target value) (assign g' target value) := by
  unfold assign
  refine agrees_ite (agrees_plain (plain_failAt _ _)) ?_
  refine agrees_bind (evalValue_agrees alike value) fun v => ?_
  refine agrees_bind (resolve_agrees alike target) fun cell => ?_
  exact agrees_plain (plain_modify fun _ => ⟨⟨rfl, rfl⟩, rfl, rfl⟩)

theorem startTraces_agrees : (targets : List Expr) →
    k.Agrees s (startTraces g targets) (startTraces g' targets)
  | [] => agrees_pure ()
  | target :: rest => by
    unfold startTraces
    refine agrees_ite ?_ (agrees_plain (plain_failAt _ _))
    refine agrees_bind (resolve_agrees alike target) fun cell => ?_
    refine agrees_bind (agrees_plain (plain_read _)) fun traced => ?_
    refine agrees_ite (agrees_plain (plain_failAt _ _)) ?_
    exact agrees_bind (agrees_plain (plain_modify fun _ => ⟨⟨rfl, rfl⟩, rfl, rfl⟩)) fun _ =>
      startTraces_agrees rest

theorem record_agrees (span : Span) :
    k.Agrees s (do recordTraces g.env.settings span; return Flow.next)
      (do recordTraces g'.env.settings span; return Flow.next) := by
  rw [recordTraces_congr alike.echo]
  exact agrees_plain (plain_bind (recordTraces_plain _ span) fun _ => plain_pure _)

/-- The engines agree on an instruction that executes no others. -/
theorem atomic_agrees (unit : Nat) (path : Path) {i : Instr} (atomic : i.isAtomic)
    (every : i.Every k.admits) : k.Agrees s (execute g unit path i) (execute g' unit path i) := by
  cases i <;> simp only [Instr.isAtomic, Bool.false_eq_true] at atomic
  case declare span x =>
    unfold execute
    exact agrees_stepped _ (agrees_bind (agrees_discard (declare_agrees alike x)) fun _ =>
      record_agrees alike span)
  case assign span target value =>
    unfold execute
    exact agrees_stepped _ (agrees_bind (assign_agrees alike target value) fun _ =>
      record_agrees alike span)
  case call span name args =>
    unfold execute
    refine agrees_stepped _ (agrees_bind (evalArgs_agrees alike args) fun values => ?_)
    refine agrees_bind (agrees_discard (alike.call name values span)) fun _ => ?_
    exact agrees_bind (agrees_plain (plain_modify fun _ => ⟨⟨rfl, rfl⟩, rfl, rfl⟩)) fun _ =>
      record_agrees alike span
  case define span name params body funcSpan =>
    unfold execute
    exact agrees_stepped _ (agrees_bind (agrees_defineFunction ⟨span, every⟩) fun _ =>
      agrees_pure _)
  case trace span targets =>
    unfold execute
    exact agrees_stepped _ (agrees_bind (startTraces_agrees alike targets) fun _ => agrees_pure _)
  case result span value =>
    unfold execute
    refine agrees_stepped _ (agrees_bind (agrees_discard (agrees_plain (control_plain _ _ _)))
      fun _ => ?_)
    cases value with
    | none => exact agrees_pure _
    | some x => exact agrees_bind (evalValue_agrees alike x) fun _ => agrees_pure _

end

/-! ## Instructions inside each other -/

section

variable {k : Accord} {calls : Nat} {g g' : Engine} (alike : ∀ loops, g.Alike k ⟨calls, loops⟩ g')

include alike

-- Blocks use the engines only through their instructions.
set_option linter.unusedSectionVars false in
mutual

/-- The engines agree on instructions. -/
theorem execute_agrees (unit : Nat) (path : Path) (loops : List Site) : (i : Instr) →
    i.Every k.admits → k.Agrees ⟨calls, loops⟩ (execute g unit path i) (execute g' unit path i)
  | .whileLoop span cond body, ⟨admitted, inBody⟩ => by
    obtain ⟨hangs, fuel⟩ := (alike loops).loops _ admitted rfl
    unfold execute
    rw [fuel]
    refine agrees_stepped _ (agrees_repeatWhile hangs (evalCondition_agrees (alike loops) cond) ?_
      (agrees_pure ()) g.fuel)
    exact agrees_withIterating _ (agrees_withScope (runBlock_agrees unit path.body 0 _ body inBody))
  | .forLoop span init step cond body, ⟨admitted, inInit, inStep, inBody⟩ => by
    obtain ⟨hangs, fuel⟩ := (alike loops).loops _ admitted rfl
    have header := agrees_expectNext (s := ⟨calls, loops⟩) hangs
    unfold execute
    rw [fuel]
    refine agrees_stepped _ (agrees_withScope ?_)
    refine agrees_bind (execute_agrees unit path.first loops init inInit) fun flow => ?_
    refine agrees_bind (header false flow) fun _ => ?_
    refine agrees_repeatWhile hangs (evalCondition_agrees (alike loops) cond) ?_ ?_ g.fuel
    · exact agrees_withIterating _
        (agrees_withScope (runBlock_agrees unit path.body 0 _ body inBody))
    · exact agrees_bind (execute_agrees unit path.second loops step inStep) (header true)
  | .conditional span cond onTrue onFalse, ⟨_, inTrue, inFalse⟩ => by
    unfold execute
    refine agrees_stepped _ (agrees_bind (evalCondition_agrees (alike loops) cond) fun b => ?_)
    exact agrees_ite (agrees_withScope (runBlock_agrees unit path.first 0 loops onTrue inTrue))
      (agrees_withScope (runBlock_agrees unit path.second 0 loops onFalse inFalse))
  | .leave span, _ | .again span, _ => by
    unfold execute
    exact agrees_stepped _ (agrees_plain (control_plain _ _ _))
  | .declare .., every | .assign .., every | .call .., every | .define .., every
  | .trace .., every | .result .., every => atomic_agrees (alike loops) unit path rfl every

/-- The engines agree on blocks. -/
theorem runBlock_agrees (unit : Nat) (path : Path) (n : Nat) (loops : List Site) :
    (block : List Instr) → Instr.EveryOf k.admits block →
    k.Agrees ⟨calls, loops⟩ (runBlock g unit path n block) (runBlock g' unit path n block)
  | [], _ => agrees_pure _
  | i :: rest, ⟨inFirst, inRest⟩ => by
    unfold runBlock
    refine agrees_bind (execute_agrees unit (path.item n) loops i inFirst) fun flow => ?_
    cases flow with
    | next => exact runBlock_agrees unit path (n + 1) loops rest inRest
    | leave | again | result => exact agrees_pure _

end

/-- The engines agree on programs. -/
theorem run_agrees (hangs : k.hangs) (unit : Nat) (loops : List Site) {prog : Program}
    (every : Instr.EveryOf k.admits prog.body) :
    k.Agrees ⟨calls, loops⟩ (run g unit prog) (run g' unit prog) := by
  refine agrees_bind (runBlock_agrees alike unit [] 0 loops prog.body every) fun flow => ?_
  cases flow with
  | next => exact agrees_pure ()
  | leave | again | result => exact agrees_stray hangs _ _

/-- What a user function does once its call is counted. -/
theorem body_agrees {f : Defined} (every : f.function.Every k.admits) (args : List Variable)
    (span : Span) (loops : List Site) :
    k.Agrees ⟨calls, loops⟩
      (withScope do
        bindParams span f.function.params args
        runBlock g f.site.unit f.site.path.body 0 f.function.body)
      (withScope do
        bindParams span f.function.params args
        runBlock g' f.site.unit f.site.path.body 0 f.function.body) := by
  obtain ⟨_, _, inBody⟩ := every
  refine agrees_withScope (agrees_bind (agrees_plain (bindParams_plain span _ args)) fun _ => ?_)
  exact runBlock_agrees alike f.site.unit f.site.path.body 0 loops _ inBody

end

/-! ## Calls -/

section

variable {k : Accord} {s : Stage}

/-- The second settings are those of the first, except that the limit on calls can
be higher if that is excused. -/
structure Loosened (k : Accord) (settings settings' : Settings) : Prop where
  echo : settings'.echoTraces = settings.echoTraces
  le : settings.maxCallDepth ≤ settings'.maxCallDepth
  excused : settings.maxCallDepth < settings'.maxCallDepth → ∀ span,
    k.excused { cause := .callDepth settings.maxCallDepth, span := some span }

/-- The engines agree on a call of a user function if they agree on all that it
can call. -/
theorem callUser_agrees {g g' : Engine} {f : Defined} (every : f.function.Every k.admits)
    (loosened : Loosened k g.env.settings g'.env.settings)
    (inside : s.calls < g.env.settings.maxCallDepth → ∀ loops, g.Alike k ⟨s.calls + 1, loops⟩ g')
    (args : List Variable) (span : Span) :
    k.Agrees s (callUser g f args span) (callUser g' f args span) := by
  unfold callUser
  refine agrees_ite (agrees_plain (plain_failAt _ span)) ?_
  refine agrees_bind (agrees_withCall span loosened.le (loosened.excused · span) fun within =>
    body_agrees (inside within) every args span s.loops) fun flow => ?_
  cases flow with
  | result | next => exact agrees_pure _
  | leave | again => exact agrees_plain (plain_failAt _ span)

/-- The fuel of two engines for calls when `d` of at most `limit` are in progress:
the same, or enough in both for all calls that can still be made. -/
def Fueled (k : Accord) (limit d fuel fuel' : Nat) : Prop :=
  k.hangs ∧ fuel' = fuel ∨
    (∀ i, k.admits i → i.isLoop = false) ∧ 0 < fuel ∧ 0 < fuel' ∧
      limit < d + fuel ∧ limit < d + fuel'

theorem Fueled.loops {limit d fuel fuel' : Nat} (fueled : Fueled k limit d fuel fuel') (i : Instr)
    (admitted : k.admits i) (loops : i.isLoop) : k.hangs ∧ fuel' = fuel := by
  rcases fueled with same | ⟨loopFree, -⟩
  · exact same
  · rw [loopFree i admitted] at loops
    cases loops

theorem Fueled.inside {limit d fuel fuel' : Nat}
    (fueled : Fueled k limit d (fuel + 1) (fuel' + 1)) (within : d < limit) :
    Fueled k limit (d + 1) fuel fuel' := by
  rcases fueled with ⟨hangs, same⟩ | ⟨loopFree, -, -, enough, enough'⟩
  · exact .inl ⟨hangs, Nat.succ.inj same⟩
  · exact .inr ⟨loopFree, by omega, by omega, by omega, by omega⟩

/-- What depends on a name agrees if it does for the builtin function of that
name and for all functions that a program can define. -/
theorem agrees_lookup {α : Type} {env env' : Env} (builtins : env'.builtins = env.builtins)
    (name : String) {next next' : Callee → Action α}
    (builtin : ∀ handler, env.builtins.lookup name = some handler →
      k.Agrees s (next (.builtin handler)) (next' (.builtin handler)))
    (user : ∀ f : Defined, f.function.Every k.admits →
      k.Agrees s (next (.user f)) (next' (.user f))) :
    k.Agrees s (env.lookup name >>= next) (env'.lookup name >>= next') := by
  intro m ready
  rw [lookup_congr builtins]
  cases found : env.callee? m name with
  | none =>
    have failed : env.lookup name m = .fault
        { cause := .unknownFunction name (similarName name (env.functionNames m) 2) } m := by
      simp only [Env.lookup, found]
    rw [bind_of_fault failed, bind_of_fault failed]
    exact .fault (.refl m) ready
  | some callee =>
    have looked : env.lookup name m = .ok callee m := by
      simp only [Env.lookup, found]
    rw [bind_of_ok looked, bind_of_ok looked]
    cases callee with
    | builtin handler => exact builtin handler (Env.lookup_of_callee?_builtin found) m ready
    | user f =>
      exact user f (ready.functions name f (Env.function?_of_callee?_user found)) m ready

/-- The standard functions do the same whatever they could call. -/
theorem standard_agrees {name : String} {handler : Handler}
    (found : Builtins.standard.lookup name = some handler) (call call' : Caller)
    (args : List Variable) (span : Span) :
    k.Agrees s (located span (handler call args span)) (located span (handler call' args span)) := by
  obtain ⟨plain, same⟩ := Builtins.standard_plain found call call' args span
  rw [same]
  exact agrees_located span (agrees_plain plain)

/-- Engines with the standard functions agree on all calls. -/
theorem callByName_agrees {settings settings' : Settings}
    (loosened : Loosened k settings settings') {fuel fuel' : Nat}
    (fueled : Fueled k settings.maxCallDepth s.calls fuel fuel') (name : String)
    (args : List Variable) (span : Span) :
    k.Agrees s (callByName (Env.standard settings) fuel name args span)
      (callByName (Env.standard settings') fuel' name args span) := by
  induction fuel generalizing s fuel' name args span with
  | zero =>
    rcases fueled with ⟨hangs, rfl⟩ | ⟨-, positive, -⟩
    · exact fun _ _ => .outOfFuel hangs
    · cases positive
  | succ fuel ih =>
    cases fuel' with
    | zero =>
      rcases fueled with ⟨-, same⟩ | ⟨-, -, positive, -⟩
      · cases same
      · cases positive
    | succ fuel' =>
      have deeper (within : s.calls < settings.maxCallDepth) (loops : List Site) :
          Engine.Alike k ⟨s.calls + 1, loops⟩
            ⟨Env.standard settings, callByName (Env.standard settings) fuel, fuel⟩
            ⟨Env.standard settings', callByName (Env.standard settings') fuel', fuel'⟩ :=
        ⟨rfl, loosened.echo, ih (fueled.inside within), (fueled.inside within).loops⟩
      unfold callByName
      refine agrees_lookup rfl name (fun handler found => ?_) fun f every => ?_
      · exact agrees_bind (standard_agrees found _ _ args span) fun _ => agrees_pure _
      · exact callUser_agrees every loosened deeper args span

/-- Engines with the standard functions agree on calls. -/
theorem standard_alike {settings settings' : Settings} {calls : Nat}
    (loosened : Loosened k settings settings') {fuel fuel' : Nat}
    (fueled : Fueled k settings.maxCallDepth calls fuel fuel') (loops : List Site) :
    Engine.Alike k ⟨calls, loops⟩ ((Env.standard settings).engine fuel)
      ((Env.standard settings').engine fuel') :=
  ⟨rfl, loosened.echo, callByName_agrees loosened fueled, fueled.loops⟩

end

end Machine

end TraceLang
