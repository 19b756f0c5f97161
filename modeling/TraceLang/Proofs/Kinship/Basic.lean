/-
# TraceLang.Proofs.Kinship.Basic — two runs that keep in step

A kinship says how two runs of one program may differ: in the payloads of hidden
variables, as long as these have no values, and in faults that are excused by
each other. The runs may also use different engines. It also says which programs
take part, by their numbers: no other loop is iterating, and no other call
statement has been counted.

`k.Akin good act act'` says that, from kindred machines, the two actions end in
the same way: with values related by `good`, with the very same fault, with an
excused pair of faults, or both out of fuel. The machines left behind are kindred
again. Each way of building an action has one rule (`akin_bind`, `akin_framed`,
...).
-/
import TraceLang.Proofs.Accord
import TraceLang.Proofs.Kinship.Veils

namespace TraceLang

set_option autoImplicit false

/-! ## Kindred machines -/

/-- The machines differ at most in the payloads of hidden variables, and in what
the tracer has last seen of these. -/
structure Machine.Veils (hidden : CellId → Prop) (m m' : Machine) : Prop where
  same : ∃ heap tracer, m' = { m with heap, tracer }
  veiled : ∃ secret : CellId → Prop, (∀ c, secret c → hidden c) ∧
    m.heap.Veils secret m'.heap ∧ m.tracer.Veils secret m.heap m'.heap m'.tracer

/-- What the machine knows about instructions and functions is about the programs
with these numbers. -/
structure Machine.Within (units : Nat → Prop) (m : Machine) : Prop where
  loops : ∀ s ∈ m.iterating, units s.unit
  calls : ∀ s, m.timesCalled s ≠ 0 → units s.unit
  functions : ∀ name f, m.function? name = some f → units f.site.unit

theorem Machine.within_all (m : Machine) : m.Within fun _ => True :=
  ⟨fun _ _ => trivial, fun _ _ => trivial, fun _ _ _ => trivial⟩

/-- How two runs of one program may differ. -/
structure Kinship where
  /-- The variables whose payloads may differ. -/
  hidden : CellId → Prop
  /-- The numbers of the programs that take part. -/
  units : Nat → Prop
  /-- The faults that the runs may have in place of each other. -/
  excused : Fault → Fault → Prop
  /-- With an excused fault the first run keeps its scopes and frames. -/
  level : Prop
  excused_locate : ∀ {f f' : Fault} (span : Span), excused f f' →
    excused (f.locate span) (f'.locate span)
  excused_trace : ∀ {f f' : Fault} (c c' : Context), excused f f' →
    excused (f.trace c) (f'.trace c')
  excused_defect : ¬ level → ∀ {f f' : Fault} (d : Defect) (span : Span) (c : Context),
    excused f f' → excused { cause := .defect d, span := some span } ((f'.trace c).locate span)

namespace Kinship

/-- Runs that end in the same way. -/
def strict (hidden : CellId → Prop) (units : Nat → Prop) : Kinship where
  hidden := hidden
  units := units
  excused _ _ := False
  level := True
  excused_locate _ never := never
  excused_trace _ _ never := never
  excused_defect unlevel := absurd trivial unlevel

variable (k : Kinship)

/-- The machines may occur at the same time. -/
structure Kin (m m' : Machine) : Prop extends m.Veils k.hidden m', m.Within k.units

variable {k} {m m' : Machine}

/-- A change that has nothing to do with heaps and tracers. -/
theorem Kin.edit (kin : k.Kin m m') (f : Machine → Machine)
    (apart : ∀ (m : Machine) (heap : Heap) (tracer : Tracer),
      f { m with heap, tracer } = { f m with heap, tracer })
    (within : m.Within k.units → (f m).Within k.units) : k.Kin (f m) (f m') := by
  obtain ⟨⟨⟨heap, tracer, rfl⟩, veiled⟩, others⟩ := kin
  have shape : f m = { f m with heap := m.heap, tracer := m.tracer } := apart m m.heap m.tracer
  have sameHeap : (f m).heap = m.heap := by rw [shape]
  have sameTracer : (f m).tracer = m.tracer := by rw [shape]
  rw [apart m heap tracer]
  refine ⟨⟨⟨heap, tracer, rfl⟩, ?_⟩, within others⟩
  rw [sameHeap, sameTracer]
  exact veiled

theorem Kin.scopes (kin : k.Kin m m') (scopes : Scopes) :
    k.Kin { m with scopes } { m' with scopes } :=
  kin.edit (fun m => { m with scopes }) (fun _ _ _ => rfl) fun w => ⟨w.loops, w.calls, w.functions⟩

theorem Kin.context (kin : k.Kin m m') (context : Context) :
    k.Kin { m with context } { m' with context } :=
  kin.edit (fun m => { m with context }) (fun _ _ _ => rfl) fun w => ⟨w.loops, w.calls, w.functions⟩

theorem Kin.mark (kin : k.Kin m m') {loop : Site} (inside : k.units loop.unit) (marked : Bool) :
    k.Kin { m with iterating := loop.setMark marked m.iterating }
      { m' with iterating := loop.setMark marked m'.iterating } := by
  refine kin.edit (fun m => { m with iterating := loop.setMark marked m.iterating })
    (fun _ _ _ => rfl) fun w => ⟨fun s mem => ?_, w.calls, w.functions⟩
  by_cases same : s = loop
  · exact same ▸ inside
  · exact w.loops s (by simpa [Site.mem_setMark, same] using mem)

theorem Kin.count (kin : k.Kin m m') {site : Site} (inside : k.units site.unit) :
    k.Kin { m with calls := m.calls.insert site (m.calls.getD site 0 + 1) }
      { m' with calls := m'.calls.insert site (m'.calls.getD site 0 + 1) } := by
  refine kin.edit (fun m => { m with calls := m.calls.insert site (m.calls.getD site 0 + 1) })
    (fun _ _ _ => rfl) fun w => ⟨w.loops, fun s called => ?_, w.functions⟩
  by_cases same : site = s
  · exact same ▸ inside
  · refine w.calls s fun zero => called ?_
    simpa [Machine.timesCalled, Std.HashMap.getD_insert, same] using zero

theorem Kin.define (kin : k.Kin m m') {f : Defined} (inside : k.units f.site.unit) :
    k.Kin { m with functions := (f.function.name, f) :: m.functions }
      { m' with functions := (f.function.name, f) :: m'.functions } := by
  refine kin.edit (fun m => { m with functions := (f.function.name, f) :: m.functions })
    (fun _ _ _ => rfl) fun w => ⟨w.loops, w.calls, fun name f' found => ?_⟩
  rw [Machine.function?, List.lookup_cons] at found
  split at found
  · cases found
    exact inside
  · exact w.functions name f' found

/-- An addition to both heaps. -/
theorem Kin.heap (kin : k.Kin m m') {new new' : Heap}
    (adds : ∀ {secret : CellId → Prop}, m.heap.Veils secret m'.heap → new.Veils secret new')
    (reads : ∀ c : CellId, c.index < m.heap.cells.size → new.read c = m.heap.read c)
    (reads' : ∀ c : CellId, c.index < m'.heap.cells.size → new'.read c = m'.heap.read c) :
    k.Kin { m with heap := new } { m' with heap := new' } := by
  obtain ⟨⟨⟨heap, tracer, rfl⟩, secret, hides, heaps, tracers⟩, within⟩ := kin
  refine ⟨⟨⟨new', tracer, rfl⟩, secret, hides, adds heaps, ?_⟩,
    within.loops, within.calls, within.functions⟩
  refine tracers.congr heaps.kept (fun c isSecret => ?_) fun c isSecret => ?_
  · rw [reads c (heaps.kept c isSecret).old]
    exact ⟨rfl, rfl⟩
  · rw [reads' c (heaps.size ▸ (heaps.kept c isSecret).old)]
    exact ⟨rfl, rfl⟩

/-- Where nothing is hidden, kindred machines are the same. -/
theorem Kin.eq (kin : k.Kin m m') (nothing : ∀ c, ¬ k.hidden c) : m' = m := by
  obtain ⟨⟨⟨heap, tracer, rfl⟩, secret, hides, heaps, tracers⟩, -⟩ := kin
  have none (c : CellId) : ¬ secret c := fun isSecret => nothing c (hides c isSecret)
  have sameHeap : heap = m.heap := heaps.eq none
  have sameTracer : tracer = m.tracer := tracers.eq none
  rw [sameHeap, sameTracer]

theorem Kin.refl (within : m.Within k.units) : k.Kin m m :=
  ⟨⟨⟨_, _, rfl⟩, fun _ => False, fun _ none => none.elim, .refl _,
    Tracer.veils_of_unwatched fun _ none => none.elim⟩, within⟩

end Kinship

/-! ## Level machines -/

namespace Machine.Level

variable {m n : Machine}

/-- A machine that is level inside a scope is level when the scope is closed. -/
theorem unscoped (level : Machine.Level { m with scopes := m.scopes.push } n) :
    m.Level { n with scopes := n.scopes.truncate m.scopes.depth } := by
  refine ⟨level.context, ?_⟩
  have positive := m.scopes.depth_pos
  have deeper : n.scopes.stack.size = m.scopes.depth + 1 :=
    level.depth.trans (Scopes.depth_push _)
  simp only [Scopes.depth, Scopes.truncate, Array.size_shrink] at deeper positive ⊢
  omega

/-- A machine that is level under a frame is balanced, and level when the frame is
closed. -/
theorem unframed {frame : Frame}
    (level : Machine.Level { m with context := m.context.push frame } n) :
    Action.imbalance? m.context.depth m.scopes.depth n = none ∧
      m.Level { n with context := n.context.truncate m.context.depth } := by
  have depth : n.scopes.depth = m.scopes.depth := level.depth
  refine ⟨by simp [Action.imbalance?, level.context, depth], ?_, depth⟩
  simp only [level.context, Context.truncate_push]

end Machine.Level

namespace Kinship

/-! ## Kindred actions -/

variable (k : Kinship)

/-- The outcomes of actions that started on machines like `m` are the same, or the
faults excuse each other. -/
inductive Alike {α : Type} (good : α → α → Prop) (m : Machine) : Outcome α → Outcome α → Prop
  | ok {a a' : α} {n n' : Machine} (like : good a a') (kin : k.Kin n n') (level : m.Level n) :
    Alike good m (.ok a n) (.ok a' n')
  | fault {f : Fault} {n n' : Machine} (kin : k.Kin n n') : Alike good m (.fault f n) (.fault f n')
  | excused {f f' : Fault} {n n' : Machine} (excused : k.excused f f')
    (first : k.level → m.Level n) (second : m.Level n') :
    Alike good m (.fault f n) (.fault f' n')
  | outOfFuel : Alike good m .outOfFuel .outOfFuel

/-- From kindred machines, the actions end alike. -/
def Akin {α : Type} (good : α → α → Prop) (act act' : Action α) : Prop :=
  ∀ m m', k.Kin m m' → k.Alike good m (act m) (act' m')

variable {k} {α β : Type} {good : α → α → Prop} {act act' : Action α}

theorem Alike.before {m n : Machine} {r r' : Outcome α} (level : m.Level n)
    (alike : k.Alike good n r r') : k.Alike good m r r' := by
  cases alike with
  | ok like kin level' => exact .ok like kin (level.trans level')
  | fault kin => exact .fault kin
  | excused excused first second =>
    exact .excused excused (fun tame => level.trans (first tame)) (level.trans second)
  | outOfFuel => exact .outOfFuel

theorem Akin.mono {good' : α → α → Prop} (akin : k.Akin good act act')
    (weaker : ∀ a a', good a a' → good' a a') : k.Akin good' act act' := by
  intro m m' kin
  have alike := akin m m' kin
  generalize act m = r, act' m' = r' at alike
  cases alike with
  | ok like kin level => exact .ok (weaker _ _ like) kin level
  | fault kin => exact .fault kin
  | excused excused first second => exact .excused excused first second
  | outOfFuel => exact .outOfFuel

theorem akin_pure {a a' : α} (like : good a a') : k.Akin good (pure a) (pure a') :=
  fun m _ kin => .ok like kin (.refl m)

theorem akin_fail (cause : Cause) : k.Akin good (Action.fail cause) (Action.fail cause) :=
  fun _ _ kin => .fault kin

theorem akin_failAt (cause : Cause) (span : Span) :
    k.Akin good (Action.failAt cause span) (Action.failAt cause span) :=
  fun _ _ kin => .fault kin

/-- Actions that only look at the machine and see the same. -/
theorem akin_read {f : Machine → α} (same : ∀ m m', k.Kin m m' → good (f m) (f m')) :
    k.Akin good (Action.read f) (Action.read f) :=
  fun m m' kin => .ok (same m m' kin) kin (.refl m)

theorem akin_bind {mid : β → β → Prop} {first first' : Action β} {next next' : β → Action α}
    (ofFirst : k.Akin mid first first')
    (ofNext : ∀ b b', mid b b' → k.Akin good (next b) (next' b')) :
    k.Akin good (first >>= next) (first' >>= next') := by
  intro m m' kin
  show k.Alike good m (Action.bind first next m) (Action.bind first' next' m')
  have alike := ofFirst m m' kin
  unfold Action.bind
  generalize first m = r, first' m' = r' at alike
  cases alike with
  | ok like kin level => exact (ofNext _ _ like _ _ kin).before level
  | fault kin => exact .fault kin
  | excused excused first second => exact .excused excused first second
  | outOfFuel => exact .outOfFuel

/-- Actions in sequence, where the first gives the same value. -/
theorem akin_bind_eq {first first' : Action β} {next next' : β → Action α}
    (ofFirst : k.Akin Eq first first') (ofNext : ∀ b, k.Akin good (next b) (next' b)) :
    k.Akin good (first >>= next) (first' >>= next') :=
  akin_bind ofFirst fun b _ same => same ▸ ofNext b

theorem akin_discard (akin : k.Akin Eq act act') : k.Akin Eq (discard act) (discard act') :=
  akin_bind_eq akin fun _ => akin_pure rfl

theorem akin_located (span : Span) (akin : k.Akin good act act') :
    k.Akin good (Action.located span act) (Action.located span act') := by
  intro m m' kin
  have alike := akin m m' kin
  unfold Action.located
  generalize act m = r, act' m' = r' at alike
  cases alike with
  | ok like kin level => exact .ok like kin level
  | fault kin => exact .fault kin
  | excused excused first second => exact .excused (k.excused_locate span excused) first second
  | outOfFuel => exact .outOfFuel

theorem akin_ite {p : Prop} [Decidable p] {other other' : Action α}
    (yes : p → k.Akin good act act') (no : ¬ p → k.Akin good other other') :
    k.Akin good (if p then act else other) (if p then act' else other') := by
  split
  · exact yes ‹p›
  · exact no ‹¬ p›

/-! ## Brackets and loops -/

/-- The outcomes of actions inside a bracket that started on `n` and `n'`, while
the whole started on `m`. -/
theorem alike_close {m n n' : Machine} (close : Machine → Machine)
    (alike : k.Alike good n (act n) (act' n'))
    (kindred : ∀ o o', k.Kin o o' → k.Kin (close o) (close o'))
    (level : ∀ o, n.Level o → m.Level (close o)) :
    k.Alike good m (Action.afterwards act close n) (Action.afterwards act' close n') := by
  unfold Action.afterwards
  generalize act n = r, act' n' = r' at alike
  cases alike with
  | ok like kin inside => exact .ok like (kindred _ _ kin) (level _ inside)
  | fault kin => exact .fault (kindred _ _ kin)
  | excused excused first second =>
    exact .excused excused (fun tame => level _ (first tame)) (level _ second)
  | outOfFuel => exact .outOfFuel

theorem akin_withScope (akin : k.Akin good act act') :
    k.Akin good (Action.withScope act) (Action.withScope act') := by
  intro m m' kin
  have depth : m'.scopes.depth = m.scopes.depth := by
    obtain ⟨heap, tracer, rfl⟩ := kin.same
    rfl
  have opened : k.Kin { m with scopes := m.scopes.push } { m' with scopes := m'.scopes.push } :=
    kin.edit (fun m => { m with scopes := m.scopes.push }) (fun _ _ _ => rfl)
      fun w => ⟨w.loops, w.calls, w.functions⟩
  unfold Action.withScope
  rw [depth]
  exact alike_close (fun o => { o with scopes := o.scopes.truncate m.scopes.depth })
    (akin _ _ opened)
    (fun o o' inside => inside.edit (fun o => { o with scopes := o.scopes.truncate m.scopes.depth })
      (fun _ _ _ => rfl) fun w => ⟨w.loops, w.calls, w.functions⟩) fun _ => Machine.Level.unscoped

theorem akin_withIterating {loop : Site} (inside : k.units loop.unit)
    (akin : k.Akin good act act') :
    k.Akin good (Action.withIterating loop act) (Action.withIterating loop act') := by
  intro m m' kin
  have same : m'.isIterating loop = m.isIterating loop := by
    obtain ⟨heap, tracer, rfl⟩ := kin.same
    rfl
  unfold Action.withIterating
  rw [same]
  exact alike_close
    (fun o => { o with iterating := loop.setMark (m.isIterating loop) o.iterating })
    (akin _ _ (kin.mark inside true)) (fun _ _ kin' => kin'.mark inside _)
    fun _ inside => ⟨inside.context, inside.depth⟩

theorem akin_withCall (limit : Nat) (span : Span) (akin : k.Akin good act act') :
    k.Akin good (Action.withCall limit span act) (Action.withCall limit span act') := by
  intro m m' kin
  have same : m'.callDepth = m.callDepth := by
    obtain ⟨heap, tracer, rfl⟩ := kin.same
    rfl
  have counted (depth : Nat) {o o' : Machine} (inside : k.Kin o o') :
      k.Kin { o with callDepth := depth } { o' with callDepth := depth } :=
    inside.edit (fun o => { o with callDepth := depth }) (fun _ _ _ => rfl)
      fun w => ⟨w.loops, w.calls, w.functions⟩
  unfold Action.withCall
  rw [same]
  by_cases exceeded : limit < m.callDepth + 1
  · simp only [exceeded, if_true]
    exact .fault kin
  · simp only [exceeded, if_false]
    exact alike_close (fun o => { o with callDepth := m.callDepth })
      (akin _ _ (counted _ kin)) (fun _ _ inside => counted _ inside)
      fun _ inside => ⟨inside.context, inside.depth⟩

theorem alike_framed (frame : Frame) {m m' : Machine} (kin : k.Kin m m')
    (alike : k.Alike good { m with context := m.context.push frame }
      (act { m with context := m.context.push frame })
      (act' { m' with context := m.context.push frame })) :
    k.Alike good m (Action.framed frame act m) (Action.framed frame act' m') := by
  obtain ⟨heap, tracer, rfl⟩ := kin.same
  simp only [Action.framed]
  generalize act { m with context := m.context.push frame } = r,
    act' { m with heap, tracer, context := m.context.push frame } = r' at alike
  cases alike with
  | @ok a a' n _ like kin' level =>
    obtain ⟨heap', tracer', rfl⟩ := kin'.same
    obtain ⟨even, level'⟩ := level.unframed
    have even' : Action.imbalance? m.context.depth m.scopes.depth
        { n with heap := heap', tracer := tracer' } = none := even
    simp only [even, even']
    exact .ok like (kin'.context _) level'
  | @fault f n _ kin' =>
    obtain ⟨heap', tracer', rfl⟩ := kin'.same
    have both : Action.imbalance? m.context.depth m.scopes.depth
        { n with heap := heap', tracer := tracer' } =
        Action.imbalance? m.context.depth m.scopes.depth n := rfl
    simp only [both]
    cases Action.imbalance? m.context.depth m.scopes.depth n with
    | none => exact .fault (kin'.context _)
    | some d =>
      exact .fault ((kin'.context (n.context.truncate m.context.depth)).scopes
        (n.scopes.truncate m.scopes.depth))
  | @excused f f' n n' excused first second =>
    obtain ⟨even', level'⟩ := second.unframed
    simp only [even']
    by_cases tame : k.level
    · obtain ⟨even, level⟩ := (first tame).unframed
      simp only [even]
      exact .excused (k.excused_locate _ (k.excused_trace _ _ excused)) (fun _ => level) level'
    · cases Action.imbalance? m.context.depth m.scopes.depth n with
      | none =>
        exact .excused (k.excused_locate _ (k.excused_trace _ _ excused))
          (fun yes => absurd yes tame) level'
      | some d =>
        exact .excused (k.excused_defect tame d _ _ excused) (fun yes => absurd yes tame) level'
  | outOfFuel => exact .outOfFuel

theorem akin_framed (frame : Frame) (akin : k.Akin good act act') :
    k.Akin good (Action.framed frame act) (Action.framed frame act') :=
  fun m _ kin => alike_framed frame kin (akin _ _ (kin.context (m.context.push frame)))

/-- The work of an instruction keeps in step if it does so under every frame. -/
theorem akin_stepped_of_framed (i : Instr) {good : Flow → Flow → Prop} {work work' : Action Flow}
    (akin : ∀ frame, k.Akin good (Action.framed frame work) (Action.framed frame work')) :
    k.Akin good (Machine.stepped i work) (Machine.stepped i work') := by
  intro m m' kin
  have counted : k.Kin { m with steps := m.steps + 1 } { m' with steps := m'.steps + 1 } :=
    kin.edit (fun m => { m with steps := m.steps + 1 }) (fun _ _ _ => rfl)
      fun w => ⟨w.loops, w.calls, w.functions⟩
  have sameFrame : Machine.frame { m' with steps := m'.steps + 1 } i =
      Machine.frame { m with steps := m.steps + 1 } i := by
    obtain ⟨heap, tracer, rfl⟩ := kin.same
    cases i <;> rfl
  have level : m.Level { m with steps := m.steps + 1 } := ⟨rfl, rfl⟩
  dsimp only [Machine.stepped]
  rw [sameFrame]
  exact (akin _ _ _ counted).before level

theorem akin_stepped (i : Instr) {good : Flow → Flow → Prop} {work work' : Action Flow}
    (akin : k.Akin good work work') :
    k.Akin good (Machine.stepped i work) (Machine.stepped i work') :=
  akin_stepped_of_framed i fun frame => akin_framed frame akin

theorem akin_repeatWhile {cond cond' : Action Bool} {body body' : Action Flow}
    {step step' : Action Unit} (ofCond : k.Akin Eq cond cond') (ofBody : k.Akin Eq body body')
    (ofStep : k.Akin Eq step step') (fuel : Nat) :
    k.Akin Eq (Action.repeatWhile cond body step fuel)
      (Action.repeatWhile cond' body' step' fuel) := by
  induction fuel with
  | zero => exact fun _ _ _ => .outOfFuel
  | succ fuel ih =>
    unfold Action.repeatWhile
    refine akin_bind_eq ofCond fun holds => akin_ite (fun _ => ?_) fun _ => akin_pure rfl
    refine akin_bind_eq ofBody fun flow => ?_
    cases flow with
    | next | again => exact akin_bind_eq ofStep fun _ => ih
    | leave | result => exact akin_pure rfl

end Kinship

end TraceLang
