/-
# TraceLang.Proofs.Observing — tracing only observes

A program is run twice, once as it is and once without its `trace` statements.
Step counters, marks of watched variables and histories go apart, and so do
identities: a target such as `a[[0][0]]` makes lists that the second run does
not have. Still the two heaps stay paired, and the two machines coupled
(`observing`): a `trace` statement without calls in its targets changes nothing
that the rest of the program can see (`startTraces_shows`).

`run_untraced` draws the conclusion for whole programs: same ending, same
output, same functions, same visible variables.
-/
import TraceLang.Proofs.Calls
import TraceLang.Proofs.Coupling.Instructions
import TraceLang.Proofs.Coupling.Paired
import TraceLang.Proofs.Tracing

namespace TraceLang

set_option autoImplicit false

/-- The targets of a `trace` statement hold no calls. -/
def Instr.TargetsCallFree : Instr → Prop
  | .trace _ targets => ∀ x ∈ targets, x.isCallFree
  | _ => True

instance : DecidablePred Instr.TargetsCallFree
  | .trace _ targets => inferInstanceAs (Decidable (∀ x ∈ targets, x.isCallFree))
  | .whileLoop .. | .forLoop .. | .conditional .. | .declare .. | .assign .. | .call ..
  | .define .. | .leave .. | .again .. | .result .. => isTrue trivial

/-- Whether the fault came up inside a `trace` statement. -/
def Fault.isInTrace (f : Fault) : Bool :=
  f.backtrace.any (·.status = .traceStart)

theorem Fault.isInTrace_trace {f : Fault} (c : Context) (inside : f.isInTrace) :
    (f.trace c).isInTrace := by
  unfold Fault.trace
  split
  · simp_all [isInTrace]
  · exact inside

/-- A program with and without its `trace` statements. -/
def observing : Coupling :=
  .paired False
    { notes := fun _ _ _ _ _ => True
      notes_mono := fun _ _ => trivial
      drop := Instr.isTrace
      admits := fun i => i.Spelled ∧ i.TargetsCallFree
      excused := fun f => f.isInTrace
      excused_locate := fun _ inside => inside
      excused_trace := fun c inside => Fault.isInTrace_trace c inside }

namespace Machine

open TraceLang.Action

/-- Only heap and tracer change, and the heap shows what it did. -/
def ShowsIn (m m' : Machine) : Prop :=
  ∃ heap tracer, m' = { m with heap, tracer } ∧ m.heap.Shows heap

theorem ShowsIn.refl (m : Machine) : m.ShowsIn m :=
  ⟨m.heap, m.tracer, rfl, (Heap.Grows.refl _).shows⟩

theorem GrowsTo.showsIn {m m' : Machine} (grows : m.GrowsTo m') : m.ShowsIn m' := by
  obtain ⟨heap, rfl, grows⟩ := grows
  exact ⟨heap, m.tracer, rfl, grows.shows⟩

theorem ShowsIn.trans {m m' m'' : Machine} (first : m.ShowsIn m') (second : m'.ShowsIn m'') :
    m.ShowsIn m'' := by
  obtain ⟨heap, tracer, rfl, shows⟩ := first
  obtain ⟨heap', tracer', rfl, shows'⟩ := second
  exact ⟨heap', tracer', rfl, shows.trans shows'⟩

/-- Watching places changes nothing that can be seen. -/
theorem startTraces_shows (g : Engine) {targets : List Expr} (free : ∀ x ∈ targets, x.isCallFree)
    (m : Machine) :
    (startTraces g targets).Ends m (fun _ m' => m.ShowsIn m')
      (fun f m' => m.ShowsIn m' ∧ f.backtrace = []) := by
  induction targets generalizing m with
  | nil => exact .refl m
  | cons target rest ih =>
    obtain ⟨first, others⟩ := List.forall_mem_cons.mp free
    unfold startTraces
    rw [ends_ite]
    refine ⟨fun _ => ?_, fun _ => ⟨.refl m, rfl⟩⟩
    rw [ends_bind]
    refine (resolve_callFree_grows g first m).mono ?_ fun f m' bad => ⟨bad.1.showsIn, bad.2⟩
    intro c m₁ grows
    rw [ends_bind, ends_read, ends_ite]
    refine ⟨fun _ => ⟨grows.showsIn, rfl⟩, fun _ => ?_⟩
    rw [ends_bind, ends_modify]
    have marked : ∀ tracer, m.ShowsIn
        { m₁ with heap := m₁.heap.modify c fun v => { v with traced := true }, tracer } :=
      fun tracer => grows.showsIn.trans ⟨_, tracer, rfl, Heap.shows_mark m₁.heap c⟩
    refine (ih others _).mono (fun _ _ shows => (marked _).trans shows) ?_
    rintro f m₂ ⟨shows, none⟩
    exact ⟨(marked _).trans shows, none⟩

/-- A `trace` statement changes nothing that corresponds. -/
theorem execute_trace_skips (g : Engine) (unit : Nat) (path : Path) {span : Span}
    {targets : List Expr} (free : ∀ x ∈ targets, x.isCallFree) {ρ : Pairing} {m m' : Machine}
    (coupled : observing.Machines ρ m m') :
    (execute g unit path (.trace span targets)).Ends m
      (fun flow n => flow = .next ∧ m.Level n ∧ observing.Machines ρ n m')
      (fun f n => m.Level n ∧ f.isInTrace) := by
  unfold execute
  refine ends_stepped (ends_bind.mpr ((startTraces_shows g free _).mono ?_ ?_))
  · rintro _ n ⟨heap, tracer, rfl, shows⟩
    refine ⟨rfl, rfl, rfl, ⟨rfl, rfl⟩, ?_⟩
    exact { coupled with heap := Heap.Aligned.left coupled.heap shows, notes := trivial }
  · rintro f n ⟨⟨heap, tracer, rfl, -⟩, none⟩
    refine ⟨rfl, rfl, ⟨rfl, rfl⟩, ?_⟩
    simp [Fault.isInTrace, Fault.trace, Fault.locate, none, entered, Context.push, frame]

theorem observing_lawful {settings : Settings} (silent : settings.echoTraces = false) :
    observing.Lawful settings where
  toTends := Coupling.paired_tends
  tick _ := trivial
  declares _ answers admitted :=
    Coupling.declare_mirrors Coupling.paired_tends answers admitted.1.2.1 admitted.1.2.2
  kept admitted := ⟨Instr.isTrace_of_isSimple admitted.1.1, Instr.isTrace_of_isSimple admitted.1.2⟩
  header isStep admitted := Coupling.header_mirrors admitted.1 isStep
  record ρ span := by
    rw [funext (recordTraces_silent silent span)]
    refine Coupling.mirrors_modify fun ρ₁ m m' _ coupled => ?_
    exact ⟨⟨rfl, rfl⟩, ρ₁, .refl ρ₁, { coupled with notes := trivial }⟩
  watch _ _ kept := by cases kept
  skips g unit path {i ρ m m'} admitted dropped coupled := by
    cases i <;> cases dropped
    refine (execute_trace_skips g unit path admitted.2 coupled).mono ?_ fun _ _ bad => bad
    exact fun _ n good => ⟨good.1, good.2.1, ρ, .refl ρ, good.2.2⟩

/-! ## Whole programs -/

/-- Variables of two machines that show the same. -/
structure ShownAlike (m m' : Machine) (v v' : Variable) : Prop where
  ty : v'.value.ty = v.value.ty
  assigned : v'.assigned = v.assigned
  text : m'.heap.text v'.value = m.heap.text v.value
  snapshot : m'.heap.snapshot v'.value = m.heap.snapshot v.value

/-- The second machine shows what the first one does, with functions that are
free from `trace` statements. -/
structure SameResults (m m' : Machine) : Prop where
  output : m'.output = m.output
  functions : m'.functions.map (fun entry => (entry.1, entry.2.function)) =
    m.functions.map fun entry => (entry.1, entry.2.function.without Instr.isTrace)
  names : m'.scopes.visibleNames = m.scopes.visibleNames
  visible : ∀ name, Option.Rel (ShownAlike m m') (m.lookup? name) (m'.lookup? name)

theorem sameResults_of_coupled {ρ : Pairing} {m m' : Machine}
    (coupled : observing.Machines ρ m m') : m.SameResults m' where
  output := coupled.output
  functions := by
    have functions := coupled.functions
    generalize m.functions = entries, m'.functions = entries' at functions ⊢
    induction functions with
    | nil => rfl
    | @cons entry entry' _ _ first _ ih =>
      have pruned : entry'.2.function = entry.2.function.without Instr.isTrace := first.2.pruned
      rw [List.map_cons, List.map_cons, ih, first.1, pruned]
  names := coupled.scopes.visibleNames
  visible name := by
    have found := coupled.scopes.find? name
    unfold lookup?
    generalize m.scopes.find? name = c, m'.scopes.find? name = c' at found ⊢
    cases found with
    | none => exact .none
    | some cells =>
      have paired : m.heap.Paired False ρ m'.heap := coupled.heap.toPaired
      have like := paired.read cells
      exact .some ⟨like.value.ty, like.assigned, paired.text like.value, paired.snapshot like.value⟩

/-- Tracing only observes. Run a program from a source text, with no calls in
the targets of its `trace` statements, on a new machine. If it ends, and not with
a fault inside a `trace` statement, then it ends the same way without its `trace`
statements: with success or with the very same fault, the same output, the same
functions up to `trace` statements, and the same visible variables. -/
theorem run_untraced {settings : Settings} (silent : settings.echoTraces = false) {source : String}
    {prog : Program} (read : Program.read source = .ok prog)
    (free : Instr.EveryOf Instr.TargetsCallFree prog.body) (fuel unit unit' : Nat)
    (output : Output) :
    (run ((Env.standard settings).engine fuel) unit prog).Ends { output }
      (fun _ m => ∃ m',
        run ((Env.standard settings).engine fuel) unit' prog.untraced { output } = .ok () m' ∧
          m.SameResults m')
      (fun f m => f.isInTrace ∨ ∃ m',
        run ((Env.standard settings).engine fuel) unit' prog.untraced { output } = .fault f m' ∧
          m.SameResults m') := by
  have start : observing.Machines .empty { output } { output } :=
    { heap := Heap.aligned_empty Heap.pristine_new Heap.pristine_new
      scopes := Scopes.like_global
      context := rfl
      functions := .nil
      callDepth := rfl
      output := rfl
      notes := trivial }
  have admitted : Instr.EveryOf observing.admits prog.body :=
    Instr.EveryOf.and _ (read_spelled read) free
  refine (Coupling.run_mirrors (observing_lawful silent) fuel unit unit' admitted start rfl).mono
    ?_ ?_
  · rintro _ m ⟨-, ρ, _, m', ran, -, coupled, -⟩
    exact ⟨m', ran, sameResults_of_coupled coupled⟩
  · rintro f m ⟨-, inside | ⟨ρ, m', failed, -, coupled⟩⟩
    · exact .inl inside
    · exact .inr ⟨m', failed, sameResults_of_coupled coupled⟩

/-- A target that makes lists of its own, and one inside a function. -/
theorem run_untraced_nested : ∃ prog m m',
    Program.read ("list a = [1, 2]; trace(a[[1][0]]); " ++
        "func f(list b) \x7b trace(b[0]); b[0] = 5; return len(b); \x7d a[1] = f(a); print(a);") =
        .ok prog ∧
      Instr.EveryOf Instr.TargetsCallFree prog.body ∧
      run ((Env.standard {}).engine 9) 0 prog {} = .ok () m ∧
      run ((Env.standard {}).engine 9) 1 prog.untraced {} = .ok () m' ∧ m.SameResults m' := by
  have checked : (sourceRun? ((Env.standard {}).engine 9) ("list a = [1, 2]; trace(a[[1][0]]); " ++
      "func f(list b) \x7b trace(b[0]); b[0] = 5; return len(b); \x7d a[1] = f(a); print(a);")).any
      (fun ended => decide (Instr.EveryOf Instr.TargetsCallFree ended.1.body)) := by
    decide +kernel
  obtain ⟨⟨prog, m⟩, found, holds⟩ := (Option.any_eq_true _ _).mp checked
  have free := of_decide_eq_true holds
  obtain ⟨read, ran⟩ := sourceRun?_eq_some found
  obtain ⟨m', ran', same⟩ := (run_untraced rfl read free 9 0 1 default).of_ok ran
  exact ⟨prog, m, m', read, free, ran, ran', same⟩

end Machine

end TraceLang
