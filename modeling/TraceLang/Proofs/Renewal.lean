/-
# TraceLang.Proofs.Renewal — a machine that is reset is as good as a new one

A reset takes all names away and leaves the heap. So the runs that follow get other
identities for their variables and lists than on a new machine, and everything else is the
same: the two machines are renamings of each other (`renamed`), down to the marks and
versions of their variables and the notes about those that are watched.

A session runs programs one after the other, whether they succeed or not, and reports
after each one what a host can see. Machines that are renamings of each other have the
same sessions (`session_renamed`), and nothing needs to correspond at the start.
-/
import TraceLang.Proofs.Coupling.Instructions
import TraceLang.Proofs.Coupling.Paired
import TraceLang.Proofs.Detachment
import TraceLang.Proofs.Sessions
import TraceLang.Proofs.Tracing

namespace TraceLang

set_option autoImplicit false

/-! ## Notes -/

/-- The notes are the same and about variables that correspond. -/
structure Watched.Like (cells : CellId → CellId → Prop) (x x' : Watched) : Prop where
  id : x'.id = x.id
  label : x'.label = x.label
  cell : cells x.cell x'.cell
  records : x'.records = x.records
  seenVersion : x'.seenVersion = x.seenVersion
  seen : x'.seen = x.seen

/-- The same notes, in the same order, about variables that correspond. -/
def Tracer.Like (cells : CellId → CellId → Prop) (t t' : Tracer) : Prop :=
  List.Forall₂ (Watched.Like cells) t.watched.toList t'.watched.toList

section

variable {cells cells' : CellId → CellId → Prop} {t t' : Tracer} {x x' : Watched}

theorem Tracer.Like.mono (like : t.Like cells t') (more : ∀ c c', cells c c' → cells' c c') :
    t.Like cells' t' :=
  List.Forall₂.imp (fun _ _ like => { like with cell := more _ _ like.cell }) like

theorem Tracer.Like.flip (like : t.Like cells t') : t'.Like (fun c c' => cells c' c) t :=
  List.Forall₂.flip (List.Forall₂.imp (fun _ _ like =>
    ⟨like.id.symm, like.label.symm, like.cell, like.records.symm, like.seenVersion.symm,
      like.seen.symm⟩) like)

variable {ρ : Pairing} {h h' : Heap} (paired : h.Paired True ρ h')

include paired

theorem Watched.Like.observe (like : x.Like ρ.cells x') (step : Nat) (span : Span) :
    (x'.observe h' step span).1 = (x.observe h step span).1 ∧
      (x.observe h step span).2.Like ρ.cells (x'.observe h' step span).2 := by
  have shown := paired.read like.cell
  have version := shown.version trivial
  have change : x'.change? h' = x.change? h := by
    simp only [Watched.change?, paired.snapshot shown.value, version, like.seenVersion, like.seen]
  simp only [Watched.observe, change]
  cases x.change? h with
  | none => exact ⟨rfl, like⟩
  | some value =>
    exact ⟨rfl, { like with records := by rw [like.records], seenVersion := version, seen := rfl }⟩

theorem Tracer.Like.update (like : t.Like ρ.cells t') (step : Nat) (span : Span) :
    (t'.update h' step span).1 = (t.update h step span).1 ∧
      (t.update h step span).2.Like ρ.cells (t'.update h' step span).2 := by
  unfold Tracer.Like at like ⊢
  simp only [Tracer.update, ← Array.countP_toList, Array.toList_map]
  generalize t.watched.toList = ws, t'.watched.toList = ws' at like
  induction like with
  | nil => exact ⟨rfl, .nil⟩
  | cons first _ ih =>
    obtain ⟨same, like⟩ := first.observe paired step span
    simp only [List.map_cons, List.countP_cons, same]
    exact ⟨by rw [ih.1], .cons like ih.2⟩

theorem Tracer.Like.watch (like : t.Like ρ.cells t') {c c' : CellId} (cells : ρ.cells c c')
    (label : String) : (t.watch h c label).Like ρ.cells (t'.watch h' c' label) := by
  have shown := paired.read cells
  have size : t'.watched.size = t.watched.size := by
    simpa using (List.Forall₂.length_eq like).symm
  simp only [Tracer.Like, Tracer.watch, Array.toList_push]
  refine List.rel_append like (.cons ?_ .nil)
  exact ⟨size, rfl, cells, rfl, shown.version trivial, paired.snapshot shown.value⟩

end

/-- The same notes print the same lines. -/
theorem Tracer.Like.echoLines {cells : CellId → CellId → Prop} {t t' : Tracer}
    (like : t.Like cells t') (step : Nat) :
    t'.watched.toList.filterMap (Machine.echoLine? step) =
      t.watched.toList.filterMap (Machine.echoLine? step) := by
  unfold Tracer.Like at like
  generalize t.watched.toList = ws, t'.watched.toList = ws' at like
  induction like with
  | nil => rfl
  | @cons x x' _ _ first _ ih =>
    have line : Machine.echoLine? step x' = Machine.echoLine? step x := by
      unfold Machine.echoLine?
      rw [first.records, first.label]
    rw [List.filterMap_cons, List.filterMap_cons, ih, line]

/-! ## Renamings -/

/-- Two runs of the same program that differ in identities only. -/
def renamed : Coupling :=
  .paired True
    { notes := fun ρ s t s' t' => s' = s ∧ t.Like ρ.cells t'
      notes_mono := fun more notes => ⟨notes.1, notes.2.mono fun _ _ => more.cells⟩ }

theorem renamed_drop (i : Instr) : renamed.drop i = false :=
  rfl

namespace Machine

open Coupling

variable {ρ : Pairing} {m m' : Machine} {g : Engine}

/-! ## Declarations and header statements -/

theorem checkDeclaration_renamed (d : Declaration) :
    renamed.Mirrors ρ renamed.same (checkDeclaration d) (checkDeclaration d) := by
  intro σ m m' _ coupled
  have found := coupled.scopes.findLocal? d.name
  simp only [MirrorsAt, Action.Ends, checkDeclaration]
  generalize m.scopes.findLocal? d.name = c, m'.scopes.findLocal? d.name = c' at found ⊢
  cases isValidName d.name with
  | false => exact ⟨.refl m, .inr ⟨σ, m', rfl, .refl σ, coupled⟩⟩
  | true =>
    cases found with
    | none =>
      cases d.mode with
      | mustExist => exact ⟨.refl m, .inr ⟨σ, m', rfl, .refl σ, coupled⟩⟩
      | mustNotExist | either => exact ⟨.refl m, σ, (), m', rfl, .refl σ, coupled, rfl⟩
    | @some c c' cells =>
      have traced : (m'.heap.read c').traced = (m.heap.read c).traced :=
        (coupled.heap.toPaired.read cells).traced trivial
      cases d.mode with
      | mustNotExist => exact ⟨.refl m, .inr ⟨σ, m', rfl, .refl σ, coupled⟩⟩
      | mustExist | either =>
        simp only [traced]
        cases (m.heap.read c).traced with
        | true => exact ⟨.refl m, .inr ⟨σ, m', rfl, .refl σ, coupled⟩⟩
        | false => exact ⟨.refl m, σ, (), m', rfl, .refl σ, coupled, rfl⟩

theorem bindChecked_renamed (d : Declaration) {v v' : Variable} (like : renamed.Variables ρ v v') :
    renamed.Mirrors ρ renamed.cells (bindChecked d v) (bindChecked d v') := by
  refine mirrors_bind (used_mirrors d.init like) fun σ v v' _ given => ?_
  simp only [Value.isOf, given.shown.ty]
  refine mirrors_ite (fun _ => mirrors_failAt _ _) fun _ => ?_
  intro τ m m' later coupled
  obtain ⟨υ, later', heap, cells⟩ :=
    coupled.heap.alloc (given.later later).shown d.assigned d.name
  have grown := coupled.grow later' heap
  refine ⟨⟨rfl, Scopes.depth_define _ _ _⟩, υ, _, _, rfl, later', ?_, cells⟩
  exact { grown with scopes := grown.scopes.define d.name cells }

theorem declare_renamed (answers : renamed.Answers g.call) (d : Declaration) :
    renamed.Mirrors ρ renamed.cells (declare g d) (declare g d) := by
  refine mirrors_bind (checkDeclaration_renamed d) fun _ _ _ _ _ => ?_
  exact mirrors_bind (eval_mirrors paired_tends answers d.init) fun _ _ _ _ like =>
    bindChecked_renamed d like

/-- Signals that correspond have the same full account. -/
theorem detail_renamed {flow flow' : Flow} (like : renamed.Flows ρ flow flow')
    (coupled : renamed.Machines ρ m m') : flow'.detail m'.heap = flow.detail m.heap := by
  cases like with
  | next | leave | again | nothing => rfl
  | value like => rw [Flow.detail, Flow.detail, coupled.heap.toPaired.detail like]

/-- Signals that correspond go astray the same way. -/
theorem stray_renamed (defect : String → Defect) {flow flow' : Flow}
    (like : renamed.Flows ρ flow flow') :
    renamed.Mirrors ρ (renamed.same (α := Unit)) (Action.stray defect flow)
      (Action.stray defect flow') := by
  intro σ m m' later coupled
  have detail := detail_renamed (like.later later) coupled
  simp only [MirrorsAt, Action.Ends, Action.stray, detail]
  cases flow.detail m.heap with
  | none => trivial
  | some account => exact ⟨.refl m, .inr ⟨σ, m', rfl, .refl σ, coupled⟩⟩

theorem expectNext_renamed (isStep : Bool) {flow flow' : Flow} (like : renamed.Flows ρ flow flow') :
    renamed.Mirrors ρ renamed.same (expectNext isStep flow) (expectNext isStep flow') := by
  have astray := stray_renamed (.header isStep) like
  unfold expectNext
  cases like with
  | next => exact mirrors_pure fun _ _ => rfl
  | leave | again | nothing | value => exact astray

/-! ## Watched variables -/

theorem startTraces_renamed (answers : renamed.Answers g.call) (targets : List Expr) : ∀ ρ,
    renamed.Mirrors ρ renamed.same (startTraces g targets) (startTraces g targets) := by
  induction targets with
  | nil => exact fun _ => mirrors_pure fun _ _ => rfl
  | cons target rest ih =>
    intro ρ
    unfold startTraces
    refine mirrors_ite (fun _ => ?_) fun _ => mirrors_failAt _ _
    refine mirrors_bind (resolve_mirrors paired_tends answers target) fun σ c c' _ cells => ?_
    have looked : renamed.Mirrors σ renamed.same (Action.read fun m => (m.heap.read c).traced)
        (Action.read fun m => (m.heap.read c').traced) :=
      mirrors_read fun τ m m' later coupled =>
        (coupled.heap.toPaired.read (renamed.cells_mono later cells)).traced trivial
    refine mirrors_bind looked ?_
    rintro τ traced _ later rfl
    refine mirrors_ite (fun _ => mirrors_failAt _ _) fun _ => ?_
    refine mirrors_bind (mirrors_modify fun υ m m' later' coupled => ?_) fun υ _ _ _ _ => ih υ
    have cells := renamed.cells_mono (renamed.trans later later') cells
    have shown := coupled.heap.toPaired.read cells
    have marked : (m.heap.modify c fun v => { v with traced := true }).Paired True υ
        (m'.heap.modify c' fun v => { v with traced := true }) :=
      coupled.heap.toPaired.modify cells { shown with traced := fun _ => rfl }
    refine ⟨⟨rfl, rfl⟩, υ, .refl υ,
      { coupled with heap := coupled.heap.revalue marked rfl rfl, notes := ⟨coupled.notes.1, ?_⟩ }⟩
    exact Tracer.Like.watch marked coupled.notes.2 cells target.text

theorem recordTraces_renamed (settings : Settings) (span : Span) :
    renamed.Mirrors ρ renamed.same (recordTraces settings span) (recordTraces settings span) := by
  rw [funext (recordTraces_eq settings span)]
  refine mirrors_modify fun σ m m' _ coupled => ?_
  obtain ⟨steps, notes⟩ := coupled.notes
  obtain ⟨count, like⟩ := Tracer.Like.update coupled.heap.toPaired notes m.steps span
  have lines : m'.echoLines span = m.echoLines span := by
    simp only [echoLines, steps, count, like.echoLines]
  refine ⟨⟨rfl, rfl⟩, σ, .refl σ, { coupled with output := ?_, notes := ⟨steps, ?_⟩ }⟩
  · rw [recordOutput, recordOutput, lines, coupled.output]
  · rw [steps]
    exact like

theorem renamed_lawful (settings : Settings) : renamed.Lawful settings where
  toTends := paired_tends
  tick notes := ⟨congrArg (· + 1) notes.1, notes.2⟩
  declares _ answers _ := declare_renamed answers _
  kept _ := ⟨rfl, rfl⟩
  header isStep _ mirrors := mirrors_bind mirrors fun _ _ _ _ flows =>
    expectNext_renamed isStep flows
  record _ span := recordTraces_renamed settings span
  watch ρ answers _ := startTraces_renamed answers _ ρ
  skips _ _ _ {_ _ _ _} _ dropped := by cases dropped

/-! ## Programs -/

end Machine

/-- The function cannot tell renamed machines apart if those that it calls cannot. -/
def Handler.Uniform (handler : Handler) : Prop :=
  ∀ {ρ : Pairing} {args args' : List Variable}, List.Forall₂ (renamed.Given ρ) args args' →
    ∀ call span, renamed.Answers call →
      renamed.Mirrors ρ renamed.Values (handler call args span) (handler call args' span)

/-- No builtin function can tell renamed machines apart. -/
def Env.Uniform (env : Env) : Prop :=
  ∀ entry ∈ env.builtins, Handler.Uniform entry.2

theorem Env.standard_uniform (settings : Settings) : (Env.standard settings).Uniform :=
  fun _ listed _ _ _ like call span _ =>
    Coupling.standard_mirrors Coupling.paired_tends listed call like span

theorem Env.Uniform.register {env : Env} (uniform : env.Uniform) (name : String) {handler : Handler}
    (added : Handler.Uniform handler) : (env.register name handler).Uniform := by
  intro entry listed
  rcases List.mem_cons.mp listed with rfl | older
  · exact added
  · exact uniform entry (List.mem_filter.mp older).1

namespace Machine

open Coupling

variable {ρ : Pairing} {m m' : Machine} {env : Env}

section

variable (uniform : env.Uniform) (fuel unit unit' : Nat)

include uniform

theorem call_renamed : renamed.Answers (env.engine fuel).call :=
  callByName_answers env (renamed_lawful env.settings) (fun listed like => uniform _ listed like)
    fuel

theorem execute_renamed (path : Path) (i : Instr) :
    renamed.Mirrors ρ renamed.Flows (execute (env.engine fuel) unit path i)
      (execute (env.engine fuel) unit path i) := by
  have mirrors := execute_mirrors (w := ρ) (renamed_lawful env.settings) (g := env.engine fuel) rfl
    (call_renamed uniform fuel) unit unit path path i (Instr.every_of_forall (fun _ => trivial) i)
    rfl
  rwa [Instr.without_eq_self renamed_drop] at mirrors

theorem run_renamed (prog : Program) :
    renamed.Mirrors ρ renamed.same (run (env.engine fuel) unit prog)
      (run (env.engine fuel) unit' prog) := by
  have every : Instr.EveryOf renamed.admits prog.body :=
    Instr.everyOf_of_forall (fun _ => trivial) prog.body
  have body := runBlock_mirrors (w := ρ) (renamed_lawful env.settings) (g := env.engine fuel) rfl
    (call_renamed uniform fuel) unit unit' [] [] 0 0 prog.body every
  rw [Instr.withoutAll_eq_self renamed_drop] at body
  refine mirrors_bind body fun σ flow flow' _ like => ?_
  have astray := stray_renamed .escaped like
  cases like with
  | next => exact mirrors_pure fun _ _ => rfl
  | leave | again | nothing | value => exact astray

end

theorem flip_renamed (coupled : renamed.Machines ρ m m') : renamed.Machines ρ.flip m' m where
  heap := coupled.heap.flip
  scopes := coupled.scopes.flip
  context := coupled.context.symm
  functions := by
    refine (coupled.functions.imp fun entry entry' both => ?_).flip
    have same : entry'.2.function = entry.2.function := by
      rw [both.2.pruned, Function.without_eq_self renamed_drop]
    refine ⟨both.1.symm, ?_, ?_⟩
    · rw [Function.without_eq_self renamed_drop, same]
    · rw [same]
      exact both.2.admitted
  callDepth := coupled.callDepth.symm
  output := coupled.output.symm
  notes := ⟨coupled.notes.1.symm, coupled.notes.2.flip⟩

/-! ## Sessions -/

/-- What a host can see of a variable. -/
structure Shown where
  name : Option String
  assigned : Bool
  traced : Bool
  version : Nat
  ty : Ty
  text : String
  snapshot : Snapshot

/-- What a host can see after a program has been run. -/
structure Report where
  /-- Why the program failed, if it did. -/
  fault : Option Fault
  output : Output
  steps : Nat
  /-- The visible names with their variables. -/
  visible : List (String × Option Shown)
  /-- The number, the label and the records of each watched variable. -/
  traces : List (Nat × String × Array Record)

def show? (m : Machine) (name : String) : Option Shown :=
  (m.lookup? name).map fun v =>
    { name := v.name
      assigned := v.assigned
      traced := v.traced
      version := v.version
      ty := v.value.ty
      text := m.heap.text v.value
      snapshot := m.heap.snapshot v.value }

def report (m : Machine) (fault : Option Fault) : Report where
  fault
  output := m.output
  steps := m.steps
  visible := m.scopes.visibleNames.map fun name => (name, m.show? name)
  traces := m.tracer.watched.toList.map fun x => (x.id, x.label, x.records)

/-- Run programs one after the other, whether they succeed or not. -/
def session (g : Engine) (unit : Nat) : List Program → Machine → Option (List Report)
  | [], _ => some []
  | prog :: rest, m =>
    match run g unit prog m with
    | .ok _ n => (session g (unit + 1) rest n).map (n.report none :: ·)
    | .fault f n => (session g (unit + 1) rest n).map (n.report (some f) :: ·)
    | .outOfFuel => none

theorem show?_renamed (coupled : renamed.Machines ρ m m') (name : String) :
    m'.show? name = m.show? name := by
  have found := coupled.scopes.find? name
  unfold show? lookup?
  generalize m.scopes.find? name = c, m'.scopes.find? name = c' at found ⊢
  cases found with
  | none => rfl
  | @some c c' cells =>
    have paired : m.heap.Paired True ρ m'.heap := coupled.heap.toPaired
    have like := paired.read cells
    simp only [Option.map_some, like.name, like.assigned, like.traced trivial,
      like.version trivial, like.value.ty, paired.text like.value, paired.snapshot like.value]

theorem report_renamed (coupled : renamed.Machines ρ m m') (fault : Option Fault) :
    m'.report fault = m.report fault := by
  have traces : m'.tracer.watched.toList.map (fun x => (x.id, x.label, x.records)) =
      m.tracer.watched.toList.map fun x => (x.id, x.label, x.records) := by
    have notes := coupled.notes.2
    unfold Tracer.Like at notes
    generalize m.tracer.watched.toList = ws, m'.tracer.watched.toList = ws' at notes
    induction notes with
    | nil => rfl
    | cons first _ ih =>
      rw [List.map_cons, List.map_cons, ih, first.id, first.label, first.records]
  simp only [report, coupled.output, coupled.notes.1, coupled.scopes.visibleNames, traces,
    show?_renamed coupled]

/-- Machines that are renamings of each other have the same sessions. -/
theorem session_renamed (uniform : env.Uniform) (fuel : Nat) (progs : List Program) :
    ∀ (unit unit' : Nat) {ρ : Pairing} {m m' : Machine}, renamed.Machines ρ m m' →
      session (env.engine fuel) unit progs m = session (env.engine fuel) unit' progs m' := by
  induction progs with
  | nil => exact fun _ _ _ _ _ _ => rfl
  | cons prog rest ih =>
    intro unit unit' ρ m m' coupled
    have forth := run_renamed uniform fuel unit unit' prog ρ m m' (.refl ρ) coupled
    have back := run_renamed uniform fuel unit' unit prog ρ.flip m' m (.refl _)
      (flip_renamed coupled)
    unfold session
    cases ended : run (env.engine fuel) unit prog m with
    | ok _ n =>
      obtain ⟨-, σ, _, n', ran, -, coupled', -⟩ := forth.of_ok ended
      simp only [ran, ih (unit + 1) (unit' + 1) coupled', report_renamed coupled']
    | fault f n =>
      obtain ⟨σ, n', failed, -, coupled'⟩ := (forth.of_fault ended).2.resolve_left id
      simp only [failed, ih (unit + 1) (unit' + 1) coupled', report_renamed coupled']
    | outOfFuel =>
      -- The second run could not end, since then the first one would.
      cases ended' : run (env.engine fuel) unit' prog m' with
      | outOfFuel => rfl
      | ok _ n' =>
        obtain ⟨-, σ, _, n, ran, -⟩ := back.of_ok ended'
        rw [ended] at ran
        cases ran
      | fault f n' =>
        obtain ⟨σ, n, failed, -⟩ := (back.of_fault ended').2.resolve_left id
        rw [ended] at failed
        cases failed

/-- Nothing corresponds between a machine that is reset and a new one. -/
theorem renamed_reset (pristine : m.heap.Pristine) :
    renamed.Machines .empty m.reset { output := m.output } where
  heap := Heap.aligned_empty pristine Heap.pristine_new
  scopes := Scopes.like_global
  context := rfl
  functions := .nil
  callDepth := rfl
  output := rfl
  notes := ⟨rfl, .nil⟩

/-! ## Default values -/

end Machine

/-- The registered default value of a type. -/
def Ty.initial : Ty → Snapshot
  | .int => .int 0
  | .float => .float .zero
  | .bool => .bool false
  | .string => .str ""
  | .list => .list []
  | .none | .auto => .none

theorem Heap.snapshot_of_empty {h : Heap} {l : ListId} (empty : h.elements l = #[]) :
    h.snapshot (.list l) = .list [] := by
  simp [snapshot, capture, values, empty]

/-- A variable without initializer holds the default value, and a default list is new. -/
theorem Heap.read_reserve {h : Heap} (pristine : h.Pristine) (ty : Ty) (name : String) :
    ∃ v, (h.reserve ty name).2.read (h.reserve ty name).1 = v ∧ v.assigned = false ∧
      (h.reserve ty name).2.snapshot v.value = ty.initial ∧
      ∀ l, v.value = .list l → h.lists.size ≤ l.index := by
  refine ⟨_, read_alloc_new _ _, rfl, ?_⟩
  cases ty with
  | list =>
    simp only [reserve, pristine.default?_list, Option.getD_some]
    refine ⟨snapshot_of_empty (elements_allocList_new h #[]), ?_⟩
    rintro l ⟨⟩
    exact Nat.le_refl _
  | _ => exact ⟨rfl, by rintro l ⟨⟩⟩

/-- What a value reaches corresponds if the value does. -/
theorem Heap.Paired.exists_of_reaches {strict : Prop} {ρ : Pairing} {h h' : Heap} {v v' : Value}
    {l : ListId} (paired : h.Paired strict ρ h') (like : v.Like ρ.lists v')
    (reached : h.Reaches v l) : ∃ l', ρ.lists l l' := by
  induction reached with
  | here isList =>
    subst isList
    cases like with
    | list lists => exact ⟨_, lists⟩
  | inside _ holds ih =>
    obtain ⟨l', lists⟩ := ih
    have inside : ∀ v ∈ h.values _, ∃ v', v.Like ρ.lists v' :=
      forall_of_forall₂_left (paired.values lists) fun _ v' like => ⟨v', like⟩
    obtain ⟨v', like'⟩ := inside _ holds
    cases like' with
    | list lists' => exact ⟨_, lists'⟩

namespace Machine

open Coupling

variable {env : Env} {m n : Machine}

/-- On a machine whose registered list is empty, a declaration without initializer starts
from the default value. -/
theorem execute_unassigned (g : Engine) (unit : Nat) (path : Path) (span : Span) (name : String)
    (ty : Ty) (place : Span) (pristine : m.heap.Pristine) :
    (execute g unit path (.declare span (.unassigned name ty place))).Ends m
      (fun _ n => ∃ v, n.lookup? name = some v ∧ v.assigned = false ∧
        n.heap.snapshot v.value = ty.initial ∧
        ∀ l, v.value = .list l → m.heap.lists.size ≤ l.index)
      (fun _ _ => True) := by
  unfold execute
  refine ends_stepped_ok (Action.ends_bind.mpr (Action.ends_discard.mpr ?_))
  rw [declare_unassigned]
  refine Action.ends_bind.mpr ((checkDeclaration_ends _ _).mono ?_ fun _ _ _ => trivial)
  rintro _ _ rfl
  simp only [Action.Ends, Action.bind_of_ok (recordTraces_eq g.env.settings span _)]
  obtain ⟨v, read, known⟩ := Heap.read_reserve pristine ty name
  refine ⟨v, ?_, known⟩
  simp only [lookup?, entered, Scopes.find?_define_self, Option.map_some, read]

/-! ## Nothing leads to the registered list -/

/-- A machine that has been used: programs or single instructions have been run on it, each
to its end, and it may have been reset in between. -/
inductive Used (env : Env) : Machine → Prop
  | new (output : Output) : Used env { output }
  | ran {fuel unit : Nat} {prog : Program} {m n : Machine} (before : Used env m)
    (ended : run (env.engine fuel) unit prog m = .ok () n) : Used env n
  | failed {fuel unit : Nat} {prog : Program} {f : Fault} {m n : Machine} (before : Used env m)
    (ended : run (env.engine fuel) unit prog m = .fault f n) : Used env n
  | executed {fuel unit : Nat} {path : Path} {i : Instr} {flow : Flow} {m n : Machine}
    (before : Used env m) (ended : execute (env.engine fuel) unit path i m = .ok flow n) :
    Used env n
  | refused {fuel unit : Nat} {path : Path} {i : Instr} {f : Fault} {m n : Machine}
    (before : Used env m) (ended : execute (env.engine fuel) unit path i m = .fault f n) :
    Used env n
  | reset {m : Machine} (before : Used env m) : Used env m.reset

/-- What mirrors itself leaves a machine that corresponds to itself. -/
theorem self_of_mirrors {α : Type} {act : Action α} {good : Pairing → α → α → Prop} {ρ : Pairing}
    (mirrors : renamed.Mirrors ρ good act act) (coupled : renamed.Machines ρ m m) :
    act.Ends m (fun _ n => ∃ σ, renamed.Machines σ n n)
      (fun _ n => ∃ σ, renamed.Machines σ n n) := by
  refine ((mirrors ρ m m (.refl ρ) coupled).and (Action.ends_self act m)).mono ?_ ?_
  · rintro a n ⟨⟨-, σ, _, _, ran, -, coupled, -⟩, ran'⟩
    obtain ⟨-, rfl⟩ := Outcome.ok.inj (ran.symm.trans ran')
    exact ⟨σ, coupled⟩
  · rintro f n ⟨⟨-, failed⟩, failed'⟩
    obtain ⟨σ, _, same, -, coupled⟩ := failed.resolve_left id
    obtain ⟨-, rfl⟩ := Outcome.fault.inj (same.symm.trans failed')
    exact ⟨σ, coupled⟩

/-- A used machine is a renaming of itself, apart from its registered list. -/
theorem Used.renamed_self (uniform : env.Uniform) (used : m.Used env) :
    ∃ ρ, renamed.Machines ρ m m := by
  have empty : ∀ {h : Heap}, h.Pristine → ∀ output, renamed.Machines .empty
      { heap := h, output } { heap := h, output } := fun pristine output =>
    { heap := Heap.aligned_empty pristine pristine
      scopes := Scopes.like_global
      context := rfl
      functions := .nil
      callDepth := rfl
      output := rfl
      notes := ⟨rfl, .nil⟩ }
  induction used with
  | new output => exact ⟨.empty, empty Heap.pristine_new output⟩
  | @ran fuel unit prog _ _ _ ended ih =>
    obtain ⟨ρ, coupled⟩ := ih
    exact (self_of_mirrors (run_renamed uniform fuel unit unit prog) coupled).of_ok ended
  | @failed fuel unit prog _ _ _ _ ended ih =>
    obtain ⟨ρ, coupled⟩ := ih
    exact (self_of_mirrors (run_renamed uniform fuel unit unit prog) coupled).of_fault ended
  | @executed fuel unit path i _ _ _ _ ended ih =>
    obtain ⟨ρ, coupled⟩ := ih
    exact (self_of_mirrors (execute_renamed uniform fuel unit path i) coupled).of_ok ended
  | @refused fuel unit path i _ _ _ _ ended ih =>
    obtain ⟨ρ, coupled⟩ := ih
    exact (self_of_mirrors (execute_renamed uniform fuel unit path i) coupled).of_fault ended
  | @reset m _ ih =>
    obtain ⟨ρ, coupled⟩ := ih
    exact ⟨.empty, { empty coupled.heap.pristine m.output with }⟩

theorem exists_of_binds {cells : CellId → CellId → Prop} {s s' : Scopes} {c : CellId}
    (like : s.Like cells s') (bound : s.Binds c) : ∃ c', cells c c' := by
  obtain ⟨scope, member, name, entry⟩ := bound
  have inScopes : ∀ scope ∈ s.stack.toList, ∃ scope', Scope.Like cells scope scope' :=
    Heap.forall_of_forall₂_left like fun _ scope' entries => ⟨scope', entries⟩
  obtain ⟨scope', entries⟩ := inScopes scope (Array.mem_toList_iff.mpr member)
  have inScope : ∀ entry ∈ scope, ∃ c', cells entry.2 c' :=
    Heap.forall_of_forall₂_left entries fun _ entry' both => ⟨entry'.2, both.2⟩
  exact inScope _ entry

/-- No list that a name leads to is the registered one. -/
theorem ne_registered_of_renamed {ρ : Pairing} (coupled : renamed.Machines ρ m m) {c : CellId}
    (bound : m.scopes.Binds c) {l : ListId} (reached : m.heap.Reaches (m.heap.read c).value l) :
    l ≠ .registered := by
  obtain ⟨c', cells⟩ := exists_of_binds coupled.scopes bound
  obtain ⟨l', lists⟩ := coupled.heap.toPaired.exists_of_reaches
    (coupled.heap.toPaired.read cells).value reached
  exact (coupled.heap.apart lists).1

/-- A reset gives a new machine. Whatever has been run on a machine, after a reset the
programs that follow run as on a new one that prints to the same place, under whatever
numbers: each ends the same way, or both runs do not end, and the output, the steps, the
visible variables and the histories are the same after each program.

And whatever has been run on a machine, the registered list is empty and no name leads to
it. So a declaration without initializer starts from the registered default value of its
type, which for lists is a list that was not there before. -/
theorem reset_renews (uniform : env.Uniform) (used : m.Used env) (fuel unit unit' : Nat)
    (progs : List Program) :
    session (env.engine fuel) unit progs m.reset =
        session (env.engine fuel) unit' progs { output := m.output } ∧
      m.heap.elements .registered = #[] ∧
      (∀ c, m.scopes.Binds c → ∀ l, m.heap.Reaches (m.heap.read c).value l → l ≠ .registered) ∧
      ∀ (path : Path) (span place : Span) (name : String) (ty : Ty),
        (execute (env.engine fuel) unit path (.declare span (.unassigned name ty place))).Ends m
          (fun _ n => ∃ v, n.lookup? name = some v ∧ v.assigned = false ∧
            n.heap.snapshot v.value = ty.initial ∧
            ∀ l, v.value = .list l → m.heap.lists.size ≤ l.index)
          (fun _ _ => True) := by
  obtain ⟨ρ, coupled⟩ := used.renamed_self uniform
  have pristine := coupled.heap.pristine
  refine ⟨session_renamed uniform fuel progs unit unit' (renamed_reset pristine), pristine.empty,
    fun c bound l => ne_registered_of_renamed coupled bound, ?_⟩
  intro path span place name ty
  exact execute_unassigned (env.engine fuel) unit path span name ty place pristine

/-- A host has added a function, and the program before the reset leaves a list that
contains itself, a watched variable, a function and a list that started from the registered
one. -/
theorem reset_renews_hosted : ∃ (env : Env) (prog next : Program) (m n : Machine), env.Uniform ∧
    Program.read ("list a = [1]; trace(a); append(a, a); func f() \x7b \x7d a[0] = answer(); " ++
      "list b;") = .ok prog ∧
    Program.read "list a; trace(a); func f() \x7b return answer(); \x7d a = [f()]; print(a);" =
      .ok next ∧
    run (env.engine 9) 0 prog {} = .ok () m ∧ run (env.engine 9) 0 next {} = .ok () n ∧
    (m.heap.lists.size = 3 ∧ m.tracer.size = 1 ∧ m.functions.length = 1) ∧
    session (env.engine 9) 1 [next, prog] m.reset =
      session (env.engine 9) 0 [next, prog] { output := m.output } ∧
    m.heap.elements .registered = #[] := by
  have uniform : ((Env.standard {}).register "answer" fun _ _ _ => pure (.int 42)).Uniform :=
    (Env.standard_uniform {}).register "answer" fun _ _ _ _ => mirrors_pure fun _ _ => .int 42
  have left : (sourceRun?
      (((Env.standard {}).register "answer" fun _ _ _ => pure (.int 42)).engine 9)
      ("list a = [1]; trace(a); append(a, a); func f() \x7b \x7d a[0] = answer(); " ++
        "list b;")).any fun r =>
        decide (r.2.heap.lists.size = 3 ∧ r.2.tracer.size = 1 ∧ r.2.functions.length = 1) := by
    decide +kernel
  have follows : (sourceRun?
      (((Env.standard {}).register "answer" fun _ _ _ => pure (.int 42)).engine 9)
      "list a; trace(a); func f() \x7b return answer(); \x7d a = [f()]; print(a);").isSome := by
    decide +kernel
  obtain ⟨⟨prog, m⟩, found, holds⟩ := (Option.any_eq_true _ _).mp left
  obtain ⟨⟨next, n⟩, found'⟩ := Option.isSome_iff_exists.mp follows
  obtain ⟨read, ran⟩ := sourceRun?_eq_some found
  obtain ⟨read', ran'⟩ := sourceRun?_eq_some found'
  obtain ⟨same, empty, -⟩ := reset_renews uniform (.ran (.new {}) ran) 9 1 0 [next, prog]
  exact ⟨_, prog, next, m, n, uniform, read, read', ran, ran', of_decide_eq_true holds, same, empty⟩

end Machine

end TraceLang
