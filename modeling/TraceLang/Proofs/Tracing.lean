/-
# TraceLang.Proofs.Tracing — histories keep up with their variables

After a declaration, an assignment or a call statement every watched variable
has been seen as it is: its version and its snapshot are the ones noted, and the
last record of its history, if there is one, has this snapshot
(`execute_records`). Histories only grow. An assignment to a watched variable is
recorded even if it changes nothing, because it counts up the version.

The last point needs to know that a noted version is never ahead of the variable
and that the place assigned to is a variable of the heap. Both are parts of
`Sound`, which every step keeps.
-/
import TraceLang.Proofs.Steps

namespace TraceLang

set_option autoImplicit false

/-! ## Snapshots -/

namespace Snapshot

mutual

/-- Snapshots are the same if and only if they are equal. -/
theorem same_iff : (a b : Snapshot) → (a.same b ↔ a = b)
  | .none, b => by cases b <;> simp [same]
  | .int _, b => by cases b <;> simp [same]
  | .float _, b => by cases b <;> simp [same]
  | .bool _, b => by cases b <;> simp [same]
  | .str _, b => by cases b <;> simp [same]
  | .list as, b => by cases b <;> simp [same, sameAll_iff as]

theorem sameAll_iff : (as bs : List Snapshot) → (sameAll as bs ↔ as = bs)
  | [], bs => by cases bs <;> simp [sameAll]
  | a :: as, bs => by cases bs <;> simp [sameAll, same_iff a, sameAll_iff as]

end

end Snapshot

/-! ## Versions never go back -/

namespace Heap

variable {h h' h'' : Heap}

/-- Every variable is still there, at the same or a later version. -/
structure Ages (h h' : Heap) : Prop where
  size : h.cells.size ≤ h'.cells.size
  versions : ∀ c : CellId, c.index < h.cells.size → (h.read c).version ≤ (h'.read c).version

theorem Grows.ages (grows : h.Grows h') : h.Ages h' :=
  ⟨grows.size, fun c old => Nat.le_of_eq (by rw [grows.cells c old])⟩

theorem ages_push (h : Heap) (l : ListId) (v : Value) : h.Ages (h.push l v) where
  size := by simp
  versions c old := Nat.le_of_eq (by rw [read_push_of_lt old])

theorem ages_modify (h : Heap) (c : CellId) {f : Variable → Variable}
    (later : ∀ v, v.version ≤ (f v).version) : h.Ages (h.modify c f) where
  size := by simp
  versions d old := by
    by_cases same : d = c
    · subst same
      rw [read_modify_self old]
      exact later _
    · exact Nat.le_of_eq (by rw [read_modify_ne same])

end Heap

/-! ## Histories -/

namespace Watched

variable {w : Watched} {h h' : Heap} {step : Nat} {span : Span}

/-- The notes about a watched variable fit the heap and the history. -/
structure Sound (w : Watched) (h : Heap) : Prop where
  inHeap : w.cell.index < h.cells.size
  version : w.seenVersion ≤ (h.read w.cell).version
  last : ∀ r, w.records.back? = some r → r.value = w.seen

/-- The variable has been seen as it is. -/
structure Synced (w : Watched) (h : Heap) : Prop where
  version : w.seenVersion = (h.read w.cell).version
  seen : w.seen.same (h.snapshot (h.read w.cell).value)
  last : ∀ r, w.records.back? = some r → r.value = h.snapshot (h.read w.cell).value

/-- The same variable under the same number and label, with a history that goes on. -/
structure Continues (w w' : Watched) : Prop where
  id : w'.id = w.id
  label : w'.label = w.label
  cell : w'.cell = w.cell
  records : w.records.toList <+: w'.records.toList

theorem Sound.ages (sound : w.Sound h) (ages : h.Ages h') : w.Sound h' where
  inHeap := Nat.lt_of_lt_of_le sound.inHeap ages.size
  version := Nat.le_trans sound.version (ages.versions _ sound.inHeap)
  last := sound.last

theorem Continues.refl (w : Watched) : w.Continues w :=
  ⟨rfl, rfl, rfl, List.prefix_rfl⟩

theorem Continues.trans {w' w'' : Watched} (first : w.Continues w') (second : w'.Continues w'') :
    w.Continues w'' :=
  ⟨second.id.trans first.id, second.label.trans first.label, second.cell.trans first.cell,
    first.records.trans second.records⟩

theorem observe_of_change {value : Snapshot} (changed : w.change? h = some value) :
    (w.observe h step span).2 =
      { w with
        records := w.records.push { step, span, value }
        seenVersion := (h.read w.cell).version
        seen := value } := by
  simp [observe, changed]

theorem eq_of_change?_none (unchanged : w.change? h = none) :
    w.seenVersion = (h.read w.cell).version ∧ w.seen = h.snapshot (h.read w.cell).value := by
  simp only [change?] at unchanged
  split at unchanged
  · rename_i same
    exact ⟨same.1.symm, ((Snapshot.same_iff _ _).mp same.2).symm⟩
  · cases unchanged

theorem eq_of_change?_some {value : Snapshot} (changed : w.change? h = some value) :
    value = h.snapshot (h.read w.cell).value := by
  simp only [change?] at changed
  split at changed
  · cases changed
  · exact (Option.some.inj changed).symm

theorem observe_continues : w.Continues (w.observe h step span).2 := by
  cases changed : w.change? h with
  | none =>
    simp only [observe, changed]
    exact .refl w
  | some value =>
    rw [observe_of_change changed]
    exact ⟨rfl, rfl, rfl, by simp⟩

theorem observe_synced (sound : w.Sound h) : (w.observe h step span).2.Synced h := by
  cases changed : w.change? h with
  | none =>
    obtain ⟨version, seen⟩ := eq_of_change?_none changed
    simp only [observe, changed]
    exact ⟨version, (Snapshot.same_iff _ _).mpr seen, fun r isLast => seen ▸ sound.last r isLast⟩
  | some value =>
    rw [observe_of_change changed]
    have current := eq_of_change?_some changed
    subst current
    refine ⟨rfl, (Snapshot.same_iff _ _).mpr rfl, ?_⟩
    simp

/-- A new version is recorded even if the value is the same. -/
theorem observe_records (renewed : w.seenVersion < (h.read w.cell).version) :
    (w.observe h step span).2.records.back? =
      some { step, span, value := h.snapshot (h.read w.cell).value } := by
  have changed : w.change? h = some (h.snapshot (h.read w.cell).value) := by
    have apart : (h.read w.cell).version ≠ w.seenVersion := by omega
    simp [change?, apart]
  rw [observe_of_change changed]
  simp

theorem Synced.sound (synced : w.Synced h) (inHeap : w.cell.index < h.cells.size) : w.Sound h where
  inHeap := inHeap
  version := Nat.le_of_eq synced.version
  last r isLast := by
    rw [synced.last r isLast]
    exact ((Snapshot.same_iff _ _).mp synced.seen).symm

end Watched

namespace Tracer

variable {t t' t'' : Tracer} {h : Heap}

/-- Every variable that was watched still is, with the same number and label and
a history that goes on. -/
def Extends (t t' : Tracer) : Prop :=
  ∀ (id : Nat) (w : Watched), t.watched[id]? = some w →
    ∃ w', t'.watched[id]? = some w' ∧ w.Continues w'

theorem Extends.refl (t : Tracer) : t.Extends t :=
  fun _ w found => ⟨w, found, .refl w⟩

theorem Extends.trans (first : t.Extends t') (second : t'.Extends t'') : t.Extends t'' := by
  intro id w found
  obtain ⟨w', found', continues⟩ := first id w found
  obtain ⟨w'', found'', continues'⟩ := second id w' found'
  exact ⟨w'', found'', continues.trans continues'⟩

theorem extends_watch (t : Tracer) (h : Heap) (c : CellId) (label : String) :
    t.Extends (t.watch h c label) := by
  intro id w found
  obtain ⟨inside, -⟩ := Array.getElem?_eq_some_iff.mp found
  refine ⟨w, ?_, .refl w⟩
  rw [watch, Array.getElem?_push_lt inside, ← found, Array.getElem?_eq_getElem inside]

theorem extends_update (t : Tracer) (h : Heap) (step : Nat) (span : Span) :
    t.Extends (t.update h step span).2 := by
  intro id w found
  refine ⟨(w.observe h step span).2, ?_, Watched.observe_continues⟩
  simp [update, found]

theorem mem_update {step : Nat} {span : Span} {w' : Watched}
    (member : w' ∈ (t.update h step span).2.watched) :
    ∃ w ∈ t.watched, (w.observe h step span).2 = w' := by
  simpa [update] using member

/-- An update after an assignment records it in every history of the variable. -/
theorem update_records_assigned {c : CellId} {v : Value} {step : Nat} {span : Span}
    (inHeap : c.index < h.cells.size) (sound : ∀ w ∈ t.watched, w.Sound h) {w : Watched}
    (member : w ∈ (t.update (h.assign c v) step span).2.watched) (here : w.cell = c) :
    w.records.back? = some { step, span, value := (h.assign c v).snapshot v } := by
  obtain ⟨before, listed, rfl⟩ := mem_update member
  have same : before.cell = c := Watched.observe_continues.cell.symm.trans here
  have assigned : (h.assign c v).read before.cell = (h.read c).assign v := by
    rw [same]
    exact Heap.read_modify_self inHeap _
  have renewed : before.seenVersion < ((h.assign c v).read before.cell).version := by
    rw [assigned]
    exact Nat.lt_succ_of_le (same ▸ (sound before listed).version)
  rw [Watched.observe_records renewed, assigned]
  rfl

end Tracer

/-! ## Outputs -/

/-- The output after some text that it may refuse. -/
def Output.echo (o : Output) (text : String) : Output :=
  o.ask (.write text)

/-- The machine with another output. -/
abbrev Machine.printing (m : Machine) (o : Output) : Machine :=
  { m with output := o }

/-! ## Every step keeps the notes sound -/

namespace Machine

variable {m m' : Machine} {c : CellId}

/-- Scopes, lists and the tracer refer to variables of the heap, and the notes
of the tracer fit. -/
structure Sound (m : Machine) : Prop where
  wired : m.heap.Wired
  bound : ∀ c, m.scopes.Binds c → c.index < m.heap.cells.size
  watched : ∀ w ∈ m.tracer.watched, w.Sound m.heap

theorem Sound.inHeap (sound : m.Sound) (held : m.Holds c) : c.index < m.heap.cells.size := by
  rcases held with bound | ⟨l, member⟩
  · exact sound.bound c bound
  · exact sound.wired l c member

theorem Sound.aged {h : Heap} (sound : m.Sound) (ages : m.heap.Ages h) (wired : h.Wired) :
    Sound { m with heap := h } where
  wired := wired
  bound c bound := Nat.lt_of_lt_of_le (sound.bound c bound) ages.size
  watched w member := (sound.watched w member).ages ages

theorem edit_sound (edit : Edit m m') (sound : m.Sound) : m'.Sound := by
  cases edit with
  | tick | ask | count => exact ⟨sound.wired, sound.bound, sound.watched⟩
  | newList values =>
    exact sound.aged (m.heap.grows_newList values).ages (Heap.wired_newList sound.wired values)
  | copy v => exact sound.aged (m.heap.grows_deepCopy v).ages (Heap.wired_deepCopy sound.wired v)
  | append l v => exact sound.aged (m.heap.ages_push l v) (Heap.wired_push sound.wired l v)
  | assign c v =>
    exact sound.aged (m.heap.ages_modify c fun _ => Nat.le_succ _)
      (Heap.wired_modify sound.wired c _)
  | watch c label held =>
    have inHeap := sound.inHeap held
    have marked := sound.aged (m.heap.ages_modify c (f := fun v => { v with traced := true })
      fun _ => Nat.le_refl _) (Heap.wired_modify sound.wired c _)
    refine ⟨marked.wired, marked.bound, fun w member => ?_⟩
    rcases Array.mem_push.mp member with old | rfl
    · exact marked.watched w old
    · exact ⟨by simpa using inHeap, Nat.le_refl _, nofun⟩
  | record span =>
    refine ⟨sound.wired, sound.bound, fun w member => ?_⟩
    obtain ⟨before, listed, rfl⟩ := Tracer.mem_update member
    have known := sound.watched before listed
    refine (Watched.observe_synced known).sound ?_
    rw [Watched.observe_continues.cell]
    exact known.inHeap

theorem step_sound (step : Step m m') (sound : m.Sound) : m'.Sound := by
  cases step with
  | edit edit => exact edit_sound edit sound
  | openScope =>
    exact ⟨sound.wired, fun c bound => sound.bound c (Scopes.binds_of_push bound), sound.watched⟩
  | closeScopes depth =>
    exact ⟨sound.wired, fun c bound => sound.bound c (Scopes.binds_of_truncate bound),
      sound.watched⟩
  | bind name value assigned =>
    have grown := sound.aged (m.heap.grows_alloc { value, assigned, name := some name }).ages
      (Heap.wired_alloc sound.wired _)
    refine ⟨grown.wired, fun c bound => ?_, grown.watched⟩
    rcases Scopes.binds_of_define bound with rfl | old
    · exact Nat.lt_of_lt_of_eq (Nat.lt_succ_self _) (Heap.size_alloc ..).symm
    · exact grown.bound c old
  | openFrame | closeFrames | define | countCalls | iterate =>
    exact ⟨sound.wired, sound.bound, sound.watched⟩

theorem edit_extends (edit : Edit m m') : m.tracer.Extends m'.tracer := by
  cases edit with
  | tick | ask | newList | copy | append | assign | count => exact .refl _
  | watch c label => exact m.tracer.extends_watch _ c label
  | record span => exact m.tracer.extends_update m.heap m.steps span

theorem step_extends (step : Step m m') : m.tracer.Extends m'.tracer := by
  cases step with
  | edit edit => exact edit_extends edit
  | _ => exact .refl _

theorem steps_sound (steps : Steps m m') (sound : m.Sound) : m'.Sound := by
  induction steps with
  | refl => exact sound
  | tail _ step ih => exact step_sound step ih

theorem steps_extend (steps : Steps m m') : m.tracer.Extends m'.tracer := by
  induction steps with
  | refl => exact .refl _
  | tail _ step ih => exact ih.trans (step_extends step)

theorem new_sound (output : Output) : Sound { output } where
  wired l c member := by simp [Heap.elements_new] at member
  bound c binds := by
    obtain ⟨scope, member, name, entry⟩ := binds
    obtain rfl : scope = [] := by simpa [Scopes.global] using member
    cases entry
  watched w member := by simp at member

theorem Reachable.sound (reachable : m.Reachable) : m.Sound := by
  obtain ⟨output, steps⟩ := reachable
  exact steps_sound steps (new_sound output)

/-! ## Instructions that record -/

open TraceLang.Action

theorem echoAll_eq (lines : List String) : ∀ m : Machine,
    lines.foldl echo m = m.printing (lines.foldl Output.echo m.output) := by
  induction lines with
  | nil => exact fun _ => rfl
  | cons line rest ih =>
    intro m
    rw [List.foldl_cons, List.foldl_cons, ih]
    rfl

/-- The lines that recording prints if the settings say so. -/
def echoLines (m : Machine) (span : Span) : List String :=
  let (changed, tracer) := m.tracer.update m.heap m.steps span
  if changed = 0 then [] else tracer.watched.toList.filterMap (echoLine? m.steps)

/-- The output after recording. -/
def recordOutput (m : Machine) (settings : Settings) (span : Span) : Output :=
  if settings.echoTraces then (m.echoLines span).foldl Output.echo m.output else m.output

/-- Recording updates the tracer and prints. -/
theorem recordTraces_eq (settings : Settings) (span : Span) (m : Machine) :
    recordTraces settings span m =
      .ok () { m with
        tracer := (m.tracer.update m.heap m.steps span).2
        output := m.recordOutput settings span } := by
  unfold recordTraces Action.modify recordOutput echoLines
  cases settings.echoTraces with
  | false => simp
  | true =>
    by_cases unchanged : (m.tracer.update m.heap m.steps span).1 = 0
    · simp [unchanged]
    · simp [unchanged, echoAll_eq]

/-- Recording updates the tracer and touches nothing else but the output. -/
theorem recordTraces_updates (settings : Settings) (span : Span) (m : Machine) :
    (recordTraces settings span).Ends m
      (fun _ m' => m'.heap = m.heap ∧ m'.tracer = (m.tracer.update m.heap m.steps span).2)
      (fun _ _ => False) := by
  unfold Ends
  rw [recordTraces_eq]
  exact ⟨rfl, rfl⟩

theorem recordTraces_silent {settings : Settings} (silent : settings.echoTraces = false)
    (span : Span) (m : Machine) : recordTraces settings span m =
      .ok () { m with tracer := (m.tracer.update m.heap m.steps span).2 } := by
  simp [recordTraces_eq, recordOutput, silent]

/-- What recording leaves behind on a machine whose notes are sound. -/
theorem recordTraces_syncs (settings : Settings) (span : Span) (sound : m.Sound) :
    (recordTraces settings span).Ends m
      (fun _ m' => (∀ w ∈ m'.tracer.watched, w.Synced m'.heap) ∧ m.tracer.Extends m'.tracer)
      (fun _ _ => False) := by
  refine (recordTraces_updates settings span m).mono ?_ (fun _ _ never => never)
  rintro _ m' ⟨heap, tracer⟩
  rw [heap, tracer]
  refine ⟨fun w member => ?_, m.tracer.extends_update _ _ _⟩
  obtain ⟨before, listed, rfl⟩ := Tracer.mem_update member
  exact Watched.observe_synced (sound.watched before listed)

theorem entered_steps (m : Machine) (i : Instr) : Steps m (m.entered i) :=
  (Relation.ReflTransGen.single (.edit .tick)).tail (.openFrame (m.frame i))

section

variable (settings : Settings) (fuel unit : Nat) (path : Path)

theorem invoke_steps (name : String) (args : List Variable) (span : Span) :
    (((Env.standard settings).engine fuel).invoke name args span).Has stepsEffect :=
  invoke_has steps_govern.toCovers (standard_call_has steps_govern settings fuel) name args span

/-- Recording as the last thing that an instruction does. -/
theorem record_last {i : Instr} {n : Machine} (reachable : m.Reachable) (span : Span)
    (steps : Steps (m.entered i) n) :
    (recordTraces settings span >>= fun _ => pure Flow.next).Ends n
      (fun _ m' => (∀ w ∈ m'.tracer.watched, w.Synced m'.heap) ∧ m.tracer.Extends m'.tracer)
      (fun _ _ => True) := by
  have since := (entered_steps m i).trans steps
  have sound := (reachable.steps since).sound
  refine (recordTraces_syncs settings span sound).bind_ok ?_
  rintro _ m' ⟨synced, extends'⟩
  exact ⟨synced, (steps_extend since).trans extends'⟩

/-- A successful assignment changes one variable, which is held, as the last
thing it does. -/
theorem assign_ends (target value : Expr) (m : Machine) :
    (assign ((Env.standard settings).engine fuel) target value).Ends m
      (fun _ m' => ∃ v m₁ c m₂,
        evalValue ((Env.standard settings).engine fuel) value m = .ok v m₁ ∧
        resolve ((Env.standard settings).engine fuel) target m₁ = .ok c m₂ ∧
        Steps m m₂ ∧ m₂.Holds c ∧ m' = { m₂ with heap := m₂.heap.assign c v.value })
      (fun _ _ => True) := by
  have permissive := stepsEffect_permissive
  have invoke := invoke_steps settings fuel
  refine ends_ite.mpr ⟨fun _ => trivial, fun _ => ?_⟩
  have evaluated := hasAt_steps.mp (evalValue_has permissive invoke value m trivial)
  refine ((ends_self _ m).and evaluated).bind_ok ?_
  rintro v m₁ ⟨ofValue, before⟩
  have resolved := hasAt_steps.mp (resolve_has permissive invoke target m₁ trivial)
  refine (((ends_self _ m₁).and resolved).and (resolve_holds target)).bind_ok ?_
  rintro c m₂ ⟨⟨ofTarget, during⟩, held⟩
  exact ⟨v, m₁, c, m₂, ofValue, ofTarget, before.trans during, held, rfl⟩

theorem execute_syncs {i : Instr} (recording : i.isSimple) (reachable : m.Reachable) :
    (execute ((Env.standard settings).engine fuel) unit path i).Ends m
      (fun _ m' => (∀ w ∈ m'.tracer.watched, w.Synced m'.heap) ∧ m.tracer.Extends m'.tracer)
      (fun _ _ => True) := by
  have rule := steps_govern
  have invoke := invoke_steps settings fuel
  cases i <;> simp only [Instr.isSimple, Bool.false_eq_true] at recording
  case declare span d =>
    unfold execute
    refine ends_stepped_ok ?_
    rw [ends_bind, ends_discard]
    refine (hasAt_steps.mp (declare_has rule.toCovers span trivial invoke _ trivial)).onOk ?_
    exact fun _ n steps => record_last settings reachable span steps
  case assign span target value =>
    unfold execute
    refine ends_stepped_ok ?_
    refine (assign_ends settings fuel target value _).bind_ok ?_
    rintro _ _ ⟨v, _, c, m₂, -, -, steps, held, rfl⟩
    exact record_last settings reachable span (steps.tail (.edit (.assign c v.value held)))
  case call span name args =>
    unfold execute
    refine ends_stepped_ok ?_
    refine (hasAt_steps.mp (evalArgs_has rule.permissive invoke args _ trivial)).bind_ok ?_
    intro values m₁ before
    have called := standard_call_has rule settings fuel name values span m₁ trivial
    rw [ends_bind, ends_discard]
    refine (hasAt_steps.mp called).onOk ?_
    intro _ m₂ during
    rw [ends_bind, countCall, ends_modify]
    exact record_last settings reachable span ((before.trans during).tail (.edit (.count _)))

/-- An assignment to a watched variable is recorded, with its place and the
value assigned. -/
theorem execute_assign_records (span : Span) (target value : Expr) (reachable : m.Reachable) :
    (execute ((Env.standard settings).engine fuel) unit path (.assign span target value)).Ends m
      (fun _ m' => ∃ v m₁ c m₂,
        evalValue ((Env.standard settings).engine fuel) value
          (m.entered (.assign span target value)) = .ok v m₁ ∧
        resolve ((Env.standard settings).engine fuel) target m₁ = .ok c m₂ ∧
        ∀ w ∈ m'.tracer.watched, w.cell = c → ∃ r, w.records.back? = some r ∧
          r.span = span ∧ r.value = m'.heap.snapshot v.value)
      (fun _ _ => True) := by
  unfold execute
  refine ends_stepped_ok ?_
  refine (assign_ends settings fuel target value _).bind_ok ?_
  rintro _ _ ⟨v, m₁, c, m₂, ofValue, ofTarget, steps, held, rfl⟩
  have sound := (reachable.steps ((entered_steps m _).trans steps)).sound
  refine (recordTraces_updates _ span _).bind_ok ?_
  rintro _ m' ⟨heap, tracer⟩
  refine ⟨v, m₁, c, m₂, ofValue, ofTarget, ?_⟩
  rw [heap, tracer]
  intro w member here
  exact ⟨_, Tracer.update_records_assigned (sound.inHeap held) sound.watched member here, rfl, rfl⟩

end

/-- The histories after an instruction that records, executed on `m`. -/
structure Recorded (g : Engine) (i : Instr) (m m' : Machine) : Prop where
  /-- Every watched variable has been seen as it is. -/
  synced : ∀ w ∈ m'.tracer.watched, w.Synced m'.heap
  /-- The histories have gone on. -/
  grown : m.tracer.Extends m'.tracer
  /-- The place that was assigned to has been recorded. -/
  assigned : ∀ span target value, i = .assign span target value → ∃ v m₁ c m₂,
    evalValue g value (m.entered i) = .ok v m₁ ∧ resolve g target m₁ = .ok c m₂ ∧
    ∀ w ∈ m'.tracer.watched, w.cell = c → ∃ r, w.records.back? = some r ∧ r.span = span ∧
      r.value = m'.heap.snapshot v.value

/-- After a declaration, an assignment or a call statement that succeeds, every
watched variable has been seen as it is, and the histories have gone on. If it
was an assignment to a watched variable, the last record has its place and the
value assigned. -/
theorem execute_records (reachable : m.Reachable) {i : Instr} (recording : i.isSimple)
    (settings : Settings) (fuel unit : Nat) (path : Path) :
    (execute ((Env.standard settings).engine fuel) unit path i).Ends m
      (fun _ m' => Recorded ((Env.standard settings).engine fuel) i m m') (fun _ _ => True) := by
  have synced := execute_syncs settings fuel unit path recording reachable
  by_cases assigns : ∃ span target value, i = .assign span target value
  · obtain ⟨span, target, value, rfl⟩ := assigns
    have records := execute_assign_records settings fuel unit path span target value reachable
    refine (synced.and records).onOk ?_
    rintro _ m' ⟨⟨isSynced, grown⟩, recorded⟩
    refine ⟨isSynced, grown, ?_⟩
    rintro _ _ _ ⟨⟩
    exact recorded
  · refine synced.onOk ?_
    rintro _ m' ⟨isSynced, grown⟩
    refine ⟨isSynced, grown, fun span target value same => ?_⟩
    exact absurd ⟨span, target, value, same⟩ assigns

/-- The variable `x` holds 1 and is watched. -/
def watchingOne : Machine :=
  let m := ({} : Machine).bound "x" (.int 1) true
  let heap := m.heap.modify ⟨0⟩ fun v => { v with traced := true }
  { m with heap, tracer := m.tracer.watch heap ⟨0⟩ "x" }

/-- A variable that is watched and gets the value it has: the assignment succeeds and is
recorded. -/
theorem execute_records_same_value : watchingOne.Reachable ∧
    (watchingOne.heap.read ⟨0⟩).value = .int 1 ∧
    ∃ m', execute ((Env.standard {}).engine 1) 0 [] (.assign {} (.var {} "x") (.int {} 1))
        watchingOne = .ok .next m' ∧
      Recorded ((Env.standard {}).engine 1) (.assign {} (.var {} "x") (.int {} 1))
        watchingOne m' ∧
      m'.tracer.watched.toList.map (·.records.size) = [1] := by
  have bound : Steps {} (({} : Machine).bound "x" (.int 1) true) :=
    .single (.bind _ _ _ (by decide))
  have found : (({} : Machine).bound "x" (.int 1) true).scopes.find? "x" = some ⟨0⟩ := by decide
  have held : (({} : Machine).bound "x" (.int 1) true).Holds ⟨0⟩ :=
    .inl (Scopes.binds_of_find? found)
  have reachable : watchingOne.Reachable :=
    ⟨{}, bound.tail (.edit (.watch ⟨0⟩ "x" held rfl))⟩
  have checked : (execute ((Env.standard {}).engine 1) 0 []
      (.assign {} (.var {} "x") (.int {} 1)) watchingOne).ok?.any
      fun r => r.1 = .next ∧ r.2.tracer.watched.toList.map (·.records.size) = [1] := by
    decide +kernel
  obtain ⟨⟨flow, m'⟩, ended, holds⟩ := (Option.any_eq_true _ _).mp checked
  obtain ⟨next, one⟩ := of_decide_eq_true holds
  have succeeds := (Outcome.eq_of_ok? ended).trans (congrArg (Outcome.ok · m') next)
  exact ⟨reachable, by decide +kernel, m', succeeds,
    (execute_records reachable rfl {} 1 0 []).of_ok succeeds, one⟩

end Machine

end TraceLang
