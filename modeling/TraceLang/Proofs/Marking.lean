/-
# TraceLang.Proofs.Marking — marked variables are the watched ones

A variable carries a mark once it is watched. Reading a variable gives its whole
content with the mark, and what is read is stored again in new variables: by
declarations, parameters, new lists, new elements and copies. None of them takes
the mark along. A step leaves all marks and the list of watched variables alone,
or it begins to watch one variable that is held and not marked
(`step_marking`).

So in every reachable machine a variable is marked if and only if the tracer
watches this very variable, no variable is watched twice and the numbers are the
places in the list (`Marked`), and a mark that was not there before comes from a
`trace` statement about the variable itself (`run_marked`).
-/
import TraceLang.Proofs.Grounding
import TraceLang.Proofs.Supply

namespace TraceLang

set_option autoImplicit false

namespace Heap

variable {h h' : Heap}

/-- What is added is not marked. -/
theorem Supplies.traced (supplies : h.Supplies h') (c : CellId) :
    (h'.read c).traced = (h.read c).traced := by
  by_cases old : c.index < h.cells.size
  · rw [supplies.old c old]
  · obtain ⟨v, fresh⟩ := supplies.fresh c (Nat.le_of_not_lt old)
    rw [fresh, read_of_size_le (Nat.le_of_not_lt old)]
    rfl

theorem traced_alloc (h : Heap) {v : Variable} (unmarked : v.traced = false) (c : CellId) :
    ((h.alloc v).2.read c).traced = (h.read c).traced := by
  by_cases old : c.index < h.cells.size
  · rw [(h.grows_alloc v).cells c old]
  · rw [read_of_size_le (Nat.le_of_not_lt old)]
    rcases h.read_alloc_or v c with same | ⟨-, same⟩
    · rw [same, read_of_size_le (Nat.le_of_not_lt old)]
    · rw [same, unmarked]
      rfl

theorem traced_assign (h : Heap) (c d : CellId) (v : Value) :
    ((h.assign c v).read d).traced = (h.read d).traced := by
  by_cases same : d = c
  · subst same
    by_cases old : d.index < h.cells.size
    · rw [assign, read_modify_self old]
      rfl
    · rw [read_of_size_le (Nat.le_of_not_lt old),
        read_of_size_le (by simpa [assign] using Nat.le_of_not_lt old)]
  · rw [assign, read_modify_ne same]

end Heap

namespace Tracer

variable {t : Tracer} {h : Heap}

/-- The numbers and the variables of all histories, in order. -/
def entries (t : Tracer) : List (Nat × CellId) :=
  t.watched.toList.map fun w => (w.id, w.cell)

theorem map_cell_eq : t.watched.toList.map (·.cell) = t.entries.map (·.2) := by
  simp [entries]

theorem map_id_eq : t.watched.toList.map (·.id) = t.entries.map (·.1) := by
  simp [entries]

theorem isWatching_iff {c : CellId} : t.isWatching c ↔ c ∈ t.entries.map (·.2) := by
  rw [← map_cell_eq, isWatching, ← Array.any_toList, List.any_eq_true]
  simp

theorem size_eq : t.size = t.entries.length := by
  simp [size, entries]

theorem entries_update (step : Nat) (span : Span) :
    (t.update h step span).2.entries = t.entries := by
  have same : ∀ w : Watched, ((w.observe h step span).2.id, (w.observe h step span).2.cell) =
      (w.id, w.cell) := by
    intro w
    cases changed : w.change? h <;> simp [Watched.observe, changed]
  simp [entries, update, same]

theorem entries_watch (c : CellId) (label : String) :
    (t.watch h c label).entries = t.entries ++ [(t.size, c)] := by
  simp [entries, watch, size]

end Tracer

namespace Machine

variable {m m' : Machine}

/-- The machine that has just begun to watch a variable. -/
abbrev watching (m : Machine) (c : CellId) (label : String) : Machine :=
  { m with
    heap := m.heap.modify c fun v => { v with traced := true }
    tracer := m.tracer.watch (m.heap.modify c fun v => { v with traced := true }) c label }

/-- The marks are the same, and so are the watched variables. -/
structure SameMarks (m m' : Machine) : Prop where
  traced : ∀ c, (m'.heap.read c).traced = (m.heap.read c).traced
  entries : m'.tracer.entries = m.tracer.entries

/-- A step marks nothing, or it begins to watch a variable that is held and not
marked yet. -/
theorem step_marking (step : Step m m') (wired : m.heap.Wired) :
    m.SameMarks m' ∨ ∃ c label, m.Holds c ∧ (m.heap.read c).traced = false ∧
      m' = m.watching c label := by
  cases step with
  | edit edit =>
    cases edit with
    | tick | ask | count => exact .inl ⟨fun _ => rfl, rfl⟩
    | newList values => exact .inl ⟨(Heap.supplies_newList wired values).traced, rfl⟩
    | copy v => exact .inl ⟨(Heap.supplies_deepCopy wired v).traced, rfl⟩
    | append l v => exact .inl ⟨(Heap.supplies_push wired l v).traced, rfl⟩
    | assign c v => exact .inl ⟨fun d => m.heap.traced_assign c d v, rfl⟩
    | watch c label held unmarked => exact .inr ⟨c, label, held, unmarked, rfl⟩
    | record span => exact .inl ⟨fun _ => rfl, Tracer.entries_update _ span⟩
  | bind name value assigned => exact .inl ⟨m.heap.traced_alloc rfl, rfl⟩
  | openScope | closeScopes | openFrame | closeFrames | define | countCalls | iterate =>
    exact .inl ⟨fun _ => rfl, rfl⟩

/-! ## Marks and the tracer -/

/-- The marked variables are the watched ones, each of them is watched once, and
the watched variables are numbered in order. -/
structure Marked (m : Machine) : Prop where
  traced : ∀ c, (m.heap.read c).traced ↔ m.tracer.isWatching c
  once : (m.tracer.watched.toList.map (·.cell)).Nodup
  numbers : m.tracer.watched.toList.map (·.id) = List.range m.tracer.size

theorem traced_watching {c d : CellId} (inHeap : c.index < m.heap.cells.size) (label : String) :
    ((m.watching c label).heap.read d).traced ↔ (m.heap.read d).traced ∨ d = c := by
  by_cases same : d = c
  · subst same
    simp [Heap.read_modify_self inHeap]
  · simp [Heap.read_modify_ne same, same]

theorem step_marked (step : Step m m') (sound : m.Sound) (marked : m.Marked) : m'.Marked := by
  obtain ⟨traced, once, numbers⟩ := marked
  simp only [Tracer.isWatching_iff, Tracer.map_cell_eq, Tracer.map_id_eq, Tracer.size_eq]
    at traced once numbers
  rcases step_marking step sound.wired with same | ⟨c, label, held, unmarked, rfl⟩
  · refine ⟨fun c => ?_, ?_, ?_⟩
    · rw [same.traced, Tracer.isWatching_iff, same.entries]
      exact traced c
    · rw [Tracer.map_cell_eq, same.entries]
      exact once
    · rw [Tracer.map_id_eq, Tracer.size_eq, same.entries]
      exact numbers
  · have new : c ∉ m.tracer.entries.map (·.2) := by
      rw [← traced c, unmarked]
      simp
    refine ⟨fun d => ?_, ?_, ?_⟩
    · rw [traced_watching (sound.inHeap held), traced d, Tracer.isWatching_iff,
        Tracer.entries_watch]
      simp
    · rw [Tracer.map_cell_eq, Tracer.entries_watch, List.map_append]
      refine List.nodup_append.mpr ⟨once, by simp, ?_⟩
      rintro d listed _ last rfl
      obtain rfl : d = c := by simpa using last
      exact new listed
    · rw [Tracer.map_id_eq, Tracer.size_eq, Tracer.entries_watch, List.map_append, numbers]
      simp [Tracer.size_eq, List.range_succ]

theorem new_marked (output : Output) : Marked { output } := by
  refine ⟨fun c => ?_, List.nodup_nil, rfl⟩
  simp [Heap.read, Tracer.isWatching, Variable.fresh]

theorem Reachable.marked (reachable : m.Reachable) : m.Marked := by
  obtain ⟨output, steps⟩ := reachable
  induction steps with
  | refl => exact new_marked output
  | tail before step ih => exact step_marked step (Reachable.sound ⟨output, before⟩) ih

/-! ## Where a mark comes from -/

/-- The variable is watched under a number that is not among the first `n`. -/
def WatchedSince (m : Machine) (n : Nat) (c : CellId) : Prop :=
  ∃ (k : Nat) (w : Watched), n ≤ k ∧ m.tracer.watched[k]? = some w ∧ w.cell = c

theorem isWatching_iff_watchedSince {c : CellId} :
    m.tracer.isWatching c ↔ m.WatchedSince 0 c := by
  simp [Tracer.isWatching, WatchedSince, Array.getElem?_eq_some_iff]

/-- A mark stays, and a new one belongs to a variable that is newly watched. -/
theorem steps_marking (steps : Steps m m') (reachable : m.Reachable) (c : CellId) :
    (m'.heap.read c).traced ↔ (m.heap.read c).traced ∨ m'.WatchedSince m.tracer.size c := by
  have before := reachable.marked.traced c
  have after := (reachable.steps steps).marked.traced c
  rw [before, after, isWatching_iff_watchedSince, isWatching_iff_watchedSince]
  have extended := steps_extend steps
  constructor
  · rintro ⟨k, w, -, found, here⟩
    by_cases old : k < m.tracer.size
    · -- The number was taken before, by the same variable.
      obtain ⟨w', found', continues⟩ := extended k _ (Array.getElem?_eq_getElem old)
      obtain rfl := Option.some.inj (found.symm.trans found')
      exact .inl ⟨k, _, Nat.zero_le k, Array.getElem?_eq_getElem old, continues.cell.symm.trans here⟩
    · exact .inr ⟨k, w, Nat.le_of_not_lt old, found, here⟩
  · rintro (⟨k, w, -, found, here⟩ | ⟨k, w, -, found, here⟩)
    · obtain ⟨w', found', continues⟩ := extended k w found
      exact ⟨k, w', Nat.zero_le k, found', continues.cell.trans here⟩
    · exact ⟨k, w, Nat.zero_le k, found, here⟩

/-- In every reachable machine the marked variables are the watched ones, each of
them is watched once, and they are numbered in order. Nothing that a program does
marks a variable that it makes: a step leaves all marks alone, those of new
variables included, or begins to watch a variable that is held. Whatever program
is run and however it ends, the marked variables are then those that were marked
before and those that have been watched since. -/
theorem traced_iff_watched (reachable : m.Reachable) :
    m.Marked ∧
      (∀ m', Step m m' → m.SameMarks m' ∨ ∃ c label, m.Holds c ∧
        (m.heap.read c).traced = false ∧ m' = m.watching c label) ∧
      ∀ (settings : Settings) (fuel unit : Nat) (prog : Program),
        (run ((Env.standard settings).engine fuel) unit prog).Ends m
          (fun _ m' => m'.Marked ∧ ∀ c, (m'.heap.read c).traced ↔
            (m.heap.read c).traced ∨ m'.WatchedSince m.tracer.size c)
          (fun _ m' => m'.Marked ∧ ∀ c, (m'.heap.read c).traced ↔
            (m.heap.read c).traced ∨ m'.WatchedSince m.tracer.size c) := by
  refine ⟨reachable.marked, fun m' step => step_marking step reachable.sound.wired, ?_⟩
  intro settings fuel unit prog
  have ended : ∀ m', Steps m m' → m'.Marked ∧ ∀ c, (m'.heap.read c).traced ↔
      (m.heap.read c).traced ∨ m'.WatchedSince m.tracer.size c :=
    fun m' steps => ⟨(reachable.steps steps).marked, steps_marking steps reachable⟩
  exact (run_steps settings fuel unit prog m).mono (fun _ => ended) (fun _ => ended)

/-- Marked variables are declared again, passed, returned, appended and copied,
and a `trace` statement fails at its second target. -/
theorem traced_iff_watched_copies : ∃ prog f m,
    Program.read ("list a = [1]; trace(a, a[0]); list b = copy(a); int y = a[0]; " ++
      "func g(list p) \x7b append(p, p[0]); return p; \x7d list z = g(a) + a; trace(y, a);") =
        .ok prog ∧
      run ((Env.standard {}).engine 9) 0 prog {} = .fault f m ∧
      m.tracer.watched.toList.map (·.label) = ["a", "a[0]", "y"] ∧
      (List.range m.heap.cells.size).filter (fun i => (m.heap.read ⟨i⟩).traced) = [0, 1, 4] ∧
      m.Marked := by
  have checked : (Program.read ("list a = [1]; trace(a, a[0]); list b = copy(a); int y = a[0]; " ++
      "func g(list p) \x7b append(p, p[0]); return p; \x7d list z = g(a) + a; trace(y, a);")
        ).toOption.any (fun prog =>
          (run ((Env.standard {}).engine 9) 0 prog {}).fault?.any fun failed =>
            decide (failed.2.tracer.watched.toList.map (·.label) = ["a", "a[0]", "y"] ∧
              (List.range failed.2.heap.cells.size).filter
                (fun i => (failed.2.heap.read ⟨i⟩).traced) = [0, 1, 4])) := by
    decide +kernel
  obtain ⟨prog, read, holds⟩ := (Option.any_eq_true _ _).mp checked
  obtain ⟨⟨f, m⟩, failed, holds⟩ := (Option.any_eq_true _ _).mp holds
  obtain ⟨labels, marks⟩ := of_decide_eq_true holds
  have failed := Outcome.eq_of_fault? failed
  have start : Reachable {} := ⟨default, .refl⟩
  have ended := ((traced_iff_watched start).2.2 {} 9 0 prog).of_fault failed
  exact ⟨prog, f, m, Except.eq_of_toOption read, failed, labels, marks, ended.1⟩

end Machine

end TraceLang
