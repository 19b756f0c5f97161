/-
# TraceLang.Proofs.Histories — what the histories say at the end of a run

The latest entry of a history is its last record or, as long as there is none,
the value that the variable had when it began to be watched. It is what the
tracer has seen last (`latest_eq_seen`), so it is the value of the variable
wherever the machine is settled.

At the end of a run it need not be: a change made by a condition can come after
the last instruction that records (`run_histories_late_change`). It is for
programs whose end is settled by the analysis (`run_histories_complete`).
-/
import TraceLang.Proofs.Foresight

namespace TraceLang

set_option autoImplicit false

/-- The latest entry of the history of a variable that began to be watched in
`start`. -/
def Watched.latest (w : Watched) (start : Heap) : Snapshot :=
  match w.records.back? with
  | some r => r.value
  | none => start.snapshot (start.read w.cell).value

theorem Watched.eq_of_observe_records {w : Watched} {h : Heap} {step : Nat} {span : Span}
    (empty : (w.observe h step span).2.records = #[]) : (w.observe h step span).2 = w := by
  cases changed : w.change? h with
  | none => simp [observe, changed]
  | some value =>
    rw [observe_of_change changed] at empty
    simp at empty

namespace Machine

variable {m m' n n' : Machine} {id : Nat} {w w' : Watched}

/-! ## The beginning of a history -/

/-- In one step the variable begins to be watched, as number `id`. -/
structure BeginsToWatch (id : Nat) (w : Watched) (n n' : Machine) : Prop where
  number : n.tracer.watched.size = id
  started : n' =
    { n with
      heap := n.heap.modify w.cell fun v => { v with traced := true }
      tracer := n.tracer.watch (n.heap.modify w.cell fun v => { v with traced := true })
        w.cell w.label }

theorem BeginsToWatch.continued (begins : BeginsToWatch id w n n') (continues : w.Continues w') :
    BeginsToWatch id w' n n' := by
  refine ⟨begins.number, ?_⟩
  rw [continues.cell, continues.label]
  exact begins.started

/-- The history is empty, and the variable has been seen as it is. -/
theorem BeginsToWatch.found (begins : BeginsToWatch id w n n') :
    ∃ w₀, n'.tracer.watched[id]? = some w₀ ∧
      w₀.seen = n'.heap.snapshot (n'.heap.read w.cell).value := by
  obtain ⟨rfl, rfl⟩ := begins
  simp [Tracer.watch]

/-- What a step does to a history: it goes on, and stays as it is unless something
is recorded, or it begins. -/
theorem step_watching (step : Step m m') (found : m'.tracer.watched[id]? = some w') :
    (∃ w, m.tracer.watched[id]? = some w ∧ w.Continues w' ∧ (w'.records = #[] → w' = w)) ∨
      BeginsToWatch id w' m m' := by
  have kept : m'.tracer = m.tracer → ∃ w, m.tracer.watched[id]? = some w ∧ w.Continues w' ∧
      (w'.records = #[] → w' = w) :=
    fun same => ⟨w', same ▸ found, .refl w', fun _ => rfl⟩
  cases step with
  | edit edit =>
    cases edit with
    | tick | ask | newList | copy | append | assign | count => exact .inl (kept rfl)
    | watch c label =>
      rw [Tracer.watch, Array.getElem?_push] at found
      split at found
      · obtain rfl := Option.some.inj found
        exact .inr ⟨‹id = _›.symm, rfl⟩
      · exact .inl ⟨w', found, .refl w', fun _ => rfl⟩
    | record span =>
      simp only [Tracer.update, Array.map_map, Array.getElem?_map] at found
      obtain ⟨w, before, rfl⟩ := Option.map_eq_some_iff.mp found
      exact .inl ⟨w, before, Watched.observe_continues, Watched.eq_of_observe_records⟩
  | _ => exact .inl (kept rfl)

/-- Every history has begun at some time. -/
theorem steps_begun {output : Output} (steps : Steps { output } m) :
    ∀ {w : Watched}, m.tracer.watched[id]? = some w →
      ∃ n n', Steps { output } n ∧ BeginsToWatch id w n n' ∧ Steps n' m := by
  induction steps with
  | refl => exact fun found => by simp at found
  | @tail m m' before step ih =>
    intro w found
    rcases step_watching step found with ⟨w₁, found₁, continues, -⟩ | begins
    · obtain ⟨n, n', first, begins, since⟩ := ih found₁
      exact ⟨n, n', first, begins.continued continues, since.tail step⟩
    · exact ⟨m, m', before, begins, .refl⟩

/-- What was seen when a history began stands until something is recorded. -/
theorem steps_unrecorded (steps : Steps n m) {w₀ : Watched}
    (begun : n.tracer.watched[id]? = some w₀) :
    ∀ {w : Watched}, m.tracer.watched[id]? = some w → w.records = #[] → w.seen = w₀.seen := by
  induction steps with
  | refl =>
    intro w found _
    obtain rfl := Option.some.inj (found.symm.trans begun)
    rfl
  | @tail m m' before step ih =>
    intro w found empty
    rcases step_watching step found with ⟨w₁, found₁, -, same⟩ | begins
    · obtain rfl := same empty
      exact ih found₁ empty
    · -- The number was taken before.
      obtain ⟨w₁, found₁, -⟩ := steps_extend before id w₀ begun
      obtain ⟨inside, -⟩ := Array.getElem?_eq_some_iff.mp found₁
      exact absurd begins.number (Nat.ne_of_gt inside)

/-- The latest entry of a history is what the tracer has seen last. -/
theorem latest_eq_seen (begins : BeginsToWatch id w n n') (steps : Steps n' m)
    (found : m.tracer.watched[id]? = some w) (sound : m.Sound) : w.latest n'.heap = w.seen := by
  unfold Watched.latest
  cases last : w.records.back? with
  | some r => exact (sound.watched w (Array.mem_of_getElem? found)).last r last
  | none =>
    have empty : w.records = #[] := by simpa using last
    obtain ⟨w₀, begun, seen⟩ := begins.found
    rw [steps_unrecorded steps begun found empty, seen]

/-! ## The end of a run -/

open TraceLang.Action

theorem new_orderly (trusts : String → Bool) (output : Output) : Orderly trusts { output } where
  reachable := ⟨output, .refl⟩
  grounded :=
    ⟨fun c l isList => by simp [Heap.read, Variable.fresh] at isList, Heap.secluded_new,
      fun _ => nofun⟩

theorem run_settled {trusts : String → Bool} {source : String} {prog : Program}
    (read : Program.read source = .ok prog) (settles : prog.Settles trusts) (settings : Settings)
    (fuel unit : Nat) (output : Output) :
    (run ((Env.standard settings).engine fuel) unit prog).Ends { output }
      (fun _ m => m.Settled) (fun _ _ => True) := by
  have known : Instr.EveryOf (Known trusts) prog.body :=
    Instr.EveryOf.and _ (read_spelled read) settles.functions
  have trusted := standard_trusted settings settles.append fuel
  have start : Seen trusts true { output } :=
    ⟨new_orderly trusts output, fun _ w member => by simp at member⟩
  have call := standard_call_has (stacks_govern tolerates_all) settings fuel
  have ended := (runBlock_foresees settings unit trusted [] 0 prog.body known true _ start).and
    (runBody_next call unit prog.body rfl)
  refine ended.bind_ok ?_
  rintro _ m ⟨seen, rfl⟩
  exact seen.settles settles.ending

/-- No change of a watched variable is lost. Run a program from a source text
whose end is settled by the analysis on a new machine. If it succeeds, every
history has a beginning, and from there on its latest entry is the value that the
variable has at the end. -/
theorem run_histories_complete {trusts : String → Bool} {source : String} {prog : Program}
    (read : Program.read source = .ok prog) (settles : prog.Settles trusts) (settings : Settings)
    (fuel unit : Nat) (output : Output) {m : Machine}
    (ran : run ((Env.standard settings).engine fuel) unit prog { output } = .ok () m) {id : Nat}
    {w : Watched} (found : m.tracer.watched[id]? = some w) :
    (∃ n n', Steps { output } n ∧ BeginsToWatch id w n n' ∧ Steps n' m) ∧
      ∀ n n', BeginsToWatch id w n n' → Steps n' m →
        (w.latest n'.heap).same (m.heap.snapshot (m.heap.read w.cell).value) := by
  have steps := (run_steps settings fuel unit prog { output }).of_ok ran
  have settled := (run_settled read settles settings fuel unit output).of_ok ran
  refine ⟨steps_begun steps found, fun n n' begins since => ?_⟩
  rw [latest_eq_seen begins since found (steps_sound steps (new_sound output))]
  exact (settled w (Array.mem_of_getElem? found)).seen

/-- A change in a condition that the next declaration records, a function called
by a condition at the end that records its own changes, and a variable that never
changes. -/
theorem run_histories_complete_grow : ∃ prog m,
    Program.read ("list a = [1]; int x = 0; trace(a, x); " ++
        "if append(a, 9) == none \x7b \x7d int y = 1; " ++
        "func grow(list b) \x7b append(b, 2); return len(b); \x7d while grow(a) < 5 \x7b \x7d") =
        .ok prog ∧
      prog.Settles (fun name => name ≠ "append") ∧
      run ((Env.standard {}).engine 9) 0 prog {} = .ok () m ∧
      m.tracer.watched.toList.map (·.records.size) = [4, 0] ∧
      ∀ id w, m.tracer.watched[id]? = some w →
        (∃ n n', Steps {} n ∧ BeginsToWatch id w n n' ∧ Steps n' m) ∧
          ∀ n n', BeginsToWatch id w n n' → Steps n' m →
            (w.latest n'.heap).same (m.heap.snapshot (m.heap.read w.cell).value) := by
  have checked : (sourceRun? ((Env.standard {}).engine 9)
      ("list a = [1]; int x = 0; trace(a, x); " ++
        "if append(a, 9) == none \x7b \x7d int y = 1; " ++
        "func grow(list b) \x7b append(b, 2); return len(b); \x7d while grow(a) < 5 \x7b \x7d")).any
      (fun ended => decide (ended.1.Settles (fun name => name ≠ "append") ∧
        ended.2.tracer.watched.toList.map (·.records.size) = [4, 0])) := by
    decide +kernel
  obtain ⟨⟨prog, m⟩, found, holds⟩ := (Option.any_eq_true _ _).mp checked
  obtain ⟨settles, sizes⟩ := of_decide_eq_true holds
  obtain ⟨read, ran⟩ := sourceRun?_eq_some found
  exact ⟨prog, m, read, settles, ran, sizes, fun _ _ watched =>
    run_histories_complete read settles {} 9 0 default ran watched⟩

/-- A change in a condition after the last instruction that records. -/
theorem run_histories_late_change : ∃ prog m w n n',
    Program.read "list a = []; trace(a); if append(a, 1) == none \x7b \x7d" = .ok prog ∧
      run ((Env.standard {}).engine 9) 0 prog {} = .ok () m ∧ m.tracer.watched[0]? = some w ∧
      Steps {} n ∧ BeginsToWatch 0 w n n' ∧ Steps n' m ∧
      (w.latest n'.heap).same (m.heap.snapshot (m.heap.read w.cell).value) = false := by
  have checked : (sourceRun? ((Env.standard {}).engine 9)
      "list a = []; trace(a); if append(a, 1) == none \x7b \x7d").any (fun ended =>
        ended.2.tracer.watched[0]?.any fun w =>
          !w.seen.same (ended.2.heap.snapshot (ended.2.heap.read w.cell).value)) := by
    decide +kernel
  obtain ⟨⟨prog, m⟩, ended, holds⟩ := (Option.any_eq_true _ _).mp checked
  obtain ⟨w, found, differs⟩ := (Option.any_eq_true _ _).mp holds
  obtain ⟨read, ran⟩ := sourceRun?_eq_some ended
  have steps := (run_steps {} 9 0 prog {}).of_ok ran
  obtain ⟨n, n', before, begins, since⟩ := steps_begun steps found
  refine ⟨prog, m, w, n, n', read, ran, found, before, begins, since, ?_⟩
  rw [latest_eq_seen begins since found (steps_sound steps (new_sound _))]
  simpa using differs

end Machine

end TraceLang
