/-
# TraceLang.Proofs.Chronology — histories go forward in time

A record carries the number of instructions begun so far, whichever instruction
it is made for. So the steps of a history never go back (`Reachable.inTime`).
They can stand still: where a function ends with an instruction that records,
the instruction that called it may record at the same step
(`session_times_repeat`). Where every function ends in a `return`, they go
strictly forward (`session_times_ordered`).
-/
import TraceLang.Proofs.Pace

namespace TraceLang

set_option autoImplicit false

/-! ## The steps of a history -/

namespace Watched

variable {w : Watched} {h : Heap} {step : Nat} {span : Span}

/-- The steps of the records, oldest first. -/
def times (w : Watched) : List Nat :=
  w.records.toList.map (·.step)

theorem times_observe (w : Watched) (h : Heap) (step : Nat) (span : Span) :
    (w.observe h step span).2.times = w.times ∨
      (w.observe h step span).2.times = w.times ++ [step] := by
  cases changed : w.change? h with
  | none => simp [observe, changed]
  | some value =>
    rw [observe_of_change changed]
    exact .inr (by simp [times])

end Watched

namespace Tracer

/-- The records of every history are in the given order, and all were made
before a certain step. -/
structure Dated (r : Nat → Nat → Prop) (limit : Nat) (t : Tracer) : Prop where
  ordered : ∀ w ∈ t.watched, w.times.Pairwise r
  past : ∀ w ∈ t.watched, ∀ s ∈ w.times, s < limit

variable {r : Nat → Nat → Prop} {limit : Nat} {t : Tracer}

theorem Dated.later {limit' : Nat} (dated : t.Dated r limit) (later : limit ≤ limit') :
    t.Dated r limit' :=
  ⟨dated.ordered, fun w member s made => Nat.lt_of_lt_of_le (dated.past w member s made) later⟩

theorem Dated.watch (dated : t.Dated r limit) (h : Heap) (c : CellId) (label : String) :
    (t.watch h c label).Dated r limit := by
  constructor
  · intro w member
    rcases Array.mem_push.mp member with old | rfl
    · exact dated.ordered w old
    · exact List.Pairwise.nil
  · intro w member s made
    rcases Array.mem_push.mp member with old | rfl
    · exact dated.past w old s made
    · cases made

/-- An update adds its step at the end of some histories. -/
theorem Dated.update {step : Nat} (dated : t.Dated r limit) (next : ∀ s < limit, r s step)
    (h : Heap) (span : Span) : (t.update h step span).2.Dated r (max limit (step + 1)) := by
  constructor
  · intro w' member
    obtain ⟨w, listed, rfl⟩ := mem_update member
    have ordered := dated.ordered w listed
    rcases w.times_observe h step span with same | added
    · rwa [same]
    · rw [added, List.pairwise_append]
      refine ⟨ordered, List.pairwise_singleton _ _, ?_⟩
      intro s made _ last
      rw [List.mem_singleton.mp last]
      exact next s (dated.past w listed s made)
  · intro w' member s made
    obtain ⟨w, listed, rfl⟩ := mem_update member
    have old := dated.past w listed s
    rcases w.times_observe h step span with same | added
    · have := old (same ▸ made)
      omega
    · rw [added, List.mem_append, List.mem_singleton] at made
      rcases made with before | rfl
      · have := old before
        omega
      · omega

theorem Dated.record {step : Nat} (dated : t.Dated (· < ·) step) (h : Heap) (span : Span) :
    (t.update h step span).2.Dated (· < ·) (step + 1) := by
  have updated := dated.update (fun _ past => past) h span
  rwa [Nat.max_eq_right (Nat.le_succ _)] at updated

end Tracer

namespace Machine

open TraceLang.Action

variable {m m' : Machine}

/-! ## Time never goes back -/

/-- The records of every history are in order, and none is from the future. -/
def InTime (m : Machine) : Prop :=
  m.tracer.Dated (· ≤ ·) (m.steps + 1)

theorem edit_inTime (edit : Edit m m') (inTime : m.InTime) : m'.InTime := by
  cases edit with
  | tick => exact inTime.later (Nat.le_succ _)
  | ask | newList | copy | append | assign | count => exact inTime
  | watch c label => exact inTime.watch _ c label
  | record span =>
    have updated := inTime.update (fun s past => Nat.le_of_lt_succ past) m.heap span
    rwa [Nat.max_self] at updated

theorem step_inTime (step : Step m m') (inTime : m.InTime) : m'.InTime := by
  cases step with
  | edit edit => exact edit_inTime edit inTime
  | _ => exact inTime

theorem Reachable.inTime (reachable : m.Reachable) : m.InTime := by
  obtain ⟨output, steps⟩ := reachable
  induction steps with
  | refl => constructor <;> simp
  | tail _ step ih => exact step_inTime step ih

/-! ## Time goes on between records -/

/-- The outputs are the same, and every history is in strict order: up to now, or up to
the step before. -/
theorem strictly_steady (settings : Settings) :
    Account.Steady settings settings.echoTraces
      (fun t s o o' => o' = o ∧ t.Dated (· < ·) s)
      (fun t s o o' => o' = o ∧ t.Dated (· < ·) (s + 1)) where
  weaken holds := ⟨holds.1, holds.2.later (Nat.le_succ _)⟩
  alike r holds := by rw [holds.1]
  readyAsk r holds := ⟨congrArg (·.ask r) holds.1, holds.2⟩
  keptAsk r holds := ⟨congrArg (·.ask r) holds.1, holds.2⟩
  tick holds := holds
  record {m _} span holds := by
    obtain ⟨rfl, dated⟩ := holds
    exact ⟨rfl, dated.record m.heap span⟩
  watch h c label holds := ⟨holds.1, holds.2.watch h c label⟩

/-! ## Sessions -/

/-- A machine on which the given programs have been run, the last one first,
each to its end. -/
inductive Session : List Program → Machine → Prop
  | new (output : Output) : Session [] { output }
  | succeeded {progs : List Program} {m m' : Machine} {settings : Settings} {fuel unit : Nat}
    {prog : Program} (before : Session progs m)
    (ran : run ((Env.standard settings).engine fuel) unit prog m = .ok () m') :
    Session (prog :: progs) m'
  | failed {progs : List Program} {m m' : Machine} {settings : Settings} {fuel unit : Nat}
    {prog : Program} {f : Fault} (before : Session progs m)
    (ran : run ((Env.standard settings).engine fuel) unit prog m = .fault f m') :
    Session (prog :: progs) m'

theorem Session.reachable {progs : List Program} (session : Session progs m) : m.Reachable := by
  induction session with
  | new output => exact ⟨output, .refl⟩
  | succeeded _ ran ih => exact ih.steps ((run_steps ..).of_ok ran)
  | failed _ ran ih => exact ih.steps ((run_steps ..).of_fault ran)

/-- Where all functions end in a `return`, the histories are in strict order. -/
theorem Session.strict {progs : List Program} (session : Session progs m)
    (returns : ∀ prog ∈ progs, Instr.EveryOf Instr.EndsInReturn prog.body) :
    Account.Holds (fun t s o o' => o' = o ∧ t.Dated (· < ·) (s + 1)) m m.output := by
  induction session with
  | new output =>
    refine ⟨fun name f found => ?_, rfl, ?_⟩
    · cases found
    · constructor <;> simp
  | @succeeded _ m m' settings fuel unit _ _ ran ih =>
    obtain ⟨first, rest⟩ := List.forall_mem_cons.mp returns
    obtain ⟨o, -, holds⟩ := (run_paced (strictly_steady settings).paced fuel unit first m m.output
      (ih rest)).of_ok ran
    exact ⟨holds.returns, rfl, holds.account.2⟩
  | @failed _ m m' settings fuel unit _ _ _ ran ih =>
    obtain ⟨first, rest⟩ := List.forall_mem_cons.mp returns
    obtain ⟨o, -, holds⟩ := (run_paced (strictly_steady settings).paced fuel unit first m m.output
      (ih rest)).of_fault ran
    exact ⟨holds.returns, rfl, holds.account.2⟩

/-- Along every history the steps never go back, and none is from the future. If
every function of every program ends in a `return`, the steps go strictly
forward. -/
theorem session_times_ordered {progs : List Program} (session : Session progs m) :
    (∀ w ∈ m.tracer.watched, w.times.Pairwise (· ≤ ·) ∧ ∀ s ∈ w.times, s ≤ m.steps) ∧
      ((∀ prog ∈ progs, Instr.EveryOf Instr.EndsInReturn prog.body) →
        ∀ w ∈ m.tracer.watched, w.times.Pairwise (· < ·)) := by
  have inTime := session.reachable.inTime
  refine ⟨fun w member => ⟨inTime.ordered w member, fun s made => ?_⟩, fun returns => ?_⟩
  · exact Nat.le_of_lt_succ (inTime.past w member s made)
  · exact (session.strict returns).account.2.ordered

/-- A function that records and then returns: the caller records later. -/
theorem session_times_ordered_returning : ∃ prog m,
    Program.read ("int x = 0; trace(x); " ++
        "func f() \x7b x = 1; return 2; \x7d x = f();") = .ok prog ∧
      Instr.EveryOf Instr.EndsInReturn prog.body ∧ Session [prog] m ∧
      m.tracer.watched.toList.map Watched.times = [[5, 6]] ∧
      ∀ w ∈ m.tracer.watched, w.times.Pairwise (· < ·) := by
  have checked : (sourceRun? ((Env.standard {}).engine 9) ("int x = 0; trace(x); " ++
      "func f() \x7b x = 1; return 2; \x7d x = f();")).any (fun ended =>
        decide (Instr.EveryOf Instr.EndsInReturn ended.1.body ∧
          ended.2.tracer.watched.toList.map Watched.times = [[5, 6]])) := by
    decide +kernel
  obtain ⟨⟨prog, m⟩, found, holds⟩ := (Option.any_eq_true _ _).mp checked
  obtain ⟨returns, times⟩ := of_decide_eq_true holds
  obtain ⟨read, ran⟩ := sourceRun?_eq_some found
  have session : Session [prog] m := (Session.new default).succeeded ran
  refine ⟨prog, m, read, returns, session, times, ?_⟩
  exact (session_times_ordered session).2 (by simpa using returns)

/-- A function whose last instruction records: the assignment that called it
records at the same step. -/
theorem session_times_repeat : ∃ prog m,
    Program.read "int x = 0; trace(x); func f() \x7b x = 1; \x7d x = f();" = .ok prog ∧
      Session [prog] m ∧ ¬ ∀ w ∈ m.tracer.watched, w.times.Pairwise (· < ·) := by
  have checked : (sourceRun? ((Env.standard {}).engine 9)
      "int x = 0; trace(x); func f() \x7b x = 1; \x7d x = f();").any (fun ended =>
        decide (ended.2.tracer.watched.toList.map Watched.times = [[5, 5]])) := by
    decide +kernel
  obtain ⟨⟨prog, m⟩, found, holds⟩ := (Option.any_eq_true _ _).mp checked
  obtain ⟨read, ran⟩ := sourceRun?_eq_some found
  refine ⟨prog, m, read, (Session.new default).succeeded ran, fun increasing => ?_⟩
  have times : ∀ l ∈ m.tracer.watched.toList.map Watched.times, l.Pairwise (· < ·) := by
    simpa using increasing
  rw [of_decide_eq_true holds] at times
  exact absurd (times [5, 5] (by simp)) (by decide)

end Machine

end TraceLang
