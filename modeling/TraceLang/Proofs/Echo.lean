/-
# TraceLang.Proofs.Echo — records that are printed as they are made

With the echo on, recording prints a line for each record it makes, in the order
in which watching began. It finds them by their steps, so that it also repeats
the last record of an unchanged variable if that one was made at the same step
(`echoLines_eq`, `run_echo_repeats`).

Where every function ends in a `return`, this does not happen, and the output of
a whole run can be told apart (`Echoed`): it is made of the texts of a sequence
of events. What was printed is, text by text, the output of the same run with the
echo off; what was recorded is one line for each record, in the order of time.
-/
import Mathlib.Data.List.Basic
import TraceLang.Proofs.Chronology
import TraceLang.Proofs.Output

namespace TraceLang

set_option autoImplicit false

/-- The line that shows a value of a watched variable. -/
def traceLine (label : String) (value : Snapshot) : String :=
  "[trace] " ++ label ++ " = " ++ value.toJson.compact ++ "\n"

/-! ## One call of the recorder -/

namespace Watched

variable {w : Watched} {h : Heap} {step : Nat} {span : Span}

/-- The line of an unchanged variable whose last record was made at this step. -/
def repeatedLine? (w : Watched) (step : Nat) : Option String :=
  w.records.back?.bind fun r => if r.step = step then some (traceLine w.label r.value) else none

/-- What recording prints for a variable if it prints anything at all. -/
def line? (w : Watched) (h : Heap) (step : Nat) : Option String :=
  match w.change? h with
  | some value => some (traceLine w.label value)
  | none => w.repeatedLine? step

theorem echoLine?_observe (w : Watched) (h : Heap) (step : Nat) (span : Span) :
    Machine.echoLine? step (w.observe h step span).2 = w.line? h step := by
  cases changed : w.change? h with
  | none =>
    simp only [observe, changed, line?, repeatedLine?, Machine.echoLine?, traceLine]
    cases w.records.back? <;> rfl
  | some value => simp [observe, changed, line?, Machine.echoLine?, traceLine]

/-- No record was made at this step yet. -/
theorem line?_of_past (past : ∀ s ∈ w.times, s < step) :
    w.line? h step = (w.change? h).map (traceLine w.label) := by
  cases changed : w.change? h with
  | some value => simp [line?, changed]
  | none =>
    simp only [line?, changed, repeatedLine?, Option.map_none]
    cases last : w.records.back? with
    | none => rfl
    | some r =>
      have made : r.step ∈ w.times :=
        List.mem_map.mpr ⟨r, Array.mem_def.mp (Array.mem_of_back? last), rfl⟩
      simp [Nat.ne_of_lt (past r.step made)]

end Watched

namespace Machine

/-- Recording prints nothing if nothing has changed. Otherwise it prints a line
for each variable that has changed or was last recorded at this very step. -/
theorem echoLines_eq (m : Machine) (span : Span) :
    m.echoLines span =
      if ∀ w ∈ m.tracer.watched, w.change? m.heap = none then []
      else m.tracer.watched.toList.filterMap (·.line? m.heap m.steps) := by
  have counted : (m.tracer.update m.heap m.steps span).1 = 0 ↔
      ∀ w ∈ m.tracer.watched, w.change? m.heap = none := by
    simp only [Tracer.update, Array.countP_eq_zero, Array.mem_map, forall_exists_index, and_imp,
      forall_apply_eq_imp_iff₂]
    refine forall₂_congr fun w _ => ?_
    cases changed : w.change? m.heap <;> simp [Watched.observe, changed]
  simp only [echoLines, counted]
  split
  · rfl
  · simp only [Tracer.update, Array.toList_map, List.map_map, List.filterMap_map]
    refine List.filterMap_congr fun w _ => ?_
    exact w.echoLine?_observe m.heap m.steps span

end Machine

/-! ## Events -/

/-- A piece of the output of a run. -/
inductive Event
  /-- Text that the program printed. -/
  | printed (text : String)
  /-- A record that was made for the variable of the given number and label. -/
  | recorded (id : Nat) (label : String) (r : Record)

namespace Event

/-- What the event adds to the output. -/
def text : Event → String
  | printed text => text
  | recorded _ label r => traceLine label r.value

/-- What the event adds to the output if the echo is off. -/
def printed? : Event → Option String
  | printed text => some text
  | recorded .. => none

/-- The record of the event if it was made for the variable of this number. -/
def recordOf? (id : Nat) : Event → Option Record
  | printed _ => none
  | recorded id' _ r => if id' = id then some r else none

/-- When a record was made: its step, and in which turn at this step. -/
def stamp? : Event → Option (Nat × Nat)
  | printed _ => none
  | recorded id _ r => some (r.step, id)

end Event

/-- Of the numbered elements of a list, only one has a given number. -/
theorem filterMap_zipIdx {α β : Type} (f : α → Option β) (l : List α) (start i : Nat) :
    ((l.zipIdx start).filterMap fun p => if p.2 = start + i then f p.1 else none) =
      (l[i]?.bind f).toList := by
  induction l generalizing start i with
  | nil => rfl
  | cons a rest ih =>
    rw [List.zipIdx_cons]
    cases i with
    | zero =>
      have others : ((rest.zipIdx (start + 1)).filterMap fun p =>
          if p.2 = start + 0 then f p.1 else none) = [] := by
        refine List.filterMap_eq_nil_iff.mpr fun p member => if_neg ?_
        have := List.le_snd_of_mem_zipIdx member
        omega
      rw [List.filterMap_cons, others]
      cases found : f a <;> simp [found]
    | succ i =>
      have shifted : start + (i + 1) = start + 1 + i := by omega
      have apart : start ≠ start + 1 + i := by omega
      rw [shifted, List.filterMap_cons, if_neg apart, ih, List.getElem?_cons_succ]

namespace Tracer

variable {t : Tracer} {h : Heap} {step : Nat} {span : Span}

/-- The records of the variable of the given number, if there is one. -/
def recordsOf (t : Tracer) (id : Nat) : List Record :=
  ((t.history? id).getD #[]).toList

theorem recordsOf_of_watched {id : Nat} {w : Watched} (found : t.watched[id]? = some w) :
    t.recordsOf id = w.records.toList := by
  simp [recordsOf, history?, found]

theorem recordsOf_watch (t : Tracer) (h : Heap) (c : CellId) (label : String) (id : Nat) :
    (t.watch h c label).recordsOf id = t.recordsOf id := by
  simp only [recordsOf, history?, watch, Array.getElem?_push]
  split
  · rename_i last
    simp [last]
  · rfl

/-- The records that an update makes, as events in the order in which watching
began. -/
def changes (t : Tracer) (h : Heap) (step : Nat) (span : Span) : List Event :=
  t.watched.toList.zipIdx.filterMap fun (w, id) =>
    (w.change? h).map fun value => .recorded id w.label { step, span, value }

theorem mem_changes {e : Event} (member : e ∈ t.changes h step span) :
    ∃ id w value, t.watched[id]? = some w ∧ w.change? h = some value ∧
      e = .recorded id w.label { step, span, value } := by
  simp only [changes, List.mem_filterMap, Option.map_eq_some_iff] at member
  obtain ⟨⟨w, id⟩, listed, value, changed, rfl⟩ := member
  refine ⟨id, w, value, ?_, changed, rfl⟩
  simpa using List.mem_zipIdx_iff_getElem?.mp listed

theorem text_changes :
    (t.changes h step span).map Event.text =
      t.watched.toList.filterMap fun w => (w.change? h).map (traceLine w.label) := by
  have shown : ((fun p : Watched × Nat => (p.1.change? h).map fun value =>
      Event.recorded p.2 p.1.label { step, span, value }) · |>.map Event.text) =
      (fun w => (w.change? h).map (traceLine w.label)) ∘ Prod.fst := by
    funext p
    simp only [Option.map_map, Function.comp_apply]
    rfl
  calc (t.changes h step span).map Event.text
    _ = t.watched.toList.zipIdx.filterMap
          ((fun w => (w.change? h).map (traceLine w.label)) ∘ Prod.fst) := by
        rw [changes, List.map_filterMap, ← shown]
    _ = (t.watched.toList.zipIdx.map Prod.fst).filterMap
          fun w => (w.change? h).map (traceLine w.label) := List.filterMap_map.symm
    _ = _ := by rw [List.zipIdx_map_fst]

theorem printed?_changes : (t.changes h step span).filterMap Event.printed? = [] := by
  refine List.filterMap_eq_nil_iff.mpr fun e member => ?_
  obtain ⟨id, w, value, -, -, rfl⟩ := mem_changes member
  rfl

/-- The stamps of one update are in order. -/
theorem stamp?_changes :
    ((t.changes h step span).filterMap Event.stamp?).Pairwise (Prod.Lex (· < ·) (· < ·)) := by
  have indices : t.watched.toList.zipIdx.Pairwise fun p q => p.2 < q.2 := by
    rw [← List.pairwise_map (f := Prod.snd) (R := (· < ·)), List.zipIdx_map_snd]
    exact List.pairwise_lt_range'
  rw [changes, List.filterMap_filterMap, List.pairwise_filterMap]
  refine indices.imp fun {p q} before => ?_
  rintro _ first _ second
  simp only [Option.bind_map, Option.bind_eq_some_iff, Function.comp_apply, Event.stamp?,
    Option.some.injEq] at first second
  obtain ⟨_, -, rfl⟩ := first
  obtain ⟨_, -, rfl⟩ := second
  exact .right _ before

theorem recordOf?_changes (id : Nat) :
    (t.changes h step span).filterMap (Event.recordOf? id) =
      ((t.watched[id]?.bind (·.change? h)).map fun value => { step, span, value }).toList := by
  have picked : (fun p : Watched × Nat => ((p.1.change? h).map fun value =>
      Event.recorded p.2 p.1.label { step, span, value }).bind (Event.recordOf? id)) =
      fun p => if p.2 = 0 + id then (p.1.change? h).map fun value => { step, span, value }
        else none := by
    funext p
    cases p.1.change? h <;> simp [Event.recordOf?]
  have only := filterMap_zipIdx (fun w : Watched => (w.change? h).map fun value =>
    ({ step, span, value } : Record)) t.watched.toList 0 id
  rw [changes, List.filterMap_filterMap, picked, only, Array.getElem?_toList, Option.map_bind]
  rfl

theorem recordsOf_update (id : Nat) :
    (t.update h step span).2.recordsOf id =
      t.recordsOf id ++ (t.changes h step span).filterMap (Event.recordOf? id) := by
  rw [recordOf?_changes]
  cases found : t.watched[id]? with
  | none => simp [recordsOf, history?, update, found]
  | some w =>
    have updated : (t.update h step span).2.watched[id]? = some (w.observe h step span).2 := by
      simp [update, found]
    rw [recordsOf_of_watched updated, recordsOf_of_watched found, Option.bind_some]
    cases changed : w.change? h with
    | none => simp [Watched.observe, changed]
    | some value => simp [Watched.observe, changed]

end Tracer

/-! ## The ledger of a run -/

/-- On an output that works, lines are printed one after the other. -/
theorem Output.Works.echoAll (lines : List String) : ∀ {o : Output}, o.Works →
    o.Adds (String.join lines) (lines.foldl Output.echo o) ∧ (lines.foldl Output.echo o).Works := by
  induction lines with
  | nil => exact fun works => ⟨Output.adds_nothing _, works⟩
  | cons line rest ih =>
    intro o works
    obtain ⟨adds, works'⟩ := ih (works.ask (.write line))
    rw [String.join_cons]
    exact ⟨(works.adds_write line).trans adds, works'⟩

/-- The events since a machine account for the histories, for the output, and
for the output of the silent twin. -/
structure Ledger (m : Machine) (events : List Event) (t : Tracer) (o o' : Output) : Prop where
  /-- All events are in the output. -/
  output : m.output.Adds (String.join (events.map Event.text)) o
  /-- What was printed is in the output of the twin. -/
  silent : m.output.Adds (String.join (events.filterMap Event.printed?)) o'
  /-- Neither output refuses anything. -/
  works : o.Works ∧ o'.Works
  /-- Every record is an event, and every event a record. -/
  records : ∀ id, t.recordsOf id = m.tracer.recordsOf id ++ events.filterMap (Event.recordOf? id)
  labels : ∀ {id : Nat} {label : String} {r : Record}, .recorded id label r ∈ events →
    ∃ w, t.watched[id]? = some w ∧ w.label = label
  /-- Records are made step by step, at each step in the order in which watching
  began. -/
  ordered : (events.filterMap Event.stamp?).Pairwise (Prod.Lex (· < ·) (· < ·))

namespace Ledger

variable {m : Machine} {events : List Event} {t : Tracer} {o o' : Output}

theorem start {m : Machine} (works : m.output.Works) :
    Ledger m [] m.tracer m.output m.output where
  output := m.output.adds_nothing
  silent := m.output.adds_nothing
  works := ⟨works, works⟩
  records id := by simp
  labels member := by cases member
  ordered := List.Pairwise.nil

theorem write (ledger : Ledger m events t o o') (text : String) :
    Ledger m (events ++ [.printed text]) t (o.ask (.write text)) (o'.ask (.write text)) where
  output := by
    simpa [Event.text] using ledger.output.trans (ledger.works.1.adds_write text)
  silent := by
    simpa [Event.printed?] using ledger.silent.trans (ledger.works.2.adds_write text)
  works := ⟨ledger.works.1.ask _, ledger.works.2.ask _⟩
  records id := by simp [ledger.records id, Event.recordOf?]
  labels member := ledger.labels (by simpa using member)
  ordered := by
    have unstamped : [Event.printed text].filterMap Event.stamp? = [] := rfl
    rw [List.filterMap_append, unstamped, List.append_nil]
    exact ledger.ordered

theorem flush (ledger : Ledger m events t o o') :
    Ledger m events t (o.ask .flush) (o'.ask .flush) :=
  { ledger with
    output := by simpa using ledger.output.trans o.adds_flush
    silent := by simpa using ledger.silent.trans o'.adds_flush
    works := ⟨ledger.works.1.ask _, ledger.works.2.ask _⟩ }

theorem ask (ledger : Ledger m events t o o') :
    (r : Request) → ∃ events, Ledger m events t (o.ask r) (o'.ask r)
  | .write text => ⟨_, ledger.write text⟩
  | .flush => ⟨_, ledger.flush⟩

theorem watch (ledger : Ledger m events t o o') (h : Heap) (c : CellId) (label : String) :
    Ledger m events (t.watch h c label) o o' where
  output := ledger.output
  silent := ledger.silent
  works := ledger.works
  records id := by rw [t.recordsOf_watch, ledger.records]
  labels member := by
    obtain ⟨w, found, same⟩ := ledger.labels member
    obtain ⟨w', found', continues⟩ := t.extends_watch h c label _ w found
    exact ⟨w', found', continues.label.trans same⟩
  ordered := ledger.ordered

/-- The steps of recorded events are in the past. -/
theorem stamp_past {limit : Nat} (ledger : Ledger m events t o o')
    (dated : t.Dated (· < ·) limit) {stamp : Nat × Nat}
    (member : stamp ∈ events.filterMap Event.stamp?) : stamp.1 < limit := by
  obtain ⟨e, listed, isStamp⟩ := List.mem_filterMap.mp member
  cases e with
  | printed text => cases isStamp
  | recorded id label r =>
    cases isStamp
    obtain ⟨w, found, -⟩ := ledger.labels listed
    have made : r ∈ t.recordsOf id := by
      rw [ledger.records]
      refine List.mem_append_right _ (List.mem_filterMap.mpr ⟨_, listed, ?_⟩)
      simp [Event.recordOf?]
    rw [Tracer.recordsOf_of_watched found] at made
    exact dated.past w (Array.mem_of_getElem? found) r.step (List.mem_map.mpr ⟨r, made, rfl⟩)

/-- One call of the recorder. -/
theorem record {h : Heap} {step : Nat} {span : Span} (ledger : Ledger m events t o o')
    (dated : t.Dated (· < ·) step) :
    Ledger m (events ++ t.changes h step span) (t.update h step span).2
      (((t.changes h step span).map Event.text).foldl Output.echo o) o' where
  output := by
    rw [List.map_append, String.join_append]
    exact ledger.output.trans (ledger.works.1.echoAll _).1
  silent := by
    rw [List.filterMap_append, Tracer.printed?_changes, List.append_nil]
    exact ledger.silent
  works := ⟨(ledger.works.1.echoAll _).2, ledger.works.2⟩
  records id := by
    rw [Tracer.recordsOf_update, ledger.records, List.filterMap_append, List.append_assoc]
  labels {id label r} member := by
    have known : ∃ w, t.watched[id]? = some w ∧ w.label = label := by
      rcases List.mem_append.mp member with old | new
      · exact ledger.labels old
      · obtain ⟨_, w, _, found, -, same⟩ := Tracer.mem_changes new
        cases same
        exact ⟨w, found, rfl⟩
    obtain ⟨w, found, same⟩ := known
    obtain ⟨w', found', continues⟩ := t.extends_update h step span _ w found
    exact ⟨w', found', continues.label.trans same⟩
  ordered := by
    rw [List.filterMap_append, List.pairwise_append]
    refine ⟨ledger.ordered, Tracer.stamp?_changes, fun old listed new isNew => ?_⟩
    obtain ⟨e, member, isStamp⟩ := List.mem_filterMap.mp isNew
    obtain ⟨_, _, _, -, -, rfl⟩ := Tracer.mem_changes member
    cases isStamp
    exact .left _ _ (ledger.stamp_past dated listed)

end Ledger

namespace Machine

open TraceLang.Action

variable {m : Machine}

/-- Where no record was made at this step yet, recording prints a line for each
record that it makes. -/
theorem echoLines_of_past (span : Span) (dated : m.tracer.Dated (· < ·) m.steps) :
    m.echoLines span = (m.tracer.changes m.heap m.steps span).map Event.text := by
  have lines : m.tracer.watched.toList.filterMap (·.line? m.heap m.steps) =
      m.tracer.watched.toList.filterMap
        fun w => (w.change? m.heap).map (traceLine w.label) :=
    List.filterMap_congr fun w member =>
      Watched.line?_of_past (dated.past w (Array.mem_def.mpr member))
  rw [echoLines_eq, Tracer.text_changes, lines]
  split
  · rename_i unchanged
    refine (List.filterMap_eq_nil_iff.mpr fun w member => ?_).symm
    simp [unchanged w (Array.mem_def.mpr member)]
  · rfl

/-- The ledger is kept, and the histories stay in strict order. -/
theorem echo_steady {settings : Settings} (echoes : settings.echoTraces) (m : Machine) :
    Account.Steady settings false
      (fun t s o o' => t.Dated (· < ·) s ∧ ∃ events, Ledger m events t o o')
      (fun t s o o' => t.Dated (· < ·) (s + 1) ∧ ∃ events, Ledger m events t o o') where
  weaken holds := ⟨holds.1.later (Nat.le_succ _), holds.2⟩
  alike r holds := by
    obtain ⟨-, _, ledger⟩ := holds
    rw [ledger.works.1.refusal?, ledger.works.2.refusal?]
  readyAsk r holds := ⟨holds.1, holds.2.elim fun _ ledger => ledger.ask r⟩
  keptAsk r holds := ⟨holds.1, holds.2.elim fun _ ledger => ledger.ask r⟩
  tick holds := holds
  record {n o'} span holds := by
    obtain ⟨dated, events, ledger⟩ := holds
    refine ⟨dated.record n.heap span, events ++ n.tracer.changes n.heap n.steps span, ?_⟩
    rw [recordOutput, if_pos echoes, echoLines_of_past span dated]
    exact ledger.record dated
  watch h c label holds :=
    ⟨holds.1.watch h c label, holds.2.elim fun _ ledger => ⟨_, ledger.watch h c label⟩⟩

/-- One call of the recorder on a working output: what it prints if nothing has
changed, and otherwise variable by variable. -/
theorem recordTraces_echo {settings : Settings} (echoes : settings.echoTraces) (span : Span)
    (works : m.output.Works) : ∃ output,
      recordTraces settings span m =
        .ok () { m with tracer := (m.tracer.update m.heap m.steps span).2, output } ∧
      m.output.Adds (String.join
        (if ∀ w ∈ m.tracer.watched, w.change? m.heap = none then []
        else m.tracer.watched.toList.filterMap (·.line? m.heap m.steps))) output := by
  refine ⟨_, recordTraces_eq settings span m, ?_⟩
  rw [recordOutput, if_pos echoes, ← echoLines_eq]
  exact (works.echoAll _).1

/-- The events of a run from `m` that ends in `n`, and in `n'` if the echo is off. -/
structure Echoed (m : Machine) (events : List Event) (n n' : Machine) : Prop where
  /-- Only the output is different. -/
  same : n' = n.printing n'.output
  /-- Every event is printed, once and in order. -/
  output : m.output.Adds (String.join (events.map Event.text)) n.output
  /-- What is printed with the echo off are the texts that the program prints. -/
  silent : m.output.Adds (String.join (events.filterMap Event.printed?)) n'.output
  /-- The records of a variable are those it had and those of its events. -/
  records : ∀ id, n.tracer.recordsOf id =
    m.tracer.recordsOf id ++ events.filterMap (Event.recordOf? id)
  /-- Events carry the labels of their variables. -/
  labels : ∀ {id : Nat} {label : String} {r : Record}, .recorded id label r ∈ events →
    ∃ w, n.tracer.watched[id]? = some w ∧ w.label = label
  /-- Records follow each other step by step, at each step in the order in which
  watching began. -/
  ordered : (events.filterMap Event.stamp?).Pairwise (Prod.Lex (· < ·) (· < ·))

theorem Echoed.of_ledger {events : List Event} {n : Machine} {o : Output}
    (ledger : Ledger m events n.tracer n.output o) : Echoed m events n (n.printing o) where
  same := rfl
  output := ledger.output
  silent := ledger.silent
  records := ledger.records
  labels := ledger.labels
  ordered := ledger.ordered

/-- With the echo on and an output that never fails, a call of the recorder prints a
line for each record that it makes, in the order in which watching began, and,
if it makes any, repeats the last record of each unchanged variable that was made
at the same step. In a program all of whose functions end in a `return` nothing
is repeated: the run prints what it prints with the echo off and, in the order in
which the records are made, one line for each record. -/
theorem run_echo {settings : Settings} (echoes : settings.echoTraces) {progs : List Program}
    (session : Session progs m) (works : m.output.Works) (prog : Program) (fuel unit : Nat) :
    (∀ (n : Machine) (span : Span), n.output.Works → ∃ output,
      recordTraces settings span n =
          .ok () { n with tracer := (n.tracer.update n.heap n.steps span).2, output } ∧
        n.output.Adds (String.join
          (if ∀ w ∈ n.tracer.watched, w.change? n.heap = none then []
          else n.tracer.watched.toList.filterMap (·.line? n.heap n.steps))) output) ∧
      ((∀ p ∈ prog :: progs, Instr.EveryOf Instr.EndsInReturn p.body) →
        (run ((Env.standard settings).engine fuel) unit prog).Ends m
          (fun _ n => ∃ events n',
            run ((Env.standard (settings.echoing false)).engine fuel) unit prog m = .ok () n' ∧
              Echoed m events n n')
          (fun f n => ∃ events n',
            run ((Env.standard (settings.echoing false)).engine fuel) unit prog m = .fault f n' ∧
              Echoed m events n n')) := by
  refine ⟨fun n span => recordTraces_echo echoes span, fun returns => ?_⟩
  obtain ⟨first, rest⟩ := List.forall_mem_cons.mp returns
  have strict := session.strict rest
  have twins := run_paced (echo_steady echoes m).paced fuel unit first m m.output
    ⟨strict.returns, strict.account.2, [], .start works⟩
  refine twins.mono ?_ ?_
  · rintro _ n ⟨o, ran, holds⟩
    obtain ⟨-, events, ledger⟩ := holds.account
    exact ⟨events, _, ran, .of_ledger ledger⟩
  · rintro f n ⟨o, failed, holds⟩
    obtain ⟨-, events, ledger⟩ := holds.account
    exact ⟨events, _, failed, .of_ledger ledger⟩

/-- A function that records, prints and returns, while two variables are
watched. -/
theorem run_echo_returning : ∃ prog n events n',
    Program.read ("int x = 0; int y = 0; trace(x, y); " ++
        "func f() \x7b x = 1; print(x); return 2; \x7d y = f();") = .ok prog ∧
      Instr.EveryOf Instr.EndsInReturn prog.body ∧
      run ((Env.standard { echoTraces := true }).engine 9) 0 prog {} = .ok () n ∧
      n.output.text = "[trace] x = 1\n1\n[trace] y = 2\n" ∧ Echoed {} events n n' := by
  have checked : (sourceRun? ((Env.standard { echoTraces := true }).engine 9)
      ("int x = 0; int y = 0; trace(x, y); " ++
        "func f() \x7b x = 1; print(x); return 2; \x7d y = f();")).any (fun ended =>
        decide (Instr.EveryOf Instr.EndsInReturn ended.1.body ∧
          ended.2.output.text = "[trace] x = 1\n1\n[trace] y = 2\n")) := by
    decide +kernel
  obtain ⟨⟨prog, n⟩, found, holds⟩ := (Option.any_eq_true _ _).mp checked
  obtain ⟨returns, output⟩ := of_decide_eq_true holds
  obtain ⟨read, ran⟩ := sourceRun?_eq_some found
  have echoes : Settings.echoTraces { echoTraces := true } = true := rfl
  have whole := (run_echo echoes (.new default) (Output.works_buffer []) prog 9 0).2
  obtain ⟨events, n', -, echoed⟩ := (whole (by simpa using returns)).of_ok ran
  exact ⟨prog, n, events, n', read, returns, ran, output, echoed⟩

/-- A function whose last instruction records `x`: the assignment that called it
records `y` at the same step and prints the record of `x` again. Two records make
three lines. -/
theorem run_echo_repeats : ∃ prog n,
    Program.read "int x = 0; int y = 0; trace(x, y); func f() \x7b x = 1; \x7d y = f();" =
        .ok prog ∧
      run ((Env.standard { echoTraces := true }).engine 9) 0 prog {} = .ok () n ∧
      n.output.text = "[trace] x = 1\n[trace] x = 1\n[trace] y = null\n" ∧
      n.tracer.watched.toList.map (fun w => (w.label, w.records.size)) = [("x", 1), ("y", 1)] := by
  have checked : (sourceRun? ((Env.standard { echoTraces := true }).engine 9)
      "int x = 0; int y = 0; trace(x, y); func f() \x7b x = 1; \x7d y = f();").any (fun ended =>
        decide (ended.2.output.text = "[trace] x = 1\n[trace] x = 1\n[trace] y = null\n" ∧
          ended.2.tracer.watched.toList.map (fun w => (w.label, w.records.size)) =
            [("x", 1), ("y", 1)])) := by
    decide +kernel
  obtain ⟨⟨prog, n⟩, found, holds⟩ := (Option.any_eq_true _ _).mp checked
  obtain ⟨read, ran⟩ := sourceRun?_eq_some found
  exact ⟨prog, n, read, ran, of_decide_eq_true holds⟩

end Machine

end TraceLang
