/-
# TraceLang.Proofs.Hosts — functions of a host cannot unbalance the machine

A host can add builtin functions that open scopes and leave them open, close the
scopes of others, and call back into the program, again and again and whether or
not these calls fail (`Hosted`). All of that stays inside the instruction that
made the call. However an instruction ends, the frames are the ones it found; if
it succeeds there are as many scopes as before, and if it fails there are no more
(`execute_contains_hosts`).

Neither does it go unnoticed. `g.guarded alarm` is the engine that gives an alarm
as soon as a call of an instruction or of an expression returns, in whichever way, with
another number of scopes than it found. Wherever it does so, the engine `g` ends the
instruction with a defect; everywhere else the two do the same.

Calls that a function of the host makes by name have no frame of their own. They are
noticed if they are all that the function does to the scopes (`HostedOnce`): then
`env.guarded alarm`, which gives the alarm after every call, keeps in step as well. A
function that makes up for one call by another passes unnoticed
(`execute_misses_calls_undone`).
-/
import TraceLang.Machine.Probes
import TraceLang.Proofs.Kinship.Programs

namespace TraceLang

set_option autoImplicit false

namespace Action

/-- Run an action; if it fails, go on with another. -/
def orElse {α : Type} (act : Action α) (recover : Fault → Action α) : Action α :=
  fun m =>
    match act m with
    | .fault f m => recover f m
    | other => other

/-- Open a scope. -/
def openScope : Action Unit :=
  modify fun m => { m with scopes := m.scopes.push }

/-- Close the innermost scope, unless it is the global one; tells whether it has. -/
def closeScope : Action Bool :=
  fun m =>
    match m.scopes.pop? with
    | some scopes => .ok true { m with scopes }
    | none => .ok false m

end Action

open TraceLang.Action in
/-- What the functions of a host are made of, if they call others by `call`. Plain
actions include the declaration of variables. -/
inductive Hosted (call : Caller) : {α : Type} → Action α → Prop
  | plain {α : Type} {act : Action α} (plain : act.Plain) : Hosted call act
  | openScope : Hosted call openScope
  | closeScope : Hosted call closeScope
  | call (name : String) (args : List Variable) (span : Span) : Hosted call (call name args span)
  | bind {α β : Type} {act : Action β} {next : β → Action α} (first : Hosted call act)
    (rest : ∀ b, Hosted call (next b)) : Hosted call (act >>= next)
  | orElse {α : Type} {act : Action α} {recover : Fault → Action α} (first : Hosted call act)
    (rest : ∀ f, Hosted call (recover f)) : Hosted call (act.orElse recover)

/-- All builtin functions are made of what hosts can do. -/
def Env.Hosted (env : Env) : Prop :=
  ∀ entry ∈ env.builtins, ∀ call args span, TraceLang.Hosted call (entry.2 call args span)

open TraceLang.Action in
/-- What the functions of a host are made of that open a scope, close one or call another
function at most once, if they call others by `call` and by `call'`. -/
inductive HostedOnce (call call' : Caller) : {α : Type} → Action α → Action α → Prop
  | plain {α : Type} {act : Action α} (plain : act.Plain) : HostedOnce call call' act act
  | openScope : HostedOnce call call' openScope openScope
  | closeScope : HostedOnce call call' closeScope closeScope
  | call (name : String) (args : List Variable) (span : Span) :
    HostedOnce call call' (call name args span) (call' name args span)
  | before {α β : Type} {act : Action β} {next next' : β → Action α} (plain : act.Plain)
    (rest : ∀ b, HostedOnce call call' (next b) (next' b)) :
    HostedOnce call call' (act >>= next) (act >>= next')
  | after {α β : Type} {act act' : Action β} {next : β → Action α}
    (first : HostedOnce call call' act act') (plain : ∀ b, (next b).Plain) :
    HostedOnce call call' (act >>= next) (act' >>= next)

/-- All builtin functions do at most one thing to the scopes. -/
def Env.HostedOnce (env : Env) : Prop :=
  ∀ entry ∈ env.builtins, ∀ call call' args span,
    TraceLang.HostedOnce call call' (entry.2 call args span) (entry.2 call' args span)

theorem HostedOnce.hosted {call call' : Caller} {α : Type} {act act' : Action α}
    (once : HostedOnce call call' act act') : Hosted call act := by
  induction once with
  | plain plain => exact .plain plain
  | openScope => exact .openScope
  | closeScope => exact .closeScope
  | call name args span => exact .call name args span
  | before plain _ ofRest => exact .bind (.plain plain) ofRest
  | after _ plain ofFirst => exact .bind ofFirst fun b => .plain (plain b)

theorem Env.HostedOnce.hosted {env : Env} (once : env.HostedOnce) : env.Hosted :=
  fun entry listed call args span => (once entry listed call call args span).hosted

/-! ## Frames -/

/-- The effect of leaving the frames alone. -/
def framesEffect : Effect where
  inv _ := True
  change m m' := m'.context = m.context
  fault _ _ := True

namespace Action

variable {α : Type} {act : Action α}

/-- However the action ends, the frames are the same. -/
theorem hasFrames_iff :
    act.Has framesEffect ↔ ∀ m, act.Ends m (fun _ n => n.context = m.context)
      (fun _ n => n.context = m.context) := by
  constructor
  · intro has m
    exact (has m trivial).mono (fun _ _ kept => kept.2) fun _ _ kept => kept.2.1
  · intro ends m _
    exact (ends m).mono (fun _ _ kept => ⟨trivial, kept⟩) fun _ _ kept => ⟨trivial, kept, trivial⟩

theorem Plain.hasFrames (plain : act.Plain) : act.Has framesEffect := by
  rw [hasFrames_iff]
  intro m
  have ended := plain m
  unfold Ends
  generalize act m = r at ended
  cases ended with
  | ok calm => exact calm.context
  | fault calm => exact calm.context

theorem framed_hasFrames (frame : Frame) (has : act.Has framesEffect) :
    (framed frame act).Has framesEffect := by
  refine hasFrames_iff.mpr fun m => ?_
  have ends := hasFrames_iff.mp has { m with context := m.context.push frame }
  have closed {n : Machine} (kept : n.context = m.context.push frame) :
      n.context.truncate m.context.depth = m.context := by
    rw [kept, Context.truncate_push]
  unfold Ends framed at *
  generalize act { m with context := m.context.push frame } = r at ends
  cases r with
  | ok a n | fault f n =>
    simp only at ends ⊢
    cases imbalance? m.context.depth m.scopes.depth n <;> exact closed ends
  | outOfFuel => trivial

/-- Under a frame the scopes are brought back in line: an action that succeeds has
as many as before, one that fails has no more. -/
theorem ends_framed_depth (frame : Frame) (act : Action α) (m : Machine) :
    (framed frame act).Ends m (fun _ n => n.scopes.depth = m.scopes.depth)
      (fun _ n => n.scopes.depth ≤ m.scopes.depth) := by
  have even (n : Machine) (balanced : imbalance? m.context.depth m.scopes.depth n = none) :
      n.scopes.depth = m.scopes.depth := by
    unfold imbalance? at balanced
    split at balanced
    · next both => exact both.2
    · cases balanced
  have cut (s : Scopes) : (s.truncate m.scopes.depth).depth ≤ m.scopes.depth := by
    have positive := m.scopes.depth_pos
    simp only [Scopes.depth, Scopes.truncate, Array.size_shrink] at positive ⊢
    omega
  unfold Ends framed
  cases act { m with context := m.context.push frame } with
  | ok a n =>
    simp only
    cases balanced : imbalance? m.context.depth m.scopes.depth n with
    | none => exact even n balanced
    | some d => exact cut n.scopes
  | fault f n =>
    simp only
    cases balanced : imbalance? m.context.depth m.scopes.depth n with
    | none => exact Nat.le_of_eq (even n balanced)
    | some d => exact cut n.scopes
  | outOfFuel => trivial

theorem afterwards_hasFrames {m n : Machine} {close : Machine → Machine}
    (has : act.Has framesEffect) (opened : n.context = m.context)
    (closed : ∀ o, (close o).context = o.context) :
    act.Ends n (fun _ o => (close o).context = m.context)
      (fun _ o => (close o).context = m.context) :=
  (hasFrames_iff.mp has n).mono (fun _ o kept => (closed o).trans (kept.trans opened))
    fun _ o kept => (closed o).trans (kept.trans opened)

end Action

namespace Machine

open TraceLang.Action

theorem framesEffect_permissive : framesEffect.Permissive where
  refl _ := rfl
  trans first second := second.trans first
  fault_after _ _ := trivial
  fault_locate _ _ := trivial
  ordinary _ _ _ _ := trivial
  edit edit _ := ⟨trivial, (edit_kept edit).context⟩

/-- All instructions leave the frames alone if the functions that they call do. -/
theorem frames_govern : Governs (fun _ => True) framesEffect framesEffect where
  permissive := framesEffect_permissive
  lawful := framesEffect_permissive.toLawful
  weaken has := has
  scope has := hasFrames_iff.mpr fun _ =>
    ends_withScope.mpr (afterwards_hasFrames has rfl fun _ => rfl)
  iterating loop has := hasFrames_iff.mpr fun _ =>
    (ends_withIterating loop).mpr (afterwards_hasFrames has rfl fun _ => rfl)
  called limit span has := hasFrames_iff.mpr fun _ =>
    (ends_withCall limit span).mpr
      ⟨fun _ => rfl, fun _ => afterwards_hasFrames has rfl fun _ => rfl⟩
  framed := framed_hasFrames
  framed_inner := framed_hasFrames
  check _ := (checkDeclaration_plain _).hasFrames
  bound _ _ _ _ _ := ⟨trivial, rfl⟩
  nameless _ _ _ := trivial
  define site _ := hasFrames_iff.mpr fun m => by
    simp only [Ends, defineFunction]
    cases m.isUserFunction _ <;> exact rfl
  function _ _ := ⟨{}, Instr.every_of_forall (fun _ => trivial) _⟩
  param _ _ _ := (checkDeclaration_plain _).hasFrames
  header isStep _ has := has_bind framesEffect_permissive.toLawful has fun flow =>
    hasFrames_iff.mpr fun _ => expectNext_ends rfl fun _ => rfl
  leave := (control_plain _ _ _).hasFrames
  again := (control_plain _ _ _).hasFrames
  result := (control_plain _ _ _).hasFrames
  across _ _ := trivial

end Machine

section

open TraceLang.Action

variable {call : Caller} {env : Env}

/-- Functions of a host leave the frames alone if those that they call do. -/
theorem Hosted.hasFrames {α : Type} {act : Action α} (hosted : Hosted call act)
    (calls : ∀ name args span, (call name args span).Has framesEffect) :
    act.Has framesEffect := by
  induction hosted with
  | plain plain => exact plain.hasFrames
  | openScope => exact hasFrames_iff.mpr fun m => rfl
  | closeScope =>
    refine hasFrames_iff.mpr fun m => ?_
    simp only [Ends, Action.closeScope]
    cases m.scopes.pop? <;> exact rfl
  | call name args span => exact calls name args span
  | bind _ _ ofFirst ofRest =>
    exact has_bind Machine.framesEffect_permissive.toLawful ofFirst ofRest
  | @orElse α act recover _ _ ofFirst ofRest =>
    refine hasFrames_iff.mpr fun m => ?_
    have ends := hasFrames_iff.mp ofFirst m
    unfold Ends Action.orElse at *
    cases ended : act m with
    | ok a n =>
      rw [ended] at ends
      exact ends
    | fault f n =>
      rw [ended] at ends
      exact (hasFrames_iff.mp (ofRest f) n).mono (fun _ _ kept => kept.trans ends)
        fun _ _ kept => kept.trans ends
    | outOfFuel => trivial

theorem Env.Hosted.call_hasFrames (hosted : env.Hosted) (fuel : Nat) (name : String)
    (args : List Variable) (span : Span) :
    ((env.engine fuel).call name args span).Has framesEffect :=
  Machine.callByName_has Machine.frames_govern
    (fun found call calls args span =>
      (hosted _ (mem_of_lookup found) call args span).hasFrames calls)
    fuel name args span

end

namespace Machine

open TraceLang.Action

variable {g : Engine}

theorem execute_depth (g : Engine) (unit : Nat) (path : Path) (i : Instr) (m : Machine) :
    (execute g unit path i).Ends m (fun _ n => n.scopes.depth = m.scopes.depth)
      (fun _ n => n.scopes.depth ≤ m.scopes.depth) := by
  have stepped_depth (work : Action Flow) :
      (stepped i work).Ends m (fun _ n => n.scopes.depth = m.scopes.depth)
        (fun _ n => n.scopes.depth ≤ m.scopes.depth) :=
    ends_stepped_iff.mpr (ends_framed_depth _ work _)
  cases i <;> (unfold execute; exact stepped_depth _)

section

variable (calls : ∀ name args span, (g.call name args span).Has framesEffect)

include calls

/-- The stacks after an instruction, whatever its calls do to the scopes. -/
theorem execute_stacks (unit : Nat) (path : Path) (i : Instr) (m : Machine) :
    (execute g unit path i).Ends m
      (fun _ n => n.context = m.context ∧ n.scopes.depth = m.scopes.depth)
      (fun _ n => n.context = m.context ∧ n.scopes.depth ≤ m.scopes.depth) := by
  have every : i.Every fun _ => True := Instr.every_of_forall (fun _ => trivial) i
  have has : (execute g unit path i).Has framesEffect := by
    simpa [Instr.effect] using execute_has frames_govern calls unit path i every
  exact (hasFrames_iff.mp has m).and (execute_depth g unit path i m)

theorem runBlock_stacks (unit : Nat) (path : Path) (n : Nat) (block : List Instr) (m : Machine) :
    (runBlock g unit path n block).Ends m
      (fun _ o => o.context = m.context ∧ o.scopes.depth = m.scopes.depth)
      (fun _ o => o.context = m.context ∧ o.scopes.depth ≤ m.scopes.depth) := by
  induction block generalizing m n with
  | nil => exact ⟨rfl, rfl⟩
  | cons i rest ih =>
    unfold runBlock
    refine ends_bind.mpr
      ((execute_stacks calls unit (path.item n) i m).mono ?_ fun _ _ kept => kept)
    rintro flow o ⟨context, depth⟩
    cases flow with
    | next =>
      rw [← context, ← depth]
      exact ih (n + 1) o
    | leave | again | result => exact ⟨context, depth⟩

/-- A run from rest comes to rest, however it ends. -/
theorem run_stacks (unit : Nat) (prog : Program) (m : Machine) :
    (run g unit prog).Ends m
      (fun _ n => n.context = m.context ∧ n.scopes.depth = m.scopes.depth)
      (fun _ n => n.context = m.context ∧ n.scopes.depth ≤ m.scopes.depth) := by
  refine ends_bind.mpr ((runBlock_stacks calls unit [] 0 prog.body m).mono ?_ fun _ _ kept => kept)
  rintro flow n ⟨context, depth⟩
  cases flow with
  | next => exact ⟨context, depth⟩
  | leave | again | result => exact ends_stray fun _ => ⟨context, Nat.le_of_eq depth⟩

end

end Machine

/-! ## Alarms -/

/-- The action, with an alarm if it ends with another number of scopes than it
found. -/
def Action.guarded {α : Type} (alarm : Cause) (act : Action α) : Action α :=
  fun m =>
    match act m with
    | .ok a n => if n.scopes.depth = m.scopes.depth then .ok a n else .fault { cause := alarm } m
    | .fault f n =>
      if n.scopes.depth = m.scopes.depth then .fault f n else .fault { cause := alarm } m
    | .outOfFuel => .outOfFuel

/-- The engine that gives an alarm as soon as a call of an instruction or of an
expression has left other scopes than it found. -/
def Engine.guarded (alarm : Cause) (g : Engine) : Engine :=
  { g with call := fun name args span => (g.call name args span).guarded alarm }

/-- Call a function by name, with an alarm after every call, also those that builtin
functions make. -/
def Machine.callGuarded (alarm : Cause) (env : Env) : (fuel : Nat) → Caller
  | 0 => fun _ _ _ _ => .outOfFuel
  | fuel + 1 => fun name args span => Action.guarded alarm do
    match ← env.lookup name with
    | .builtin handler =>
      let v ← Action.located span (handler (callGuarded alarm env fuel) args span)
      return some (.fresh v)
    | .user f => callUser { env, call := callGuarded alarm env fuel, fuel } f args span

/-- The engine that gives an alarm as soon as any call has left other scopes than it
found. -/
def Env.guarded (alarm : Cause) (env : Env) (fuel : Nat) : Engine :=
  { env, call := Machine.callGuarded alarm env fuel, fuel }

/-- The second outcome is the same, or the alarm where the first is a defect. -/
inductive Outcome.Notices {α : Type} (alarm : Cause) : Outcome α → Outcome α → Prop
  | same (r : Outcome α) : Notices alarm r r
  | alarm {f f' : Fault} {n n' : Machine} (defect : f.cause.isDefect) (alarmed : f'.cause = alarm) :
    Notices alarm (.fault f n) (.fault f' n')

/-- Two runs, of which the second gives the alarm where the first has a defect. -/
def Kinship.alarmed (alarm : Cause) : Kinship where
  hidden _ := False
  units _ := True
  excused f f' := f.cause.isDefect ∧ f'.cause = alarm
  level := False
  excused_locate _ both := both
  excused_trace c c' both := by simpa using both
  excused_defect _ _ _ _ _ _ both := ⟨rfl, by simpa using both.2⟩

namespace Kinship

open TraceLang.Action

variable {alarm : Cause} {α β : Type} {act act' : Action α}

/-- The second action gives the alarm, and the first has ended with another number
of scopes than it found. -/
inductive Alerts (alarm : Cause) (m : Machine) : Outcome α → Outcome α → Prop
  | ok {a : α} {n n' : Machine} {f : Fault} (context : n.context = m.context)
    (depth : n.scopes.depth ≠ m.scopes.depth) (alarmed : f.cause = alarm) (level : m.Level n') :
    Alerts alarm m (.ok a n) (.fault f n')
  | fault {f f' : Fault} {n n' : Machine} (context : n.context = m.context)
    (depth : n.scopes.depth ≠ m.scopes.depth) (alarmed : f'.cause = alarm) (level : m.Level n') :
    Alerts alarm m (.fault f n) (.fault f' n')

/-- The outcomes are the same unless the second is the alarm; then the first may still
have to be brought to a fault by the frame around it. -/
def Watches (alarm : Cause) (m : Machine) (r r' : Outcome α) : Prop :=
  (Kinship.alarmed alarm).Alike Eq m r r' ∨ Alerts alarm m r r'

/-- The actions do the same unless the second gives the alarm. -/
def Guards (alarm : Cause) (act act' : Action α) : Prop :=
  ∀ m, Watches alarm m (act m) (act' m)

/-- The actions do the same, also if that leaves other scopes than they found, unless the
second gives the alarm. -/
def Follows (alarm : Cause) (act act' : Action α) : Prop :=
  ∀ m, Watches alarm m (act m) (act' m) ∨ act' m = act m

theorem Alerts.before {m n : Machine} {r r' : Outcome α} (level : m.Level n)
    (alerts : Alerts alarm n r r') : Alerts alarm m r r' := by
  cases alerts with
  | ok context depth alarmed level' =>
    exact .ok (context.trans level.context) (level.depth ▸ depth) alarmed (level.trans level')
  | fault context depth alarmed level' =>
    exact .fault (context.trans level.context) (level.depth ▸ depth) alarmed (level.trans level')

theorem kin_self (m : Machine) : (Kinship.alarmed alarm).Kin m m :=
  Kin.refl m.within_all

theorem alike_plain (plain : act.Plain) (m : Machine) :
    (Kinship.alarmed alarm).Alike Eq m (act m) (act m) := by
  have ended := plain m
  generalize act m = r at ended
  cases ended with
  | ok calm => exact .ok rfl (kin_self _) calm.toLevel
  | fault calm => exact .fault (kin_self _)

theorem Watches.before {m n : Machine} {r r' : Outcome α} (level : m.Level n)
    (watches : Watches alarm n r r') : Watches alarm m r r' :=
  watches.imp (·.before level) (·.before level)

theorem guarded_of_level {m n : Machine} {f : Fault} (level : m.Level n)
    (ended : act m = .fault f n) : act.guarded alarm m = .fault f n := by
  simp only [Action.guarded, ended, level.depth, if_true]

/-- If the first action leaves other scopes, the second gives the alarm under guard. -/
theorem guards_guarded (has : act.Has framesEffect) (follows : Follows alarm act act') :
    Guards alarm act (act'.guarded alarm) := by
  intro m
  have kept := hasFrames_iff.mp has m
  have same (ended : act' m = act m) : Watches alarm m (act m) (act'.guarded alarm m) := by
    unfold Ends at kept
    unfold Action.guarded
    rw [ended]
    generalize act m = r at kept
    cases r with
    | ok a n =>
      simp only at kept ⊢
      by_cases depth : n.scopes.depth = m.scopes.depth
      · simp only [depth, if_true]
        exact .inl (.ok rfl (kin_self n) ⟨kept, depth⟩)
      · simp only [depth, if_false]
        exact .inr (.ok kept depth rfl (.refl m))
    | fault f n =>
      simp only at kept ⊢
      by_cases depth : n.scopes.depth = m.scopes.depth
      · simp only [depth, if_true]
        exact .inl (.fault (kin_self n))
      · simp only [depth, if_false]
        exact .inr (.fault kept depth rfl (.refl m))
    | outOfFuel => exact .inl .outOfFuel
  rcases follows m with (alike | alerts) | ended
  · generalize first : act m = r, second : act' m = r' at alike
    cases alike with
    | ok like kin level =>
      obtain rfl := kin.eq fun _ => id
      subst like
      exact first ▸ same (second.trans first.symm)
    | fault kin =>
      obtain rfl := kin.eq fun _ => id
      exact first ▸ same (second.trans first.symm)
    | excused excused tame level =>
      rw [guarded_of_level level second]
      exact .inl (.excused excused tame level)
    | outOfFuel => exact first ▸ same (second.trans first.symm)
  · generalize act m = r, second : act' m = r' at alerts
    cases alerts with
    | ok context depth alarmed level =>
      rw [guarded_of_level level second]
      exact .inr (.ok context depth alarmed level)
    | fault context depth alarmed level =>
      rw [guarded_of_level level second]
      exact .inr (.fault context depth alarmed level)
  · exact same ended

/-- What comes after the arguments of a call. -/
theorem guards_bind {first first' : Action β} {next next' : β → Action α}
    (ofFirst : (Kinship.alarmed alarm).Akin Eq first first')
    (ofNext : ∀ b, Guards alarm (next b) (next' b)) :
    Guards alarm (first >>= next) (first' >>= next') := by
  intro m
  show Watches alarm m (Action.bind first next m) (Action.bind first' next' m)
  have alike := ofFirst m m (kin_self m)
  unfold Action.bind
  generalize first m = r, first' m = r' at alike
  cases alike with
  | @ok a a' n n' same kin level =>
    obtain rfl := kin.eq fun _ => id
    subst same
    exact (ofNext a n').before level
  | fault kin => exact .inl (.fault kin)
  | excused excused first second => exact .inl (.excused excused first second)
  | outOfFuel => exact .inl .outOfFuel

/-- What comes after a call leaves the stacks as the call has left them. -/
theorem Watches.bind {first first' : Action β} {next : β → Action α} {m : Machine}
    (watches : Watches alarm m (first m) (first' m)) (plain : ∀ b, (next b).Plain) :
    Watches alarm m ((first >>= next) m) ((first' >>= next) m) := by
  show Watches alarm m (Action.bind first next m) (Action.bind first' next m)
  unfold Action.bind
  generalize first m = r, first' m = r' at watches
  rcases watches with alike | alerts
  · cases alike with
    | @ok a a' n n' same kin level =>
      obtain rfl := kin.eq fun _ => id
      subst same
      exact .inl ((alike_plain (plain a) n').before level)
    | fault kin => exact .inl (.fault kin)
    | excused excused first second => exact .inl (.excused excused first second)
    | outOfFuel => exact .inl .outOfFuel
  · refine .inr ?_
    cases alerts with
    | fault context depth alarmed level => exact .fault context depth alarmed level
    | @ok a n n' f context depth alarmed level =>
      have ended := plain a n
      simp only
      generalize next a n = r at ended
      cases ended with
      | ok calm =>
        exact .ok (calm.context.trans context) (calm.depth ▸ depth) alarmed level
      | fault calm =>
        exact .fault (calm.context.trans context) (calm.depth ▸ depth) alarmed level

theorem guards_then {first first' : Action β} {next : β → Action α}
    (ofFirst : Guards alarm first first') (plain : ∀ b, (next b).Plain) :
    Guards alarm (first >>= next) (first' >>= next) :=
  fun m => (ofFirst m).bind plain

theorem follows_then {first first' : Action β} {next : β → Action α}
    (ofFirst : Follows alarm first first') (plain : ∀ b, (next b).Plain) :
    Follows alarm (first >>= next) (first' >>= next) := by
  intro m
  refine (ofFirst m).imp (·.bind plain) fun same => ?_
  show Action.bind first' next m = Action.bind first next m
  unfold Action.bind
  rw [same]

theorem follows_before {first : Action β} {next next' : β → Action α} (plain : first.Plain)
    (ofNext : ∀ b, Follows alarm (next b) (next' b)) :
    Follows alarm (first >>= next) (first >>= next') := by
  intro m
  show Watches alarm m (Action.bind first next m) (Action.bind first next' m) ∨
    Action.bind first next' m = Action.bind first next m
  have ended := plain m
  unfold Action.bind
  generalize first m = r at ended
  cases ended with
  | @ok b n calm => exact (ofNext b n).imp_left (·.before calm.toLevel)
  | fault calm => exact .inr rfl

theorem follows_located (span : Span) (follows : Follows alarm act act') :
    Follows alarm (located span act) (located span act') := by
  intro m
  rcases follows m with (alike | alerts) | same
  · generalize first : act m = r, second : act' m = r' at alike
    unfold located
    rw [first, second]
    cases alike with
    | ok like kin level => exact .inl (.inl (.ok like kin level))
    | fault kin => exact .inl (.inl (.fault kin))
    | excused excused tame level =>
      exact .inl (.inl (.excused ((Kinship.alarmed alarm).excused_locate span excused) tame level))
    | outOfFuel => exact .inl (.inl .outOfFuel)
  · generalize first : act m = r, second : act' m = r' at alerts
    unfold located
    rw [first, second]
    cases alerts with
    | ok context depth alarmed level => exact .inl (.inr (.ok context depth alarmed level))
    | fault context depth alarmed level => exact .inl (.inr (.fault context depth alarmed level))
  · exact .inr (by unfold located; rw [same])

/-- A function that does one thing to the scopes does the same with other calls, unless
the call that it makes gives the alarm. -/
theorem follows_of_once {call call' : Caller}
    (calls : ∀ name args span, Guards alarm (call name args span) (call' name args span))
    (once : HostedOnce call call' act act') : Follows alarm act act' := by
  induction once with
  | plain | openScope | closeScope => exact fun _ => .inr rfl
  | call name args span => exact fun m => .inl (calls name args span m)
  | before plain _ ofRest => exact follows_before plain ofRest
  | after _ plain ofFirst => exact follows_then ofFirst plain

/-- A frame turns the loss of scopes into a defect. -/
theorem akin_framed_of_guards (frame : Frame) (guards : Guards alarm act act') :
    (Kinship.alarmed alarm).Akin Eq (framed frame act) (framed frame act') := by
  intro m m' kin
  obtain rfl := kin.eq fun _ => id
  have uneven {n : Machine} (depth : n.scopes.depth ≠ m'.scopes.depth) :
      imbalance? m'.context.depth m'.scopes.depth n =
        some (.unbalanced n.context.frames[m'.context.depth]? n.context.depth
          (m'.context.depth + 1) n.scopes.depth m'.scopes.depth) := by
    simp only [imbalance?, depth, and_false, if_false]
  rcases guards { m' with context := m'.context.push frame } with alike | alerts
  · exact alike_framed frame kin alike
  · generalize ended : act { m' with context := m'.context.push frame } = r,
      ended' : act' { m' with context := m'.context.push frame } = r' at alerts
    cases alerts with
    | ok context depth alarmed level =>
      rw [framed_of_fault_balanced ended' level.context level.depth]
      simp only [framed, ended, uneven depth]
      exact .excused ⟨rfl, by simpa using alarmed⟩ False.elim ⟨rfl, level.depth⟩
    | fault context depth alarmed level =>
      rw [framed_of_fault_balanced ended' level.context level.depth]
      simp only [framed, ended, uneven depth]
      exact .excused ⟨rfl, by simpa using alarmed⟩ False.elim ⟨rfl, level.depth⟩

end Kinship

namespace Machine

open TraceLang.Action Kinship

/-- Engines keep in step up to the alarm if their calls do, and frames see to the rest. -/
theorem akin_of_guards {g g' : Engine} {alarm : Cause} (env : g'.env = g.env)
    (fuel : g'.fuel = g.fuel)
    (calls : ∀ name args span, Guards alarm (g.call name args span) (g'.call name args span)) :
    g.Akin (Kinship.alarmed alarm) g' where
  env := env
  fuel := fuel
  invoke name args span := by
    unfold Engine.invoke
    rw [env]
    refine akin_bind_eq (akin_located span (lookup_akin g.env name)) fun callee => ?_
    exact akin_bind_eq (akin_framed_of_guards _ (calls name args span)) fun _ => akin_pure rfl
  statement unit path span name args _ ofArgs := by
    have after (b : Unit) : Plain (do
        countCall ⟨unit, path⟩
        recordTraces g.env.settings span
        return Flow.next) :=
      plain_bind (plain_modify fun _ => ⟨⟨rfl, rfl⟩, rfl, rfl⟩) fun _ =>
        plain_bind (recordTraces_plain _ span) fun _ => plain_pure _
    unfold execute
    rw [env]
    refine akin_stepped_of_framed _ fun frame => akin_framed_of_guards frame ?_
    exact guards_bind ofArgs fun values =>
      guards_then (guards_then (calls name values span) fun _ => plain_pure ()) after

/-- What depends on a name. -/
theorem follows_lookup {α : Type} {alarm : Cause} (env : Env) (name : String)
    {next next' : Callee → Action α}
    (builtin : ∀ handler, env.builtins.lookup name = some handler →
      Follows alarm (next (.builtin handler)) (next' (.builtin handler)))
    (user : ∀ f : Defined, Follows alarm (next (.user f)) (next' (.user f))) :
    Follows alarm (env.lookup name >>= next) (env.lookup name >>= next') := by
  intro m
  have self : (Kinship.alarmed alarm).Kin m m := kin_self m
  rcases self.lookup env name with ⟨f, failed, -⟩ | ⟨callee, found, looked, -⟩
  · rw [bind_of_fault failed, bind_of_fault failed]
    exact .inr rfl
  · rw [bind_of_ok looked, bind_of_ok looked]
    cases callee with
    | builtin handler => exact builtin handler (Env.lookup_of_callee?_builtin found) m
    | user f => exact user f m

/-- Calls with an alarm after every one of them. The induction is on the fuel: what a
function calls has less of it. -/
theorem callByName_guards {env : Env} (once : env.HostedOnce) (alarm : Cause) (fuel : Nat)
    (name : String) (args : List Variable) (span : Span) :
    Guards alarm (callByName env fuel name args span)
      (callGuarded alarm env fuel name args span) := by
  induction fuel generalizing name args span with
  | zero => exact fun _ => .inl .outOfFuel
  | succ fuel ih =>
    have has := once.hosted.call_hasFrames (fuel + 1) name args span
    refine guards_guarded has ?_
    unfold callByName
    refine follows_lookup env name (fun handler found => ?_) fun f m => ?_
    · refine follows_then (follows_located span (follows_of_once ih ?_)) fun _ => plain_pure _
      exact once _ (mem_of_lookup found) _ _ args span
    · have akin : Engine.Akin (Kinship.alarmed alarm) ⟨env, callByName env fuel, fuel⟩
          ⟨env, callGuarded alarm env fuel, fuel⟩ := akin_of_guards rfl rfl ih
      have inside : (Kinship.alarmed alarm).units f.site.unit := trivial
      exact .inl (.inl (callUser_akin akin inside args span m m (kin_self m)))

/-- Engines that keep in step up to the alarm notice the same. -/
theorem execute_notices {g g' : Engine} {alarm : Cause} (akin : g.Akin (Kinship.alarmed alarm) g')
    (unit : Nat) (path : Path) (i : Instr) (m : Machine) :
    (execute g unit path i m).Notices alarm (execute g' unit path i m) := by
  have inside : (Kinship.alarmed alarm).units unit := trivial
  have alike := execute_akin akin inside path i m m (kin_self m)
  generalize execute g unit path i m = r, execute g' unit path i m = r' at alike
  cases alike with
  | ok same kin =>
    rw [same, kin.eq fun _ => id]
    exact .same _
  | fault kin =>
    rw [kin.eq fun _ => id]
    exact .same _
  | excused excused => exact .alarm excused.1 excused.2
  | outOfFuel => exact .same _

/-- Functions of a host cannot change the stacks of an instruction. An instruction whose
own calls, in expressions or as a statement, leave other scopes than they found ends with a
defect, and so does one with such a call by name inside them if the functions of the host
do at most one thing to the scopes. Hence a run from rest comes to rest. -/
theorem execute_contains_hosts {env : Env} (hosted : env.Hosted) (fuel unit : Nat) (m : Machine) :
    (∀ path i,
      (execute (env.engine fuel) unit path i).Ends m
        (fun _ n => n.context = m.context ∧ n.scopes.depth = m.scopes.depth)
        (fun _ n => n.context = m.context ∧ 1 ≤ n.scopes.depth ∧
          n.scopes.depth ≤ m.scopes.depth) ∧
      ∀ alarm,
        (execute (env.engine fuel) unit path i m).Notices alarm
          (execute ((env.engine fuel).guarded alarm) unit path i m) ∧
        (env.HostedOnce → (execute (env.engine fuel) unit path i m).Notices alarm
          (execute (env.guarded alarm fuel) unit path i m))) ∧
    (m.context.depth = 0 → m.scopes.depth = 1 → ∀ prog,
      (run (env.engine fuel) unit prog).Ends m
        (fun _ n => n.context.depth = 0 ∧ n.scopes.depth = 1)
        (fun _ n => n.context.depth = 0 ∧ n.scopes.depth = 1)) := by
  have calls := hosted.call_hasFrames fuel
  refine ⟨fun path i => ⟨?_, fun alarm => ⟨?_, fun once => ?_⟩⟩, fun atTop global prog => ?_⟩
  · refine (execute_stacks calls unit path i m).mono (fun _ _ kept => kept) fun _ n kept => ?_
    exact ⟨kept.1, n.scopes.depth_pos, kept.2⟩
  · have akin : (env.engine fuel).Akin (Kinship.alarmed alarm) ((env.engine fuel).guarded alarm) :=
      akin_of_guards rfl rfl fun name args span =>
        guards_guarded (calls name args span) fun _ => .inr rfl
    exact execute_notices akin unit path i m
  · have akin : (env.engine fuel).Akin (Kinship.alarmed alarm) (env.guarded alarm fuel) :=
      akin_of_guards rfl rfl (callByName_guards once alarm fuel)
    exact execute_notices akin unit path i m
  · refine (run_stacks calls unit prog m).mono (fun _ n kept => ?_) fun _ n kept => ?_
    · rw [kept.1, kept.2]
      exact ⟨atTop, global⟩
    · have positive := n.scopes.depth_pos
      rw [kept.1]
      exact ⟨atTop, by omega⟩

end Machine

/-! ## Hosts at work -/

section

open TraceLang.Action

variable {env : Env}

theorem Env.standard_once (settings : Settings) : (Env.standard settings).HostedOnce := by
  intro entry listed
  have plain (name : String) (handler : Handler)
      (found : Builtins.standard.lookup name = some handler) (call call' : Caller)
      (args : List Variable) (span : Span) :
      TraceLang.HostedOnce call call' (handler call args span) (handler call' args span) := by
    obtain ⟨plain, same⟩ := Builtins.standard_plain found call call' args span
    rw [same]
    exact .plain plain
  simp only [Env.standard, Builtins.standard, List.mem_cons, List.not_mem_nil, or_false] at listed
  rcases listed with rfl | rfl | rfl | rfl | rfl | rfl
  · exact plain "print" _ (by simp [Builtins.standard])
  · exact plain "len" _ (by simp [Builtins.standard, List.lookup_cons])
  · exact plain "append" _ (by simp [Builtins.standard, List.lookup_cons])
  · exact plain "copy" _ (by simp [Builtins.standard, List.lookup_cons])
  · exact plain "str" _ (by simp [Builtins.standard, List.lookup_cons])
  · exact plain "assert" _ (by simp [Builtins.standard, List.lookup_cons])

theorem Env.mem_register {name : String} {handler : Handler} {entry : String × Handler}
    (listed : entry ∈ (env.register name handler).builtins) :
    entry = (name, handler) ∨ entry ∈ env.builtins :=
  (List.mem_cons.mp listed).imp_right fun older => (List.mem_filter.mp older).1

theorem Probes.unleak_eq (call : Caller) (args : List Variable) (span : Span) :
    unleak call args span = (closeScope >>= fun closed => pure (.bool closed)) := by
  funext m
  show _ = Action.bind closeScope (fun closed => pure (Value.bool closed)) m
  unfold unleak Action.bind closeScope
  cases m.scopes.pop? <;> rfl

/-- The probes open a scope, close one, or call one function by name. -/
theorem Probes.all_once (loops : List Site) : ∀ entry ∈ Probes.all loops, ∀ call call' args span,
    HostedOnce call call' (entry.2 call args span) (entry.2 call' args span) := by
  intro entry listed call call' args span
  simp only [Probes.all, List.mem_cons, List.not_mem_nil, or_false] at listed
  rcases listed with rfl | rfl | rfl | rfl | rfl | rfl | rfl
  · exact .plain (plain_bind (plain_read _) fun _ => plain_bind (plain_read _) fun _ =>
      plain_onHeap _)
  · exact .plain (plain_bind (plain_read _) fun _ => plain_onHeap _)
  · exact .after .openScope fun _ => plain_pure _
  · simp only [unleak_eq]
    exact .after .closeScope fun _ => plain_pure _
  · simp only [Probes.args]
    exact .plain (plain_onHeap _)
  · simp only [Probes.call]
    cases args with
    | nil => exact .plain (plain_fail _)
    | cons f rest =>
      refine .before (plain_read _) fun name => .after (.call name rest span) fun result => ?_
      cases result <;> exact plain_pure _
  · exact .plain (plain_bind (plain_read _) fun _ => plain_onHeap _)

theorem Env.HostedOnce.withProbes (once : env.HostedOnce) (loops : List Site) :
    (env.withProbes loops).HostedOnce := by
  have added (probes : List (String × Handler)) (env : Env) (once : env.HostedOnce)
      (each : ∀ entry ∈ probes, ∀ call call' args span,
        TraceLang.HostedOnce call call' (entry.2 call args span) (entry.2 call' args span)) :
      (probes.foldl (fun env entry => env.register entry.1 entry.2) env).HostedOnce := by
    induction probes generalizing env with
    | nil => exact once
    | cons entry rest ih =>
      obtain ⟨first, others⟩ := List.forall_mem_cons.mp each
      refine ih (env.register entry.1 entry.2) (fun added listed => ?_) others
      rcases Env.mem_register listed with rfl | older
      · exact first
      · exact once added older
  exact added _ env once (Probes.all_once loops)

end

namespace Machine

/-- A loop around a call that opens a scope, in the middle of an expression and
through another function. -/
def leakingLoop : Instr :=
  .whileLoop {} (.bool {} true) [.call {} "print" [.int {} 1, .call {} "call" [.str {} "leak"]]]

/-- With the probes, every instruction comes back to rest, and a scope that is left
open is noticed, by whichever call. -/
theorem execute_contains_hosts_leak : ∃ env : Env, env.Hosted ∧ env.HostedOnce ∧
    (∀ i, (execute (env.engine 9) 0 [] i).Ends {}
      (fun _ n => n.context.depth = 0 ∧ n.scopes.depth = 1)
      (fun _ n => n.context.depth = 0 ∧ n.scopes.depth = 1)) ∧
    ∀ g ∈ [(env.engine 9).guarded .divisionByZero, env.guarded .divisionByZero 9],
      ∃ f n f' n', execute g 0 [] leakingLoop {} = .fault f' n' ∧ f'.cause = .divisionByZero ∧
        execute (env.engine 9) 0 [] leakingLoop {} = .fault f n ∧ f.cause.isDefect := by
  have once := (Env.standard_once {}).withProbes []
  have contained := (execute_contains_hosts once.hosted 9 0 {}).1 []
  -- Only the guarded engines stop with the cause that was chosen as the alarm.
  have other :
    (execute (((Env.standard {}).withProbes []).engine 9) 0 [] leakingLoop {}).fault?.any
      (·.1.cause = .divisionByZero) = false := by decide +kernel
  have noticed {r r' : Outcome Flow} (notices : r.Notices .divisionByZero r')
      (alarmed : r'.fault?.any (·.1.cause = .divisionByZero))
      (other : r.fault?.any (·.1.cause = .divisionByZero) = false) :
      ∃ f n f' n', r' = .fault f' n' ∧ f'.cause = .divisionByZero ∧ r = .fault f n ∧
        f.cause.isDefect := by
    cases notices with
    | same =>
      rw [other] at alarmed
      cases alarmed
    | alarm defect cause => exact ⟨_, _, _, _, rfl, cause, rfl, defect⟩
  obtain ⟨outside, inside⟩ := (contained leakingLoop).2 .divisionByZero
  refine ⟨_, once.hosted, once, fun i => (contained i).1.mono (fun _ n kept => ?_)
    (fun _ n kept => ?_), List.forall_mem_cons.mpr
      ⟨noticed outside (by decide +kernel) other, List.forall_mem_singleton.mpr
        (noticed (inside once) (by decide +kernel) other)⟩⟩
  · rw [kept.1, kept.2]
    exact ⟨rfl, rfl⟩
  · have positive := kept.2.1
    have bound : n.scopes.depth ≤ 1 := kept.2.2
    rw [kept.1]
    exact ⟨rfl, by omega⟩

/-- Open a scope and close it again, each by a call of another function. -/
def juggle : Handler := fun call _ span => do
  discard (call "leak" [] span)
  discard (call "unleak" [] span)
  return .none

/-- A function of a host that calls one function to open a scope and another to close it:
each of the two calls leaves other scopes than it found, and the statement succeeds. -/
theorem execute_misses_calls_undone : ∃ env : Env, env.Hosted ∧
    (∃ n, execute (env.engine 9) 0 [] (.call {} "juggle" []) {} = .ok .next n) ∧
    ∃ f n, execute (env.guarded .divisionByZero 9) 0 [] (.call {} "juggle" []) {} = .fault f n ∧
      f.cause = .divisionByZero := by
  have hosted : (((Env.standard {}).withProbes []).register "juggle" juggle).Hosted := by
    intro entry listed call args span
    rcases Env.mem_register listed with rfl | older
    · have done {α : Type} (a : α) : TraceLang.Hosted call (pure a) := .plain (Action.plain_pure a)
      exact .bind (.bind (.call "leak" [] span) fun _ => done ()) fun _ =>
        .bind (.bind (.call "unleak" [] span) fun _ => done ()) fun _ => done _
    · exact ((Env.standard_once {}).withProbes []).hosted entry older call args span
  have succeeds : (execute ((((Env.standard {}).withProbes []).register "juggle" juggle).engine 9)
      0 [] (.call {} "juggle" []) {}).ok?.any (·.1 = .next) := by decide +kernel
  have alarmed :
    (execute ((((Env.standard {}).withProbes []).register "juggle" juggle).guarded
      .divisionByZero 9) 0 [] (.call {} "juggle" []) {}).fault?.any
        (·.1.cause = .divisionByZero) := by decide +kernel
  obtain ⟨⟨flow, n⟩, ended, next⟩ := (Option.any_eq_true _ _).mp succeeds
  obtain ⟨⟨f, n'⟩, failed, cause⟩ := (Option.any_eq_true _ _).mp alarmed
  refine ⟨_, hosted, ⟨n, ?_⟩, f, n', Outcome.eq_of_fault? failed, of_decide_eq_true cause⟩
  exact (Outcome.eq_of_ok? ended).trans (congrArg (Outcome.ok · n) (of_decide_eq_true next))

end Machine

end TraceLang
