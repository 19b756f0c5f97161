/-
# TraceLang.Proofs.Returns — where a `return` is accepted

A `return` is accepted when the frame of a user function is in progress. The
frame of a call inside an expression is opened when the callee is known, so
inside such a call every `return` is accepted. The frame of a call statement is
opened before its arguments are evaluated, when the name may not be defined yet.
If the arguments define it, the body runs under a frame that is not that of a
user function, and its `return` fails unless a function is in progress further
out.

`return_misplaced_iff` has all of this: calls in expressions never fail in this
way, call statements fail only in the situation described, and in this situation
every `return` of the body fails.
-/
import TraceLang.Proofs.Sessions

namespace TraceLang

set_option autoImplicit false

/-- The frames of the second context are those of the first and more, opened
since without calling a function. -/
def Context.Within (c c' : Context) : Prop :=
  ∃ opened : List Frame, c'.frames.toList = c.frames.toList ++ opened ∧
    ∀ f ∈ opened, f.status ≠ .userFunction

theorem Context.Within.inFunction {c c' : Context} (within : c.Within c') :
    c'.inFunction = c.inFunction := by
  obtain ⟨opened, frames, others⟩ := within
  have none : opened.any (·.status = .userFunction) = false := by simpa using others
  simp only [Context.inFunction, ← Array.any_toList, frames, List.any_append, none, Bool.or_false]

/-- Inside a function no `return` is misplaced. -/
theorem tolerates_inside :
    Tolerates (fun _ => True) (fun c f => c.inFunction → f.cause ≠ .misplaced .result) where
  ordinary _ _ _ ordinary _ := by
    rintro rfl
    cases ordinary
  locate _ fault := fault
  trace fault inside := by
    rw [Fault.cause_trace]
    exact fault (by simp [inside])
  invalid _ _ _ _ _ _ := nofun
  missing _ _ _ _ _ _ := nofun
  traced _ _ _ _ _ _ := nofun
  nameless _ _ _ _ _ _ _ := nofun
  param _ _ _ _ _ _ _ _ := nofun
  header _ _ := .inr fun _ _ _ => nofun
  leave _ _ := nofun
  again _ _ := nofun
  result outside inside := by simp [outside] at inside
  across _ _ _ := nofun

/-- What an action does that keeps the stacks and fails because of no `return`. -/
def quietEffect : Effect where
  inv _ := True
  change := Machine.Kept
  fault _ f := f.cause ≠ .misplaced .result

namespace Machine

open TraceLang.Action

theorem quietEffect_permissive : quietEffect.Permissive where
  refl := Kept.refl
  trans := Kept.trans
  fault_after _ fault := fault
  fault_locate _ fault := fault
  edit edit _ := ⟨trivial, edit_kept edit⟩
  ordinary _ _ _ ordinary := by
    rintro rfl
    cases ordinary

/-! ## Calls -/

section

variable (settings : Settings) (fuel : Nat) (name : String) (args : List Variable) (span : Span)
  {m : Machine}

/-- A call of a builtin function runs no body. -/
theorem call_quiet_of_builtin (absent : m.function? name = none) :
    (((Env.standard settings).engine fuel).call name args span).HasAt quietEffect m := by
  have permissive := quietEffect_permissive
  have lawful := permissive.toLawful
  cases fuel with
  | zero => trivial
  | succ fuel =>
    refine hasAt_bind lawful
      (fun callee m' => (Env.standard settings).callee? m' name = some callee ∧ m' = m)
      (lookup_has permissive _ name m trivial) (lookup_ends _ name m) ?_
    rintro callee m' - ⟨found, rfl⟩
    simp only [Env.callee?, absent, Env.standard, Option.map_eq_some_iff] at found
    obtain ⟨handler, listed, rfl⟩ := found
    refine has_bind lawful (has_located lawful span ?_) (fun _ => has_pure lawful _) m' trivial
    exact Builtins.standard_has permissive listed _ args span

/-- Inside a function every call is quiet. -/
theorem call_quiet_of_inside (inside : m.context.inFunction) :
    (((Env.standard settings).engine fuel).call name args span).HasAt quietEffect m := by
  have has := standard_call_has (stacks_govern tolerates_inside) settings fuel name args span
  refine (has m (plainEffect_inv m)).mono ?_ ?_
  · rintro _ m' ⟨-, kept⟩
    exact ⟨trivial, kept⟩
  · rintro f m' ⟨-, kept, fault⟩
    exact ⟨trivial, kept, fault inside⟩

theorem framed_quiet {α : Type} {act : Action α} (frame : Frame)
    (quiet : act.HasAt quietEffect { m with context := m.context.push frame }) :
    (framed frame act).HasAt quietEffect m := by
  refine ends_framed frame (quiet.mono ?_ ?_)
  · rintro a m' ⟨-, kept⟩
    exact ⟨kept.context, by rw [kept.scopes], trivial, kept.closeFrame⟩
  · rintro f m' ⟨-, kept, fault⟩
    refine ⟨kept.context, by rw [kept.scopes], trivial, kept.closeFrame, ?_⟩
    show ((f.trace _).locate _).cause ≠ _
    rwa [Fault.cause_locate, Fault.cause_trace]

/-- The frame of a call inside an expression is that of its callee. -/
theorem invoke_quiet :
    (((Env.standard settings).engine fuel).invoke name args span).Has quietEffect := by
  have permissive := quietEffect_permissive
  have lawful := permissive.toLawful
  intro m _
  refine hasAt_bind lawful
    (fun callee m' => (Env.standard settings).callee? m' name = some callee ∧ m' = m)
    (has_located lawful span (lookup_has permissive _ name) m trivial)
    ((ends_located span).mpr (lookup_ends _ name m)) ?_
  rintro callee m' - ⟨found, rfl⟩
  refine hasAt_bind lawful (fun _ _ => True) (framed_quiet _ ?_)
    (ends_of_forall fun _ _ => trivial) (fun _ m' _ _ => has_pure lawful _ m' trivial)
  cases user : m'.function? name with
  | none => exact call_quiet_of_builtin settings fuel name args span user
  | some f =>
    have isUser : callee = .user f := by simpa [Env.callee?, user] using found.symm
    exact call_quiet_of_inside settings fuel name args span (by simp [isUser, Callee.status])

/-- A call fails because of a `return` only outside of functions, and only if it
runs a body. -/
theorem call_returns (m : Machine) :
    (((Env.standard settings).engine fuel).call name args span).Ends m (fun _ m' => Kept m m')
      (fun f m' => Kept m m' ∧ (f.cause = .misplaced .result →
        m.context.inFunction = false ∧ m.isUserFunction name)) := by
  by_cases quiet : m.context.inFunction = true ∨ m.function? name = none
  · have has : (((Env.standard settings).engine fuel).call name args span).HasAt quietEffect m :=
      quiet.elim (call_quiet_of_inside settings fuel name args span)
        (call_quiet_of_builtin settings fuel name args span)
    exact has.mono (fun _ _ good => good.2)
      (fun _ _ bad => ⟨bad.2.1, fun failed => absurd failed bad.2.2⟩)
  · obtain ⟨outside, user⟩ := not_or.mp quiet
    have has := standard_call_has (stacks_govern tolerates_all) settings fuel name args span
    refine (has m (plainEffect_inv m)).mono (fun _ _ good => good.2)
      (fun _ _ bad => ⟨bad.2.1, fun _ => ?_⟩)
    exact ⟨by simpa using outside, by simpa [isUserFunction, Option.isSome_iff_ne_none] using user⟩

end

/-! ## Call statements and `return` -/

section

variable (settings : Settings) (fuel unit : Nat) (path : Path) (span : Span)

theorem evalArgs_quiet (args : List Expr) :
    (evalArgs ((Env.standard settings).engine fuel) args).Has quietEffect :=
  evalArgs_has quietEffect_permissive (invoke_quiet settings fuel) args

/-- The frame of a call statement is that of a user function if the name was
one when the statement began. -/
theorem frame_call_status (m : Machine) (name : String) (args : List Expr) :
    (m.frame (.call span name args)).status = .userFunction ↔ m.isUserFunction name := by
  simp [frame]

theorem inFunction_entered_call (m : Machine) (name : String) (args : List Expr) :
    (m.entered (.call span name args)).context.inFunction =
      (m.context.inFunction || m.isUserFunction name) := by
  have status := frame_call_status span m name args
  rw [entered, Context.inFunction_push]
  cases user : m.isUserFunction name <;> simp_all

/-- A call statement fails because of a `return` only if its name was no
function when it began and no function was in progress. -/
theorem execute_call_returns (name : String) (args : List Expr) (m : Machine) :
    (execute ((Env.standard settings).engine fuel) unit path (.call span name args)).Ends m
      (fun _ _ => True) (fun f m' => f.cause = .misplaced .result →
        m.context.inFunction = false ∧ m.isUserFunction name = false ∧ m'.isUserFunction name) := by
  unfold execute
  refine ends_stepped ?_
  have ofArgs := evalArgs_quiet settings fuel args (m.entered (.call span name args)) trivial
  rw [ends_bind]
  refine Ends.mono ofArgs ?_ ?_
  · rintro values m₁ ⟨-, kept⟩
    have depth : m₁.scopes.depth = m.scopes.depth := by
      rw [kept.scopes]
      rfl
    rw [ends_bind, ends_discard]
    refine (call_returns settings fuel name values span m₁).mono ?_ ?_
    · intro _ m₂ kept₂
      rw [ends_bind, countCall, ends_modify, ends_bind]
      refine (recordTraces_kept _ span _).mono ?_ (fun _ _ never => never.elim)
      intro _ m₃ kept₃
      refine ⟨kept₃.context.trans (kept₂.context.trans kept.context), ?_, trivial⟩
      rw [kept₃.scopes]
      exact kept₂.scopes ▸ depth
    · rintro f m₂ ⟨kept₂, why⟩
      refine ⟨kept₂.context.trans kept.context, kept₂.scopes ▸ depth, fun failed => ?_⟩
      obtain ⟨outside, user⟩ := why (by simpa using failed)
      rw [kept.context, inFunction_entered_call, Bool.or_eq_false_iff] at outside
      obtain ⟨callee, found⟩ := Option.isSome_iff_exists.mp user
      exact ⟨outside.1, outside.2, Option.isSome_iff_exists.mpr ⟨_, kept₂.functions _ _ found⟩⟩
  · rintro f m₁ ⟨-, kept, quiet⟩
    refine ⟨kept.context, ?_, fun failed => absurd ?_ quiet⟩
    · rw [kept.scopes]
      rfl
    · simpa using failed

theorem control_refused {α : Type} {m : Machine} {allowed : Context → Bool} {otherwise : Misplaced}
    {flow : Flow} (refused : allowed m.context = false) (next : PUnit → Action α) :
    (discard (control allowed otherwise flow) >>= next) m =
      .fault { cause := .misplaced otherwise } m := by
  show Action.bind (Action.bind (control allowed otherwise flow) _) next m = _
  simp [Action.bind, control, refused]

/-- A `return` is misplaced exactly where no function is in progress. -/
theorem execute_result_misplaced_iff (value : Option Expr) (m : Machine) :
    (∃ f m', execute ((Env.standard settings).engine fuel) unit path (.result span value) m =
      .fault f m' ∧ f.cause = .misplaced .result) ↔ m.context.inFunction = false := by
  constructor
  · rintro ⟨f, m', failed, misplaced⟩
    have rule := stacks_govern tolerates_inside
    have has := execute_has rule (standard_call_has rule settings fuel) unit path
      (.result span value) trivial
    have inside := ((has m (plainEffect_inv m)).of_fault failed).2.2
    simpa using fun within => inside within misplaced
  · intro outside
    have outside' : (m.entered (.result span value)).context.inFunction = false := by
      simp [entered, outside, frame]
    unfold execute
    exact ⟨_, _, framed_of_fault (control_refused outside' _), by simp⟩

end

/-- A call inside an expression never fails because of a `return`. A call
statement fails so only if its name was no function when it began and is one
now, and no function was in progress. In the body that it runs once its
arguments are evaluated, at any depth of loops and conditionals, a `return` is
misplaced exactly in this situation; the frame of the call is that of a user
function exactly if the name was one when the statement began. -/
theorem return_misplaced_iff (settings : Settings) (fuel : Nat) (m : Machine) (span : Span)
    (name : String) (args : List Expr) :
    (eval ((Env.standard settings).engine fuel) (.call span name args)).Ends m
        (fun _ _ => True) (fun f _ => f.cause ≠ .misplaced .result) ∧
      (∀ unit path,
        (execute ((Env.standard settings).engine fuel) unit path (.call span name args)).Ends m
          (fun _ _ => True) (fun f m' => f.cause = .misplaced .result →
            m.context.inFunction = false ∧ m.isUserFunction name = false ∧
              m'.isUserFunction name)) ∧
      (evalArgs ((Env.standard settings).engine fuel) args).Ends (m.entered (.call span name args))
        (fun _ m₁ =>
          (m₁.context.top?.map (·.status) = some .userFunction ↔ m.isUserFunction name) ∧
          ∀ (n : Machine) unit path place value, m₁.context.Within n.context →
            ((∃ f n', execute ((Env.standard settings).engine fuel) unit path
                (.result place value) n = .fault f n' ∧ f.cause = .misplaced .result) ↔
              m.context.inFunction = false ∧ m.isUserFunction name = false))
        (fun f _ => f.cause ≠ .misplaced .result) := by
  refine ⟨?_, fun unit path => execute_call_returns settings fuel unit path span name args m, ?_⟩
  · have quiet := eval_has quietEffect_permissive (invoke_quiet settings fuel)
      (.call span name args)
    exact (quiet m trivial).mono (fun _ _ _ => trivial) (fun _ _ bad => bad.2.2)
  · refine Ends.mono (evalArgs_quiet settings fuel args _ trivial) ?_ (fun _ _ bad => bad.2.2)
    rintro _ m₁ ⟨-, kept⟩
    refine ⟨?_, fun n unit path place value within => ?_⟩
    · rw [kept.context, ← frame_call_status span m name args]
      simp [entered, Context.top?, Context.push]
    · rw [execute_result_misplaced_iff, within.inFunction, kept.context, inFunction_entered_call,
        Bool.or_eq_false_iff]

/-- The argument defines the function that is called, and its `return` fails. -/
theorem return_misplaced_by_argument :
    sourceFault? ((Env.standard {}).engine 9)
        "func g() \x7b func f(int x) \x7b return; \x7d return 1; \x7d f(g());" =
      some
        { cause := .misplaced .result
          span := some { start := 27, stop := 34 }
          backtrace :=
            [{ status := .predefinedCall, span := { start := 49, stop := 56 }, detail := some "f" },
             { status := .result, span := { start := 27, stop := 34 } }] } := by
  decide +kernel

end Machine

end TraceLang
