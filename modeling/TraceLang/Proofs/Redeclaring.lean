/-
# TraceLang.Proofs.Redeclaring — declarations that replace a variable

A declaration may be made in a mode in which it replaces the variable that its
name denotes in the innermost scope, unless that variable is watched. Whether it
is watched is asked before the initializer is evaluated, and the variable is
replaced afterwards. In between the initializer can call a function that begins
to watch the variable, and then a watched variable is replaced
(`declare_replaces_watched`).

This is the only way: a variable that is watched when the declaration begins
stays, and one that is replaced while it is watched has come to be watched by the
initializer of the same declaration (`declare_spares_watched`).
-/
import TraceLang.Proofs.Calls
import TraceLang.Proofs.Marking

namespace TraceLang

set_option autoImplicit false

namespace Machine

open TraceLang.Action

variable {m m' : Machine} {d : Declaration} {c : CellId}

/-! ## The check -/

/-- Where the check succeeds, what will be replaced may be replaced and is not
watched. -/
theorem checkDeclaration_passes (d : Declaration) (m : Machine) :
    (checkDeclaration d).Ends m
      (fun _ m' => m' = m ∧ ∀ c, m.scopes.findLocal? d.name = some c →
        d.mode ≠ .mustNotExist ∧ (m.heap.read c).traced = false)
      (fun _ m' => m' = m) := by
  simp only [Ends, checkDeclaration]
  cases isValidName d.name with
  | false => exact rfl
  | true =>
    simp only [Bool.not_true, Bool.false_eq_true, if_false]
    cases found : m.scopes.findLocal? d.name with
    | none => cases d.mode <;> simp
    | some c =>
      cases mode : d.mode with
      | mustNotExist => exact rfl
      | mustExist | either =>
        cases marked : (m.heap.read c).traced with
        | true => simp [marked]
        | false => simp [marked]

theorem checkDeclaration_watched (valid : isValidName d.name) (mode : d.mode ≠ .mustNotExist)
    (found : m.scopes.findLocal? d.name = some c) (marked : (m.heap.read c).traced) :
    checkDeclaration d m = .fault { cause := .tracedOverwrite d.name } m := by
  simp only [checkDeclaration, valid, found, marked]
  cases same : d.mode with
  | mustNotExist => exact absurd same mode
  | mustExist | either => rfl

/-! ## What is replaced -/

/-- A declaration that began on `m` has evaluated its initializer, which has led
to `m₁`, and binds its name there. What the name denoted was not watched at the
beginning. If it is by then, the initializer has begun to watch it, which takes a
call. -/
structure Replacing (g : Engine) (d : Declaration) (m m₁ : Machine) : Prop where
  evaluated : ∃ v, eval g d.init m = .ok v m₁
  scopes : m₁.scopes = m.scopes
  replaceable : ∀ c, m.scopes.findLocal? d.name = some c → d.mode ≠ .mustNotExist
  unwatched : ∀ c, m.scopes.findLocal? d.name = some c → (m.heap.read c).traced = false
  since : ∀ c, m.scopes.findLocal? d.name = some c →
    ((m₁.heap.read c).traced ↔ m₁.WatchedSince m.tracer.size c)
  callFree : ∀ c, m.scopes.findLocal? d.name = some c → d.init.isCallFree →
    (m₁.heap.read c).traced = false

theorem not_watchedSince_size (m : Machine) (c : CellId) : ¬ m.WatchedSince m.tracer.size c := by
  rintro ⟨k, w, new, found, -⟩
  obtain ⟨inside, -⟩ := Array.getElem?_eq_some_iff.mp found
  exact absurd inside (Nat.not_lt.mpr new)

section

variable (settings : Settings) (fuel : Nat)

/-- An initializer keeps the scopes, and what it marks is newly watched. -/
theorem eval_marking (reachable : m.Reachable) (x : Expr) :
    (eval ((Env.standard settings).engine fuel) x).Ends m
      (fun _ m₁ => m₁.scopes = m.scopes ∧ (∀ c, (m₁.heap.read c).traced ↔
        (m.heap.read c).traced ∨ m₁.WatchedSince m.tracer.size c) ∧
        (x.isCallFree → m₁.tracer = m.tracer))
      (fun _ m₁ => m₁.scopes = m.scopes) := by
  have rule := stacks_govern tolerates_all
  have kept := eval_has rule.permissive
    (invoke_has rule.toCovers (standard_call_has rule settings fuel)) x m (plainEffect_inv m)
  have steps := hasAt_steps.mp
    (eval_has stepsEffect_permissive (invoke_steps settings fuel) x m trivial)
  have free : (eval ((Env.standard settings).engine fuel) x).Ends m
      (fun _ m₁ => x.isCallFree → m₁.tracer = m.tracer) (fun _ _ => True) := by
    by_cases callFree : x.isCallFree
    · refine Ends.onOk (eval_callFree_has growthEffect_allocating _ callFree m trivial) ?_
      rintro _ _ ⟨-, heap, rfl, -⟩ _
      rfl
    · exact ends_of_forall fun _ _ called => absurd called callFree
  refine ((Ends.and kept steps).and free).mono ?_ ?_
  · rintro _ m₁ ⟨⟨⟨-, same⟩, taken⟩, untouched⟩
    exact ⟨same.scopes, steps_marking taken reachable, untouched⟩
  · rintro _ m₁ ⟨⟨⟨-, same, -⟩, -⟩, -⟩
    exact same.scopes

theorem declare_replacing (reachable : m.Reachable) (d : Declaration) :
    (declare ((Env.standard settings).engine fuel) d).Ends m
      (fun c m' => ∃ m₁ v, Replacing ((Env.standard settings).engine fuel) d m m₁ ∧
        m' = m₁.bound d.name v d.assigned ∧ c = ⟨m₁.heap.cells.size⟩)
      (fun _ m' => m'.scopes = m.scopes) := by
  rw [declare, ends_bind]
  refine (checkDeclaration_passes d m).mono ?_ (fun _ _ same => by rw [same])
  rintro _ _ ⟨rfl, allowed⟩
  rw [ends_bind]
  refine ((ends_self _ _).and (eval_marking settings fuel reachable d.init)).mono ?_
    (fun _ _ bad => bad.2)
  rintro v m₁ ⟨ran, scopes, marks, untouched⟩
  have replacing : Replacing ((Env.standard settings).engine fuel) d _ m₁ :=
    { evaluated := ⟨v, ran⟩
      scopes
      replaceable := fun c found => (allowed c found).1
      unwatched := fun c found => (allowed c found).2
      since := fun c found => by rw [marks c, (allowed c found).2]; simp
      callFree := fun c found callFree => by
        have unwatched := m₁.not_watchedSince_size c
        rw [untouched callFree] at unwatched
        simpa [unwatched, (allowed c found).2] using marks c }
  rw [bindChecked, ends_bind]
  unfold used
  refine ends_ite.mpr ⟨fun _ => ?_, fun _ => scopes⟩
  refine ends_ite.mpr ⟨fun _ => scopes, fun _ => ?_⟩
  exact ⟨m₁, v.value, replacing, rfl, rfl⟩

/-- The same of an instruction, which then records changes and closes its
frame. -/
theorem execute_declare_replacing (reachable : m.Reachable) (unit : Nat) (path : Path)
    (span : Span) (d : Declaration) :
    (execute ((Env.standard settings).engine fuel) unit path (.declare span d)).Ends m
      (fun _ m' => ∃ m₁ v,
        Replacing ((Env.standard settings).engine fuel) d (m.entered (.declare span d)) m₁ ∧
        m'.scopes = (m₁.bound d.name v d.assigned).scopes ∧
        m'.heap = (m₁.bound d.name v d.assigned).heap)
      (fun _ m' => m'.scopes = m.scopes) := by
  have rule := stacks_govern tolerates_all
  have call := standard_call_has rule settings fuel
  have entered := reachable.steps (entered_steps m (.declare span d))
  unfold execute
  refine ends_stepped ?_
  rw [ends_bind, ends_discard]
  refine ((declare_replacing settings fuel entered d).and (declare_ends call d _)).mono ?_ ?_
  · rintro _ m₂ ⟨⟨m₁, v, replacing, rfl, -⟩, n, v', kept, same⟩
    have below := kept.keptBelow.trans (bound_keptBelow n d.name v' d.assigned)
    rw [← same] at below
    rw [ends_bind]
    refine ((recordTraces_kept _ span _).and (recordTraces_updates _ span _)).mono ?_
      (fun _ _ never => never.1.elim)
    rintro _ m₃ ⟨after, heap, -⟩
    refine ⟨after.context.trans below.context, ?_, m₁, v, replacing, after.scopes, heap⟩
    rw [after.scopes]
    exact below.depth
  · rintro f m₂ ⟨scopes, kept⟩
    exact ⟨kept.context, by rw [scopes]; rfl, scopes⟩

end

/-! ## Watched variables -/

/-- A declaration that would replace a variable which is watched when it begins
fails and changes nothing. A declaration that succeeds replaces a variable that
was not watched when it began; it is watched at the moment of replacement if and
only if the initializer has begun to watch it, which an initializer without calls
cannot do. A declaration that fails leaves all names as they are. All this holds
of declarations and of the instructions that make them. -/
theorem declare_spares_watched (reachable : m.Reachable) (settings : Settings) (fuel : Nat)
    (d : Declaration) :
    (∀ c, d.mode ≠ .mustNotExist → m.scopes.findLocal? d.name = some c → (m.heap.read c).traced →
      declare ((Env.standard settings).engine fuel) d m =
        .fault { cause := .tracedOverwrite d.name } m ∧
      ∀ unit path span, ∃ f,
        execute ((Env.standard settings).engine fuel) unit path (.declare span d) m =
          .fault f { m with steps := m.steps + 1 } ∧ f.cause = .tracedOverwrite d.name) ∧
    (declare ((Env.standard settings).engine fuel) d).Ends m
      (fun c m' => ∃ m₁ v, Replacing ((Env.standard settings).engine fuel) d m m₁ ∧
        m' = m₁.bound d.name v d.assigned ∧ c = ⟨m₁.heap.cells.size⟩)
      (fun _ m' => m'.scopes = m.scopes) ∧
    ∀ unit path span,
      (execute ((Env.standard settings).engine fuel) unit path (.declare span d)).Ends m
        (fun _ m' => ∃ m₁ v,
          Replacing ((Env.standard settings).engine fuel) d (m.entered (.declare span d)) m₁ ∧
          m'.scopes = (m₁.bound d.name v d.assigned).scopes ∧
          m'.heap = (m₁.bound d.name v d.assigned).heap)
        (fun _ m' => m'.scopes = m.scopes) := by
  refine ⟨fun c mode found marked => ?_, declare_replacing settings fuel reachable d,
    fun unit path span => execute_declare_replacing settings fuel reachable unit path span d⟩
  have valid := reachable.valid_of_bindsAs (Scopes.bindsAs_of_findLocal? found)
  -- The check is the first thing that a declaration does, wherever it stands.
  have refused : ∀ n : Machine, n.scopes = m.scopes → n.heap = m.heap →
      declare ((Env.standard settings).engine fuel) d n =
        .fault { cause := .tracedOverwrite d.name } n := by
    intro n scopes heap
    refine bind_of_fault (checkDeclaration_watched (c := c) valid mode ?_ ?_)
    · rwa [scopes]
    · rwa [heap]
  refine ⟨refused m rfl rfl, fun unit path span => ?_⟩
  unfold execute stepped
  exact ⟨_, framed_of_fault (bind_of_fault (bind_of_fault (refused _ rfl rfl))), by simp⟩

/-- A declaration that would replace a variable which has been watched for a
while. -/
theorem declare_spares_watched_earlier : ∃ prog m c,
    Program.read "int x = 0; trace(x);" = .ok prog ∧
      run ((Env.standard {}).engine 9) 0 prog {} = .ok () m ∧ m.Reachable ∧
      m.scopes.findLocal? "x" = some c ∧ (m.heap.read c).traced ∧
      declare ((Env.standard {}).engine 9)
        { name := "x", ty := .int, init := .int {} 1, mode := .mustExist } m =
          .fault { cause := .tracedOverwrite "x" } m := by
  have checked : (sourceRun? ((Env.standard {}).engine 9) "int x = 0; trace(x);").any
      (fun ended => decide (ended.2.scopes.findLocal? "x" = some ⟨0⟩ ∧
        (ended.2.heap.read ⟨0⟩).traced = true)) := by
    decide +kernel
  obtain ⟨⟨prog, m⟩, ended, holds⟩ := (Option.any_eq_true _ _).mp checked
  obtain ⟨found, marked⟩ := of_decide_eq_true holds
  obtain ⟨read, ran⟩ := sourceRun?_eq_some ended
  have reachable : m.Reachable := ((AtRest.new default).succeeded read ran).reachable
  have spared := declare_spares_watched reachable {} 9
    { name := "x", ty := .int, init := .int {} 1, mode := .mustExist }
  refine ⟨prog, m, ⟨0⟩, read, ran, reachable, found, marked, ?_⟩
  exact (spared.1 ⟨0⟩ (by decide) found marked).1

/-- A declaration that may replace `x`, and an initializer that calls a function
which begins to watch `x`. -/
theorem declare_replaces_watched : ∃ prog m old v m₁ new m',
    Program.read "func f() \x7b trace(x); return 1; \x7d int x = 0;" = .ok prog ∧
      run ((Env.standard {}).engine 9) 0 prog {} = .ok () m ∧
      m.scopes.findLocal? "x" = some old ∧
      eval ((Env.standard {}).engine 9) (.call {} "f" []) m = .ok v m₁ ∧
      m₁.scopes.findLocal? "x" = some old ∧ (m₁.heap.read old).traced ∧
      declare ((Env.standard {}).engine 9)
        { name := "x", ty := .int, init := .call {} "f" [], mode := .either } m = .ok new m' ∧
      m'.scopes.findLocal? "x" = some new ∧ new ≠ old := by
  have checked : (sourceRun? ((Env.standard {}).engine 9)
      "func f() \x7b trace(x); return 1; \x7d int x = 0;").any (fun ended =>
        (eval ((Env.standard {}).engine 9) (.call {} "f" []) ended.2).ok?.any fun called =>
          (declare ((Env.standard {}).engine 9)
            { name := "x", ty := .int, init := .call {} "f" [], mode := .either }
            ended.2).ok?.any fun declared =>
              decide (ended.2.scopes.findLocal? "x" = some ⟨0⟩ ∧
                called.2.scopes.findLocal? "x" = some ⟨0⟩ ∧
                (called.2.heap.read ⟨0⟩).traced = true ∧
                declared.2.scopes.findLocal? "x" = some declared.1 ∧ declared.1 ≠ ⟨0⟩)) := by
    decide +kernel
  obtain ⟨⟨prog, m⟩, ended, holds⟩ := (Option.any_eq_true _ _).mp checked
  obtain ⟨read, ran⟩ := sourceRun?_eq_some ended
  obtain ⟨⟨v, m₁⟩, evaluated, holds⟩ := (Option.any_eq_true _ _).mp holds
  obtain ⟨⟨new, m'⟩, declared, holds⟩ := (Option.any_eq_true _ _).mp holds
  obtain ⟨found, still, marked, rebound, other⟩ := of_decide_eq_true holds
  exact ⟨prog, m, ⟨0⟩, v, m₁, new, m', read, ran, found, Outcome.eq_of_ok? evaluated, still, marked,
    Outcome.eq_of_ok? declared, rebound, other⟩

end Machine

end TraceLang
