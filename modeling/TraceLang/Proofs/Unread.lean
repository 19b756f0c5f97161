/-
# TraceLang.Proofs.Unread — what an unassigned variable holds is never read

A variable that was declared without a value still holds something. Take two
machines that differ in nothing but such payloads. Whatever instruction is
executed, nobody can tell afterwards on which of the two
(`execute_ignores_unassigned`): it ends in the same way, prints the same and
records the same. The machines left behind differ again in payloads of variables
that are still unassigned, and if such a variable has come to be watched
meanwhile, in what the tracer keeps to compare it with.
-/
import TraceLang.Proofs.Kinship.Programs

namespace TraceLang

set_option autoImplicit false

namespace Machine

/-- The machines differ only in the payloads of the hidden variables, which have
no values yet, are in no list, are not watched and hold scalars in both. -/
structure DiffersUnread (hidden : CellId → Prop) (m m' : Machine) : Prop where
  same : ∃ heap, m' = { m with heap }
  heaps : m.heap.Veils hidden m'.heap
  unwatched : ∀ c, hidden c → m.tracer.isWatching c = false

/-- The machines show the same, and they differ at most in the payloads of hidden
variables that are still without values and in the baselines of these. -/
structure LooksLike (hidden : CellId → Prop) (m m' : Machine) : Prop extends m.Veils hidden m' where
  output : m'.output = m.output
  histories : m'.tracer.toJson = m.tracer.toJson

end Machine

/-- The actions ended in the same way, on machines that look alike, or not at
all. -/
inductive Outcome.LooksLike {α : Type} (hidden : CellId → Prop) : Outcome α → Outcome α → Prop
  | ok {a : α} {n n' : Machine} (like : n.LooksLike hidden n') :
      LooksLike hidden (.ok a n) (.ok a n')
  | fault {f : Fault} {n n' : Machine} (like : n.LooksLike hidden n') :
    LooksLike hidden (.fault f n) (.fault f n')
  | outOfFuel : LooksLike hidden .outOfFuel .outOfFuel

/-- Two runs that differ in hidden payloads only. -/
abbrev Kinship.unread (hidden : CellId → Prop) : Kinship :=
  .strict hidden fun _ => True

namespace Machine

variable {hidden : CellId → Prop} {m m' : Machine}

theorem DiffersUnread.kin (differs : m.DiffersUnread hidden m') :
    (Kinship.unread hidden).Kin m m' := by
  obtain ⟨⟨heap, rfl⟩, heaps, unwatched⟩ := differs
  exact ⟨⟨⟨heap, m.tracer, rfl⟩, hidden, fun _ isHidden => isHidden, heaps,
    Tracer.veils_of_unwatched unwatched⟩, m.within_all⟩

/-- The records of watched variables are the same. -/
theorem Veils.looksLike (veils : m.Veils hidden m') : m.LooksLike hidden m' := by
  refine ⟨veils, ?_, ?_⟩
  · obtain ⟨heap, tracer, rfl⟩ := veils.same
    rfl
  · obtain ⟨secret, -, -, notes⟩ := veils.veiled
    have shown : m'.tracer.watched.toList.map Tracer.watchedJson =
        m.tracer.watched.toList.map Tracer.watchedJson := by
      unfold Tracer.Veils at notes
      generalize m.tracer.watched.toList = ws, m'.tracer.watched.toList = ws' at notes
      induction notes with
      | nil => rfl
      | @cons w w' _ _ noted _ ih =>
        have one : Tracer.watchedJson w' = Tracer.watchedJson w := by
          rw [noted.same]
          rfl
        rw [List.map_cons, List.map_cons, one, ih]
    simp only [Tracer.toJson, shown]

/-- What an unassigned variable holds makes no difference to the execution of any
instruction. -/
theorem execute_ignores_unassigned (settings : Settings) (fuel unit : Nat) (path : Path) (i : Instr)
    (differs : m.DiffersUnread hidden m') :
    (execute ((Env.standard settings).engine fuel) unit path i m).LooksLike hidden
      (execute ((Env.standard settings).engine fuel) unit path i m') := by
  have inside : (Kinship.unread hidden).units unit := trivial
  have alike := execute_akin (engine_akin settings fuel) inside path i m m' differs.kin
  generalize execute ((Env.standard settings).engine fuel) unit path i m = r,
    execute ((Env.standard settings).engine fuel) unit path i m' = r' at alike
  cases alike with
  | ok same kin => exact same ▸ .ok kin.toVeils.looksLike
  | fault kin => exact .fault kin.toVeils.looksLike
  | excused never => exact never.elim
  | outOfFuel => exact .outOfFuel

/-- A variable without a value holds an integer in one machine and a string in the
other. Watching it makes the baselines differ, and nothing else. -/
theorem execute_ignores_unassigned_watched : ∃ m m' : Machine,
    m'.heap.read ⟨0⟩ ≠ m.heap.read ⟨0⟩ ∧ m.DiffersUnread (· = ⟨0⟩) m' ∧
      (execute ((Env.standard {}).engine 9) 0 [] (.trace {} [.var {} "x"]) m).LooksLike (· = ⟨0⟩)
        (execute ((Env.standard {}).engine 9) 0 [] (.trace {} [.var {} "x"]) m') ∧
      ((execute ((Env.standard {}).engine 9) 0 [] (.trace {} [.var {} "x"]) m).ok?.any
        fun ended => ended.2.tracer.isWatching ⟨0⟩) := by
  let x : Variable := { value := .int 7, assigned := false, name := some "x" }
  let m : Machine :=
    { heap := { cells := #[x] }, scopes := Scopes.global.define "x" ⟨0⟩ }
  let m' : Machine := { m with heap := { cells := #[{ x with value := .str "seven" }] } }
  have differs : m.DiffersUnread (· = ⟨0⟩) m' := by
    refine ⟨⟨_, rfl⟩, ⟨rfl, rfl, ?_, ?_⟩, fun _ _ => by simp [m, Tracer.isWatching]⟩
    · rintro ⟨_ | i⟩ other
      · exact absurd rfl other
      · rfl
    · rintro _ rfl
      refine ⟨by decide, rfl, rfl, rfl, rfl, fun l => ?_⟩
      have empty : m.heap.elements l = #[] := Heap.elements_new l
      simp [empty]
  exact ⟨m, m', by decide, differs,
    execute_ignores_unassigned {} 9 0 [] _ differs, by decide +kernel⟩

end Machine

end TraceLang
