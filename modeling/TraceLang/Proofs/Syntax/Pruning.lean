/-
# TraceLang.Proofs.Syntax.Pruning — programs without some of their instructions

`i.without drop` is an instruction with all blocks inside it, at any depth,
freed from the instructions that `drop` names. The headers of loops stay, since
a loop cannot do without them. `Program.untraced` is the case this is made for:
a program without its `trace` statements.
-/
import TraceLang.Proofs.Syntax.Program

namespace TraceLang

set_option autoImplicit false

namespace Instr

variable {drop : Instr → Bool}

mutual

/-- The instruction without the instructions to drop in the blocks inside it. -/
def without (drop : Instr → Bool) : Instr → Instr
  | .whileLoop span cond body => .whileLoop span cond (withoutAll drop body)
  | .forLoop span init step cond body =>
    .forLoop span (init.without drop) (step.without drop) cond (withoutAll drop body)
  | .conditional span cond onTrue onFalse =>
    .conditional span cond (withoutAll drop onTrue) (withoutAll drop onFalse)
  | .define span name params body funcSpan =>
    .define span name params (withoutAll drop body) funcSpan
  | i => i

/-- The block without the instructions to drop, at any depth. -/
def withoutAll (drop : Instr → Bool) : List Instr → List Instr
  | [] => []
  | i :: rest => if drop i then withoutAll drop rest else i.without drop :: withoutAll drop rest

end

mutual

/-- Nothing is left out if there is nothing to drop. -/
theorem without_eq_self (nothing : ∀ i, drop i = false) : (i : Instr) → i.without drop = i
  | .whileLoop _ _ body => by rw [without, withoutAll_eq_self nothing body]
  | .forLoop _ init step _ body => by
    rw [without, without_eq_self nothing init, without_eq_self nothing step,
      withoutAll_eq_self nothing body]
  | .conditional _ _ onTrue onFalse => by
    rw [without, withoutAll_eq_self nothing onTrue, withoutAll_eq_self nothing onFalse]
  | .define _ _ _ body _ => by rw [without, withoutAll_eq_self nothing body]
  | .declare .. | .assign .. | .call .. | .trace .. | .leave .. | .again .. | .result .. => rfl

theorem withoutAll_eq_self (nothing : ∀ i, drop i = false) : (block : List Instr) →
    withoutAll drop block = block
  | [] => rfl
  | i :: rest => by
    rw [withoutAll, nothing i, without_eq_self nothing i, withoutAll_eq_self nothing rest]
    rfl

end

def isTrace : Instr → Bool
  | .trace .. => true
  | _ => false

theorem isTrace_of_isSimple {i : Instr} (simple : i.isSimple) : i.isTrace = false := by
  cases i <;> first | rfl | cases simple

end Instr

/-- The function without some of the instructions of its body. -/
def Function.without (drop : Instr → Bool) (f : Function) : Function :=
  { f with body := Instr.withoutAll drop f.body }

theorem Function.without_eq_self {drop : Instr → Bool} (nothing : ∀ i, drop i = false)
    (f : Function) : f.without drop = f := by
  rw [Function.without, Instr.withoutAll_eq_self nothing]

/-- The program without its `trace` statements, those of its functions
included. -/
def Program.untraced (prog : Program) : Program :=
  { body := Instr.withoutAll Instr.isTrace prog.body }

end TraceLang
