/-
# TraceLang.Proofs.Syntax.Program — properties of all instructions of a program

`i.Every p` says that `p` holds of an instruction and of all instructions inside
it, at any depth: in the blocks of loops, conditionals and functions and in the
headers of loops. `e.Part x` says that `x` is the expression `e` or stands inside it, at
any depth.
-/
import TraceLang.Syntax.Program

namespace TraceLang

set_option autoImplicit false

/-! ## Expressions -/

/-- The operands, elements or arguments of an expression. -/
def Expr.children : Expr → List Expr
  | .list _ items => items
  | .index _ base position => [base, position]
  | .binary _ _ left right => [left, right]
  | .unary _ _ operand => [operand]
  | .call _ _ args => args
  | _ => []

/-- The expression itself, or one inside it at any depth. -/
inductive Expr.Part : Expr → Expr → Prop
  | self {e : Expr} : Part e e
  | inside {e x y : Expr} (child : x ∈ e.children) (part : Part x y) : Part e y

/-- The expressions an instruction is made of. -/
def Instr.exprs : Instr → List Expr
  | .whileLoop _ cond _ | .forLoop _ _ _ cond _ | .conditional _ cond _ _ => [cond]
  | .declare _ decl => [decl.init]
  | .assign _ target value => [target, value]
  | .call _ _ args => args
  | .trace _ targets => targets
  | .result _ value => value.toList
  | _ => []

/-! ## Instructions -/

namespace Instr

variable {p q : Instr → Prop}

/-- A declaration, an assignment or a call, as it can stand in the header of a
loop. -/
def isSimple : Instr → Bool
  | .declare .. | .assign .. | .call .. => true
  | _ => false

mutual

/-- The property holds of an instruction and of all instructions inside it. -/
def Every (p : Instr → Prop) : Instr → Prop
  | .whileLoop span cond body => p (.whileLoop span cond body) ∧ EveryOf p body
  | .forLoop span init step cond body =>
    p (.forLoop span init step cond body) ∧ init.Every p ∧ step.Every p ∧ EveryOf p body
  | .conditional span cond onTrue onFalse =>
    p (.conditional span cond onTrue onFalse) ∧ EveryOf p onTrue ∧ EveryOf p onFalse
  | .define span name params body funcSpan =>
    p (.define span name params body funcSpan) ∧ EveryOf p body
  | i => p i

/-- The property holds of all instructions of a block and inside them. -/
def EveryOf (p : Instr → Prop) : List Instr → Prop
  | [] => True
  | i :: rest => i.Every p ∧ EveryOf p rest

end

/-- A simple instruction has no others inside it. -/
theorem every_of_simple {i : Instr} (simple : i.isSimple) (holds : p i) : i.Every p := by
  cases i <;> simp only [isSimple, Bool.false_eq_true] at simple
  all_goals exact holds

theorem everyOf_iff {block : List Instr} : EveryOf p block ↔ ∀ i ∈ block, i.Every p := by
  induction block with
  | nil => simp [EveryOf]
  | cons i rest ih => simp [EveryOf, ih]

mutual

theorem every_of_forall (all : ∀ i, p i) : (i : Instr) → i.Every p
  | .whileLoop _ _ body => ⟨all _, everyOf_of_forall all body⟩
  | .forLoop _ init step _ body =>
    ⟨all _, every_of_forall all init, every_of_forall all step, everyOf_of_forall all body⟩
  | .conditional _ _ onTrue onFalse =>
    ⟨all _, everyOf_of_forall all onTrue, everyOf_of_forall all onFalse⟩
  | .define _ _ _ body _ => ⟨all _, everyOf_of_forall all body⟩
  | .declare .. | .assign .. | .call .. | .trace .. | .leave .. | .again .. | .result .. => all _

theorem everyOf_of_forall (all : ∀ i, p i) : (block : List Instr) → EveryOf p block
  | [] => trivial
  | i :: rest => ⟨every_of_forall all i, everyOf_of_forall all rest⟩

end

mutual

theorem Every.mono (weaker : ∀ i, p i → q i) : (i : Instr) → i.Every p → i.Every q
  | .whileLoop _ _ body, ⟨self, inBody⟩ => ⟨weaker _ self, EveryOf.mono weaker body inBody⟩
  | .forLoop _ init step _ body, ⟨self, inInit, inStep, inBody⟩ =>
    ⟨weaker _ self, Every.mono weaker init inInit, Every.mono weaker step inStep,
      EveryOf.mono weaker body inBody⟩
  | .conditional _ _ onTrue onFalse, ⟨self, inTrue, inFalse⟩ =>
    ⟨weaker _ self, EveryOf.mono weaker onTrue inTrue, EveryOf.mono weaker onFalse inFalse⟩
  | .define _ _ _ body _, ⟨self, inBody⟩ => ⟨weaker _ self, EveryOf.mono weaker body inBody⟩
  | .declare .., self | .assign .., self | .call .., self | .trace .., self | .leave .., self
  | .again .., self | .result .., self => weaker _ self

theorem EveryOf.mono (weaker : ∀ i, p i → q i) : (block : List Instr) → EveryOf p block →
    EveryOf q block
  | [], _ => trivial
  | i :: rest, ⟨first, others⟩ => ⟨Every.mono weaker i first, EveryOf.mono weaker rest others⟩

end

mutual

theorem Every.and : (i : Instr) → i.Every p → i.Every q → i.Every fun i => p i ∧ q i
  | .whileLoop _ _ body, ⟨self, inBody⟩, ⟨self', inBody'⟩ =>
    ⟨⟨self, self'⟩, EveryOf.and body inBody inBody'⟩
  | .forLoop _ init step _ body, ⟨self, inInit, inStep, inBody⟩,
      ⟨self', inInit', inStep', inBody'⟩ =>
    ⟨⟨self, self'⟩, Every.and init inInit inInit', Every.and step inStep inStep',
      EveryOf.and body inBody inBody'⟩
  | .conditional _ _ onTrue onFalse, ⟨self, inTrue, inFalse⟩, ⟨self', inTrue', inFalse'⟩ =>
    ⟨⟨self, self'⟩, EveryOf.and onTrue inTrue inTrue', EveryOf.and onFalse inFalse inFalse'⟩
  | .define _ _ _ body _, ⟨self, inBody⟩, ⟨self', inBody'⟩ =>
    ⟨⟨self, self'⟩, EveryOf.and body inBody inBody'⟩
  | .declare .., self, self' | .assign .., self, self' | .call .., self, self'
  | .trace .., self, self' | .leave .., self, self' | .again .., self, self'
  | .result .., self, self' => ⟨self, self'⟩

theorem EveryOf.and : (block : List Instr) → EveryOf p block → EveryOf q block →
    EveryOf (fun i => p i ∧ q i) block
  | [], _, _ => trivial
  | i :: rest, ⟨first, others⟩, ⟨first', others'⟩ =>
    ⟨Every.and i first first', EveryOf.and rest others others'⟩

end

mutual

/-- A property of all instructions can be checked if it can be checked of each. -/
instance decidableEvery [DecidablePred p] : (i : Instr) → Decidable (i.Every p)
  | .whileLoop span cond body =>
    have := decidableEveryOf body
    inferInstanceAs (Decidable (p (.whileLoop span cond body) ∧ EveryOf p body))
  | .forLoop span init step cond body =>
    have := decidableEvery init
    have := decidableEvery step
    have := decidableEveryOf body
    inferInstanceAs (Decidable
      (p (.forLoop span init step cond body) ∧ init.Every p ∧ step.Every p ∧ EveryOf p body))
  | .conditional span cond onTrue onFalse =>
    have := decidableEveryOf onTrue
    have := decidableEveryOf onFalse
    inferInstanceAs (Decidable
      (p (.conditional span cond onTrue onFalse) ∧ EveryOf p onTrue ∧ EveryOf p onFalse))
  | .define span name params body funcSpan =>
    have := decidableEveryOf body
    inferInstanceAs (Decidable (p (.define span name params body funcSpan) ∧ EveryOf p body))
  | .declare span d => inferInstanceAs (Decidable (p (.declare span d)))
  | .assign span target value => inferInstanceAs (Decidable (p (.assign span target value)))
  | .call span name args => inferInstanceAs (Decidable (p (.call span name args)))
  | .trace span targets => inferInstanceAs (Decidable (p (.trace span targets)))
  | .leave span => inferInstanceAs (Decidable (p (.leave span)))
  | .again span => inferInstanceAs (Decidable (p (.again span)))
  | .result span value => inferInstanceAs (Decidable (p (.result span value)))

instance decidableEveryOf [DecidablePred p] : (block : List Instr) → Decidable (EveryOf p block)
  | [] => isTrue trivial
  | i :: rest =>
    have := decidableEvery i
    have := decidableEveryOf rest
    inferInstanceAs (Decidable (i.Every p ∧ EveryOf p rest))

end

end Instr

/-- The property holds of the definition of a function and of its body. -/
def Function.Every (p : Instr → Prop) (f : Function) : Prop :=
  ∃ span, (Instr.define span f.name f.params f.body f.span).Every p

end TraceLang
