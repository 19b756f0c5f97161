/-
# TraceLang.Proofs.Syntax.Bare — programs apart from their places

`bare` puts an empty place wherever a syntax tree holds one. Two trees with the same
bare form differ in their places only.
-/
import TraceLang.Syntax.Program

namespace TraceLang

set_option autoImplicit false

namespace Expr

mutual

/-- The expression without its places. -/
def bare : Expr → Expr
  | .int _ n => .int {} n
  | .float _ x => .float {} x
  | .bool _ b => .bool {} b
  | .str _ s => .str {} s
  | .none _ => .none {}
  | .list _ items => .list {} (bareAll items)
  | .var _ name => .var {} name
  | .index _ base position => .index {} base.bare position.bare
  | .binary _ op left right => .binary {} op left.bare right.bare
  | .unary _ op operand => .unary {} op operand.bare
  | .call _ name args => .call {} name (bareAll args)
  | .default _ ty => .default {} ty

/-- The expressions without their places. -/
def bareAll : List Expr → List Expr
  | [] => []
  | e :: rest => e.bare :: bareAll rest

end

@[simp] theorem bare_withSpan (s : Span) (e : Expr) : (e.withSpan s).bare = e.bare := by
  cases e <;> simp [withSpan, bare]

/-- Places do not matter for what can be assigned to. -/
theorem isLocation_bare (e : Expr) : e.bare.isLocation = e.isLocation := by
  induction e using isLocation.induct with
  | case1 => rw [bare]; rfl
  | case2 _ base _ ih => rw [bare]; exact ih
  | case3 e notVar notIndex =>
    cases e with
    | var => exact absurd rfl (notVar _ _)
    | index => exact absurd rfl (notIndex _ _ _)
    | _ => rw [bare]; rfl

theorem eq_call_of_bare {e : Expr} {name : String} {args : List Expr}
    (same : e.bare = .call {} name args) :
    ∃ place args', e = .call place name args' ∧ bareAll args' = args := by
  cases e with
  | call place name' args' =>
    obtain ⟨rfl, rfl⟩ : name' = name ∧ bareAll args' = args := by simpa [bare] using same
    exact ⟨place, args', rfl, rfl⟩
  | _ => simp [bare] at same

end Expr

def Declaration.bare (decl : Declaration) : Declaration :=
  { decl with init := decl.init.bare }

namespace Instr

mutual

/-- The instruction without its places. -/
def bare : Instr → Instr
  | .whileLoop _ cond body => .whileLoop {} cond.bare (bareAll body)
  | .forLoop _ init step cond body => .forLoop {} init.bare step.bare cond.bare (bareAll body)
  | .conditional _ cond onTrue onFalse =>
    .conditional {} cond.bare (bareAll onTrue) (bareAll onFalse)
  | .declare _ decl => .declare {} decl.bare
  | .assign _ target value => .assign {} target.bare value.bare
  | .call _ name args => .call {} name (Expr.bareAll args)
  | .define _ name params body _ => .define {} name params (bareAll body) {}
  | .trace _ targets => .trace {} (Expr.bareAll targets)
  | .leave _ => .leave {}
  | .again _ => .again {}
  | .result _ value => .result {} (value.map Expr.bare)

/-- The instructions without their places. -/
def bareAll : List Instr → List Instr
  | [] => []
  | i :: rest => i.bare :: bareAll rest

end

end Instr

/-- The program without its places. -/
def Program.bare (prog : Program) : Program where
  body := Instr.bareAll prog.body

end TraceLang
