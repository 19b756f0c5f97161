/-
# TraceLang.Syntax.Program — instructions and programs

A program is a sequence of instructions. An instruction of a program is
identified by its path: the way down from the program, last step first.
`Program.loops` and `Program.calls` list the loops and the call statements with
their paths, in the order in which they stand in the source.
-/
import TraceLang.Syntax.Expr

namespace TraceLang

set_option autoImplicit false

/-- What a declaration expects to find under its name in the current scope. -/
inductive OverwriteMode
  | mustNotExist
  | mustExist
  | either
deriving DecidableEq, Repr, Inhabited

/-- The declaration of a variable. -/
structure Declaration where
  name : String
  ty : Ty
  init : Expr
  /-- Whether the variable counts as assigned from the start. -/
  assigned : Bool := true
  mode : OverwriteMode := .mustNotExist
deriving Repr, Inhabited

/-- A declaration without initializer: the type's default value, which may not
be read before an assignment. -/
def Declaration.unassigned (name : String) (ty : Ty) (span : Span) : Declaration :=
  { name, ty, init := .default span ty, assigned := false }

/-- A parameter of a function. -/
structure Param where
  name : String
  ty : Ty
deriving DecidableEq, Repr

/-- An instruction with its place in the source. -/
inductive Instr
  | whileLoop (span : Span) (cond : Expr) (body : List Instr)
  | forLoop (span : Span) (init step : Instr) (cond : Expr) (body : List Instr)
  | conditional (span : Span) (cond : Expr) (onTrue onFalse : List Instr)
  | declare (span : Span) (decl : Declaration)
  | assign (span : Span) (target value : Expr)
  | call (span : Span) (name : String) (args : List Expr)
  /-- The definition of a function, which has a span of its own. -/
  | define (span : Span) (name : String) (params : List Param) (body : List Instr) (funcSpan : Span)
  | trace (span : Span) (targets : List Expr)
  | leave (span : Span)
  | again (span : Span)
  | result (span : Span) (value : Option Expr)
deriving Repr, Inhabited

/-- The place of an instruction. -/
def Instr.span : Instr → Span
  | .whileLoop s _ _ | .forLoop s _ _ _ _ | .conditional s _ _ _ | .declare s _ | .assign s _ _
  | .call s _ _ | .define s _ _ _ _ | .trace s _ | .leave s | .again s | .result s _ => s

/-- The same instruction at another place. -/
def Instr.withSpan (s : Span) : Instr → Instr
  | .whileLoop _ cond body => .whileLoop s cond body
  | .forLoop _ init step cond body => .forLoop s init step cond body
  | .conditional _ cond onTrue onFalse => .conditional s cond onTrue onFalse
  | .declare _ decl => .declare s decl
  | .assign _ target value => .assign s target value
  | .call _ name args => .call s name args
  | .define _ name params body funcSpan => .define s name params body funcSpan
  | .trace _ targets => .trace s targets
  | .leave _ => .leave s
  | .again _ => .again s
  | .result _ value => .result s value

/-- A user-defined function. -/
structure Function where
  name : String
  params : List Param
  body : List Instr
  span : Span
deriving Repr, Inhabited

/-- The way from a program down to an instruction, last step first. A step is
the number of an instruction in a block, behind the number of the block in the
instruction that holds it. -/
abbrev Path := List Nat

namespace Path

/-- The block of a loop or a function. -/
def body (p : Path) : Path := 0 :: p

/-- The first branch of a conditional, or the initializer of a loop. -/
def first (p : Path) : Path := 1 :: p

/-- The second branch of a conditional, or the step of a loop. -/
def second (p : Path) : Path := 2 :: p

/-- The `i`-th instruction of a block. -/
def item (p : Path) (i : Nat) : Path := i :: p

end Path

/-- A program. -/
structure Program where
  body : List Instr
deriving Repr, Inhabited

namespace Instr

mutual

/-- The loops of an instruction, a loop before those inside it. -/
def loops (p : Path) : Instr → List Path
  | .whileLoop _ _ body => p :: loopsOf p.body 0 body
  | .forLoop _ init step _ body =>
    p :: (init.loops p.first ++ step.loops p.second ++ loopsOf p.body 0 body)
  | .conditional _ _ onTrue onFalse => loopsOf p.first 0 onTrue ++ loopsOf p.second 0 onFalse
  | .define _ _ _ body _ => loopsOf p.body 0 body
  | _ => []

/-- The loops of a block from its `i`-th instruction on. -/
def loopsOf (p : Path) (i : Nat) : List Instr → List Path
  | [] => []
  | instr :: rest => instr.loops (p.item i) ++ loopsOf p (i + 1) rest

end

mutual

/-- The call statements of an instruction with the names they call. -/
def calls (p : Path) : Instr → List (Path × String)
  | .call _ name _ => [(p, name)]
  | .whileLoop _ _ body => callsOf p.body 0 body
  | .forLoop _ init step _ body =>
    init.calls p.first ++ step.calls p.second ++ callsOf p.body 0 body
  | .conditional _ _ onTrue onFalse => callsOf p.first 0 onTrue ++ callsOf p.second 0 onFalse
  | .define _ _ _ body _ => callsOf p.body 0 body
  | _ => []

/-- The call statements of a block from its `i`-th instruction on. -/
def callsOf (p : Path) (i : Nat) : List Instr → List (Path × String)
  | [] => []
  | instr :: rest => instr.calls (p.item i) ++ callsOf p (i + 1) rest

end

end Instr

namespace Program

/-- The loops of a program in source order. -/
def loops (prog : Program) : List Path :=
  Instr.loopsOf [] 0 prog.body

/-- The call statements of a program in source order. -/
def calls (prog : Program) : List (Path × String) :=
  Instr.callsOf [] 0 prog.body

end Program

end TraceLang
