/-
# TraceLang.Syntax.Tree — programs as JSON trees

An expression or an instruction is an object with its form and its span. A form
without parts is the form's name; any other form is an object whose one field
is the form's name. `Program.toJson` writes a program, `Program.ofJson?` reads
one back. The reader also takes the parts of a record as an array in the order
of its fields, ignores fields it does not know, and takes a form without parts
as an object with a null.
-/
import TraceLang.Json
import TraceLang.Syntax.Program

namespace TraceLang

set_option autoImplicit false

/-! ## Writing -/

def Span.toJson (s : Span) : Json :=
  .obj [("start", .int s.start), ("end", .int s.stop)]

/-- The name of an operator in a tree. -/
def BinOp.label : BinOp → String
  | .add => "Add"
  | .sub => "Sub"
  | .mul => "Mul"
  | .div => "Div"
  | .mod => "Mod"
  | .eq => "Eq"
  | .ne => "Ne"
  | .lt => "Lt"
  | .le => "Le"
  | .gt => "Gt"
  | .ge => "Ge"
  | .and => "And"
  | .or => "Or"

def BinOp.all : List BinOp :=
  [.add, .sub, .mul, .div, .mod, .eq, .ne, .lt, .le, .gt, .ge, .and, .or]

def UnOp.label : UnOp → String
  | .neg => "Neg"
  | .not => "Not"

def UnOp.all : List UnOp :=
  [.neg, .not]

def OverwriteMode.label : OverwriteMode → String
  | .mustNotExist => "MustNotExist"
  | .mustExist => "MustExist"
  | .either => "Either"

def OverwriteMode.all : List OverwriteMode :=
  [.mustNotExist, .mustExist, .either]

namespace Json

/-- A form with parts. -/
def form (name : String) (parts : Json) : Json :=
  .obj [(name, parts)]

/-- The form of an expression at its place. -/
def located (node : Json) (span : Span) : Json :=
  .obj [("node", node), ("span", span.toJson)]

/-- A name out of a fixed set. -/
def label (name : String) : Json :=
  .str name

end Json

namespace Expr

mutual

/-- The form of an expression. -/
def node : Expr → Json
  | .int _ n => .form "IntLit" (.int n.toInt)
  | .float _ x => .form "FloatLit" (if x.isFinite then .float x else .null)
  | .bool _ b => .form "BoolLit" (.bool b)
  | .str _ s => .form "StrLit" (.str s)
  | .none _ => .label "NoneLit"
  | .list _ items => .form "ListLit" (.arr (nodes items))
  | .var _ name => .form "Var" (.str name)
  | .index _ base position =>
    .form "Index"
      (.obj [("base", .located base.node base.span), ("index", .located position.node position.span)])
  | .binary _ op left right =>
    .form "Binary"
      (.obj [("left", .located left.node left.span), ("op", .label op.label),
        ("right", .located right.node right.span)])
  | .unary _ op operand =>
    .form "Unary" (.obj [("op", .label op.label), ("expr", .located operand.node operand.span)])
  | .call _ name args => .form "Call" (.obj [("func", .str name), ("args", .arr (nodes args))])
  | .default _ ty => .form "Default" (.label ty.keyword)

/-- Several expressions at their places. -/
def nodes : List Expr → List Json
  | [] => []
  | e :: rest => .located e.node e.span :: nodes rest

end

/-- An expression at its place. -/
def toJson (e : Expr) : Json :=
  .located e.node e.span

end Expr

def Declaration.toJson (d : Declaration) : Json :=
  .obj [("name", .str d.name), ("ty", .label d.ty.keyword), ("init", d.init.toJson),
    ("assigned", .bool d.assigned), ("mode", .label d.mode.label)]

def Param.toJson (p : Param) : Json :=
  .obj [("name", .str p.name), ("ty", .label p.ty.keyword)]

namespace Instr

/-- The form of an instruction at its place. -/
def placed (kind : Json) (span : Span) : Json :=
  .obj [("kind", kind), ("span", span.toJson)]

/-- The condition and the body of a loop. -/
def looped (cond : Expr) (body : List Json) : Json :=
  .obj [("cond", cond.toJson), ("body", .arr body)]

mutual

/-- The form of an instruction. -/
def kind : Instr → Json
  | .whileLoop _ cond body => .form "While" (.obj [("looped", looped cond (kinds body))])
  | .forLoop _ init step cond body =>
    .form "For"
      (.obj [("init", placed init.kind init.span), ("step", placed step.kind step.span),
        ("looped", looped cond (kinds body))])
  | .conditional _ cond onTrue onFalse =>
    .form "If"
      (.obj [("cond", cond.toJson), ("then_branch", .arr (kinds onTrue)),
        ("else_branch", .arr (kinds onFalse))])
  | .declare _ decl => .form "Declare" decl.toJson
  | .assign _ target value =>
    .form "Assign" (.obj [("target", target.toJson), ("value", value.toJson)])
  | .call _ name args => .form "Call" (.obj [("name", .str name), ("args", .arr (Expr.nodes args))])
  | .define _ name params body funcSpan =>
    .form "FunctionDef"
      (.obj [("func",
        .obj [("name", .str name), ("params", .arr (params.map Param.toJson)),
          ("body", .arr (kinds body)), ("span", funcSpan.toJson)])])
  | .trace _ targets => .form "Trace" (.obj [("targets", .arr (Expr.nodes targets))])
  | .leave _ => .label "Break"
  | .again _ => .label "Continue"
  | .result _ none => .form "Return" .null
  | .result _ (some value) => .form "Return" value.toJson

/-- Several instructions at their places. -/
def kinds : List Instr → List Json
  | [] => []
  | instr :: rest => placed instr.kind instr.span :: kinds rest

end

/-- An instruction at its place. -/
def toJson (instr : Instr) : Json :=
  placed instr.kind instr.span

end Instr

/-- A program as a tree. -/
def Program.toJson (prog : Program) : Json :=
  .obj [("body", .arr (Instr.kinds prog.body))]

/-! ## Reading -/

namespace Json

/-- The parts of a record with the given fields, in their order. -/
def record? (names : List String) : Json → Option (List Json)
  | .obj fields => names.mapM (fun name => fields.lookup name)
  | .arr items => if items.length = names.length then some items else none
  | _ => none

/-- The parts of a form whose parts have names. -/
def parts? (names : List String) : Json → Option (List Json)
  | .obj fields => names.mapM (fun name => fields.lookup name)
  | _ => none

/-- The name of a form and its parts, if it has any. -/
def form? : Json → Option (String × Option Json)
  | .str name => some (name, none)
  | .obj [(name, parts)] => some (name, some parts)
  | _ => none

/-- A name out of a fixed set, as a form without parts. -/
def label? {α : Type} (all : List α) (name : α → String) (j : Json) : Option α :=
  match j.form? with
  | some (s, none) | some (s, some .null) => all.find? (name · = s)
  | _ => none

def str? : Json → Option String
  | .str s => some s
  | _ => none

def bool? : Json → Option Bool
  | .bool b => some b
  | _ => none

def arr? : Json → Option (List Json)
  | .arr items => some items
  | _ => none

def int64? : Json → Option Int64
  | .int n =>
    if Int64.minValue.toInt ≤ n ∧ n ≤ Int64.maxValue.toInt then some (Int64.ofInt n) else none
  | _ => none

/-- An offset, which has 64 bits. -/
def offset? : Json → Option Nat
  | .int n => if 0 ≤ n ∧ n.toNat < UInt64.size then some n.toNat else none
  | _ => none

def binary64? : Json → Option Binary64
  | .float x => some x
  | .int n => some (Binary64.ofInt n)
  | _ => none

def span? (j : Json) : Option Span := do
  match ← j.record? ["start", "end"] with
  | [start, stop] => return { start := ← start.offset?, stop := ← stop.offset? }
  | _ => none

mutual

/-- The nesting depth of a tree, which bounds how deep a reader descends. -/
def depth : Json → Nat
  | .arr items => depthItems items + 1
  | .obj fields => depthFields fields + 1
  | _ => 1

def depthItems : List Json → Nat
  | [] => 0
  | item :: rest => max item.depth (depthItems rest)

def depthFields : List (String × Json) → Nat
  | [] => 0
  | (_, value) :: rest => max value.depth (depthFields rest)

end

end Json

namespace Expr

/-- An expression out of its tree, descending at most the given number of
expressions. -/
def ofJsonWithin : Nat → Json → Option Expr
  | 0, _ => Option.none
  | n + 1, j => do
    match ← j.record? ["node", "span"] with
    | [node, span] =>
      let span ← span.span?
      let expr := ofJsonWithin n
      match ← node.form? with
      | ("IntLit", some j) => return .int span (← j.int64?)
      | ("FloatLit", some j) => return .float span (← j.binary64?)
      | ("BoolLit", some j) => return .bool span (← j.bool?)
      | ("StrLit", some j) => return .str span (← j.str?)
      | ("NoneLit", Option.none) | ("NoneLit", some .null) => return .none span
      | ("ListLit", some j) => return .list span (← (← j.arr?).mapM expr)
      | ("Var", some j) => return .var span (← j.str?)
      | ("Index", some j) =>
        match ← j.parts? ["base", "index"] with
        | [base, position] => return .index span (← expr base) (← expr position)
        | _ => Option.none
      | ("Binary", some j) =>
        match ← j.parts? ["left", "op", "right"] with
        | [left, op, right] =>
          return .binary span (← op.label? BinOp.all BinOp.label) (← expr left) (← expr right)
        | _ => Option.none
      | ("Unary", some j) =>
        match ← j.parts? ["op", "expr"] with
        | [op, operand] => return .unary span (← op.label? UnOp.all UnOp.label) (← expr operand)
        | _ => Option.none
      | ("Call", some j) =>
        match ← j.parts? ["func", "args"] with
        | [name, args] => return .call span (← name.str?) (← (← args.arr?).mapM expr)
        | _ => Option.none
      | ("Default", some j) => return .default span (← j.label? Ty.all Ty.keyword)
      | _ => Option.none
    | _ => Option.none

/-- An expression out of its tree. -/
def ofJson? (j : Json) : Option Expr :=
  ofJsonWithin j.depth j

def listOfJson? (j : Json) : Option (List Expr) := do
  (← j.arr?).mapM ofJson?

end Expr

def Declaration.ofJson? (j : Json) : Option Declaration := do
  match ← j.record? ["name", "ty", "init", "assigned", "mode"] with
  | [name, ty, init, assigned, mode] =>
    return {
      name := ← name.str?
      ty := ← ty.label? Ty.all Ty.keyword
      init := ← Expr.ofJson? init
      assigned := ← assigned.bool?
      mode := ← mode.label? OverwriteMode.all OverwriteMode.label }
  | _ => none

def Param.ofJson? (j : Json) : Option Param := do
  match ← j.record? ["name", "ty"] with
  | [name, ty] => return { name := ← name.str?, ty := ← ty.label? Ty.all Ty.keyword }
  | _ => none

namespace Instr

/-- An instruction out of its tree, descending at most the given number of
instructions. -/
def ofJsonWithin : Nat → Json → Option Instr
  | 0, _ => none
  | n + 1, j => do
    match ← j.record? ["kind", "span"] with
    | [kind, span] =>
      let span ← span.span?
      let instr := ofJsonWithin n
      let block (j : Json) : Option (List Instr) := do (← j.arr?).mapM instr
      match ← kind.form? with
      | ("While", some j) =>
        match ← j.record? ["looped"] with
        | [looped] =>
          match ← looped.record? ["cond", "body"] with
          | [cond, body] => return .whileLoop span (← Expr.ofJson? cond) (← block body)
          | _ => none
        | _ => none
      | ("For", some j) =>
        match ← j.record? ["init", "step", "looped"] with
        | [init, step, looped] =>
          match ← looped.record? ["cond", "body"] with
          | [cond, body] =>
            return .forLoop span (← instr init) (← instr step) (← Expr.ofJson? cond) (← block body)
          | _ => none
        | _ => none
      | ("If", some j) =>
        match ← j.record? ["cond", "then_branch", "else_branch"] with
        | [cond, onTrue, onFalse] =>
          return .conditional span (← Expr.ofJson? cond) (← block onTrue) (← block onFalse)
        | _ => none
      | ("Declare", some j) => return .declare span (← Declaration.ofJson? j)
      | ("Assign", some j) =>
        match ← j.record? ["target", "value"] with
        | [target, value] => return .assign span (← Expr.ofJson? target) (← Expr.ofJson? value)
        | _ => none
      | ("Call", some j) =>
        match ← j.record? ["name", "args"] with
        | [name, args] => return .call span (← name.str?) (← Expr.listOfJson? args)
        | _ => none
      | ("FunctionDef", some j) =>
        match ← j.record? ["func"] with
        | [func] =>
          match ← func.record? ["name", "params", "body", "span"] with
          | [name, params, body, funcSpan] =>
            return .define span (← name.str?) (← (← params.arr?).mapM Param.ofJson?) (← block body)
              (← funcSpan.span?)
          | _ => none
        | _ => none
      | ("Trace", some j) =>
        match ← j.record? ["targets"] with
        | [targets] => return .trace span (← Expr.listOfJson? targets)
        | _ => none
      | ("Break", none) | ("Break", some .null) => return .leave span
      | ("Continue", none) | ("Continue", some .null) => return .again span
      | ("Return", some .null) => return .result span none
      | ("Return", some j) => return .result span (some (← Expr.ofJson? j))
      | _ => none
    | _ => none

/-- An instruction out of its tree. -/
def ofJson? (j : Json) : Option Instr :=
  ofJsonWithin j.depth j

end Instr

/-- A program out of its tree. -/
def Program.ofJson? (j : Json) : Option Program := do
  match ← j.record? ["body"] with
  | [body] => return { body := ← (← body.arr?).mapM Instr.ofJson? }
  | _ => none

end TraceLang
