/-
# TraceLang.Machine.Execute — instructions

Every instruction counts as one step and runs under its own frame. A `break`, a
`continue` or a `return` travels outward as the flow of the instructions around
it. After each declaration, assignment and call statement the changes of
watched variables are recorded.
-/
import TraceLang.Machine.Eval

namespace TraceLang

set_option autoImplicit false

namespace Machine

/-- The line that shows the last record of a watched variable, if it was made at
the given step. -/
def echoLine? (step : Nat) (w : Watched) : Option String :=
  match w.records.back? with
  | some r =>
    if r.step = step then some ("[trace] " ++ w.label ++ " = " ++ r.value.toJson.compact ++ "\n")
    else none
  | none => none

/-- Record the changes of watched variables and print the new records if the
settings say so. -/
def recordTraces (settings : Settings) (span : Span) : Action Unit :=
  Action.modify fun m =>
    let (changed, tracer) := m.tracer.update m.heap m.steps span
    let m := { m with tracer }
    if changed = 0 ∨ !settings.echoTraces then m
    else
      let lines := m.tracer.watched.toList.filterMap (echoLine? m.steps)
      lines.foldl echo m

/-! ## Declarations -/

/-- Whether a declaration may bind its name in the innermost scope. -/
def checkDeclaration (d : Declaration) : Action Unit :=
  fun m =>
    if !isValidName d.name then .fault { cause := .invalidName d.name } m
    else
      match d.mode, m.scopes.findLocal? d.name with
      | .mustNotExist, some _ => .fault { cause := .alreadyDeclared d.name } m
      | .mustExist, none => .fault { cause := .nothingToOverwrite d.name } m
      | _, none => .ok () m
      | _, some c =>
        if (m.heap.read c).traced then .fault { cause := .tracedOverwrite d.name } m else .ok () m

/-- Bind the name of a declaration to a new variable. -/
def bindChecked (d : Declaration) (v : Variable) : Action CellId := do
  let v ← used d.init v
  if d.ty ≠ .auto ∧ !v.value.isOf d.ty then
    Action.failAt (.typeMismatch (.type d.ty) v.value.ty) d.init.span
  else
    fun m =>
      let (c, heap) :=
        m.heap.alloc { value := v.value, assigned := d.assigned, name := some d.name }
      .ok c { m with heap, scopes := m.scopes.define d.name c }

/-- Declare with a value that is already evaluated. -/
def bind (d : Declaration) (v : Variable) : Action CellId := do
  checkDeclaration d
  bindChecked d v

/-- Declare a variable. The name is checked before the initializer is
evaluated. -/
def declare (g : Engine) (d : Declaration) : Action CellId := do
  checkDeclaration d
  bindChecked d (← eval g d.init)

/-! ## Other simple instructions -/

/-- Assign to a place; the value is evaluated first. -/
def assign (g : Engine) (target value : Expr) : Action Unit := do
  if target.rootName? = some "" then
    Action.failAt (.invalidName "") target.span
  else
    let v ← evalValue g value
    let cell ← resolve g target
    Action.modify fun m => { m with heap := m.heap.assign cell v.value }

/-- Add a user function; a name can be defined once. -/
def defineFunction (f : Defined) : Action Unit :=
  fun m =>
    if m.isUserFunction f.function.name then
      .fault { cause := .duplicateFunction f.function.name } m
    else .ok () { m with functions := (f.function.name, f) :: m.functions }

/-- Begin to watch the places that some expressions denote. -/
def startTraces (g : Engine) : List Expr → Action Unit
  | [] => return ()
  | target :: rest => do
    if target.isLocation then
      let cell ← resolve g target
      if (← Action.read fun m => (m.heap.read cell).traced) then
        Action.failAt (.alreadyTraced target.text) target.span
      else
        Action.modify fun m =>
          let heap := m.heap.modify cell fun v => { v with traced := true }
          { m with heap, tracer := m.tracer.watch heap cell target.text }
        startTraces g rest
    else
      Action.failAt (.notALocation target.text) target.span

/-- One more completed execution of a call statement. -/
def countCall (site : Site) : Action Unit :=
  Action.modify fun m => { m with calls := m.calls.insert site (m.calls.getD site 0 + 1) }

/-- The header statements of a loop give no control signal. -/
def expectNext (isStep : Bool) : Flow → Action Unit
  | .next => return ()
  | flow => Action.stray (.header isStep) flow

/-- A control instruction that needs a surrounding of some kind. -/
def control (allowed : Context → Bool) (otherwise : Misplaced) (flow : Flow) : Action Flow :=
  fun m =>
    if allowed m.context then .ok flow m else .fault { cause := .misplaced otherwise } m

/-! ## Instructions and blocks -/

/-- The frame of an instruction. -/
def frame (m : Machine) : Instr → Frame
  | .whileLoop span _ _ => { status := .whileLoop, span }
  | .forLoop span _ _ _ _ => { status := .forLoop, span }
  | .conditional span _ _ _ => { status := .conditional, span }
  | .declare span d => { status := .declaration, span, detail := some d.name }
  | .assign span target _ => { status := .assignment, span, detail := some target.text }
  | .call span name _ =>
    { status := if m.isUserFunction name then .userFunction else .predefinedCall
      span
      detail := some name }
  | .define span name _ _ _ => { status := .functionDefinition, span, detail := some name }
  | .trace span _ => { status := .traceStart, span }
  | .leave span => { status := .leave, span }
  | .again span => { status := .again, span }
  | .result span _ => { status := .result, span }

/-- Count a step and run the work of an instruction under its frame. -/
def stepped (instr : Instr) (work : Action Flow) : Action Flow :=
  fun m =>
    let m := { m with steps := m.steps + 1 }
    Action.framed (m.frame instr) work m

mutual

/-- Execute the instruction at a path of the program numbered `unit`. -/
def execute (g : Engine) (unit : Nat) (path : Path) : Instr → Action Flow
  | .whileLoop span cond body =>
    stepped (.whileLoop span cond body)
      (Action.repeatWhile (evalCondition g cond)
        (Action.withIterating ⟨unit, path⟩ (Action.withScope (runBlock g unit path.body 0 body)))
        (pure ()) g.fuel)
  | .forLoop span init step cond body =>
    stepped (.forLoop span init step cond body)
      (Action.withScope do
        expectNext false (← execute g unit path.first init)
        Action.repeatWhile (evalCondition g cond)
          (Action.withIterating ⟨unit, path⟩ (Action.withScope (runBlock g unit path.body 0 body)))
          (do expectNext true (← execute g unit path.second step)) g.fuel)
  | .conditional span cond onTrue onFalse =>
    stepped (.conditional span cond onTrue onFalse) do
      if ← evalCondition g cond then
        Action.withScope (runBlock g unit path.first 0 onTrue)
      else
        Action.withScope (runBlock g unit path.second 0 onFalse)
  | .declare span d =>
    stepped (.declare span d) do
      discard (declare g d)
      recordTraces g.env.settings span
      return .next
  | .assign span target value =>
    stepped (.assign span target value) do
      assign g target value
      recordTraces g.env.settings span
      return .next
  | .call span name args =>
    stepped (.call span name args) do
      let values ← evalArgs g args
      discard (g.call name values span)
      countCall ⟨unit, path⟩
      recordTraces g.env.settings span
      return .next
  | .define span name params body funcSpan =>
    stepped (.define span name params body funcSpan) do
      defineFunction ⟨{ name, params, body, span := funcSpan }, ⟨unit, path⟩⟩
      return .next
  | .trace span targets =>
    stepped (.trace span targets) do
      startTraces g targets
      return .next
  | .leave span => stepped (.leave span) (control (fun c => c.loopDepth ≠ 0) .leave .leave)
  | .again span => stepped (.again span) (control (fun c => c.loopDepth ≠ 0) .again .again)
  | .result span value =>
    stepped (.result span value) do
      discard (control Context.inFunction .result .next)
      match value with
      | none => return .result none
      | some e => return .result (some (.fresh (← evalValue g e).value))

/-- Execute the instructions of a block, the first of which has number `i`,
until one of them leaves it. -/
def runBlock (g : Engine) (unit : Nat) (path : Path) (i : Nat) : List Instr → Action Flow
  | [] => return .next
  | instr :: rest => do
    match ← execute g unit (path.item i) instr with
    | .next => runBlock g unit path (i + 1) rest
    | flow => return flow

end

end Machine

end TraceLang
