/-
# TraceLang.Shell.Command — the commands of the command line

Each command is a function of the contents of its files. What it prints, the
histories it writes and what it reports as a problem are its result.
-/
import TraceLang.Machine.Builtins
import TraceLang.Settings.Reader
import TraceLang.Syntax.Parser
import TraceLang.Syntax.Tree

namespace TraceLang

set_option autoImplicit false

/-- Why a file has no text. -/
inductive FileError
  | missing
  | notText
deriving DecidableEq, Repr

def FileError.message : FileError → String
  | .missing => "No such file or directory (os error 2)"
  | .notText => "stream did not contain valid UTF-8"

/-- Why a command fails. -/
inductive Problem
  | settings
  | file (e : FileError)
  | source (e : SourceError)
  | fault (f : Fault)
  /-- A program that goes on for ever, or takes more steps than can be counted. -/
  | endless

/-- The line that tells a problem. -/
def Problem.line : Problem → String
  | .settings => "Error: Config error"
  | .file e => "Error: " ++ e.message
  | .source e => "Error: " ++ e.report
  | .fault f => "Error: " ++ f.report
  | .endless => "Error: out of fuel"

/-- What a command leaves behind. -/
structure Completed where
  printed : String := ""
  problem : Option Problem := none
  /-- The histories of watched variables, once a program was run. -/
  histories : Option String := none

namespace Command

/-- List the tokens of a source. -/
def tokens (file : Except FileError String) : Completed :=
  match file with
  | .error e => { problem := some (.file e) }
  | .ok source =>
    match tokenize source with
    | .error e => { problem := some (.source (.lexical e)) }
    | .ok lexemes =>
      let lines := lexemes.map fun l => l.token.label ++ " @ " ++ l.span.text ++ "\n"
      { printed := lines.foldl (· ++ ·) "" }

/-- Show the program in a source as a JSON tree. -/
def parse (file : Except FileError String) : Completed :=
  match file with
  | .error e => { problem := some (.file e) }
  | .ok source =>
    match Program.read source with
    | .error e => { problem := some (.source e) }
    | .ok prog => { printed := prog.toJson.pretty ++ "\n" }

/-- The settings of a run: those of a configuration text if there is one, with
the limit of call depth overridden if asked. -/
def settings (config : Option String) (maxDepth : Option Nat) : Option Settings := do
  let base ← match config with
    | some text => Settings.read? text
    | none => some {}
  return { base with maxCallDepth := maxDepth.getD base.maxCallDepth }

/-- Call the entry function, the given one or else `main` if it is defined, and
print what it returns. -/
def enter (g : Engine) (entry : Option String) : Action Unit := do
  let hasMain ← Action.read (·.isUserFunction "main")
  match entry.or (if hasMain then some "main" else none) with
  | none => return ()
  | some name =>
    let result ← Machine.runEntry g name
    Action.modify fun m =>
      let line := match result with
        | some v => m.heap.text v.value
        | none => "none"
      m.echo (line ++ "\n")

/-- Run a program and then its entry function. -/
def run (fuel : Nat) (config : Option String) (maxDepth : Option Nat) (entry : Option String)
    (file : Except FileError String) : Completed :=
  match settings config maxDepth with
  | none => { problem := some .settings }
  | some settings =>
    match file with
    | .error e => { problem := some (.file e) }
    | .ok source =>
      match Program.read source with
      | .error e => { problem := some (.source e) }
      | .ok prog =>
        let g := (Env.standard settings).engine fuel
        let work : Action Unit := do
          Machine.run g 0 prog
          enter g entry
        match work {} with
        | .ok () m => { printed := m.output.text, histories := some m.tracer.jsonText }
        | .fault f m =>
          { printed := m.output.text, histories := some m.tracer.jsonText
            problem := some (.fault f) }
        | .outOfFuel => { problem := some .endless }

end Command

end TraceLang
