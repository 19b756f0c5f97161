/-
# TraceLang.Main — the command line

    run FILE [--entry NAME] [--trace-out FILE] [--max-depth N] [--config FILE]
    parse FILE
    tokens FILE
    repl

Everything that a command does with the contents of its files is in
`TraceLang.Shell`; here files are read, lines are read and text is written.
-/
import TraceLang.Shell.Command
import TraceLang.Shell.Interactive

namespace TraceLang.Main

set_option autoImplicit false

/-- The options of `run`. -/
structure RunOptions where
  file : Option String := none
  entry : Option String := none
  traceOut : Option String := none
  maxDepth : Option Nat := none
  config : Option String := none

/-- The options among the arguments of `run`, in any order around its file. -/
def RunOptions.ofArgs? (opts : RunOptions) : List String → Option RunOptions
  | [] => some opts
  | "--entry" :: name :: rest => { opts with entry := some name }.ofArgs? rest
  | "--trace-out" :: file :: rest => { opts with traceOut := some file }.ofArgs? rest
  | "--max-depth" :: n :: rest =>
    match n.toNat? with
    | some n => { opts with maxDepth := some n }.ofArgs? rest
    | none => none
  | "--config" :: file :: rest => { opts with config := some file }.ofArgs? rest
  | arg :: rest =>
    if opts.file.isNone ∧ !arg.startsWith "-" then { opts with file := some arg }.ofArgs? rest
    else none

def usage : String :=
  "Usage: run FILE [--entry NAME] [--trace-out FILE] [--max-depth N] [--config FILE]\n" ++
  "       parse FILE\n       tokens FILE\n       repl"

/-- The settings that are used if none are named and this file exists. -/
def defaultConfig : String :=
  "trail.toml"

/-- The text of a file. -/
def readText (path : String) : IO (Except FileError String) := do
  try
    let bytes ← IO.FS.readBinFile path
    match String.fromUTF8? bytes with
    | some text => return .ok text
    | none => return .error .notText
  catch _ => return .error .missing

/-- Write what a command leaves behind and give its exit code. -/
def complete (traceOut : Option String) (c : Completed) : IO UInt32 := do
  IO.print c.printed
  match traceOut, c.histories with
  | some file, some text => IO.FS.writeFile file text
  | _, _ => pure ()
  match c.problem with
  | none => return 0
  | some p =>
    IO.eprintln p.line
    return 1

/-- The text of the configuration, if there is one. -/
def readConfig (named : Option String) : IO (Except FileError (Option String)) := do
  match named with
  | some path => return (← readText path).map some
  | none =>
    match ← readText defaultConfig with
    | .error .missing => return .ok none
    | other => return other.map some

/-- Run a program. -/
def runFile (opts : RunOptions) (file : String) : IO UInt32 := do
  match ← readConfig opts.config with
  | .error e => complete none { problem := some (.file e) }
  | .ok config =>
    let text ← readText file
    complete opts.traceOut (Command.run ampleFuel config opts.maxDepth opts.entry text)

/-- Write what a session has to say and forget it. -/
def speak (s : Interactive) : IO Interactive := do
  IO.print s.machine.output.text
  IO.eprint s.complaints
  (← IO.getStdout).flush
  return { s with machine := { s.machine with output := {} }, complaints := "" }

/-- Take lines until the input or the session ends. -/
partial def converse (g : Engine) (stdin : IO.FS.Stream) (s : Interactive) : IO Unit := do
  let s ← speak s
  if s.ended then return ()
  let line ← stdin.getLine
  converse g stdin (if line.isEmpty then s.finish else s.line g line)

end TraceLang.Main

open TraceLang TraceLang.Main in
/-- The command line. -/
def main : List String → IO UInt32
  | "run" :: args =>
    match RunOptions.ofArgs? {} args with
    | some opts =>
      match opts.file with
      | some file => runFile opts file
      | none => do
        IO.eprintln usage
        return 2
    | none => do
      IO.eprintln usage
      return 2
  | ["parse", file] => do complete none (Command.parse (← readText file))
  | ["tokens", file] => do complete none (Command.tokens (← readText file))
  | ["repl"] => do
    converse ((Env.standard {}).engine ampleFuel) (← IO.getStdin) Interactive.start
    return 0
  | _ => do
    IO.eprintln usage
    return 2
