import Fexpr.Shell

/-!
# Main — the shell on the standard streams
-/

open Fexpr

namespace Fexpr.Shell

/-- Runs a step of a session and passes on what it printed and logged. -/
def perform {α : Type} (cfg : Config) (s : State) (x : Run α) : IO (Option α × State) := do
  let (a, s) := match x cfg s with
    | .ok a s => (some a, s)
    | .error _ s => (none, s)
    | .stopped _ s => (none, s)
  IO.print s.output
  IO.eprint s.log
  (← IO.getStdout).flush
  return (a, { s with output := "", log := "" })

/-- Answers line after line until the input ends. -/
partial def converse (cfg : Config) (input : IO.FS.Stream) (s : State) : IO Unit := do
  let line ← input.getLine
  if line.isEmpty then
    discard <| perform cfg s takeLeave
  else
    let (_, s) ← perform cfg s (answer line)
    converse cfg input s

/-- The bytes of a file, if it can be read. -/
def bytesOf (name : String) : IO (Option ByteArray) :=
  try return some (← IO.FS.readBinFile name) catch _ => return none

/-- A session on the standard streams. -/
def runOptions (o : Options) : IO UInt32 := do
  let cfg := o.config
  let contents ← o.initFile.elim (pure none) bytesOf
  let (_, s) ← perform cfg .initial (start o fun _ => contents)
  match o.eval with
  | some code =>
    let (succeeded, _) ← perform cfg s (report code)
    return if succeeded == some true then 0 else 1
  | none =>
    let (_, s) ← perform cfg s greet
    converse cfg (← IO.getStdin) s
    return 0

end Fexpr.Shell

def main (args : List String) : IO UInt32 := do
  match Request.ofArguments args with
  | .start o => Shell.runOptions o
  | .help => do
    IO.print Shell.helpText
    return 0
  | .version => do
    IO.print Shell.versionText
    return 0
  | .usageError => do
    IO.eprint Shell.helpText
    return 1
