import Fexpr.Program
import Fexpr.Shell.Options
import Fexpr.Text.Blank

/-!
# Shell — the interactive program

The shell runs an initial file, if it is given one, and then either a single program or one program
per line of its input. A line that begins with `>` is a command to the shell itself. Errors go to
the log and end nothing but the program at hand.
-/

namespace Fexpr

namespace Shell

/-- What the version request prints. -/
def versionText : String :=
  "ish 0.1.0\n"

/-- What the help request prints. -/
def helpText : String :=
  "usage: ish [-d] [--strict-multi] [--max-depth N] [-e CODE] [INITFILE]\n"

/-- What the help command prints. -/
def commandHelp : String :=
  ">env   list the names bound at the top level\n>help  show this message\nctrl-d quits"

/-! ## Errors on the way -/

/-- The result of a run, with its failure as a value. -/
def attempt {α : Type} (x : Run α) : Run (Except Failure α) := fun cfg s =>
  match x cfg s with
  | .ok a s => .ok (.ok a) s
  | .error e s => .ok (.error e) s
  | .stopped m s => .stopped m s

/-- Prints a line. -/
def say (line : String) : Run Unit :=
  Run.ofEval (Eval.print (line ++ "\n"))

/-- **Runs a program and prints its value**, or logs why it failed; answers whether it did not. -/
def report (code : String) : Run Bool := do
  match ← attempt (Program.run code) with
  | .ok v => do
    say (← Run.ofEval (Eval.gets fun s => s.store.text v))
    return true
  | .error e => do
    Run.log .error e.message
    return false

/-! ## Lines of input -/

/-- What a command prints. -/
def command (name : String) : Run String :=
  match name with
  | "env" => Run.ofEval (Eval.gets fun s => ", ".intercalate (s.arena.names Arena.root))
  | "help" => return commandHelp
  | _ => return "invalid command"

/-- **Answers a line of input**, whose line end belongs to it. A blank line is passed over, and a
lone `>` without a line end is a program. -/
def answer (line : String) : Run Unit :=
  if (trimBlanks line.toList).isEmpty then return ()
  else match line.toList with
    | '>' :: c :: cs => do say (← command (String.ofList (trimBlanks (c :: cs))))
    | _ => do
      let _ ← report line
      return ()

/-- Cuts a text behind each line end; `pending` holds the line at hand, its end first. -/
def linesFrom (pending : List Char) : List Char → List String
  | [] => if pending.isEmpty then [] else [String.ofList pending.reverse]
  | '\n' :: cs => String.ofList ('\n' :: pending).reverse :: linesFrom [] cs
  | c :: cs => linesFrom (c :: pending) cs

/-- **The lines of a text**, each with its line end. -/
def lines (text : String) : List String :=
  linesFrom [] text.toList

/-! ## A session -/

/-- Logs the options if the log traces calls, and runs the initial file, given the bytes of each
file that exists. Its failure is only a warning. -/
def start (o : Options) (contents : String → Option ByteArray) : Run Unit := do
  Run.ofEval (Eval.trace fun _ => "set options: " ++ o.shown)
  match o.initFile with
  | none => return ()
  | some name =>
    match ← attempt (Program.runFile (Quoted.text name) (contents name)) with
    | .ok _ => return ()
    | .error e => Run.log .warning e.message

/-- What comes before the first line of input: no history of earlier sessions is kept, and the log
says so. -/
def greet : Run Unit :=
  Run.log .warning ("error opening history file: " ++ FileError.notFound.message)

/-- What comes after the last line of input. -/
def takeLeave : Run Unit :=
  say "^D"

/-- **A whole session** on a given input; answers the exit status. -/
def session (o : Options) (contents : String → Option ByteArray) (input : String) : Run Nat := do
  start o contents
  match o.eval with
  | some code => return if ← report code then 0 else 1
  | none => do
    greet
    (lines input).forM answer
    takeLeave
    return 0

end Shell

end Fexpr
