import Fexpr.Eval.Evaluator
import Fexpr.Reader

/-!
# Program — running source text

A program is read as a whole before its first form runs. It runs in the scopes and with the store of
a state that outlives it, so that the next program finds its definitions.
-/

namespace Fexpr

/-- A fresh state in which the primitives and constants have their names. -/
def State.initial : State :=
  let primitives := Builtin.globals.map fun (name, b) => (name, Value.builtin b)
  let constants : List (String × Value) :=
    [("nil", .nil), ("void", .void), ("true", .bool true), ("false", .bool false)]
  { arena := (primitives ++ constants).foldl (fun a (name, v) => a.set Arena.root name v) .fresh }

/-- **A computation that may also fail to read or to load.** -/
def Run (α : Type) : Type :=
  Config → State → Outcome Failure α

namespace Run

protected def pure {α : Type} (a : α) : Run α := fun _ s =>
  .ok a s

protected def bind {α β : Type} (x : Run α) (f : α → Run β) : Run β := fun cfg s =>
  match x cfg s with
  | .ok a s => f a cfg s
  | .error e s => .error e s
  | .stopped m s => .stopped m s

instance : Monad Run where
  pure := Run.pure
  bind := Run.bind

/-- The computation, with its errors as failures of a run. -/
def ofEval {α : Type} (x : Eval α) : Run α := fun cfg s =>
  match x cfg s with
  | .ok a s => .ok a s
  | .error e s => .error (.failed e) s
  | .stopped m s => .stopped m s

/-- The result of a reading. -/
def ofReading {α : Type} (x : Except SyntaxError α) : Run α := fun _ s =>
  match x with
  | .ok a => .ok a s
  | .error e => .error (.unreadable e) s

/-- The result of a loading. -/
def ofLoading {α : Type} (x : Except FileError α) : Run α := fun _ s =>
  match x with
  | .ok a => .ok a s
  | .error e => .error (.unloadable e) s

/-- Writes a line to the log, whatever the configuration. -/
def log (level : Log.Level) (message : String) : Run Unit := fun _ s =>
  .ok () { s with log := s.log ++ Log.line level message }

end Run

namespace Program

/-- The fuel of a program that is run without a say in it, more than a machine's stack holds. -/
def ampleFuel : Nat := 1000000

/-- Evaluates top-level forms in order and answers the value of the last. -/
def evalForms (r : Evaluator) (scope : ScopeId) : Value → List Node → Eval Value
  | latest, [] => return latest
  | _, form :: forms => do
    let v ← r.eval form scope
    evalForms r scope v forms

/-- Runs forms that have been read. -/
def runForms (r : Evaluator) (forms : List Node) (scope : ScopeId) : Eval Value := do
  Eval.trace fun _ => "read " ++ toString forms.length ++ " top-level forms"
  evalForms r scope .nil forms

/-- **Runs a program in a scope**, by a given evaluator. Its value is that of its last form, `nil` if
it has none. -/
def runUnder (r : Evaluator) (code : String) (scope : ScopeId) : Run Value := do
  let forms ← Run.ofReading (read code)
  Run.ofEval (runForms r forms scope)

/-- Runs a program in a scope with a given fuel. -/
def runWith (fuel : Nat) (code : String) (scope : ScopeId) : Run Value :=
  runUnder (.ofFuel fuel) code scope

/-- Runs a program in a scope with ample fuel. -/
def runIn (code : String) (scope : ScopeId) : Run Value :=
  runWith ampleFuel code scope

/-- Runs a program in the outermost scope. -/
def run (code : String) : Run Value :=
  runIn code Arena.root

/-! ## Files -/

/-- The text in a file, given its bytes if it exists. -/
def decode : Option ByteArray → Except FileError String
  | none => .error .notFound
  | some bytes =>
    match String.fromUTF8? bytes with
    | some code => .ok code
    | none => .error .notText

/-- **Runs a whole file as one program.** The log says so, naming the file as `shown`, and tells the
end of a run that did not fail. -/
def runFile (shown : String) (contents : Option ByteArray) : Run Value := do
  Run.log .info ("running " ++ shown ++ "...")
  let code ← Run.ofLoading (decode contents)
  let v ← run code
  Run.log .info "run_file: done"
  return v

end Program

end Fexpr
