import Fexpr.Eval.Building
import Fexpr.Eval.Matching

/-!
# Eval/Closure — making and calling functions

Calling a function evaluates the argument list in the caller's scope, matches it in a fresh frame
below the closure's scope and runs the body there. The frame is dropped again on every way out,
unless something captured it. Within a body the name `-` holds the value of the form before.
-/

namespace Fexpr

namespace Node

/-- The forms of a function body, which must be a proper list. -/
def bodyForms (body : Node) : Except RunError (List Node) :=
  match body.elements.2 with
  | .nil => .ok body.elements.1
  | _ => .error (.misuse "fn" .improperBody)

end Node

namespace Closure

variable (r : Evaluator)

/-! ## Making -/

/-- **Makes a function** from the syntax of its pattern and its body, in `scope`, which is captured:
the function can outlive the frame it was made in. -/
def make (pattern body : Node) (scope : ScopeId) : Eval ClosureId := do
  let pattern ← Pattern.build r scope pattern
  let body ← Eval.ofExcept body.bodyForms
  Eval.modifyArena (·.capture scope)
  Eval.allocate (·.addClosure { pattern, body, scope })

/-- Makes a function from an argument list that begins with its pattern. -/
def ofArguments (arg : Node) (scope : ScopeId) : Eval ClosureId :=
  match arg.split with
  | some (pattern, body) => make r pattern body scope
  | none => Eval.fail (.misuse "fn" .noPattern)

/-- **Makes a function over its default arguments**, whose body is one form. -/
def shorthand (arg : Node) (scope : ScopeId) : Eval ClosureId := do
  let body := match arg.split with
    | some (head, args) => [.form head args]
    | none => []
  Eval.modifyArena (·.capture scope)
  Eval.allocate (·.addClosure { pattern := .defaultArguments, body, scope })

/-- Makes the functions that a list of alternatives spells. -/
def makeAll (scope : ScopeId) : List Node → Eval (List ClosureId)
  | [] => return []
  | alternative :: alternatives =>
    match alternative.split with
    | some (pattern, body) => do
      let f ← make r pattern body scope
      let fs ← makeAll scope alternatives
      return f :: fs
    | none => Eval.fail (.misuse "mfn" (.notAnAlternative alternative))

/-! ## Calling -/

/-- **Matches an argument list in a fresh frame below the closure's scope.** The answer is the
frame, or nothing if the pattern rejects the arguments, and then the frame is dropped already. A
method finds its receiver under the name `this`. -/
def enter? (f : Closure) (arg : Node) (scope : ScopeId) (receiver : Option Value) :
    Eval (Option ScopeId) := do
  let target ← r.eval arg scope
  let frame ← Eval.openFrame f.scope
  match receiver with
  | some v => Eval.modifyArena (·.set frame "this" v)
  | none => pure ()
  match ← Eval.attempt (f.pattern.matchWith r .inward frame (some target)) with
  | .ok true => return some frame
  | .ok false => do
    Eval.closeFrame frame
    return none
  | .error e => do
    Eval.closeFrame frame
    Eval.fail e

/-- Runs the forms of a body in order, keeping the value of the latest in `-`. -/
def runForms (frame : ScopeId) : Value → List Node → Eval Value
  | latest, [] => return latest
  | _, form :: forms => do
    let v ← r.eval form frame
    Eval.modifyArena (·.set frame "-" v)
    runForms frame v forms

/-- Runs a body in its frame. Before the first form `-` is `void`, unless the pattern bound it, and
the value of an empty body is `void`. -/
def runBody (f : Closure) (frame : ScopeId) : Eval Value := do
  let bound ← Eval.gets fun s => s.arena.has frame "-"
  if bound then pure () else Eval.modifyArena (·.set frame "-" .void)
  runForms r frame .void f.body

/-- **Runs a body in its frame and drops the frame.** -/
def run (f : Closure) (frame : ScopeId) : Eval Value := do
  let result ← Eval.attempt (f.runBody r frame)
  Eval.closeFrame frame
  Eval.ofExcept result

/-- **Calls a function**: a rejected argument list is a mismatch. -/
def invoke (f : Closure) (arg : Node) (scope : ScopeId) (receiver : Option Value) :
    Eval Value := do
  match ← f.enter? r arg scope receiver with
  | some frame => f.run r frame
  | none => Eval.fail .patternMismatch

/-! ## Alternatives -/

/-- Calls the alternatives in order until one of them succeeds, whatever the others fail with. -/
def firstSuccess (args : Node) (scope : ScopeId) : Nat → List ClosureId → Eval Value
  | _, [] => Eval.fail .noPatternMatched
  | i, id :: ids => do
    let f ← Eval.gets fun s => s.store.closure id
    match ← Eval.attempt (f.invoke r args scope none) with
    | .ok v => return v
    | .error e => do
      Eval.trace fun _ => "alternative " ++ toString i ++ " failed: " ++ e.message
      firstSuccess args scope (i + 1) ids

/-- Calls the first alternative that accepts the arguments; its failure is final. -/
def firstMatch (args : Node) (scope : ScopeId) : List ClosureId → Eval Value
  | [] => Eval.fail .noPatternMatched
  | id :: ids => do
    let f ← Eval.gets fun s => s.store.closure id
    match ← f.enter? r args scope none with
    | some frame => f.run r frame
    | none => firstMatch args scope ids

/-- **Calls a multi-function.** The arguments are evaluated once, and every alternative sees the
same values. -/
def invokeAny (alternatives : List ClosureId) (arg : Node) (scope : ScopeId) : Eval Value := do
  let args ← r.eval arg scope
  match (← Eval.config).policy with
  | .lenient => firstSuccess r (.quoted args) scope 0 alternatives
  | .strict => firstMatch r (.quoted args) scope alternatives

end Closure

end Fexpr
