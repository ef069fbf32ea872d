import Fexpr.Eval.Primitive

/-!
# Eval/Evaluator — evaluating nodes and calling values

`evalNode` and `callValue` say what evaluation and calling do, in terms of an evaluator for what
they contain. `Evaluator.ofFuel` closes the circle: with fuel `n` evaluations and calls may nest `n`
deep altogether. Only evaluation is bounded by the depth limit of the configuration; calls can
re-enter each other without evaluating anything, so no bound on the fuel follows from it.
-/

namespace Fexpr

variable (r : Evaluator)

/-! ## Evaluating -/

/-- Evaluates a spine: every car, from left to right, and then what the spine ends in. -/
def evalSpine (scope : ScopeId) : Node → Eval Value
  | .pair car cdr => do
    let v ← r.eval car scope
    let w ← evalSpine scope cdr
    return .pair v w
  | node => r.eval node scope

/-- **The value of a node.** An identifier is looked up, a spine becomes a list of values, and a
form calls the value of its head. -/
def evalNode (node : Node) (scope : ScopeId) : Eval Value :=
  match node with
  | .nil => return .nil
  | .numeral n => return .integer n
  | .symbol name => return .symbol name
  | .value _ v => return v
  | .identifier name => Eval.lookup scope name
  | .pair .. => evalSpine r scope node
  | .form head args => do
    let callee ← r.eval head scope
    r.call callee args scope

/-! ## Calling -/

/-- The target that a called pattern is matched against: the value of its one argument, or the
missing target if there is none. -/
def patternTarget (arg : Node) (scope : ScopeId) : Eval (Option Value) :=
  match arg with
  | .nil => return none
  | arg => return some (← r.evalArgument "pattern" arg scope)

/-- **Calls a pattern**: it binds outwards from the caller's scope. -/
def callPattern (p : Pattern) (arg : Node) (scope : ScopeId) : Eval Value := do
  let target ← patternTarget r arg scope
  if ← p.matchWith r .outward scope target then return .bool true else Eval.fail .patternMismatch

/-- **Calls a value.** A curried value puts its own arguments in front, and a pair composes:
`(f:g x)` is `(f (g x))`. -/
def callValue (callee : Value) (arg : Node) (scope : ScopeId) : Eval Value := do
  Eval.trace fun st => "calling " ++ st.text callee ++ " with " ++ arg.text
  match callee with
  | .builtin b => b.run r arg scope
  | .curried _ f args => r.call f (Node.quoteBefore args arg) scope
  | .function id => do
    let f ← Eval.gets fun s => s.store.closure id
    f.invoke r arg scope none
  | .method _ => Eval.fail .unboundMethod
  | .boundMethod _ id receiver => do
    let f ← Eval.gets fun s => s.store.closure id
    f.invoke r arg scope (some receiver)
  | .multiFunction _ alternatives => Closure.invokeAny r alternatives arg scope
  | .pattern p => callPattern r p arg scope
  | .pair outer inner => do
    let v ← r.call inner arg scope
    r.call outer (Node.quote (.ofList [v])) scope
  | v => do
    let text ← Eval.gets fun s => s.store.text v
    Eval.fail (.uncallable text v.typeName)

/-- **The evaluator whose evaluations and calls may nest `n` deep.** -/
def Evaluator.ofFuel : Nat → Evaluator
  | 0 =>
    { eval := fun node scope => Eval.stop (.evaluating node scope)
      call := fun callee arg scope => Eval.stop (.calling callee arg scope) }
  | n + 1 =>
    { eval := fun node scope => Eval.deeper (evalNode (ofFuel n) node scope)
      call := fun callee arg scope => callValue (ofFuel n) callee arg scope }

end Fexpr
