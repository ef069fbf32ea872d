import Fexpr.Eval.Basic

/-!
# Eval/Arguments — argument lists of a fixed length

Most primitives take a proper argument list of one, two or three elements and report anything else
under their own name, the improper list first.
-/

namespace Fexpr

namespace Node

/-- What is wrong with an argument list that does not hold `expected` elements. -/
def argumentError (arg : Node) (procedure : String) (expected : Nat) : RunError :=
  match arg.elements.2 with
  | .nil => .wrongCount procedure expected arg.elements.1.length
  | _ => .misuse procedure .improperArguments

/-- **The one argument** of a list that must hold just one. -/
def argument (procedure : String) : Node → Except RunError Node
  | .pair a .nil => .ok a
  | arg => .error (arg.argumentError procedure 1)

/-- **The two arguments** of a list that must hold two. -/
def twoArguments (procedure : String) : Node → Except RunError (Node × Node)
  | .pair a (.pair b .nil) => .ok (a, b)
  | arg => .error (arg.argumentError procedure 2)

/-- **The three arguments** of a list that must hold three. -/
def threeArguments (procedure : String) : Node → Except RunError (Node × Node × Node)
  | .pair a (.pair b (.pair c .nil)) => .ok (a, b, c)
  | arg => .error (arg.argumentError procedure 3)

end Node

namespace Evaluator

/-- Evaluates the one argument of a list. -/
def evalArgument (r : Evaluator) (procedure : String) (arg : Node) (scope : ScopeId) :
    Eval Value := do
  let a ← Eval.ofExcept (arg.argument procedure)
  r.eval a scope

/-- Evaluates the two arguments of a list, the left one first. -/
def evalTwoArguments (r : Evaluator) (procedure : String) (arg : Node) (scope : ScopeId) :
    Eval (Value × Value) := do
  let (a, b) ← Eval.ofExcept (arg.twoArguments procedure)
  let v ← r.eval a scope
  let w ← r.eval b scope
  return (v, w)

end Evaluator

/-- A value of the wrong type for a procedure. -/
def Value.typeMismatch (v : Value) (procedure expected : String) : RunError :=
  .wrongType procedure expected v.typeName

end Fexpr
