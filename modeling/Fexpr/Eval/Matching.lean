import Fexpr.Eval.Basic

/-!
# Eval/Matching — matching a value against a pattern

A match answers whether the pattern accepts the target and binds names on its way. A rejected match
keeps the bindings it has made so far. The target may be *missing*, as the car of an exhausted list
is: then only a pattern that carries a default somewhere accepts it.
-/

namespace Fexpr

/-- **Where a match puts its bindings.** -/
inductive Binding where
  /-- In the frame that is matched into. -/
  | inward
  /-- Over the nearest enclosing binding, or at the end of the chain. -/
  | outward
  deriving DecidableEq, Repr

/-- Binds a name in the chosen way. -/
def Binding.bind (binding : Binding) (scope : ScopeId) (name : String) (v : Value) : Eval Unit :=
  match binding with
  | .inward => Eval.modifyArena (·.set scope name v)
  | .outward => Eval.modifyArena fun a => (a.setOutward scope name v).2

namespace Pattern

/-- Binds the elements of an argument list to `-1`, `-2` and so on, counting on from `n`. -/
def bindPositions (binding : Binding) (scope : ScopeId) : Nat → List Value → Eval Unit
  | _, [] => pure ()
  | n, v :: vs => do
    binding.bind scope ("-" ++ toString (n + 1)) v
    bindPositions binding scope (n + 1) vs

/-- Binds an argument list by position, its first element also to `-`, and as a whole to
`arguments`. -/
def bindArguments (binding : Binding) (scope : ScopeId) (args : Value) : Eval Unit := do
  bindPositions binding scope 0 args.elements.1
  match args.elements.1 with
  | first :: _ => binding.bind scope "-" first
  | [] => pure ()
  binding.bind scope "arguments" args

variable (r : Evaluator) (binding : Binding) (scope : ScopeId)

mutual

/-- **Matches a target against a pattern**, with `none` for the missing target. -/
def matchWith : Pattern → Option Value → Eval Bool
  | .identifier name, target =>
    match target with
    | some v => do
      binding.bind scope name v
      return true
    | none => return false
  | .value expected, target => return target.any (· == expected)
  | .cons cars tail, target => matchCars cars target fun rest => tail.matchWith rest
  | .predicated base predicate, target =>
    match target with
    | some v => do
      if ← base.matchWith target then
        let answer ← r.call predicate (Node.quote (.ofList [v])) scope
        return answer == .bool true
      else return false
    | none => return false
  | .defaulted base fallback, target =>
    match target with
    | some v => do
      if ← base.matchWith (some v) then return true else base.matchWith (some fallback)
    | none => base.matchWith (some fallback)
  | .aliased first second, target => do
    if ← first.matchWith target then second.matchWith target else return false
  | .defaultArguments, target => do
    bindArguments binding scope (target.getD .nil)
    return true

/-- Matches car patterns against the cars of a chain and goes on with what is left of it. An
exhausted chain has missing cars, and so has a missing chain; any other target is rejected. -/
def matchCars : List Pattern → Option Value → (Option Value → Eval Bool) → Eval Bool
  | [], target, andThen => andThen target
  | p :: ps, target, andThen =>
    match target with
    | some (.pair car cdr) => do
      if ← p.matchWith (some car) then matchCars ps (some cdr) andThen else return false
    | some .nil => do
      if ← p.matchWith none then matchCars ps (some .nil) andThen else return false
    | none => do
      if ← p.matchWith none then matchCars ps none andThen else return false
    | some _ => return false

end

end Pattern

end Fexpr
