import Fexpr.Eval.Arguments

/-!
# Eval/Building — making a pattern out of syntax

A name, a list and the pattern operators are pattern syntax; everything else is evaluated and asks
for its value. What makes a form pattern syntax is the value of its head, so a program may name the
pattern operators as it likes.
-/

namespace Fexpr

namespace Pattern

/-- Attaches a predicate, which must be callable, to a pattern without a default of its own. -/
def restrict (base : Pattern) (predicate : Eval Value) : Eval Pattern :=
  match base with
  | .defaulted .. => Eval.fail (.misuse "pattern-with-predicate" .predicateOverDefault)
  | base => do
    let predicate ← predicate
    if predicate.isCallable then
      return .predicated base predicate
    else
      Eval.fail (predicate.typeMismatch "pattern-with-predicate" "callable")

variable (r : Evaluator) (scope : ScopeId)

mutual

/-- **Builds the pattern that a node spells.** -/
def build : Node → Eval Pattern
  | .identifier name => return .identifier name
  | .nil => return .value .nil
  | .value _ (.pattern p) => return p
  | .pair car cdr => do
    let first ← build car
    let rest ← build cdr
    return .chain [first] rest
  | .form head args => do
    match ← r.eval head scope with
    | .builtin .cons => buildCons args
    | .builtin .list => buildList args
    | .builtin .pattern => buildSole args
    | .builtin .patternWithPredicate => buildPredicated args
    | .builtin .patternWithDefault => buildDefaulted args
    | .builtin .patternAlias => buildAliased args
    | head => return .value (← r.call head args scope)
  | node => return .value (← r.eval node scope)

/-- `(cons a b)`, also `a:b`. -/
def buildCons : Node → Eval Pattern
  | .pair a (.pair b .nil) => do
    let car ← build a
    let cdr ← build b
    return .chain [car] cdr
  | args => Eval.fail (args.argumentError "cons" 2)

/-- `(list a b | c)`, also `[a b | c]`: one pattern per element, then the rest. -/
def buildList : Node → Eval Pattern
  | .nil => return .value .nil
  | .pair car cdr => do
    let first ← build car
    let rest ← build cdr
    return .chain [first] rest
  | _ => Eval.fail (.misuse "list" .cdrWithoutCar)

/-- `(pattern a)`; without an argument, the pattern of `nil`. -/
def buildSole : Node → Eval Pattern
  | .nil => return .value .nil
  | .pair a .nil => build a
  | args => Eval.fail (args.argumentError "pattern" 1)

/-- `(pattern-with-predicate a f)`, also `a::f`. -/
def buildPredicated : Node → Eval Pattern
  | .pair a (.pair predicate .nil) => do
    let base ← build a
    base.restrict (r.eval predicate scope)
  | args => Eval.fail (args.argumentError "pattern-with-predicate" 2)

/-- `(pattern-with-default a x)`, also `a = x`. -/
def buildDefaulted : Node → Eval Pattern
  | .pair a (.pair fallback .nil) => do
    let base ← build a
    let fallback ← r.eval fallback scope
    return .defaulted base fallback
  | args => Eval.fail (args.argumentError "pattern-with-default" 2)

/-- `(pattern-alias a b)`, also `a/b`. -/
def buildAliased : Node → Eval Pattern
  | .pair a (.pair b .nil) => do
    let first ← build a
    let second ← build b
    return .aliased first second
  | args => Eval.fail (args.argumentError "pattern-alias" 2)

end

end Pattern

end Fexpr
