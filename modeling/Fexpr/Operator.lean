import Fexpr.Node

/-!
# Operator — infix and prefixed operators and what they stand for

Every operator stands for a call of a primitive: `a op b` is `(op a b)` and `op x` is `(op x)`, with
the one exception that `@x` reads the slot `x` of `this`. The table of tokens, precedences and
associativities is here; `Fexpr/Item/Expansion` applies it.
-/

namespace Fexpr

/-- The side to which equal operators group. -/
inductive Associativity where
  | left | right
  deriving DecidableEq, Repr

/-- **An operator between two operands.** -/
inductive BinaryOperator where
  | cons | get | predicate | fallback | alias
  deriving DecidableEq, Repr

namespace BinaryOperator

def all : List BinaryOperator := [.cons, .get, .predicate, .fallback, .alias]

def token : BinaryOperator → String
  | .cons => ":"
  | .get => "."
  | .predicate => "::"
  | .fallback => "="
  | .alias => "/"

/-- The primitive that the operator calls. -/
def builtin : BinaryOperator → Builtin
  | .cons => .cons
  | .get => .get
  | .predicate => .patternWithPredicate
  | .fallback => .patternWithDefault
  | .alias => .patternAlias

/-- How loosely the operator binds: of two neighbours, the lower number takes its operands first. -/
def precedence : BinaryOperator → Nat
  | .get => 1
  | .cons => 2
  | .alias => 3
  | .predicate | .fallback => 4

def associativity : BinaryOperator → Associativity
  | .cons => .right
  | _ => .left

/-- The operator written `token`, if there is one. -/
def ofToken? (token : String) : Option BinaryOperator :=
  all.find? (·.token == token)

/-- The head of the calls that the operator stands for. -/
def head (op : BinaryOperator) : Node :=
  .value ("_" ++ op.builtin.name) (.builtin op.builtin)

/-- `left op right` as a call. -/
def apply (op : BinaryOperator) (left right : Node) : Node :=
  .call op.head [left, right]

/-- Whether `stacked`, an operator further right, takes its operands before `op` does. -/
def yieldsTo (op stacked : BinaryOperator) : Bool :=
  match op.associativity with
  | .left => stacked.precedence < op.precedence
  | .right => stacked.precedence ≤ op.precedence

end BinaryOperator

/-- **An operator in front of one operand.** -/
inductive UnaryOperator where
  | id | ofThis
  deriving DecidableEq, Repr

namespace UnaryOperator

def all : List UnaryOperator := [.id, .ofThis]

def token : UnaryOperator → String
  | .id => "~"
  | .ofThis => "@"

/-- The primitive that the operator calls. -/
def builtin : UnaryOperator → Builtin
  | .id => .id
  | .ofThis => .get

/-- The arguments that stand before the operand. -/
def leading : UnaryOperator → List Node
  | .id => []
  | .ofThis => [.identifier "this"]

/-- The operator written `token`, if there is one. -/
def ofToken? (token : String) : Option UnaryOperator :=
  all.find? (·.token == token)

/-- The head of the calls that the operator stands for. -/
def head (op : UnaryOperator) : Node :=
  .value ("_" ++ op.builtin.name) (.builtin op.builtin)

/-- `op operand` as a call. -/
def apply (op : UnaryOperator) (operand : Node) : Node :=
  .call op.head (op.leading ++ [operand])

end UnaryOperator

end Fexpr
