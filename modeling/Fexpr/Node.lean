import Fexpr.Value.Equality

/-!
# Node — the syntax tree between the reader and the evaluator

A node is an atom, an application (`form`) or a literal spine cell (`pair`). The argument list of a
form is a spine: a chain of `pair` cells that ends in `nil` or in an explicit rest. A `value` node
already carries its value; the reader makes one for each operator and bracket head, the evaluator
for each argument that it hands on.
-/

namespace Fexpr

/-- **A syntax tree.** -/
inductive Node where
  /-- The empty list, written `()` or implied at the end of a spine. -/
  | nil
  /-- A spine cell. -/
  | pair (car cdr : Node)
  /-- An application: the car is called with the unevaluated cdr. -/
  | form (car cdr : Node)
  | identifier (name : String)
  | numeral (n : Nat)
  | symbol (name : String)
  /-- A value in place of its syntax; the label is only for printing. -/
  | value (label : String) (v : Value)
  deriving Inhabited

namespace Node

/-- **Chains items into spine cells** that end in `tail`. -/
def spine (items : List Node) (tail : Node) : Node :=
  items.foldr .pair tail

/-- `(head args...)`: an application to a proper argument list. -/
def call (head : Node) (args : List Node) : Node :=
  .form head (spine args .nil)

/-- **The elements of a spine, and what ends it.** -/
def elements : Node → List Node × Node
  | .pair car cdr => (car :: cdr.elements.1, cdr.elements.2)
  | node => ([], node)

/-- The car and cdr of a spine cell or an application. -/
def split : Node → Option (Node × Node)
  | .pair car cdr | .form car cdr => some (car, cdr)
  | _ => none

/-- An evaluated argument: a node that evaluates to `v`. -/
def quoted (v : Value) : Node :=
  .value "_arg" v

/-- **Hands an evaluated argument list on**: a spine of quoted elements, ending in the quoted tail
unless that is `nil`. -/
def quote (args : Value) : Node :=
  spine (args.elements.1.map quoted) <|
    match args.elements.2 with
    | .nil => .nil
    | tail => quoted tail

/-- Like `quote`, but a proper argument list continues into `rest`, which is still unevaluated. -/
def quoteBefore (args : Value) (rest : Node) : Node :=
  spine (args.elements.1.map quoted) <|
    match args.elements.2 with
    | .nil => rest
    | tail => quoted tail

/-- **Equality of syntax trees.** Value nodes compare by the value they carry, not by the label. -/
def same : Node → Node → Bool
  | .nil, .nil => true
  | .pair car cdr, .pair car' cdr' => car.same car' && cdr.same cdr'
  | .form car cdr, .form car' cdr' => car.same car' && cdr.same cdr'
  | .identifier a, .identifier b => a == b
  | .numeral m, .numeral n => m == n
  | .symbol a, .symbol b => a == b
  | .value _ v, .value _ w => v == w
  | _, _ => false

instance : BEq Node := ⟨same⟩

/-! ## Spines -/

theorem elements_spine (items : List Node) (tail : Node) :
    (spine items tail).elements = (items ++ tail.elements.1, tail.elements.2) := by
  induction items with
  | nil => rfl
  | cons n items ih =>
    change (n :: (spine items tail).elements.1, (spine items tail).elements.2) = _
    rw [ih]
    rfl

theorem spine_elements (node : Node) : spine node.elements.1 node.elements.2 = node := by
  fun_induction elements node with
  | case1 car cdr ih => exact congrArg (Node.pair car) ih
  | case2 node _ => rfl

theorem spine_append (xs ys : List Node) (tail : Node) :
    spine (xs ++ ys) tail = spine xs (spine ys tail) :=
  List.foldr_append

end Node

end Fexpr
