import Fexpr.Node

/-!
# Node/Text — how a syntax tree prints

An application prints as `(head arg arg | rest)` and a spine as `[item item | rest]`, where the rest
is left out when it is `nil`. A value node prints as its label, so a read program prints in a form
that names the primitives behind its operators and brackets.
-/

namespace Fexpr

namespace Node

/-- Puts the last part of a chain behind the rest marker and closes the chain; a text that stands
alone stays as it is. -/
def endingWith : Option String → String → String
  | none, text => text
  | some close, text => " | " ++ text ++ close

/-- **Prints a node**, either alone or, given the closing bracket, as what follows a car. -/
def write : Option String → Node → String
  | ending, .nil => ending.getD "()"
  | none, .pair car cdr => "[" ++ car.write none ++ cdr.write (some "]")
  | some close, .pair car cdr => " " ++ car.write none ++ cdr.write (some close)
  | ending, .form car cdr => endingWith ending ("(" ++ car.write none ++ cdr.write (some ")"))
  | ending, .identifier name => endingWith ending name
  | ending, .numeral n => endingWith ending (toString n)
  | ending, .symbol name => endingWith ending ("#" ++ name)
  | ending, .value label _ => endingWith ending label

/-- **The printed form of a node.** -/
def text (node : Node) : String :=
  node.write none

end Node

end Fexpr
