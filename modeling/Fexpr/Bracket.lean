import Fexpr.Node

/-!
# Bracket — the six kinds of brackets

All brackets but `( )` call a primitive with their contents. Six openers share three closers, so a
closer alone does not tell which kind of bracket it ends.
-/

namespace Fexpr

/-- **A kind of bracket.** -/
inductive Bracket where
  /-- `( )`: an application. -/
  | form
  /-- `[ ]`: a list. -/
  | list
  /-- `#[ ]`: an array. -/
  | array
  /-- `#( )`: a function over its default arguments. -/
  | shorthand
  /-- `{ }`: an object. -/
  | object
  /-- `#{ }`: a dictionary. -/
  | dictionary
  deriving DecidableEq, Repr

namespace Bracket

def all : List Bracket := [.form, .list, .array, .shorthand, .object, .dictionary]

/-- The token that begins the bracket. -/
def opener : Bracket → String
  | .form => "("
  | .list => "["
  | .array => "#["
  | .shorthand => "#("
  | .object => "\x7b"
  | .dictionary => "#\x7b"

/-- The token that ends the bracket. -/
def closer : Bracket → String
  | .form | .shorthand => ")"
  | .list | .array => "]"
  | .object | .dictionary => "\x7d"

/-- The bracket that `token` opens, if any. -/
def ofOpener? (token : String) : Option Bracket :=
  all.find? (·.opener == token)

/-- Whether `token` closes some bracket. -/
def isCloser (token : String) : Bool :=
  all.any (·.closer == token)

/-- **The head of the call that the bracket stands for**; an application brings its own. -/
def head? : Bracket → Option Node
  | .form => none
  | .list => some (.value "_list" (.builtin .list))
  | .array => some (.value "_array" (.builtin .array))
  | .shorthand => some (.value "_sfn" (.builtin .functionShorthand))
  | .object => some (.value "_object" (.builtin .object))
  | .dictionary => some (.value "_dictionary" (.builtin .dictionary))

/-- Whether the empty bracket reads as `nil` instead of calling its primitive. -/
def emptyIsNil : Bracket → Bool
  | .list | .shorthand | .form => true
  | .array | .object | .dictionary => false

end Bracket

end Fexpr
