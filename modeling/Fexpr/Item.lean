import Fexpr.SyntaxError
import Fexpr.Text.Decimal
import Fexpr.Token

/-!
# Item — the elements of one bracket level

Between tokens and nodes stands a list of items: the contents of one bracket, in which brackets
inside are already nodes but operators and rest markers are still loose. `Item.ofToken` classifies
a token that is no bracket, and `Item.toSpine` folds a level without operators into a spine.
-/

namespace Fexpr

/-- **One element of a bracket level.** -/
inductive Item where
  | node (n : Node)
  /-- The marker in front of an explicit cdr. -/
  | rest
  | unary (op : UnaryOperator)
  | binary (op : BinaryOperator)
  deriving Inhabited

namespace Item

/-! ## Atoms -/

/-- Whether a token is `#` and a nonempty word of ASCII letters, digits and hyphens. -/
def isSymbol (token : String) : Bool :=
  match token.toList with
  | '#' :: c :: cs => (c :: cs).all fun c => c.isAlphanum || c == '-'
  | _ => false

/-- **Reads a token that is no bracket.** A run of digits, the empty one included, must be an integer
of the language; what is neither number, marker, operator nor symbol is an identifier. -/
def ofToken (token : String) : Except SyntaxError Item :=
  if Decimal.isDigits token.toList then
    let n := Decimal.value token.toList
    if token.isEmpty || maxInteger < n then .error (.integerOutOfRange token)
    else .ok (.node (.numeral n))
  else if token == Token.restMarker then .ok .rest
  else match BinaryOperator.ofToken? token with
    | some op => .ok (.binary op)
    | none => match UnaryOperator.ofToken? token with
      | some op => .ok (.unary op)
      | none =>
        if isSymbol token then .ok (.node (.symbol (String.ofList token.toList.tail)))
        else .ok (.node (.identifier token))

/-! ## Spines -/

/-- After a marker and its node nothing may follow. -/
def afterCdr (cdr : Node) : List Item → Except SyntaxError Node
  | [] => .ok cdr
  | .node _ :: _ | .rest :: _ => .error .multipleRests
  | .unary op :: _ => .error (.danglingUnary op.token)
  | .binary op :: _ => .error (.missingOperand op.token)

/-- After a marker comes exactly one node. -/
def afterMarker : List Item → Except SyntaxError Node
  | [] => .error .noCdrAfterRest
  | .node cdr :: items => afterCdr cdr items
  | .rest :: _ => .error .multipleRests
  | .unary op :: _ => .error (.danglingUnary op.token)
  | .binary op :: _ => .error (.missingOperand op.token)

/-- The cars that are left and what they end in, after at least one car. -/
def moreCars : List Item → Except SyntaxError (List Node × Node)
  | [] => .ok ([], .nil)
  | .node car :: items => do
    let (cars, cdr) ← moreCars items
    return (car :: cars, cdr)
  | .rest :: items => do
    let cdr ← afterMarker items
    return ([], cdr)
  | .unary op :: _ => .error (.danglingUnary op.token)
  | .binary op :: _ => .error (.missingOperand op.token)

/-- **The cars of a bracket level and its explicit cdr**, `nil` if there is none. A level may be
empty, but a marker needs a car before it. -/
def carsAndCdr : List Item → Except SyntaxError (List Node × Node)
  | .rest :: _ => .error .cdrWithoutCar
  | items => moreCars items

/-- **The argument spine of a bracket level.** -/
def toSpine (items : List Item) : Except SyntaxError Node := do
  let (cars, cdr) ← carsAndCdr items
  return .spine cars cdr

/-- **The application that a bracket level spells**: its first car applied to the rest. -/
def toForm (items : List Item) : Except SyntaxError Node := do
  match ← carsAndCdr items with
  | (head :: args, cdr) => return .form head (.spine args cdr)
  | ([], _) => return .nil

end Item

end Fexpr
