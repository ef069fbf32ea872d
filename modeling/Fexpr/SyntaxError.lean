/-!
# SyntaxError — why a text does not read
-/

namespace Fexpr

/-- How deep brackets may nest before the reader gives up. -/
def maxNesting : Nat := 256

/-- The largest integer of the language, and the largest literal: `2 ^ 63 - 1`. -/
def maxInteger : Nat := 9223372036854775807

/-- **The cause of a failed reading.** -/
inductive SyntaxError where
  /-- No closer matches this opener. -/
  | unbalanced (opener : String)
  /-- This closer stands where no bracket is open. -/
  | unexpectedCloser (closer : String)
  /-- A rest marker comes first in its bracket. -/
  | cdrWithoutCar
  /-- Nothing follows a rest marker. -/
  | noCdrAfterRest
  /-- More than one node or marker follows a rest marker. -/
  | multipleRests
  /-- This prefixed operator has no operand. -/
  | danglingUnary (token : String)
  /-- This infix operator lacks an operand. -/
  | missingOperand (token : String)
  /-- A rest marker stands outside brackets or beside an infix operator. -/
  | misplacedRest
  /-- Brackets nest deeper than the limit. -/
  | tooDeep
  /-- This run of digits is no integer of the language. -/
  | integerOutOfRange (token : String)
  deriving DecidableEq, Repr

/-- What a syntax error tells the user. -/
def SyntaxError.message : SyntaxError → String
  | .unbalanced opener => "unbalanced tokens: '" ++ opener ++ "' is never closed"
  | .unexpectedCloser closer => "encountered erroneous '" ++ closer ++ "'"
  | .cdrWithoutCar => "cannot have a cdr without a car"
  | .noCdrAfterRest => "no cdr specified after explicit cdr"
  | .multipleRests => "can only specify one cdr"
  | .danglingUnary token => "unary operator '" ++ token ++ "' must come before something"
  | .missingOperand token => "binary operator '" ++ token ++ "' is missing an operand"
  | .misplacedRest => "explicit cdr marker used outside of a form"
  | .tooDeep => "brackets nested deeper than " ++ toString maxNesting ++ " levels"
  | .integerOutOfRange token => "integer literal '" ++ token ++ "' is out of range"

end Fexpr
