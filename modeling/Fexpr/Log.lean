/-!
# Log — the lines written to the log

Every line names the program, the level in the level's colour, and the message.
-/

namespace Fexpr

namespace Log

inductive Level where
  | error | warning | info | debug
  deriving DecidableEq, Repr

/-- The name of a level in a line. -/
def Level.label : Level → String
  | .error => "error"
  | .warning => "warning"
  | .info => "info"
  | .debug => "DEBUG"

/-- The terminal's colour code for a level. -/
def Level.colour : Level → String
  | .error => "\x1b[1;31m"
  | .warning => "\x1b[1;33m"
  | .info => "\x1b[1;32m"
  | .debug => "\x1b[1;30m"

/-- The terminal's code that ends a colour. -/
def reset : String := "\x1b[0m"

/-- **A line of the log**, line end included. -/
def line (level : Level) (message : String) : String :=
  "[ish] " ++ level.colour ++ level.label ++ ":" ++ reset ++ " " ++ message ++ "\n"

end Log

end Fexpr
