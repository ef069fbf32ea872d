import Fexpr.Operator
import Fexpr.Bracket

/-!
# Token — splitting source text into tokens

`lex` cuts a text into tokens. Brackets, operators and the rest marker are tokens wherever they
stand, blanks and commas only separate, a semicolon starts a comment that runs to the end of its
line, and every other run of characters is a word. A two-character boundary wins over its first
character alone, so `::` and `#(` stay whole.
-/

namespace Fexpr

namespace Token

/-- Separates the cars of a bracket from its explicit cdr. -/
def restMarker : String := "|"

/-- Characters that only separate tokens. -/
def isSeparator (c : Char) : Bool :=
  c == ' ' || c == '\t' || c == '\n' || c == '\r' || c == ','

/-- **Tokens that need no separator around them**: the rest marker, operators and brackets. -/
def isBoundary (token : String) : Bool :=
  token == restMarker
    || (BinaryOperator.ofToken? token).isSome
    || (UnaryOperator.ofToken? token).isSome
    || (Bracket.ofOpener? token).isSome
    || Bracket.isCloser token

/-- What the scanner is in the middle of. -/
inductive Scan where
  /-- A word, of which these characters have been seen, the latest first. -/
  | word (pending : List Char)
  /-- A comment. -/
  | comment

/-- Ends the pending word, if there is one. -/
def flush (pending : List Char) (tokens : List String) : List String :=
  if pending.isEmpty then tokens else String.ofList pending.reverse :: tokens

/-- Whether a character and the one behind it are one token. -/
def startsPair (c : Char) : List Char → Bool
  | d :: _ => isBoundary (String.ofList [c, d])
  | [] => false

/-- **Scans the rest of a text** in the given state. -/
def scan : Scan → List Char → List String
  | .comment, [] => []
  | .comment, '\n' :: cs => scan (.word []) cs
  | .comment, _ :: cs => scan .comment cs
  | .word pending, [] => flush pending []
  | .word pending, c :: cs =>
    if c == ';' then flush pending (scan .comment cs)
    else if startsPair c cs then
      match cs with
      | d :: cs => flush pending (String.ofList [c, d] :: scan (.word []) cs)
      | [] => flush pending []
    else if isSeparator c then flush pending (scan (.word []) cs)
    else if isBoundary (String.singleton c) then
      flush pending (String.singleton c :: scan (.word []) cs)
    else scan (.word (c :: pending)) cs

/-- **The tokens of a text.** -/
def lex (code : String) : List String :=
  scan (.word []) code.toList

end Token

end Fexpr
