import Fexpr.SyntaxError
import Fexpr.Node.Text

/-!
# RunError — why a running program fails

A `RunError` names the cause of a failed evaluation, a `Failure` that of a failed run, which may
also not read or not open. `message` is what the user is told.
-/

namespace Fexpr

/-- **What is wrong with the use of a primitive**, apart from the number and the types of its
arguments. -/
inductive Misuse where
  | improperArguments
  /-- A definition of something that is no name. -/
  | cannotBind (target : Node)
  /-- A list that is nothing but its rest. -/
  | cdrWithoutCar
  | improperBody
  | noPattern
  | predicateOverDefault
  | improperAlternatives
  | notAnAlternative (node : Node)
  | nothingToCall
  | nothingToCurry
  | noSlot (name : String)
  | noAttribute (name : String)
  /-- No entry is kept under the key that prints as `key`. -/
  | noEntry (key : String)
  | noPairSlot (name : String)
  | improperSlots
  | notASlot (node : Node)
  | improperEntries

def Misuse.message : Misuse → String
  | .improperArguments => "expected a proper argument list"
  | .cannotBind target => "cannot bind to " ++ target.text
  | .cdrWithoutCar => "cannot have a cdr without a car"
  | .improperBody => "a function body must be a proper list"
  | .noPattern => "expected a pattern"
  | .predicateOverDefault => "cannot attach a predicate to a pattern with a default"
  | .improperAlternatives => "expected a proper list of alternatives"
  | .notAnAlternative node => "expected (<pattern> <body> ...), got " ++ node.text
  | .nothingToCall => "expected something to call"
  | .nothingToCurry => "expected something to curry"
  | .noSlot name => "object has no slot '" ++ name ++ "'"
  | .noAttribute name => "dictionary has no attribute '" ++ name ++ "'"
  | .noEntry key => "dictionary has no entry for " ++ key
  | .noPairSlot name => "a pair has no slot '" ++ name ++ "'"
  | .improperSlots => "slots must form a proper list"
  | .notASlot node => "expected a `key: value` slot, got " ++ node.text
  | .improperEntries => "entries must form a proper list"

/-- **The cause of a failed evaluation.** -/
inductive RunError where
  | notInScope (name : String)
  /-- A pattern rejected its target. -/
  | patternMismatch
  /-- No alternative of a multi-function accepted the arguments. -/
  | noPatternMatched
  | unboundMethod
  | alreadyBound
  /-- The value that prints as `text` cannot stand at the head of a form. -/
  | uncallable (text typeName : String)
  | wrongType (procedure expected got : String)
  | wrongCount (procedure : String) (expected got : Nat)
  | misuse (procedure : String) (cause : Misuse)
  /-- Evaluation nests deeper than the limit. -/
  | recursionLimit (limit : Nat)
  | overflow (procedure : String)
  | unimplemented (procedure : String)
  /-- A promise needs its own value. -/
  | promiseCycle

def RunError.message : RunError → String
  | .notInScope name => "identifier '" ++ name ++ "' is not in scope"
  | .patternMismatch => "pattern did not match"
  | .noPatternMatched => "no pattern matched"
  | .unboundMethod => "cannot invoke unbound method"
  | .alreadyBound => "you cannot rebind a method"
  | .uncallable text typeName => "value `" ++ text ++ "` (of type " ++ typeName ++ ") is uncallable"
  | .wrongType procedure expected got =>
    procedure ++ ": expected a " ++ expected ++ ", got a " ++ got ++ " instead"
  | .wrongCount procedure expected got =>
    procedure ++ ": expected " ++ toString expected ++ " params, got " ++ toString got ++ " instead"
  | .misuse procedure cause => procedure ++ ": " ++ cause.message
  | .recursionLimit limit => "recursion limit exceeded (max depth " ++ toString limit ++ ")"
  | .overflow procedure => procedure ++ ": integer overflow"
  | .unimplemented procedure => procedure ++ ": not yet implemented"
  | .promiseCycle => "promise forced while it was being forced"

/-- Why a program file cannot be loaded. -/
inductive FileError where
  | notFound
  | notText

def FileError.message : FileError → String
  | .notFound => "No such file or directory (os error 2)"
  | .notText => "stream did not contain valid UTF-8"

/-- **The cause of a failed run.** -/
inductive Failure where
  | unreadable (e : SyntaxError)
  | failed (e : RunError)
  | unloadable (e : FileError)

def Failure.message : Failure → String
  | .unreadable e => e.message
  | .failed e => e.message
  | .unloadable e => e.message

end Fexpr
