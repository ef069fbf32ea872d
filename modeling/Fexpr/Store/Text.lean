import Fexpr.Store

/-!
# Store/Text — how values print

A list prints as `[item item | rest]` and other values by their content or, where that says nothing,
by their kind in angle brackets. An object or dictionary shows what it holds only where it stands
alone; inside another value it is abbreviated, so that objects that refer to each other still print.
-/

namespace Fexpr

/-- Where a value stands when it prints. -/
inductive Place where
  /-- Alone. -/
  | alone
  /-- Inside another value. -/
  | inside
  /-- Behind the elements of a list whose closing bracket is still to come. -/
  | rest
  deriving DecidableEq, Repr

/-- Fits the text of something that is no list into its place. -/
def Place.fit : Place → String → String
  | .rest, text => " | " ++ text ++ "]"
  | _, text => text

/-- An object or dictionary that is not shown. -/
def abbreviation : String := "\x7b...\x7d"

mutual

/-- **Prints a value in its place**, where `record` gives the texts of objects and dictionaries that
stand alone, and of promises. -/
def Value.write (record : Value → String) : Place → Value → String
  | .rest, .nil => "]"
  | _, .nil => "nil"
  | .rest, .pair car cdr => " " ++ car.write record .inside ++ cdr.write record .rest
  | _, .pair car cdr => "[" ++ car.write record .inside ++ cdr.write record .rest
  | place, .void => place.fit "void"
  | place, .integer n => place.fit (toString n)
  | place, .bool b => place.fit (if b then "true" else "false")
  | place, .symbol name => place.fit ("#" ++ name)
  | place, .builtin b => place.fit ("<builtin " ++ b.name ++ ">")
  | place, .curried _ callee _ => place.fit ("<curried " ++ callee.write record .alone ++ ">")
  | place, .function _ => place.fit "<function>"
  | place, .method _ => place.fit "<method>"
  | place, .boundMethod .. => place.fit "<bound method>"
  | place, .multiFunction _ alternatives =>
    place.fit ("<multi-function of " ++ toString alternatives.length ++ ">")
  | place, .pattern p => place.fit ("<pattern " ++ p.write record ++ ">")
  | .alone, .object id => record (.object id)
  | place, .object _ => place.fit abbreviation
  | .alone, .dictionary id => record (.dictionary id)
  | place, .dictionary _ => place.fit abbreviation
  | place, .promise id => place.fit (record (.promise id))

/-- **Prints a pattern** in the notation it is written in. -/
def Pattern.write (record : Value → String) : Pattern → String
  | .identifier name => name
  | .value v => v.write record .inside
  | .cons cars tail => "(" ++ Pattern.writeCars record cars ++ tail.write record ++ ")"
  | .predicated base predicate => base.write record ++ "::" ++ predicate.write record .inside
  | .defaulted base fallback => base.write record ++ " = " ++ fallback.write record .inside
  | .aliased first second => first.write record ++ "/" ++ second.write record
  | .defaultArguments => "arguments"

/-- Prints car patterns, each with a colon behind it. -/
def Pattern.writeCars (record : Value → String) : List Pattern → String
  | [] => ""
  | p :: ps => p.write record ++ ":" ++ Pattern.writeCars record ps

end

namespace Store

/-- Prints a record, with `write` for the values in it. -/
def recordText (st : Store) (write : Value → String) : Value → String
  | .object id =>
    let slots := (st.object id).slots.toList.map fun (name, v) => name ++ ": " ++ write v
    "\x7b" ++ ", ".intercalate slots ++ "\x7d"
  | .dictionary id =>
    let entries := (st.dictionary id).entries.map fun (k, v) => write k ++ ": " ++ write v
    "#\x7b" ++ ", ".intercalate entries ++ "\x7d"
  | .promise id =>
    match st.promise id with
    | .forced v => "<promise " ++ write v ++ ">"
    | _ => "<promise>"
  | _ => ""

/-- Prints a value that is at most `n` records deep. -/
def write (st : Store) : Nat → Place → Value → String
  | 0 => Value.write fun _ => "..."
  | n + 1 => Value.write (st.recordText fun v => st.write n .inside v)

/-- How many records a value without a cycle can lead through. -/
def recordCount (st : Store) : Nat :=
  st.objects.size + st.dictionaries.size + st.promises.size

/-- **The text of a value that stands alone.** -/
def text (st : Store) (v : Value) : String :=
  st.write st.recordCount .alone v

/-- **The text of a value inside another.** -/
def textInside (st : Store) (v : Value) : String :=
  st.write st.recordCount .inside v

/-- The text of a pattern. -/
def patternText (st : Store) (p : Pattern) : String :=
  p.write (st.recordText fun v => st.write st.recordCount .inside v)

end Store

end Fexpr
