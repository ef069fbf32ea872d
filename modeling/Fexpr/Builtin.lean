/-!
# Builtin — the primitive procedures and the names they are bound under

A primitive receives its argument list unevaluated and decides by itself what to evaluate and when.
`Builtin.name` is the one name a primitive prints under; `Builtin.globals` lists the names a fresh
interpreter binds, where `fn` and `md` also have a long spelling. The function shorthand `_sfn` has
no global name: only the reader produces it.
-/

namespace Fexpr

/-- **A primitive procedure.** -/
inductive Builtin where
  | print | add | id | list | cons | car | cdr | get | set
  | function | method | multiFunction | bind | functionShorthand
  | pattern | patternWithPredicate | patternWithDefault | patternAlias | isMatch
  | call | apply | curry | isEven | isOdd
  | object | extend | dictionary | array
  | define | redefine | ifElse | eq | delay | force
  deriving DecidableEq, Repr, Inhabited

namespace Builtin

/-- **The name a primitive prints under** and reports its errors with. -/
def name : Builtin → String
  | .print => "print"
  | .add => "add"
  | .id => "id"
  | .list => "list"
  | .cons => "cons"
  | .car => "car"
  | .cdr => "cdr"
  | .get => "get"
  | .set => "set"
  | .function => "fn"
  | .method => "md"
  | .multiFunction => "mfn"
  | .bind => "bind"
  | .functionShorthand => "_sfn"
  | .pattern => "pattern"
  | .patternWithPredicate => "pattern-with-predicate"
  | .patternWithDefault => "pattern-with-default"
  | .patternAlias => "pattern-alias"
  | .isMatch => "match?"
  | .call => "call"
  | .apply => "apply"
  | .curry => "curry"
  | .isEven => "even?"
  | .isOdd => "odd?"
  | .object => "object"
  | .extend => "extend"
  | .dictionary => "dictionary"
  | .array => "array"
  | .define => "def"
  | .redefine => "redef"
  | .ifElse => "if"
  | .eq => "eq"
  | .delay => "delay"
  | .force => "force"

/-- The primitives a program can name, in no particular order. -/
def named : List Builtin :=
  [.print, .add, .id, .list, .cons, .car, .cdr, .get, .set, .function, .method, .multiFunction,
    .bind, .pattern, .patternWithPredicate, .patternWithDefault, .patternAlias, .isMatch, .call,
    .apply, .curry, .isEven, .isOdd, .object, .extend, .dictionary, .array, .define, .redefine,
    .ifElse, .eq, .delay, .force]

/-- **The global names of the primitives**: each under its own name, and functions and methods under
a long spelling too. -/
def globals : List (String × Builtin) :=
  named.map (fun b => (b.name, b)) ++ [("function", .function), ("method", .method)]

end Builtin

end Fexpr
