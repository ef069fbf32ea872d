import Fexpr.Builtin

/-!
# Value — runtime values and destructuring patterns

Values and patterns contain each other: a pattern is itself a value, and a pattern may ask for a
value. What has an identity of its own and can change or be shared (functions, objects,
dictionaries, promises) is a number that names a record in the store (`Fexpr/Store`); pairs and
patterns are plain trees.
-/

namespace Fexpr

/-- Names a frame of the arena. -/
abbrev ScopeId := Nat
/-- Names a closure of the store. -/
abbrev ClosureId := Nat
/-- Names an object of the store. -/
abbrev ObjectId := Nat
/-- Names a dictionary of the store. -/
abbrev DictionaryId := Nat
/-- Names a promise of the store. -/
abbrev PromiseId := Nat

mutual

/-- **A runtime value.** The `tag` of a curried value, a bound method or a multi-function is its
identity: two of them are the same only if one and the same evaluation made them. -/
inductive Value where
  | nil
  | void
  | integer (n : Int)
  | bool (b : Bool)
  | symbol (name : String)
  | pair (car cdr : Value)
  | builtin (b : Builtin)
  /-- A callable with some arguments already supplied. -/
  | curried (tag : Nat) (callee args : Value)
  | function (closure : ClosureId)
  /-- A function that has to be bound to a receiver before it can be called. -/
  | method (closure : ClosureId)
  | boundMethod (tag : Nat) (closure : ClosureId) (receiver : Value)
  /-- Alternatives that are tried in order until one accepts the arguments. -/
  | multiFunction (tag : Nat) (alternatives : List ClosureId)
  | pattern (p : Pattern)
  | object (id : ObjectId)
  | dictionary (id : DictionaryId)
  | promise (id : PromiseId)

/-- **A destructuring pattern.** -/
inductive Pattern where
  /-- Binds the target to a name. -/
  | identifier (name : String)
  /-- Accepts a target that equals the value. -/
  | value (v : Value)
  /-- Destructures a chain of pairs: one pattern per car, then one for what is left. Patterns made
  by `Pattern.chain` stay flat: the tail is never itself a `cons`. -/
  | cons (cars : List Pattern) (tail : Pattern)
  /-- The base must match and the predicate must answer `true`. -/
  | predicated (base : Pattern) (predicate : Value)
  /-- The base, matched against the default when the target is missing or rejected. -/
  | defaulted (base : Pattern) (fallback : Value)
  /-- Both patterns must match the same target. -/
  | aliased (first second : Pattern)
  /-- Binds the argument list as a whole and by position. -/
  | defaultArguments

end

instance : Inhabited Value := ⟨.nil⟩
instance : Inhabited Pattern := ⟨.value .nil⟩

namespace Value

/-- **Conses a list of values onto a tail.** -/
def chain (items : List Value) (tail : Value) : Value :=
  items.foldr .pair tail

/-- The proper list of the given values. -/
def ofList (items : List Value) : Value :=
  chain items .nil

/-- **The elements of a pair chain, and what ends it**: `nil` exactly for a proper list. -/
def elements : Value → List Value × Value
  | .pair car cdr => (car :: cdr.elements.1, cdr.elements.2)
  | v => ([], v)

/-- Whether a value may stand at the head of a form without an error of its own. -/
def isCallable : Value → Bool
  | .builtin _ | .curried .. | .function _ | .method _ | .boundMethod .. | .multiFunction ..
  | .pattern _ | .pair .. => true
  | _ => false

/-- The name of a value's type. -/
def typeName : Value → String
  | .nil => "Nil"
  | .void => "Void"
  | .integer _ => "Integer"
  | .bool _ => "Bool"
  | .symbol _ => "Symbol"
  | .pair .. => "Pair"
  | .builtin _ => "Builtin"
  | .curried .. => "Curried"
  | .function _ => "Function"
  | .method _ => "Method"
  | .boundMethod .. => "BoundMethod"
  | .multiFunction .. => "MultiFunction"
  | .pattern _ => "Pattern"
  | .object _ => "Object"
  | .dictionary _ => "Dictionary"
  | .promise _ => "Promise"

/-! ## Lists -/

theorem elements_chain (items : List Value) (tail : Value) :
    (chain items tail).elements = (items ++ tail.elements.1, tail.elements.2) := by
  induction items with
  | nil => rfl
  | cons v items ih =>
    change (v :: (chain items tail).elements.1, (chain items tail).elements.2) = _
    rw [ih]
    rfl

theorem elements_ofList (items : List Value) : (ofList items).elements = (items, .nil) := by
  rw [ofList, elements_chain]
  simp [elements]

theorem chain_elements (v : Value) : chain v.elements.1 v.elements.2 = v := by
  fun_induction elements v with
  | case1 car cdr ih => exact congrArg (Value.pair car) ih
  | case2 v _ => rfl

end Value

namespace Pattern

/-- **Car patterns consed onto a tail pattern**, merged into it when the tail is a chain too. -/
def chain (cars : List Pattern) (tail : Pattern) : Pattern :=
  match cars, tail with
  | [], tail => tail
  | cars, .cons more tail => .cons (cars ++ more) tail
  | cars, tail => .cons cars tail

end Pattern

end Fexpr
