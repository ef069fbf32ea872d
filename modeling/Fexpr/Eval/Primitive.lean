import Fexpr.Eval.Closure
import Fexpr.Eval.Slot

/-!
# Eval/Primitive — what the primitives do

Every primitive gets its argument list unevaluated, together with the scope the list belongs to.
-/

namespace Fexpr

/-- Whether an integer is one of the language. -/
def inIntegerRange (n : Int) : Bool :=
  -(maxInteger : Int) - 1 ≤ n && n ≤ maxInteger

namespace Primitive

variable (r : Evaluator) (arg : Node) (scope : ScopeId)

/-! ## Essentials -/

/-- `(print x)` prints a value on a line of its own. -/
def print : Eval Value := do
  let v ← r.evalArgument "print" arg scope
  let text ← Eval.gets fun s => s.store.text v
  Eval.print (text ++ "\n")
  return .nil

/-- The integer that a value is. -/
def integerOf (procedure : String) : Value → Eval Int
  | .integer n => return n
  | v => Eval.fail (v.typeMismatch procedure "Integer")

/-- `(add m n)`. -/
def add : Eval Value := do
  let (v, w) ← r.evalTwoArguments "add" arg scope
  let m ← integerOf "add" v
  let n ← integerOf "add" w
  if inIntegerRange (m + n) then return .integer (m + n) else Eval.fail (.overflow "add")

/-- `(even? n)` and `(odd? n)`: whether `n` leaves the remainder when halved. -/
def parity (procedure : String) (remainder : Int) : Eval Value := do
  let n ← integerOf procedure (← r.evalArgument procedure arg scope)
  return .bool (n % 2 == remainder)

/-- `(eq x y)`. -/
def eq : Eval Value := do
  let (v, w) ← r.evalTwoArguments "eq" arg scope
  return .bool (v == w)

/-- `(def name x)` binds a name in the frame at hand, `(redef name x)` wherever the name lives. -/
def define (procedure : String) (binding : Binding) : Eval Value := do
  let (target, value) ← Eval.ofExcept (arg.twoArguments procedure)
  match target with
  | .identifier name => do
    let v ← r.eval value scope
    binding.bind scope name v
    return v
  | target => Eval.fail (.misuse procedure (.cannotBind target))

/-- `(if c x y)` evaluates one of its branches. -/
def ifElse : Eval Value := do
  let (condition, thenBranch, elseBranch) ← Eval.ofExcept (arg.threeArguments "if")
  match ← r.eval condition scope with
  | .bool true => r.eval thenBranch scope
  | .bool false => r.eval elseBranch scope
  | v => Eval.fail (v.typeMismatch "if" "Bool")

/-! ## Pairs -/

/-- `(list x y | z)`. -/
def list : Eval Value :=
  match arg with
  | .nil | .pair .. => r.eval arg scope
  | _ => Eval.fail (.misuse "list" .cdrWithoutCar)

/-- `(cons x y)`. -/
def cons : Eval Value := do
  let (v, w) ← r.evalTwoArguments "cons" arg scope
  return .pair v w

/-- The halves of a pair. -/
def halvesOf (procedure : String) : Value → Eval (Value × Value)
  | .pair car cdr => return (car, cdr)
  | v => Eval.fail (v.typeMismatch procedure "Pair")

/-- `(car p)`. -/
def car : Eval Value := do
  let (car, _) ← halvesOf "car" (← r.evalArgument "car" arg scope)
  return car

/-- `(cdr p)`: the cdr, forced if it is a promise. -/
def cdr : Eval Value := do
  let (_, cdr) ← halvesOf "cdr" (← r.evalArgument "cdr" arg scope)
  Promise.forceValue r cdr

/-! ## Objects and dictionaries -/

/-- `(get x key)`, also `x.key`. -/
def get : Eval Value := do
  let (target, key) ← Eval.ofExcept (arg.twoArguments "get")
  Slot.read r (← r.eval target scope) key scope

/-- `(set x key y)`. -/
def set : Eval Value := do
  let (target, key, value) ← Eval.ofExcept (arg.threeArguments "set")
  Slot.write r (← r.eval target scope) key value scope

/-- `(extend proto item ...)`: an object that looks its missing slots up in another. -/
def extend : Eval Value :=
  match arg.split with
  | some (prototype, items) => do
    match ← r.eval prototype scope with
    | .object id => Slot.buildObject r (some id) items scope
    | v => Eval.fail (v.typeMismatch "extend" "Object")
  | none => Eval.fail (.wrongCount "extend" 1 0)

/-! ## Functions -/

/-- `(mfn (pattern form ...) ...)`. -/
def multiFunction : Eval Value :=
  match arg.elements.2 with
  | .nil => do
    let alternatives ← Closure.makeAll r scope arg.elements.1
    let tag ← Eval.allocate (·.freshTag)
    return .multiFunction tag alternatives
  | _ => Eval.fail (.misuse "mfn" .improperAlternatives)

/-- `(bind m x)` binds a method to a receiver. -/
def bind : Eval Value := do
  match ← r.evalTwoArguments "bind" arg scope with
  | (.method f, receiver) => do
    let tag ← Eval.allocate (·.freshTag)
    return .boundMethod tag f receiver
  | (.boundMethod .., _) => Eval.fail .alreadyBound
  | (v, _) => Eval.fail (v.typeMismatch "bind" "Method")

/-- `(match? p x)`: whether a pattern accepts a value. What it binds goes with a frame that is
dropped at once. -/
def isMatch : Eval Value := do
  let (v, target) ← r.evalTwoArguments "match?" arg scope
  match v with
  | .pattern p => do
    let frame ← Eval.openFrame scope
    let matched ← Eval.attempt (p.matchWith r .inward frame (some target))
    Eval.closeFrame frame
    return .bool (← Eval.ofExcept matched)
  | v => Eval.fail (v.typeMismatch "match?" "Pattern")

/-- `(call f x ...)`. -/
def call : Eval Value :=
  match arg.split with
  | some (callee, args) => do
    let v ← r.eval callee scope
    r.call v args scope
  | none => Eval.fail (.misuse "call" .nothingToCall)

/-- `(apply f xs)` calls with a list of values. -/
def apply : Eval Value := do
  let (callee, args) ← r.evalTwoArguments "apply" arg scope
  r.call callee (Node.quote args) scope

/-- `(curry f x ...)` evaluates some arguments now and waits for the rest. -/
def curry : Eval Value :=
  match arg.split with
  | some (callee, args) => do
    let v ← r.eval callee scope
    let args ← r.eval args scope
    let tag ← Eval.allocate (·.freshCurriedTag)
    return .curried tag v args
  | none => Eval.fail (.misuse "curry" .nothingToCurry)

/-! ## Promises -/

/-- `(delay x)` leaves the evaluation for later and captures the scope for it. -/
def delay : Eval Value := do
  let node ← Eval.ofExcept (arg.argument "delay")
  Eval.modifyArena (·.capture scope)
  return .promise (← Eval.allocate (·.addPromise (.pending node scope)))

/-- `(force x)`. -/
def force : Eval Value := do
  Promise.forceValue r (← r.evalArgument "force" arg scope)

end Primitive

/-- **Calls a primitive.** -/
def Builtin.run (r : Evaluator) (b : Builtin) (arg : Node) (scope : ScopeId) : Eval Value :=
  match b with
  | .print => Primitive.print r arg scope
  | .add => Primitive.add r arg scope
  | .id => r.evalArgument "id" arg scope
  | .list => Primitive.list r arg scope
  | .cons => Primitive.cons r arg scope
  | .car => Primitive.car r arg scope
  | .cdr => Primitive.cdr r arg scope
  | .get => Primitive.get r arg scope
  | .set => Primitive.set r arg scope
  | .function => return .function (← Closure.ofArguments r arg scope)
  | .method => return .method (← Closure.ofArguments r arg scope)
  | .multiFunction => Primitive.multiFunction r arg scope
  | .bind => Primitive.bind r arg scope
  | .functionShorthand => return .function (← Closure.shorthand arg scope)
  | .pattern => return .pattern (← Pattern.buildSole r scope arg)
  | .patternWithPredicate => return .pattern (← Pattern.buildPredicated r scope arg)
  | .patternWithDefault => return .pattern (← Pattern.buildDefaulted r scope arg)
  | .patternAlias => return .pattern (← Pattern.buildAliased r scope arg)
  | .isMatch => Primitive.isMatch r arg scope
  | .call => Primitive.call r arg scope
  | .apply => Primitive.apply r arg scope
  | .curry => Primitive.curry r arg scope
  | .isEven => Primitive.parity r arg scope "even?" 0
  | .isOdd => Primitive.parity r arg scope "odd?" 1
  | .object => Slot.buildObject r none arg scope
  | .extend => Primitive.extend r arg scope
  | .dictionary => Slot.buildDictionary r arg scope
  | .array => Eval.fail (.unimplemented "array")
  | .define => Primitive.define r arg scope "def" .inward
  | .redefine => Primitive.define r arg scope "redef" .outward
  | .ifElse => Primitive.ifElse r arg scope
  | .eq => Primitive.eq r arg scope
  | .delay => Primitive.delay arg scope
  | .force => Primitive.force r arg scope

end Fexpr
