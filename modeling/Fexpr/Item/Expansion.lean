import Fexpr.Item

/-!
# Item/Expansion — operators become calls

A bracket level is expanded in two passes. The first applies every prefixed operator to the node
behind it, the innermost first. The second runs over the level from right to left with a stack of
infix operators: an operator waits on the stack until one arrives that takes its operands later, and
two operands side by side empty the stack, so juxtaposition separates. The outcome is a queue in
reverse Polish order, from which the calls are built.

An infix operator takes the two items next to it in that order, whatever stands beside it in the
text: one that lacks an operand of its own can take its neighbour's.
-/

namespace Fexpr

namespace Item

/-! ## Prefixed operators -/

/-- Applies waiting prefixed operators to their operand, the latest first. -/
def applyPending (pending : List UnaryOperator) (operand : Node) : Node :=
  pending.foldl (fun n op => op.apply n) operand

/-- First pass over what is left of a level, while the operators `pending` wait for an operand, the
latest first. -/
def expandUnaryFrom (pending : List UnaryOperator) :
    List Item → Except SyntaxError (List Item)
  | .unary op :: items => expandUnaryFrom (op :: pending) items
  | .node n :: items => do
    let out ← expandUnaryFrom [] items
    return .node (applyPending pending n) :: out
  | item :: items =>
    match pending with
    | op :: _ => .error (.danglingUnary op.token)
    | [] => do
      let out ← expandUnaryFrom [] items
      return item :: out
  | [] =>
    match pending with
    | op :: _ => .error (.danglingUnary op.token)
    | [] => .ok []

/-- **Rewrites every prefixed operator and its operand into a call.** -/
def expandUnary (items : List Item) : Except SyntaxError (List Item) :=
  expandUnaryFrom [] items

/-! ## Infix operators -/

/-- The state of the right-to-left scan. -/
structure Yard where
  /-- Output in reverse Polish order, the latest first. -/
  queue : List Item
  /-- Operators that wait for their left operand, the latest first. -/
  stack : List BinaryOperator
  /-- Whether the item scanned last is an operator. -/
  afterOperator : Bool

namespace Yard

def empty : Yard := ⟨[], [], false⟩

/-- Moves the whole stack to the output. -/
def flush (y : Yard) : Yard :=
  { y with queue := y.stack.foldl (fun q op => .binary op :: q) y.queue, stack := [] }

/-- Moves the operators that take their operands before `op` to the output. -/
def drain (op : BinaryOperator) (queue : List Item) :
    List BinaryOperator → List Item × List BinaryOperator
  | [] => (queue, [])
  | stacked :: stack =>
    if op.yieldsTo stacked then drain op (.binary stacked :: queue) stack
    else (queue, stacked :: stack)

/-- Scans one more item. -/
def push (y : Yard) : Item → Yard
  | .binary op =>
    let (queue, stack) := drain op y.queue y.stack
    { queue, stack := op :: stack, afterOperator := true }
  | operand =>
    let y := if y.afterOperator then y else y.flush
    { y with queue := operand :: y.queue, afterOperator := false }

end Yard

/-- **A level in reverse Polish order**, scanned from its end: the right operand, the left operand,
the operator. -/
def toPolish (items : List Item) : List Item :=
  (items.foldr (fun item y => y.push item) Yard.empty).flush.queue.reverse

/-- Runs a reverse Polish queue on a stack of finished items. -/
def runPolish : List Item → List Item → Except SyntaxError (List Item)
  | results, [] => .ok results
  | results, .binary op :: queue =>
    match results with
    | .node left :: .node right :: results =>
      runPolish (.node (op.apply left right) :: results) queue
    | .rest :: _ | _ :: .rest :: _ => .error .misplacedRest
    | _ => .error (.missingOperand op.token)
  | results, item :: queue => runPolish (item :: results) queue

/-- **Rewrites every infix operator and its operands into a call.** -/
def expandBinary (items : List Item) : Except SyntaxError (List Item) :=
  runPolish [] (toPolish items)

/-- **Rewrites all operators of a level into calls.** -/
def expand (items : List Item) : Except SyntaxError (List Item) := do
  expandBinary (← expandUnary items)

end Item

end Fexpr
