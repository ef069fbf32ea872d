import Fexpr.Log
import Fexpr.RunError
import Fexpr.Store.Text

/-!
# Eval/Basic — computations of the evaluator

An `Eval α` reads the configuration, threads the state and ends in a value, in an error or, when it
was broken off for lack of fuel, in neither. An error keeps the state as it was when the error arose:
nothing that was done before it is undone. `attempt` turns an error into a value, a breaking off is
never caught: it keeps the moment and the state it happened in.

`Evaluator` is the pair of operations that the rest of the evaluator is written against: evaluating
a node and calling a value. `Fexpr/Eval/Evaluator` ties the knot.
-/

namespace Fexpr

/-- How a multi-function treats an alternative that fails. -/
inductive AlternativePolicy where
  /-- Any error moves on to the next alternative. -/
  | lenient
  /-- Only a rejected pattern moves on; other errors end the call. -/
  | strict
  deriving DecidableEq, Repr

/-- **What a user chooses about evaluation.** -/
structure Config where
  /-- How deeply evaluation may nest. -/
  maxDepth : Nat := 512
  policy : AlternativePolicy := .lenient
  /-- Whether the log traces calls. -/
  debug : Bool := false

/-- **Everything a running program can change.** -/
structure State where
  arena : Arena := .fresh
  store : Store := {}
  /-- How many evaluations are under way. -/
  depth : Nat := 0
  /-- What the program has printed. -/
  output : String := ""
  log : String := ""

instance : Inhabited State := ⟨{}⟩

/-- **A moment of an evaluation**, together with what is at hand there. -/
inductive Moment where
  /-- About to evaluate a node. -/
  | evaluating (node : Node) (scope : ScopeId)
  /-- About to call a value with an argument list. -/
  | calling (callee : Value) (arg : Node) (scope : ScopeId)
  /-- About to hand a value back to whoever asked for it. -/
  | answering (v : Value)
  /-- About to hand an error back. -/
  | failing (e : RunError)

/-- **How a computation ends.** -/
inductive Outcome (ε α : Type) where
  | ok (a : α) (s : State)
  | error (e : ε) (s : State)
  /-- The computation was broken off at a moment, before it came to an end. -/
  | stopped (m : Moment) (s : State)

/-- **A computation of the evaluator.** -/
def Eval (α : Type) : Type :=
  Config → State → Outcome RunError α

namespace Eval

@[inline] protected def pure {α : Type} (a : α) : Eval α := fun _ s =>
  .ok a s

@[inline] protected def bind {α β : Type} (x : Eval α) (f : α → Eval β) : Eval β :=
  fun cfg s =>
    match x cfg s with
    | .ok a s => f a cfg s
    | .error e s => .error e s
    | .stopped m s => .stopped m s

instance : Monad Eval where
  pure := Eval.pure
  bind := Eval.bind

instance : LawfulMonad Eval :=
  LawfulMonad.mk' Eval
    (fun x => by
      funext cfg s
      change (match x cfg s with | .ok a s => _ | .error e s => _ | .stopped m s => _) = _
      cases x cfg s <;> rfl)
    (fun _ _ => rfl)
    (fun x f g => by
      funext cfg s
      change Eval.bind (Eval.bind x f) g cfg s = Eval.bind x (fun a => Eval.bind (f a) g) cfg s
      simp only [Eval.bind]
      cases x cfg s <;> rfl)

/-- Ends with an error. -/
@[inline] def fail {α : Type} (e : RunError) : Eval α := fun _ s =>
  .error e s

/-- The result of a computation without effects. -/
@[inline] def ofExcept {α : Type} : Except RunError α → Eval α
  | .ok a => Eval.pure a
  | .error e => fail e

/-- Breaks off. -/
def stop {α : Type} (m : Moment) : Eval α := fun _ s =>
  .stopped m s

/-- **Runs a computation and hands its error on as a value.** -/
@[inline] def attempt {α : Type} (x : Eval α) : Eval (Except RunError α) := fun cfg s =>
  match x cfg s with
  | .ok a s => .ok (.ok a) s
  | .error e s => .ok (.error e) s
  | .stopped m s => .stopped m s

/-! ## Configuration and state -/

@[inline] def config : Eval Config := fun cfg s =>
  .ok cfg s

/-- Looks something up in the state. -/
@[inline] def gets {α : Type} (f : State → α) : Eval α := fun _ s =>
  .ok (f s) s

@[inline] def modifyState (f : State → State) : Eval Unit := fun _ s =>
  .ok () (f s)

@[inline] def modifyArena (f : Arena → Arena) : Eval Unit :=
  modifyState fun s => { s with arena := f s.arena }

@[inline] def modifyStore (f : Store → Store) : Eval Unit :=
  modifyState fun s => { s with store := f s.store }

/-- Adds something to the store and hands out its number. -/
@[inline] def allocate (f : Store → Nat × Store) : Eval Nat := fun _ s =>
  let (n, store) := f s.store
  .ok n { s with store }

/-- **The value of a name**, looked up from `scope` outwards. -/
def lookup (scope : ScopeId) (name : String) : Eval Value := fun _ s =>
  match s.arena.get? scope name with
  | some v => .ok v s
  | none => .error (.notInScope name) s

/-- Opens a frame below `parent`. -/
@[inline] def openFrame (parent : ScopeId) : Eval ScopeId := fun _ s =>
  let (frame, arena) := s.arena.child parent
  .ok frame { s with arena }

/-- Drops a frame unless something captured it. -/
@[inline] def closeFrame (frame : ScopeId) : Eval Unit :=
  modifyArena (·.release frame)

/-- Appends to what the program has printed. -/
@[inline] def print (text : String) : Eval Unit :=
  modifyState fun s => { s with output := s.output ++ text }

/-- Writes a line to the log if the log traces calls. -/
@[inline] def trace (message : Store → String) : Eval Unit := fun cfg s =>
  if cfg.debug then .ok () { s with log := s.log ++ Log.line .debug (message s.store) }
  else .ok () s

/-- **Runs a computation one level deeper**, if the limit admits it. -/
@[inline] def deeper {α : Type} (x : Eval α) : Eval α := fun cfg s =>
  if cfg.maxDepth ≤ s.depth then .error (.recursionLimit cfg.maxDepth) s
  else match x cfg { s with depth := s.depth + 1 } with
    | .ok a s => .ok a { s with depth := s.depth - 1 }
    | .error e s => .error e { s with depth := s.depth - 1 }
    | .stopped m s => .stopped m s

end Eval

/-- **Evaluating and calling.** `eval node scope` is the value of a node; `call callee arg scope`
calls a value with an argument list that belongs to `scope` and is not yet evaluated. -/
structure Evaluator where
  eval : Node → ScopeId → Eval Value
  call : Value → Node → ScopeId → Eval Value

end Fexpr
