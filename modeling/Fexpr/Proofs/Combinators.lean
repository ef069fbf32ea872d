import Fexpr.Eval.Primitive

/-!
# Proofs/Combinators — the three places where an error is looked at

Errors pass through the evaluator untouched, but for three combinators:

* `onError` cleans up and hands the error on (a forced promise becomes pending again);
* `withFrame` drops a frame on every way out (function bodies, `match?`);
* `choose` tries alternatives, by the policy of the configuration (multi-functions).

The evaluator opens the frame of a function in one definition and drops it in another, since a
multi-function has to know whether the pattern accepted the arguments.  `Closure.call?` puts the two
together: it is a whole call, whose answer is nothing when the pattern rejects the arguments.
-/

namespace Fexpr

namespace Eval

variable {α β : Type}

/-- **Cleans up after an error**, which is then handed on. -/
def onError (x : Eval α) (cleanup : Eval Unit) : Eval α := do
  match ← attempt x with
  | .ok a => return a
  | .error e => do
    cleanup
    fail e

/-- **Runs something in a fresh frame below `parent`** and drops the frame on every way out, unless
something captured it. -/
def withFrame (parent : ScopeId) (x : ScopeId → Eval α) : Eval α := do
  let frame ← openFrame parent
  let result ← attempt (x frame)
  closeFrame frame
  ofExcept result

/-! ## Alternatives -/

/-- A missing answer is a mismatch. -/
def orMismatch : Option Value → Eval Value
  | some v => return v
  | none => fail .patternMismatch

/-- The first alternative that answers at all; its failure is final. -/
def firstAnswer (T : ClosureId → Eval (Option Value)) : List ClosureId → Eval Value
  | [] => fail .noPatternMatched
  | id :: ids => do
    match ← T id with
    | some v => return v
    | none => firstAnswer T ids

/-- The first alternative that succeeds, whatever the others fail with. -/
def firstSuccess (T : ClosureId → Eval (Option Value)) : Nat → List ClosureId → Eval Value
  | _, [] => fail .noPatternMatched
  | i, id :: ids => do
    match ← attempt (T id >>= orMismatch) with
    | .ok v => return v
    | .error e => do
      trace fun _ => "alternative " ++ toString i ++ " failed: " ++ e.message
      firstSuccess T (i + 1) ids

/-- **Tries alternatives by the policy of the configuration.** -/
def choose (T : ClosureId → Eval (Option Value)) (ids : List ClosureId) : Eval Value := do
  match (← config).policy with
  | .lenient => firstSuccess T 0 ids
  | .strict => firstAnswer T ids

/-- The part of the configuration that alternatives are tried by. -/
def policy : Eval AlternativePolicy := fun cfg s =>
  .ok cfg.policy s

theorem choose_eq (T : ClosureId → Eval (Option Value)) (ids : List ClosureId) :
    choose T ids = policy >>= fun
      | .lenient => firstSuccess T 0 ids
      | .strict => firstAnswer T ids := rfl

/-! ## How computations end -/

theorem bind_apply (x : Eval α) (f : α → Eval β) (cfg : Config) (s : State) :
    (x >>= f) cfg s =
      match x cfg s with
      | .ok a t => f a cfg t
      | .error e t => .error e t
      | .stopped m t => .stopped m t := rfl

/-- What a sequence that returns has passed through. -/
theorem bind_eq_ok {x : Eval α} {f : α → Eval β} {cfg : Config} {s t : State} {b : β}
    (h : (x >>= f) cfg s = .ok b t) : ∃ a u, x cfg s = .ok a u ∧ f a cfg u = .ok b t := by
  rw [bind_apply] at h
  split at h
  · next a u hx => exact ⟨a, u, hx, h⟩
  · cases h
  · cases h

theorem attempt_apply (x : Eval α) (cfg : Config) (s : State) :
    attempt x cfg s =
      match x cfg s with
      | .ok a t => .ok (.ok a) t
      | .error e t => .ok (.error e) t
      | .stopped m t => .stopped m t := rfl

theorem attempt_bind (x : Eval α) (f : α → Eval β) :
    attempt (x >>= f) = attempt x >>= fun
      | .ok a => attempt (f a)
      | .error e => pure (.error e) := by
  funext cfg s
  change attempt (Eval.bind x f) cfg s = Eval.bind (attempt x) _ cfg s
  simp only [attempt, Eval.bind]
  cases x cfg s <;> rfl

theorem attempt_gets (f : State → α) (k : α → Eval β) :
    attempt (gets f >>= k) = gets f >>= fun a => attempt (k a) := rfl

/-- Tracing changes the log and nothing else. -/
theorem trace_apply (message : Store → String) (cfg : Config) (s : State) :
    ∃ log, trace message cfg s = .ok () { s with log } := by
  rw [trace]
  split
  · exact ⟨_, rfl⟩
  · exact ⟨s.log, rfl⟩

/-- What a `withFrame` does, in terms of how the inside ends. -/
theorem withFrame_apply (parent : ScopeId) (x : ScopeId → Eval α) (cfg : Config) (s : State) :
    withFrame parent x cfg s =
      match x (s.arena.child parent).1 cfg { s with arena := (s.arena.child parent).2 } with
      | .ok a t => .ok a { t with arena := t.arena.release (s.arena.child parent).1 }
      | .error e t => .error e { t with arena := t.arena.release (s.arena.child parent).1 }
      | .stopped m t => .stopped m t := by
  change Eval.bind (attempt (x (s.arena.child parent).1)) (fun result =>
    closeFrame (s.arena.child parent).1 >>= fun _ => ofExcept result) cfg
      { s with arena := (s.arena.child parent).2 } = _
  simp only [Eval.bind, attempt]
  cases x (s.arena.child parent).1 cfg { s with arena := (s.arena.child parent).2 } <;> rfl

theorem onError_apply (x : Eval α) (cleanup : Eval Unit) (cfg : Config) (s : State) :
    onError x cleanup cfg s =
      match x cfg s with
      | .ok a t => .ok a t
      | .error e t => (cleanup >>= fun _ => fail e) cfg t
      | .stopped m t => .stopped m t := by
  change Eval.bind (attempt x) _ cfg s = _
  simp only [Eval.bind, attempt]
  cases x cfg s <;> rfl

end Eval

open Eval

/-! ## The evaluator's definitions in terms of the combinators -/

namespace Closure

variable (r : Evaluator)

/-- Puts a receiver under the name `this`. -/
def bindReceiver (frame : ScopeId) : Option Value → Eval Unit
  | some v => Eval.modifyArena (·.set frame "this" v)
  | none => pure ()

/-- **Calls a function**, in a frame of its own: nothing is the answer if the pattern rejects the
arguments. -/
def call? (f : Closure) (arg : Node) (scope : ScopeId) (receiver : Option Value) :
    Eval (Option Value) := do
  let target ← r.eval arg scope
  withFrame f.scope fun frame => do
    bindReceiver frame receiver
    if ← f.pattern.matchWith r .inward frame (some target) then
      return some (← f.runBody r frame)
    else return none

/-- **Passes evaluated arguments to a function**, in a frame of its own: nothing is the answer if
the pattern rejects them. -/
def receive? (f : Closure) (target : Value) (receiver : Option Value) : Eval (Option Value) :=
  withFrame f.scope fun frame => do
    bindReceiver frame receiver
    if ← f.pattern.matchWith r .inward frame (some target) then
      return some (← f.runBody r frame)
    else return none

/-- A call evaluates its arguments first. -/
theorem call?_eq (f : Closure) (arg : Node) (scope : ScopeId) (receiver : Option Value) :
    f.call? r arg scope receiver =
      r.eval arg scope >>= fun target => f.receive? r target receiver := rfl

theorem attempt_bindReceiver {α : Type} (frame : ScopeId) (receiver : Option Value) (x : Eval α) :
    attempt (bindReceiver frame receiver >>= fun _ => x) =
      bindReceiver frame receiver >>= fun _ => attempt x := by
  cases receiver <;> rfl

/-- How a function is entered, with one step for the receiver. -/
theorem enter?_eq (f : Closure) (arg : Node) (scope : ScopeId) (receiver : Option Value) :
    f.enter? r arg scope receiver = (do
      let target ← r.eval arg scope
      let frame ← openFrame f.scope
      bindReceiver frame receiver
      match ← attempt (f.pattern.matchWith r .inward frame (some target)) with
      | .ok true => return some frame
      | .ok false => do
        closeFrame frame
        return none
      | .error e => do
        closeFrame frame
        fail e) := by
  cases receiver <;> rfl

/-- **Entering a function and running it is calling it.** -/
theorem enter?_bind {α : Type} (f : Closure) (arg : Node) (scope : ScopeId)
    (receiver : Option Value) (answer : Value → Eval α) (rejected : Eval α) :
    (f.enter? r arg scope receiver >>= fun
      | some frame => f.run r frame >>= answer
      | none => rejected) =
    f.call? r arg scope receiver >>= fun
      | some v => answer v
      | none => rejected := by
  simp only [enter?_eq, call?, withFrame, bind_assoc, attempt_bindReceiver, Closure.run]
  refine bind_congr fun target => ?_
  refine bind_congr fun frame => ?_
  refine bind_congr fun _ => ?_
  rw [attempt_bind, bind_assoc]
  refine bind_congr fun accepted => ?_
  cases accepted with
  | error e => rfl
  | ok accepted =>
    cases accepted with
    | false => rfl
    | true =>
      change attempt (f.runBody r frame) >>= _ = attempt (f.runBody r frame >>= _) >>= _
      rw [attempt_bind, bind_assoc]
      refine bind_congr fun result => ?_
      cases result <;> rfl

/-- A call that rejects its arguments is a mismatch. -/
theorem invoke_eq (f : Closure) (arg : Node) (scope : ScopeId) (receiver : Option Value) :
    f.invoke r arg scope receiver = f.call? r arg scope receiver >>= orMismatch := by
  have h := f.enter?_bind r arg scope receiver (pure : Value → Eval Value) (fail .patternMismatch)
  simp only [bind_pure] at h
  exact h

/-- An alternative, called by its number. -/
def alternative (args : Node) (scope : ScopeId) (id : ClosureId) : Eval (Option Value) := do
  let f ← Eval.gets fun s => s.store.closure id
  f.call? r args scope none

theorem firstSuccess_eq (args : Node) (scope : ScopeId) (i : Nat) (ids : List ClosureId) :
    firstSuccess r args scope i ids = Eval.firstSuccess (alternative r args scope) i ids := by
  induction ids generalizing i with
  | nil => rfl
  | cons id ids ih =>
    have hattempt : attempt (alternative r args scope id >>= orMismatch) =
        (Eval.gets fun s => s.store.closure id) >>= fun f =>
          attempt (f.invoke r args scope none) := by
      rw [alternative, bind_assoc, attempt_gets]
      refine bind_congr fun f => ?_
      rw [invoke_eq]
    rw [firstSuccess, Eval.firstSuccess, hattempt, bind_assoc]
    refine bind_congr fun f => ?_
    refine bind_congr fun result => ?_
    cases result with
    | ok v => rfl
    | error e => exact bind_congr fun _ => ih (i + 1)

theorem firstMatch_eq (args : Node) (scope : ScopeId) (ids : List ClosureId) :
    firstMatch r args scope ids = firstAnswer (alternative r args scope) ids := by
  induction ids with
  | nil => rfl
  | cons id ids ih =>
    simp only [firstMatch, firstAnswer, alternative, bind_assoc]
    refine bind_congr fun f => ?_
    have h := f.enter?_bind r args scope none (pure : Value → Eval Value)
      (firstMatch r args scope ids)
    simp only [bind_pure] at h
    rw [← ih]
    exact h

/-- **A multi-function chooses among its alternatives**, once its arguments are evaluated. -/
theorem invokeAny_eq (alternatives : List ClosureId) (arg : Node) (scope : ScopeId) :
    invokeAny r alternatives arg scope = r.eval arg scope >>= fun args =>
      choose (alternative r (.quoted args) scope) alternatives := by
  rw [invokeAny]
  refine bind_congr fun args => ?_
  refine bind_congr fun cfg => ?_
  cases cfg.policy with
  | lenient => exact firstSuccess_eq r (.quoted args) scope 0 alternatives
  | strict => exact firstMatch_eq r (.quoted args) scope alternatives

end Closure

/-- **Forcing a pending promise** marks it, and unmarks it after an error. -/
theorem Promise.force_eq (r : Evaluator) (id : PromiseId) :
    Promise.force r id = (Eval.gets fun s => s.store.promise id) >>= fun
      | .forced v => pure v
      | .forcing => Eval.fail .promiseCycle
      | .pending node scope => do
        Eval.modifyStore (·.setPromise id .forcing)
        Eval.trace fun _ => "forcing promise of " ++ node.text
        let v ← onError (r.eval node scope)
          (Eval.modifyStore (·.setPromise id (.pending node scope)))
        Eval.modifyStore (·.setPromise id (.forced v))
        return v := by
  rw [Promise.force]
  refine bind_congr fun p => ?_
  cases p with
  | pending node scope =>
    refine bind_congr fun _ => ?_
    refine bind_congr fun _ => ?_
    rw [onError, bind_assoc]
    refine bind_congr fun result => ?_
    cases result <;> rfl
  | forcing => rfl
  | forced v => rfl

/-- A promise that has run to a value has it. -/
theorem Promise.force_forced {id : PromiseId} {v : Value} {s : State}
    (hp : s.store.promise id = .forced v) (r : Evaluator) (cfg : Config) :
    Promise.force r id cfg s = .ok v s := by
  rw [Promise.force, bind_apply]
  dsimp only [Eval.gets]
  rw [hp]
  rfl

/-- **A promise that needs its own value is an error**, and nothing comes of it. -/
theorem Promise.force_forcing {id : PromiseId} {s : State} (hp : s.store.promise id = .forcing)
    (r : Evaluator) (cfg : Config) : Promise.force r id cfg s = .error .promiseCycle s := by
  rw [Promise.force, bind_apply]
  dsimp only [Eval.gets]
  rw [hp]
  rfl

/-- **The state in which the evaluation of a promise begins**: the promise is marked, and a log that
traces calls says so. -/
def State.marked (cfg : Config) (id : PromiseId) (node : Node) (s : State) : State :=
  { s with
    store := s.store.setPromise id .forcing
    log := if cfg.debug then s.log ++ Log.line .debug ("forcing promise of " ++ node.text)
      else s.log }

/-- **What forcing a pending promise does**, in terms of how its one evaluation ends. -/
theorem Promise.force_pending {id : PromiseId} {node : Node} {u : ScopeId} {s : State}
    (hp : s.store.promise id = .pending node u) (r : Evaluator) (cfg : Config) :
    Promise.force r id cfg s =
      match r.eval node u cfg (s.marked cfg id node) with
      | .ok v t => .ok v { t with store := t.store.setPromise id (.forced v) }
      | .error e t => .error e { t with store := t.store.setPromise id (.pending node u) }
      | .stopped m t => .stopped m t := by
  have htrace : Eval.trace (fun _ => "forcing promise of " ++ node.text) cfg
      { s with store := s.store.setPromise id .forcing } = .ok () (s.marked cfg id node) := by
    rw [Eval.trace, State.marked]
    split <;> rfl
  rw [Promise.force, bind_apply]
  dsimp only [Eval.gets]
  rw [hp]
  change (Eval.trace _ >>= fun _ => _) cfg { s with store := s.store.setPromise id .forcing } = _
  rw [bind_apply, htrace]
  dsimp only
  rw [bind_apply, attempt_apply]
  cases r.eval node u cfg (s.marked cfg id node) <;> rfl

/-- The frame of `match?` is dropped at once. -/
theorem Primitive.isMatch_eq (r : Evaluator) (arg : Node) (scope : ScopeId) :
    Primitive.isMatch r arg scope = r.evalTwoArguments "match?" arg scope >>= fun
      | (.pattern p, target) => do
        let accepted ← withFrame scope fun frame => p.matchWith r .inward frame (some target)
        return .bool accepted
      | (v, _) => Eval.fail (v.typeMismatch "match?" "Pattern") := by
  rw [Primitive.isMatch]
  refine bind_congr fun p => ?_
  obtain ⟨v, target⟩ := p
  cases v <;> simp only [withFrame, bind_assoc]

end Fexpr
