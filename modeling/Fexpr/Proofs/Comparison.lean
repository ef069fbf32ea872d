import Fexpr.Proofs.Census
import Fexpr.Proofs.Combinators

/-!
# Proofs/Comparison — what two runs of the evaluator have in common

A **comparison** is a relation between computations that the evaluator respects: it holds of the
elementary operations and passes through sequencing, the clean-up after an error, frames and
alternatives.  Two evaluators that are related on what they are asked to evaluate and call are then
related on everything the evaluator does with them; `Fexpr/Proofs/Comparison/Evaluator` is that
theorem, and the other modules below this one are its cases.

Statements stand at a *world* and in a scope.  A world knows what may be mentioned (`census`), and
knows more as a run goes on; an answer `Φ` is a fact about a result, relative to a census.  For most
comparisons there is one world that knows everything (`Fexpr/Proofs/Comparison/Plain`).
-/

namespace Fexpr

/-- Nothing is known of an answer. -/
def Anything {α : Type} : Census → α → Prop := fun _ _ => True

/-- An answer that a larger census does not spoil. -/
def Upward {α : Type} (Φ : Census → α → Prop) : Prop :=
  ∀ ⦃N M : Census⦄ ⦃a : α⦄, N ≤ M → Φ N a → Φ M a

/-- A value, if there is one. -/
def OptionWithin (N : Census) (o : Option Value) : Prop :=
  ∀ v ∈ o, v.Within N

theorem upward_anything {α : Type} : Upward (Anything : Census → α → Prop) :=
  fun _ _ _ _ _ => trivial

theorem upward_optionWithin : Upward OptionWithin := fun _ _ _ h ho v hv => (ho v hv).mono h

/-- **The elementary operations**, with what each asks of a census and what it answers. -/
inductive Elementary (N : Census) (scope : ScopeId) :
    {α : Type} → Eval α → (Census → α → Prop) → Prop where
  /-- Looking at the arena and the store. -/
  | read {α : Type} (f : Arena → Store → α) (Φ : Census → α → Prop)
      (h : ∀ a st, a.Within N → st.Within N → Φ N (f a st)) :
      Elementary N scope (Eval.gets fun s => f s.arena s.store) Φ
  | lookup (name : String) : Elementary N scope (Eval.lookup scope name) Value.Within
  | bind (binding : Binding) (u : ScopeId) (name : String) {v : Value} (hv : v.Within N) :
      Elementary N scope (binding.bind u name v) Anything
  /-- A captured scope may be held on to. -/
  | capture : Elementary N scope (Eval.modifyArena (·.capture scope)) fun M _ => M.scope scope
  | print (text : String) : Elementary N scope (Eval.print text) Anything
  | trace (message : Store → String) : Elementary N scope (Eval.trace message) Anything
  | setSlot (id : ObjectId) (name : String) {v : Value} (hv : v.Within N) :
      Elementary N scope (Eval.modifyStore (·.setSlot id name v)) Anything
  | setEntry (id : DictionaryId) {key v : Value} (hk : key.Within N) (hv : v.Within N) :
      Elementary N scope (Eval.modifyStore (·.setEntry id key v)) Anything
  | setAttribute (id : DictionaryId) (name : String) {v : Value} (hv : v.Within N) :
      Elementary N scope (Eval.modifyStore (·.setAttribute id name v)) Anything
  | addClosure {c : Closure} (hc : c.Within N) :
      Elementary N scope (Eval.allocate (·.addClosure c)) Census.closure
  | addObject {o : Object} (ho : o.Within N) :
      Elementary N scope (Eval.allocate (·.addObject o)) Census.object
  | addDictionary {d : Dictionary} (hd : d.Within N) :
      Elementary N scope (Eval.allocate (·.addDictionary d)) Census.dictionary
  /-- A promise starts out pending. -/
  | addPromise {node : Node} {u : ScopeId} (hp : (Promise.pending node u).Within N) :
      Elementary N scope (Eval.allocate (·.addPromise (.pending node u))) Census.promise
  | freshTag : Elementary N scope (Eval.allocate (·.freshTag)) Anything
  | freshCurriedTag : Elementary N scope (Eval.allocate (·.freshCurriedTag)) Anything

/-- **A relation between computations that sequencing respects**, and that holds of the elementary
operations. -/
structure Congruence where
  World : Type
  census : World → Census
  /-- At a world and in a scope, the two computations are related and answer `Φ`. -/
  Rel : {α : Type} → World → ScopeId → Eval α → Eval α → (Census → α → Prop) → Prop
  protected pure {α : Type} {w : World} {scope : ScopeId} {a : α} {Φ : Census → α → Prop} :
    Φ (census w) a → Rel w scope (pure a) (pure a) Φ
  fail {α : Type} {w : World} {scope : ScopeId} {e : RunError} {Φ : Census → α → Prop} :
    Rel w scope (Eval.fail e) (Eval.fail e) Φ
  protected bind {α β : Type} {w : World} {scope : ScopeId} {x y : Eval α} {f g : α → Eval β}
    {Φ : Census → α → Prop} {Ψ : Census → β → Prop} :
    Rel w scope x y Φ →
    (∀ w' a, census w ≤ census w' → Φ (census w') a → Rel w' scope (f a) (g a) Ψ) →
    Rel w scope (x >>= f) (y >>= g) Ψ
  elementary {α : Type} {w : World} {scope : ScopeId} {x : Eval α} {Φ : Census → α → Prop} :
    Elementary (census w) scope x Φ → Rel w scope x x Φ

namespace Congruence

variable {C : Congruence} {α β : Type} {w : C.World} {scope : ScopeId}

/-! ## Derived rules -/

/-- The result of a computation without effects. -/
theorem ofExcept {result : Except RunError α} {Φ : Census → α → Prop}
    (h : ∀ a, result = .ok a → Φ (C.census w) a) :
    C.Rel w scope (Eval.ofExcept result) (Eval.ofExcept result) Φ := by
  cases result with
  | ok a => exact C.pure (h a rfl)
  | error e => exact C.fail

/-- Reading something of which nothing need be known. -/
protected theorem read (f : Arena → Store → α) :
    C.Rel w scope (Eval.gets fun s => f s.arena s.store) (Eval.gets fun s => f s.arena s.store)
      Anything :=
  C.elementary (.read f Anything fun _ _ _ _ => trivial)

/-- A step after which nothing new is known. -/
theorem andThen {x y : Eval α} {f g : α → Eval β} {Ψ : Census → β → Prop}
    (hx : C.Rel w scope x y Anything)
    (hf : ∀ w' a, C.census w ≤ C.census w' → C.Rel w' scope (f a) (g a) Ψ) :
    C.Rel w scope (x >>= f) (y >>= g) Ψ :=
  C.bind hx fun w' a hle _ => hf w' a hle

/-- A step whose result is only wrapped up. -/
protected theorem map {x y : Eval α} {f : α → β} {Φ : Census → α → Prop} {Ψ : Census → β → Prop}
    (hx : C.Rel w scope x y Φ) (hf : ∀ N a, Φ N a → Ψ N (f a)) :
    C.Rel w scope (x >>= fun a => pure (f a)) (y >>= fun a => pure (f a)) Ψ :=
  C.bind hx fun _ a _ ha => C.pure (hf _ a ha)

theorem orMismatch {o : Option Value} (ho : OptionWithin (C.census w) o) :
    C.Rel w scope (Eval.orMismatch o) (Eval.orMismatch o) Value.Within := by
  cases o with
  | none => exact C.fail
  | some v => exact C.pure (ho v rfl)

/-- **Forcing a promise**, where the stage of the promise may be set and an evaluation cleaned up
after. -/
protected theorem force {r r' : Evaluator} {id : PromiseId}
    (hset : ∀ w' p, C.census w ≤ C.census w' → p.Within (C.census w') →
      C.Rel w' scope (Eval.modifyStore (·.setPromise id p)) (Eval.modifyStore (·.setPromise id p))
        Anything)
    (honError : ∀ w' p {x y : Eval Value}, C.census w ≤ C.census w' → p.Within (C.census w') →
      C.Rel w' scope x y Value.Within →
      C.Rel w' scope (Eval.onError x (Eval.modifyStore (·.setPromise id p)))
        (Eval.onError y (Eval.modifyStore (·.setPromise id p))) Value.Within)
    (heval : ∀ w' node u, C.census w ≤ C.census w' → node.Within (C.census w') →
      (C.census w').scope u → C.Rel w' scope (r.eval node u) (r'.eval node u) Value.Within)
    (hid : (C.census w).promise id) :
    C.Rel w scope (Promise.force r id) (Promise.force r' id) Value.Within := by
  rw [Promise.force_eq, Promise.force_eq]
  refine C.bind (C.elementary (.read (fun _ st => st.promise id) Promise.Within
    fun _ _ _ hst => hst.promise id hid)) fun w₁ p h₁ hp => ?_
  cases p with
  | forced v => exact C.pure hp
  | forcing => exact C.fail
  | pending node u =>
    refine andThen (hset w₁ .forcing h₁ trivial) fun w₂ _ h₂ => ?_
    refine andThen (C.elementary (.trace _)) fun w₃ _ h₃ => ?_
    have hp₃ := (hp.mono h₂).mono h₃
    have hle₃ := (h₁.trans h₂).trans h₃
    refine C.bind (honError w₃ _ hle₃ hp₃ (heval w₃ node u hle₃ hp₃.1 hp₃.2)) fun w₄ v h₄ hv => ?_
    refine andThen (hset w₄ (.forced v) (hle₃.trans h₄) hv) fun w₅ _ h₅ => ?_
    exact C.pure (hv.mono h₅)

/-! ## Congruences that look at errors -/

/-- The answer of a computation whose error is handed on as a value. -/
def IfOk (Φ : Census → α → Prop) (N : Census) (result : Except RunError α) : Prop :=
  ∀ a, result = .ok a → Φ N a

/-- **A congruence that tells how the two computations fail**: their errors may be turned into
values. -/
structure Catches (C : Congruence) : Prop where
  attempt : ∀ {α : Type} {w : C.World} {scope : ScopeId} {x y : Eval α} {Φ : Census → α → Prop},
    C.Rel w scope x y Φ → C.Rel w scope (Eval.attempt x) (Eval.attempt y) (IfOk Φ)
  policy : ∀ {w : C.World} {scope : ScopeId}, C.Rel w scope Eval.policy Eval.policy Anything

namespace Catches

theorem onError (hC : C.Catches) {x y : Eval α} {cleanup : Eval Unit} {Φ : Census → α → Prop}
    (hx : C.Rel w scope x y Φ)
    (hc : ∀ w', C.census w ≤ C.census w' → C.Rel w' scope cleanup cleanup Anything) :
    C.Rel w scope (Eval.onError x cleanup) (Eval.onError y cleanup) Φ := by
  refine C.bind (hC.attempt hx) fun w₁ result h₁ hresult => ?_
  cases result with
  | ok a => exact C.pure (hresult a rfl)
  | error e => exact andThen (hc w₁ h₁) fun _ _ _ => C.fail

theorem firstAnswer {T T' : ClosureId → Eval (Option Value)} {ids : List ClosureId}
    (h : ∀ w' id, id ∈ ids → C.census w ≤ C.census w' →
      C.Rel w' scope (T id) (T' id) OptionWithin) :
    C.Rel w scope (Eval.firstAnswer T ids) (Eval.firstAnswer T' ids) Value.Within := by
  induction ids generalizing w with
  | nil => exact C.fail
  | cons id ids ih =>
    refine C.bind (h w id List.mem_cons_self le_rfl) fun w₁ answer h₁ hv => ?_
    cases answer with
    | some v => exact C.pure (hv v rfl)
    | none => exact ih fun w' id' hid hle => h w' id' (List.mem_cons_of_mem id hid) (h₁.trans hle)

theorem firstSuccess (hC : C.Catches) {T T' : ClosureId → Eval (Option Value)} {i : Nat}
    {ids : List ClosureId}
    (h : ∀ w' id, id ∈ ids → C.census w ≤ C.census w' →
      C.Rel w' scope (T id) (T' id) OptionWithin) :
    C.Rel w scope (Eval.firstSuccess T i ids) (Eval.firstSuccess T' i ids) Value.Within := by
  induction ids generalizing w i with
  | nil => exact C.fail
  | cons id ids ih =>
    have hcall : C.Rel w scope (T id >>= Eval.orMismatch) (T' id >>= Eval.orMismatch)
        Value.Within :=
      C.bind (h w id List.mem_cons_self le_rfl) fun _ _ _ ho => orMismatch ho
    refine C.bind (hC.attempt hcall) fun w₁ result h₁ hresult => ?_
    cases result with
    | ok v => exact C.pure (hresult v rfl)
    | error e =>
      refine andThen (C.elementary (.trace _)) fun w₂ _ h₂ => ?_
      exact ih fun w' id' hid hle =>
        h w' id' (List.mem_cons_of_mem id hid) ((h₁.trans h₂).trans hle)

theorem choose (hC : C.Catches) {T T' : ClosureId → Eval (Option Value)} {ids : List ClosureId}
    (h : ∀ w' id, id ∈ ids → C.census w ≤ C.census w' →
      C.Rel w' scope (T id) (T' id) OptionWithin) :
    C.Rel w scope (Eval.choose T ids) (Eval.choose T' ids) Value.Within := by
  rw [Eval.choose_eq, Eval.choose_eq]
  refine andThen hC.policy fun w₁ policy h₁ => ?_
  have hids : ∀ w' id, id ∈ ids → C.census w₁ ≤ C.census w' →
      C.Rel w' scope (T id) (T' id) OptionWithin := fun w' id hid hle => h w' id hid (h₁.trans hle)
  cases policy with
  | lenient => exact hC.firstSuccess hids
  | strict => exact firstAnswer hids

/-- **A promise is forced alike**, by evaluators that evaluate alike what it may hold. -/
theorem force (hC : C.Catches) {r r' : Evaluator} {id : PromiseId}
    (hset : ∀ w' p, C.census w ≤ C.census w' → p.Within (C.census w') →
      C.Rel w' scope (Eval.modifyStore (·.setPromise id p)) (Eval.modifyStore (·.setPromise id p))
        Anything)
    (heval : ∀ w' node u, C.census w ≤ C.census w' → node.Within (C.census w') →
      (C.census w').scope u → C.Rel w' scope (r.eval node u) (r'.eval node u) Value.Within)
    (hid : (C.census w).promise id) :
    C.Rel w scope (Promise.force r id) (Promise.force r' id) Value.Within :=
  Congruence.force hset (fun _ p _ _ hle hp hx => hC.onError hx fun w'' hle' =>
    hset w'' p (hle.trans hle') (hp.mono hle')) heval hid

end Catches

end Congruence

/-- **A comparison of computations** that the evaluator respects. -/
structure Comparison extends Congruence where
  withFrame {α : Type} {w : World} {scope parent : ScopeId} {x y : ScopeId → Eval α}
    {Φ : Census → α → Prop} :
    parent = scope ∨ (census w).scope parent → Upward Φ →
    (∀ w' frame, census w ≤ census w' → Rel w' frame (x frame) (y frame) Φ) →
    Rel w scope (Eval.withFrame parent x) (Eval.withFrame parent y) Φ
  choose {w : World} {scope : ScopeId} {T T' : ClosureId → Eval (Option Value)}
    {ids : List ClosureId} :
    (∀ w' id, id ∈ ids → census w ≤ census w' → Rel w' scope (T id) (T' id) OptionWithin) →
    Rel w scope (Eval.choose T ids) (Eval.choose T' ids) Value.Within

/-- **Two evaluators are related** if evaluating, calling and forcing with them is, on everything
within the census of a world. -/
structure Comparison.Agree (C : Comparison) (r r' : Evaluator) : Prop where
  eval : ∀ (w : C.World) (scope : ScopeId) {node : Node}, node.Within (C.census w) →
    C.Rel w scope (r.eval node scope) (r'.eval node scope) Value.Within
  call : ∀ (w : C.World) (scope : ScopeId) {callee : Value} {arg : Node},
    callee.Within (C.census w) → arg.Within (C.census w) →
    C.Rel w scope (r.call callee arg scope) (r'.call callee arg scope) Value.Within
  force : ∀ (w : C.World) (scope : ScopeId) {id : PromiseId}, (C.census w).promise id →
    C.Rel w scope (Promise.force r id) (Promise.force r' id) Value.Within

end Fexpr
