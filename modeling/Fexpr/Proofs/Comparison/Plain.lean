import Fexpr.Proofs.Comparison.Evaluator
import Fexpr.Proofs.Moments

/-!
# Proofs/Comparison/Plain — comparisons that hold of all values

Most comparisons ask nothing of the values at hand: there is one world, its census is that of all
numbers, and everything is within it.  What is left of a comparison is then a relation `R` between
computations, and related evaluators are those whose evaluations and calls are related by `R`.
-/

namespace Fexpr

/-- **What a computation returns answers `Φ`**, in the census of all numbers. -/
def Answers {α : Type} (x : Eval α) (Φ : Census → α → Prop) : Prop :=
  ∀ cfg s a t, x cfg s = .ok a t → Φ Census.all a

/-- A result that a computation can return. -/
def Returns {α : Type} (x : Eval α) (a : α) : Prop :=
  ∃ cfg s t, x cfg s = .ok a t

theorem Answers.returns {α : Type} {x : Eval α} {Φ : Census → α → Prop} {a : α} (h : Answers x Φ)
    (ha : Returns x a) : Φ Census.all a := by
  obtain ⟨cfg, s, t, hx⟩ := ha
  exact h cfg s a t hx

theorem answers_value {x : Eval Value} : Answers x Value.Within := fun _ _ v _ _ => v.within_all

theorem answers_anything {α : Type} {x : Eval α} : Answers x Anything := fun _ _ _ _ _ => trivial

theorem answers_optionWithin {x : Eval (Option Value)} : Answers x OptionWithin :=
  fun _ _ _ _ _ v _ => v.within_all

theorem Elementary.answers {α : Type} {scope : ScopeId} {x : Eval α} {Φ : Census → α → Prop}
    (h : Elementary Census.all scope x Φ) : Answers x Φ := by
  intro cfg s a t hx
  cases h with
  | read f Φ hf =>
    cases hx
    exact hf s.arena s.store s.arena.within_all s.store.within_all
  | lookup name => exact a.within_all
  | capture | addClosure _ | addObject _ | addDictionary _ | addPromise _ => exact trivial
  | bind | print _ | trace _ | setSlot | setEntry | setAttribute => exact trivial
  | freshTag | freshCurriedTag => exact trivial

/-- **A relation between computations that sequencing respects**, whatever the values at hand. -/
structure PlainCongruence where
  R : {α : Type} → Eval α → Eval α → Prop
  protected pure {α : Type} (a : α) : R (pure a) (pure a)
  fail {α : Type} (e : RunError) : R (Eval.fail e : Eval α) (Eval.fail e)
  protected bind {α β : Type} {x y : Eval α} {f g : α → Eval β} :
    R x y → (∀ a, Returns y a → R (f a) (g a)) → R (x >>= f) (y >>= g)
  elementary {α : Type} {scope : ScopeId} {x : Eval α} {Φ : Census → α → Prop} :
    Elementary Census.all scope x Φ → R x x

namespace PlainCongruence

variable (P : PlainCongruence)

def toCongruence : Congruence where
  World := Unit
  census _ := Census.all
  Rel _ _ x y Φ := P.R x y ∧ Answers y Φ
  pure := fun {α _ _ a _} ha => ⟨P.pure a, fun _ _ _ _ hx => by cases hx; exact ha⟩
  fail := fun {α _ _ e _} => ⟨P.fail e, fun _ _ _ _ hx => by cases hx⟩
  bind := fun {α β _ _ x y f g Φ Ψ} hx hf => by
    refine ⟨P.bind hx.1 fun a ha => (hf () a le_rfl (hx.2.returns ha)).1, ?_⟩
    intro cfg s b t hb
    rw [Eval.bind_apply] at hb
    split at hb
    · next a u hxa => exact (hf () a le_rfl (hx.2 cfg s a u hxa)).2 cfg u b t hb
    · cases hb
    · cases hb
  elementary := fun h => ⟨P.elementary h, h.answers⟩

/-- The two rules that make a plain congruence one that tells how computations fail. -/
theorem catches (hattempt : ∀ {α : Type} {x y : Eval α}, P.R x y →
      P.R (Eval.attempt x) (Eval.attempt y))
    (hpolicy : P.R Eval.policy Eval.policy) : P.toCongruence.Catches where
  attempt := fun {α _ _ x y Φ} hx => by
    refine ⟨hattempt hx.1, fun cfg s result t hr a ha => ?_⟩
    rw [Eval.attempt_apply] at hr
    split at hr
    · next b u hb =>
      cases hr
      cases ha
      exact hx.2 cfg s _ _ hb
    · cases hr
      cases ha
    · cases hr
  policy := ⟨hpolicy, answers_anything⟩

/-- **A promise is forced alike** by evaluators that evaluate alike. -/
protected theorem force {r r' : Evaluator} {id : PromiseId}
    (hset : ∀ p, P.R (Eval.modifyStore (·.setPromise id p)) (Eval.modifyStore (·.setPromise id p)))
    (honError : ∀ p {x y : Eval Value}, P.R x y →
      P.R (Eval.onError x (Eval.modifyStore (·.setPromise id p)))
        (Eval.onError y (Eval.modifyStore (·.setPromise id p))))
    (heval : ∀ node scope, P.R (r.eval node scope) (r'.eval node scope)) :
    P.R (Promise.force r id) (Promise.force r' id) := by
  have hrel : P.toCongruence.Rel () Arena.root (Promise.force r id) (Promise.force r' id)
      Value.Within :=
    Congruence.force (fun _ p _ _ => ⟨hset p, answers_anything⟩)
      (fun _ p _ _ _ _ hx => ⟨honError p hx.1, answers_value⟩)
      (fun _ node u _ _ _ => ⟨heval node u, answers_value⟩) trivial
  exact hrel.1

/-- A plain congruence that tells how computations fail asks of promises only that their stage may
be set. -/
theorem force_of_catches (hP : P.toCongruence.Catches) {r r' : Evaluator} {id : PromiseId}
    (hset : ∀ p, P.R (Eval.modifyStore (·.setPromise id p)) (Eval.modifyStore (·.setPromise id p)))
    (heval : ∀ node scope, P.R (r.eval node scope) (r'.eval node scope)) :
    P.R (Promise.force r id) (Promise.force r' id) := by
  refine P.force hset (fun p x y hx => ?_) heval
  have hrel : P.toCongruence.Rel () Arena.root
      (Eval.onError x (Eval.modifyStore (·.setPromise id p)))
      (Eval.onError y (Eval.modifyStore (·.setPromise id p))) Anything :=
    hP.onError ⟨hx, answers_anything⟩ fun _ _ => ⟨hset p, answers_anything⟩
  exact hrel.1

end PlainCongruence

/-- **A comparison that holds of all values.** -/
structure PlainComparison extends PlainCongruence where
  withFrame {α : Type} {parent : ScopeId} {x y : ScopeId → Eval α} :
    (∀ frame, R (x frame) (y frame)) → R (Eval.withFrame parent x) (Eval.withFrame parent y)
  choose {T T' : ClosureId → Eval (Option Value)} {ids : List ClosureId} :
    (∀ id ∈ ids, R (T id) (T' id)) → R (Eval.choose T ids) (Eval.choose T' ids)

namespace PlainComparison

/-- A plain congruence that tells how computations fail lacks nothing but frames. -/
def ofCatches (P : PlainCongruence) (hP : P.toCongruence.Catches)
    (hframe : ∀ {α : Type} {parent : ScopeId} {x y : ScopeId → Eval α},
      (∀ frame, P.R (x frame) (y frame)) →
      P.R (Eval.withFrame parent x) (Eval.withFrame parent y)) : PlainComparison where
  toPlainCongruence := P
  withFrame := hframe
  choose {T T' ids} h := by
    have hrel : P.toCongruence.Rel () Arena.root (Eval.choose T ids) (Eval.choose T' ids)
        Value.Within :=
      hP.choose fun _ id hid _ => ⟨h id hid, answers_optionWithin⟩
    exact hrel.1

variable (P : PlainComparison)

def toComparison : Comparison where
  toCongruence := P.toCongruence
  withFrame := fun {α _ _ parent x y Φ} _ _ hx => by
    refine ⟨P.withFrame fun frame => (hx () frame le_rfl).1, fun cfg s a t ha => ?_⟩
    rw [Eval.withFrame_apply] at ha
    split at ha
    · next b u hb =>
      cases ha
      exact (hx () _ le_rfl).2 cfg _ _ _ hb
    · cases ha
    · cases ha
  choose h := ⟨P.choose fun id hid => (h () id hid le_rfl).1, answers_value⟩

/-- **Related evaluators**, for a comparison that asks nothing of values. -/
structure Agree (r r' : Evaluator) : Prop where
  eval : ∀ node scope, P.R (r.eval node scope) (r'.eval node scope)
  call : ∀ callee arg scope, P.R (r.call callee arg scope) (r'.call callee arg scope)
  force : ∀ id, P.R (Promise.force r id) (Promise.force r' id)

variable {P} {r r' : Evaluator}

/-- Evaluators that evaluate and call alike are related where that makes them force alike. -/
theorem Agree.of_force
    (hforce : (∀ node scope, P.R (r.eval node scope) (r'.eval node scope)) →
      ∀ id, P.R (Promise.force r id) (Promise.force r' id))
    (heval : ∀ node scope, P.R (r.eval node scope) (r'.eval node scope))
    (hcall : ∀ callee arg scope, P.R (r.call callee arg scope) (r'.call callee arg scope)) :
    P.Agree r r' :=
  ⟨heval, hcall, hforce heval⟩

theorem Agree.toComparison (h : P.Agree r r') : P.toComparison.Agree r r' where
  eval _ scope node _ := ⟨h.eval node scope, answers_value⟩
  call _ scope callee arg _ _ := ⟨h.call callee arg scope, answers_value⟩
  force _ _ id _ := ⟨h.force id, answers_value⟩

/-- **Related evaluators evaluate alike.** -/
theorem Agree.evalNode (h : P.Agree r r') (node : Node) (scope : ScopeId) :
    P.R (Fexpr.evalNode r node scope) (Fexpr.evalNode r' node scope) :=
  (h.toComparison.evalNode (w := ()) node.within_all).1

/-- **Related evaluators call alike.** -/
theorem Agree.callValue (h : P.Agree r r') (callee : Value) (arg : Node) (scope : ScopeId) :
    P.R (Fexpr.callValue r callee arg scope) (Fexpr.callValue r' callee arg scope) :=
  (h.toComparison.callValue (w := ()) callee.within_all arg.within_all).1

/-- **Related evaluators run the forms of a program alike.** -/
theorem Agree.runForms (h : P.Agree r r') (forms : List Node) (scope : ScopeId) :
    P.R (Program.runForms r forms scope) (Program.runForms r' forms scope) :=
  (h.toComparison.runForms (w := ()) fun form _ => form.within_all).1

/-- **Related evaluators do every task alike**: a program that does not read ends at once, and
everything else is a computation that they carry out alike. -/
theorem Agree.task (h : P.Agree r r') (task : Task) :
    (∃ e, ∀ cfg s, task.under r cfg s = .error (.unreadable e) s ∧
      task.under r' cfg s = .error (.unreadable e) s) ∨
    ∃ x y, P.R x y ∧ ∀ cfg s, task.under r cfg s = Run.ofEval x cfg s ∧
      task.under r' cfg s = Run.ofEval y cfg s := by
  cases task with
  | run code scope =>
    cases hread : read code with
    | error e =>
      refine Or.inl ⟨e, fun cfg s => ?_⟩
      rw [Task.under, Task.under, Program.runUnder, Program.runUnder, hread]
      exact ⟨rfl, rfl⟩
    | ok forms =>
      refine Or.inr ⟨_, _, h.runForms forms scope, fun cfg s => ?_⟩
      rw [Task.under, Task.under, Program.runUnder, Program.runUnder, hread]
      exact ⟨rfl, rfl⟩
  | eval node scope => exact Or.inr ⟨_, _, h.eval node scope, fun _ _ => ⟨rfl, rfl⟩⟩
  | call callee arg scope => exact Or.inr ⟨_, _, h.call callee arg scope, fun _ _ => ⟨rfl, rfl⟩⟩
  | force id => exact Or.inr ⟨_, _, h.force id, fun _ _ => ⟨rfl, rfl⟩⟩

end PlainComparison

end Fexpr
