import Fexpr.Proofs.Comparison.Plain

/-!
# Proofs/Tracing — nothing looks at the log

A debugging session writes what it calls to the log, and no computation reads what is written there.
So what a state holds beside that log (`State.untraced`) decides what happens: from states that
differ in the log of a debugging session a computation ends alike, and in states that differ in it
again (`agree_ofFuel`).  Outside of a debugging session nothing is set apart, and states that agree
beside the log are the same.
-/

namespace Fexpr

/-- **What a state holds beside the log of a debugging session.** -/
def State.untraced (cfg : Config) (s : State) : State :=
  if cfg.debug then { s with log := "" } else s

/-- **How a computation ends, beside the log of a debugging session.** -/
def Outcome.untraced {ε α : Type} (cfg : Config) : Outcome ε α → Outcome ε α
  | .ok a s => .ok a (s.untraced cfg)
  | .error e s => .error e (s.untraced cfg)
  | .stopped m s => .stopped m (s.untraced cfg)

section

variable {cfg : Config} {ε α : Type} {s t : State} {o o' : Outcome ε α}

theorem State.untraced_of_not_debug (h : cfg.debug = false) (s : State) : s.untraced cfg = s := by
  rw [untraced, if_neg (by simp [h])]

/-- Outside of a debugging session nothing is set apart. -/
theorem Outcome.untraced_of_not_debug (h : cfg.debug = false) (o : Outcome ε α) :
    o.untraced cfg = o := by
  cases o <;> rw [untraced, State.untraced_of_not_debug h]

theorem State.untraced_log (s : State) {log : String} (hlog : cfg.debug = false → log = s.log) :
    { s with log }.untraced cfg = s.untraced cfg := by
  cases h : cfg.debug with
  | true => simp only [untraced, h, if_true]
  | false => rw [hlog h]

/-- States that agree beside the log differ in nothing but the log. -/
theorem State.exists_log (h : s.untraced cfg = t.untraced cfg) :
    ∃ log, t = { s with log } ∧ (cfg.debug = false → log = s.log) := by
  refine ⟨t.log, ?_, fun hd => ?_⟩
  · cases hd : cfg.debug with
    | true =>
      simp only [untraced, hd, if_true] at h
      obtain ⟨⟩ := s
      obtain ⟨⟩ := t
      simp only [State.mk.injEq] at h ⊢
      exact ⟨h.1.symm, h.2.1.symm, h.2.2.1.symm, h.2.2.2.1.symm, trivial⟩
    | false =>
      rw [untraced_of_not_debug hd, untraced_of_not_debug hd] at h
      rw [h]
  · rw [untraced_of_not_debug hd, untraced_of_not_debug hd] at h
    rw [h]

/-- A change that leaves the log out of it. -/
theorem State.untraced_congr {f : State → State}
    (hf : ∀ s log, f { s with log } = { f s with log }) (h : s.untraced cfg = t.untraced cfg) :
    (f s).untraced cfg = (f t).untraced cfg := by
  obtain ⟨log, rfl, hsame⟩ := exists_log h
  have hlog : (f s).log = s.log := by
    have hself := hf s s.log
    change f s = { f s with log := s.log } at hself
    rw [hself]
  exact (untraced_log (f s) fun hd => (hsame hd).trans hlog.symm).symm.trans
    (congrArg (State.untraced cfg) (hf s log)).symm

/-- What ends like something that returns, returns. -/
theorem Outcome.exists_ok {a : α} (h : (Outcome.ok a s).untraced cfg = o.untraced cfg) :
    ∃ t, o = .ok a t ∧ s.untraced cfg = t.untraced cfg := by
  cases o <;> simp only [untraced, reduceCtorEq, Outcome.ok.injEq] at h
  obtain ⟨rfl, h⟩ := h
  exact ⟨_, rfl, h⟩

/-- What ends like something that fails, fails. -/
theorem Outcome.exists_error {e : ε} (h : (Outcome.error e s).untraced cfg = o.untraced cfg) :
    ∃ t, o = .error e t ∧ s.untraced cfg = t.untraced cfg := by
  cases o <;> simp only [untraced, reduceCtorEq, Outcome.error.injEq] at h
  obtain ⟨rfl, h⟩ := h
  exact ⟨_, rfl, h⟩

/-- **The ways in which two computations end alike beside the log.** -/
@[elab_as_elim]
theorem Outcome.untraced_cases {motive : Outcome ε α → Outcome ε α → Prop}
    (h : o.untraced cfg = o'.untraced cfg)
    (ok : ∀ a s t, s.untraced cfg = t.untraced cfg → motive (.ok a s) (.ok a t))
    (error : ∀ e s t, s.untraced cfg = t.untraced cfg → motive (.error e s) (.error e t))
    (stopped : ∀ m s t, s.untraced cfg = t.untraced cfg → motive (.stopped m s) (.stopped m t)) :
    motive o o' := by
  cases o with
  | ok a s =>
    obtain ⟨t, rfl, hst⟩ := exists_ok h
    exact ok a s t hst
  | error e s =>
    obtain ⟨t, rfl, hst⟩ := exists_error h
    exact error e s t hst
  | stopped m s =>
    cases o' with
    | ok | error => simp only [untraced, reduceCtorEq] at h
    | stopped m' t =>
      simp only [untraced, Outcome.stopped.injEq] at h
      obtain ⟨rfl, h⟩ := h
      exact stopped m s t h

theorem Outcome.isStopped_untraced (cfg : Config) (o : Outcome ε α) :
    (o.untraced cfg).isStopped = o.isStopped := by
  cases o <;> rfl

end

namespace Tracing

variable {α β : Type} {cfg : Config} {s t : State}

/-- **Where states agree beside the log, `x` and `y` end alike beside the log.** -/
def Unread (x y : Eval α) : Prop :=
  ∀ cfg s t, s.untraced cfg = t.untraced cfg → (x cfg s).untraced cfg = (y cfg t).untraced cfg

theorem unread_bind {x y : Eval α} {f g : α → Eval β} (hx : Unread x y)
    (hf : ∀ a, Returns y a → Unread (f a) (g a)) : Unread (x >>= f) (y >>= g) := by
  intro cfg s t hst
  have h := hx cfg s t hst
  rw [Eval.bind_apply, Eval.bind_apply]
  generalize hy : y cfg t = o' at h ⊢
  generalize x cfg s = o at h ⊢
  revert hy
  refine Outcome.untraced_cases h (fun a u v huv hy => ?_) (fun e u v huv _ => ?_) fun m u v huv _ => ?_
  · exact hf a ⟨cfg, t, v, hy⟩ cfg u v huv
  · exact congrArg (Outcome.error e) huv
  · exact congrArg (Outcome.stopped m) huv

/-- Looking something up. -/
theorem unread_gets {f : State → α} (h : ∀ s log, f { s with log } = f s) :
    Unread (Eval.gets f) (Eval.gets f) := by
  intro cfg s t hst
  obtain ⟨log, rfl, -⟩ := State.exists_log hst
  change Outcome.ok (f s) (s.untraced cfg) = .ok (f { s with log }) _
  rw [h s log]
  exact congrArg (Outcome.ok (f s)) hst

/-- Changing something else. -/
theorem unread_modifyState {f : State → State}
    (hf : ∀ s log, f { s with log } = { f s with log }) :
    Unread (Eval.modifyState f) (Eval.modifyState f) := by
  intro cfg s t hst
  exact congrArg (Outcome.ok ()) (State.untraced_congr hf hst)

theorem unread_allocate (f : Store → Nat × Store) :
    Unread (Eval.allocate f) (Eval.allocate f) := by
  intro cfg s t hst
  have h := State.untraced_congr (f := fun s => { s with store := (f s.store).2 })
    (fun _ _ => rfl) hst
  obtain ⟨log, rfl, -⟩ := State.exists_log hst
  exact congrArg (Outcome.ok (f s.store).1) h

/-- **Tracing does nothing that counts.** -/
theorem untraced_trace (message : Store → String) (cfg : Config) (s : State) :
    (Eval.trace message cfg s).untraced cfg = .ok () (s.untraced cfg) := by
  rw [Eval.trace]
  split
  · next hdebug =>
    exact congrArg (Outcome.ok ()) (State.untraced_log s fun hd => by simp [hd] at hdebug)
  · rfl

theorem unread_trace (message : Store → String) :
    Unread (Eval.trace message) (Eval.trace message) := by
  intro cfg s t hst
  rw [untraced_trace, untraced_trace, hst]

theorem unread_lookup (scope : ScopeId) (name : String) :
    Unread (Eval.lookup scope name) (Eval.lookup scope name) := by
  intro cfg s t hst
  obtain ⟨log, rfl, -⟩ := State.exists_log hst
  rw [Eval.lookup, Eval.lookup]
  dsimp only
  cases s.arena.get? scope name with
  | some v => exact congrArg (Outcome.ok v) hst
  | none => exact congrArg (Outcome.error _) hst

/-- No elementary operation looks at the log. -/
theorem unread_elementary {N : Census} {scope : ScopeId} {x : Eval α} {Φ : Census → α → Prop}
    (h : Elementary N scope x Φ) : Unread x x := by
  cases h with
  | read f => exact unread_gets fun _ _ => rfl
  | lookup name => exact unread_lookup scope name
  | bind binding u name hv =>
    cases binding with
    | inward | outward => exact unread_modifyState fun _ _ => rfl
  | trace message => exact unread_trace message
  | capture | print | setSlot | setEntry | setAttribute =>
    exact unread_modifyState fun _ _ => rfl
  | addClosure | addObject | addDictionary | addPromise | freshTag | freshCurriedTag =>
    exact unread_allocate _

/-- `Unread`, as a relation that sequencing respects. -/
def congruence : PlainCongruence where
  R := Unread
  pure a := fun _ _ _ hst => congrArg (Outcome.ok a) hst
  fail e := fun _ _ _ hst => congrArg (Outcome.error e) hst
  bind := unread_bind
  elementary := unread_elementary

theorem unread_attempt {x y : Eval α} (hx : Unread x y) :
    Unread (Eval.attempt x) (Eval.attempt y) := by
  intro cfg s t hst
  have h := hx cfg s t hst
  rw [Eval.attempt_apply, Eval.attempt_apply]
  generalize x cfg s = o at h ⊢
  generalize y cfg t = o' at h ⊢
  refine Outcome.untraced_cases h (fun a u v huv => ?_) (fun e u v huv => ?_) fun m u v huv => ?_
  · exact congrArg (Outcome.ok (Except.ok a)) huv
  · exact congrArg (Outcome.ok (Except.error e)) huv
  · exact congrArg (Outcome.stopped m) huv

theorem catches : congruence.toCongruence.Catches :=
  congruence.catches unread_attempt fun cfg _ _ hst => congrArg (Outcome.ok cfg.policy) hst

theorem unread_withFrame {parent : ScopeId} {x y : ScopeId → Eval α}
    (hx : ∀ frame, Unread (x frame) (y frame)) :
    Unread (Eval.withFrame parent x) (Eval.withFrame parent y) := by
  refine unread_bind ?_ fun frame _ => unread_bind (unread_attempt (hx frame)) fun result _ =>
    unread_bind (unread_modifyState fun _ _ => rfl) fun _ _ => ?_
  · intro cfg s t hst
    have h := State.untraced_congr (f := fun s => { s with arena := (s.arena.child parent).2 })
      (fun _ _ => rfl) hst
    obtain ⟨log, rfl, -⟩ := State.exists_log hst
    exact congrArg (Outcome.ok (s.arena.child parent).1) h
  · cases result with
    | ok a => exact congruence.pure a
    | error e => exact congruence.fail e

theorem unread_deeper {x y : Eval α} (hx : Unread x y) :
    Unread (Eval.deeper x) (Eval.deeper y) := by
  intro cfg s t hst
  have h := hx cfg _ _
    (State.untraced_congr (f := fun s => { s with depth := s.depth + 1 }) (fun _ _ => rfl) hst)
  have hout {u v : State} (huv : u.untraced cfg = v.untraced cfg) :=
    State.untraced_congr (f := fun s => { s with depth := s.depth - 1 }) (fun _ _ => rfl) huv
  obtain ⟨log, rfl, -⟩ := State.exists_log hst
  rw [Eval.deeper, Eval.deeper]
  dsimp only at h ⊢
  split
  · exact congrArg (Outcome.error (RunError.recursionLimit cfg.maxDepth)) hst
  · generalize x cfg _ = o at h ⊢
    generalize y cfg _ = o' at h ⊢
    refine Outcome.untraced_cases h (fun a u v huv => ?_) (fun e u v huv => ?_) fun m u v huv => ?_
    · exact congrArg (Outcome.ok a) (hout huv)
    · exact congrArg (Outcome.error e) (hout huv)
    · exact congrArg (Outcome.stopped m) huv

theorem unread_force {r r' : Evaluator}
    (hr : ∀ node scope, Unread (r.eval node scope) (r'.eval node scope)) (id : PromiseId) :
    Unread (Promise.force r id) (Promise.force r' id) :=
  congruence.force_of_catches catches (fun _ => unread_modifyState fun _ _ => rfl) hr

/-- **That nothing looks at the log is a comparison.** -/
def comparison : PlainComparison :=
  .ofCatches congruence catches unread_withFrame

/-- **Evaluations and calls end alike beside the log** from states that agree beside it. -/
theorem agree_ofFuel (fuel : Nat) : comparison.Agree (.ofFuel fuel) (.ofFuel fuel) := by
  induction fuel with
  | zero =>
    exact .of_force unread_force
      (fun node scope _ _ _ hst => congrArg (Outcome.stopped (.evaluating node scope)) hst)
      fun callee arg scope _ _ _ hst => congrArg (Outcome.stopped (.calling callee arg scope)) hst
  | succ n ih =>
    exact .of_force unread_force (fun node scope => unread_deeper (ih.evalNode node scope))
      ih.callValue

end Tracing

end Fexpr
