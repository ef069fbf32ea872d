import Fexpr.Proofs.Comparison.Plain
import Fexpr.Proofs.Moments

/-!
# Proofs/Policy — the lenient policy extends the strict one

A run that succeeds under the strict policy succeeds under the lenient one, with the same value and
in the same state but for the log.  The two policies take multi-functions apart differently, yet
up to the alternative that answers they do the same: a strict run that succeeds has passed over
nothing but rejections, and to the lenient policy a rejection is one failure among others
(`extends_choose`).  The comparison says nothing of strict runs that fail.
-/

namespace Fexpr

namespace Policy

/-- **What `x` achieves under the strict policy, `y` achieves under the lenient one**, whatever the
log. -/
def Extends {α : Type} (x y : Eval α) : Prop :=
  ∀ (cfg : Config) (s : State) (log : String) (a : α) (t : State),
    x { cfg with policy := .strict } s = .ok a t →
    ∃ log', y { cfg with policy := .lenient } { s with log } = .ok a { t with log := log' }

variable {α β : Type}

theorem extends_bind {x y : Eval α} {f g : α → Eval β} (hx : Extends x y)
    (hf : ∀ a, Returns y a → Extends (f a) (g a)) : Extends (x >>= f) (y >>= g) := by
  intro cfg s log b t hb
  rw [Eval.bind_apply] at hb
  split at hb
  · next a u hxa =>
    obtain ⟨log₁, hy⟩ := hx cfg s log a u hxa
    obtain ⟨log₂, hg⟩ := hf a ⟨_, _, _, hy⟩ cfg u log₁ b t hb
    refine ⟨log₂, ?_⟩
    rw [Eval.bind_apply, hy]
    exact hg
  · cases hb
  · cases hb

/-- The elementary operations do not look at the log. -/
theorem extends_elementary {N : Census} {scope : ScopeId} {x : Eval α} {Φ : Census → α → Prop}
    (h : Elementary N scope x Φ) : Extends x x := by
  intro cfg s log a t ht
  cases h with
  | lookup name =>
    rw [Eval.lookup] at ht ⊢
    split at ht
    · next v hv =>
      cases ht
      exact ⟨log, by rw [hv]⟩
    · cases ht
  | bind binding u name hv =>
    cases binding with
    | inward | outward => cases ht; exact ⟨log, rfl⟩
  | trace message =>
    rw [Eval.trace] at ht ⊢
    split at ht
    · next hdebug =>
      cases ht
      exact ⟨_, if_pos hdebug⟩
    · next hdebug =>
      cases ht
      exact ⟨_, if_neg hdebug⟩
  | read | capture | print | setSlot | setEntry | setAttribute =>
    cases ht
    exact ⟨log, rfl⟩
  | addClosure | addObject | addDictionary | addPromise | freshTag | freshCurriedTag =>
    cases ht
    exact ⟨log, rfl⟩

/-- The extension of strict runs by lenient ones, as a relation that sequencing respects. -/
def congruence : PlainCongruence where
  R := Extends
  pure _ := fun _ _ log _ _ ht => by cases ht; exact ⟨log, rfl⟩
  fail _ := fun _ _ _ _ _ ht => by cases ht
  bind := extends_bind
  elementary := extends_elementary

theorem extends_onError {x y : Eval α} {cleanup : Eval Unit} (hx : Extends x y) :
    Extends (Eval.onError x cleanup) (Eval.onError y cleanup) := by
  intro cfg s log a t ht
  rw [Eval.onError_apply] at ht
  split at ht
  · next b u hxb =>
    cases ht
    obtain ⟨log', hy⟩ := hx cfg s log _ _ hxb
    exact ⟨log', by rw [Eval.onError_apply, hy]⟩
  · rw [Eval.bind_apply] at ht
    split at ht <;> cases ht
  · cases ht

theorem extends_withFrame {parent : ScopeId} {x y : ScopeId → Eval α}
    (hx : ∀ frame, Extends (x frame) (y frame)) :
    Extends (Eval.withFrame parent x) (Eval.withFrame parent y) := by
  intro cfg s log a t ht
  rw [Eval.withFrame_apply] at ht
  split at ht
  · next b u hxb =>
    cases ht
    obtain ⟨log', hy⟩ := hx _ cfg _ log _ _ hxb
    refine ⟨log', ?_⟩
    rw [Eval.withFrame_apply, hy]
  · cases ht
  · cases ht

/-- **An alternative that answers strictly is the first to succeed leniently**: what came before it
was rejected, and a rejection only adds to the log. -/
theorem extends_alternatives {T T' : ClosureId → Eval (Option Value)} {ids : List ClosureId}
    (h : ∀ id ∈ ids, Extends (T id) (T' id)) (i : Nat) :
    Extends (Eval.firstAnswer T ids) (Eval.firstSuccess T' i ids) := by
  induction ids generalizing i with
  | nil => exact fun cfg s log v t hv => by cases hv
  | cons id ids ih =>
    intro cfg s log v t hv
    rw [Eval.firstAnswer, Eval.bind_apply] at hv
    split at hv
    · next answer u hanswer =>
      obtain ⟨log₁, hy⟩ := h id List.mem_cons_self cfg s log answer u hanswer
      cases answer with
      | some w =>
        cases hv
        refine ⟨log₁, ?_⟩
        rw [Eval.firstSuccess, Eval.bind_apply, Eval.attempt_apply, Eval.bind_apply, hy]
        rfl
      | none =>
        obtain ⟨log₂, htrace⟩ := Eval.trace_apply (fun _ => "alternative " ++ toString i ++
          " failed: " ++ RunError.patternMismatch.message) { cfg with policy := .lenient }
            { u with log := log₁ }
        obtain ⟨log₃, hrest⟩ :=
          ih (fun id' hid => h id' (List.mem_cons_of_mem id hid)) (i + 1) cfg u log₂ v t hv
        refine ⟨log₃, ?_⟩
        rw [Eval.firstSuccess, Eval.bind_apply, Eval.attempt_apply, Eval.bind_apply, hy]
        change (Eval.trace _ >>= fun _ => Eval.firstSuccess T' (i + 1) ids) _ _ = _
        rw [Eval.bind_apply, htrace]
        exact hrest
    · cases hv
    · cases hv

theorem extends_choose {T T' : ClosureId → Eval (Option Value)} {ids : List ClosureId}
    (h : ∀ id ∈ ids, Extends (T id) (T' id)) :
    Extends (Eval.choose T ids) (Eval.choose T' ids) := fun cfg s log v t hv =>
  extends_alternatives h 0 cfg s log v t hv

theorem extends_deeper {x y : Eval α} (hx : Extends x y) :
    Extends (Eval.deeper x) (Eval.deeper y) := by
  intro cfg s log a t ht
  rw [Eval.deeper] at ht ⊢
  split at ht
  · cases ht
  · next hdepth =>
    split at ht
    · next b u hxb =>
      cases ht
      obtain ⟨log', hy⟩ := hx cfg _ log _ _ hxb
      refine ⟨log', ?_⟩
      rw [if_neg hdepth, hy]
    · cases ht
    · cases ht

theorem extends_force {r r' : Evaluator}
    (hr : ∀ node scope, Extends (r.eval node scope) (r'.eval node scope)) (id : PromiseId) :
    Extends (Promise.force r id) (Promise.force r' id) :=
  congruence.force (fun _ _ _ log _ _ ht => by cases ht; exact ⟨log, rfl⟩)
    (fun _ _ _ hx => extends_onError hx) hr

/-- **The extension of strict runs by lenient ones is a comparison.** -/
def comparison : PlainComparison where
  toPlainCongruence := congruence
  withFrame := extends_withFrame
  choose := extends_choose

theorem agree_ofFuel (fuel : Nat) :
    comparison.Agree (.ofFuel fuel) (.ofFuel fuel) := by
  induction fuel with
  | zero =>
    refine .of_force extends_force (fun node scope cfg s log v t ht => ?_)
      fun callee arg scope cfg s log v t ht => ?_
    · cases ht
    · cases ht
  | succ n ih =>
    exact .of_force extends_force (fun node scope => extends_deeper (ih.evalNode node scope))
      ih.callValue

end Policy

/-- **The strict policy is conservatively extended by the lenient one**: a run that returns a value
under the strict policy returns it under the lenient one too, in the same state but for the log. -/
theorem lenient_run_of_strict_run {fuel : Nat} {code : String} {scope : ScopeId} {cfg : Config}
    {s t : State} {v : Value}
    (h : Program.runWith fuel code scope { cfg with policy := .strict } s = .ok v t) :
    ∃ log, Program.runWith fuel code scope { cfg with policy := .lenient } s =
      .ok v { t with log } := by
  rw [Program.runWith, Program.runUnder_apply] at h ⊢
  cases hread : read code with
  | error e =>
    rw [hread] at h
    cases h
  | ok forms =>
    rw [hread] at h
    have hforms : Policy.Extends (Program.runForms (.ofFuel fuel) forms scope)
        (Program.runForms (.ofFuel fuel) forms scope) :=
      (Policy.agree_ofFuel fuel).runForms forms scope
    dsimp only at h ⊢
    split at h
    · next v' t' hrun =>
      cases h
      obtain ⟨log, hlenient⟩ := hforms cfg s s.log _ _ hrun
      exact ⟨log, by rw [hlenient]⟩
    · cases h
    · cases h

/-- A multi-function whose first alternative rejects the arguments, under either policy. -/
theorem second_alternative_answers :
    ∃ v t, (Program.runWith 20 "((mfn ([a b] a) ([a] (add a 1))) 7)" Arena.root
        { ({} : Config) with policy := .strict } .initial = .ok v t ∧ v == .integer 8) ∧
      ∃ log, Program.runWith 20 "((mfn ([a b] a) ([a] (add a 1))) 7)" Arena.root
        { ({} : Config) with policy := .lenient } .initial = .ok v { t with log } := by
  obtain ⟨v, t, h, hv⟩ := Outcome.exists_of_returns (· == .integer 8)
    (o := Program.runWith 20 "((mfn ([a b] a) ([a] (add a 1))) 7)" Arena.root
      { ({} : Config) with policy := .strict } .initial) (by decide +kernel)
  exact ⟨v, t, ⟨h, hv⟩, lenient_run_of_strict_run h⟩

end Fexpr
