import Fexpr.Proofs.Comparison.Plain
import Fexpr.Proofs.Moments

/-!
# Proofs/Limit — a deeper limit changes no strict result

Under the strict policy nothing gets over an error: promises and frames clean up and hand it on, and
a multi-function moves on only where a pattern rejects its arguments, which is no error.  So a
computation that meets the depth limit anywhere fails for that reason, and one that does not fail
for it has never met it (`Outlasts`).  **Under a deeper limit it does the same**
(`strict_run_under_deeper_limit`).

To the lenient policy the limit is one failure of an alternative among others, and a deeper limit
may well change which alternative answers.
-/

namespace Fexpr

/-- The configuration with the strict policy and a given depth limit. -/
def Config.strictWithin (cfg : Config) (d : Nat) : Config :=
  { cfg with policy := .strict, maxDepth := d }

/-- **A computation fails because evaluation nests too deeply.** -/
def Outcome.MeetsLimit {α : Type} (o : Outcome RunError α) : Prop :=
  ∃ n t, o = .error (.recursionLimit n) t

namespace Limit

variable {cfg : Config} {d d' : Nat} {α β : Type}

/-- **`x` under the limit `d` does what `y` does under `d'`**, or it fails for its limit. -/
def Outlasts (cfg : Config) (d d' : Nat) (x y : Eval α) : Prop :=
  ∀ s, x (cfg.strictWithin d) s = y (cfg.strictWithin d') s ∨ (x (cfg.strictWithin d) s).MeetsLimit

theorem outlasts_bind {x y : Eval α} {f g : α → Eval β} (hxy : Outlasts cfg d d' x y)
    (hfg : ∀ a, Returns y a → Outlasts cfg d d' (f a) (g a)) :
    Outlasts cfg d d' (x >>= f) (y >>= g) := by
  intro s
  rcases hxy s with hsame | ⟨n, t, hlimit⟩
  · rw [Eval.bind_apply, Eval.bind_apply, hsame]
    cases hy : y (cfg.strictWithin d') s with
    | ok a t => exact hfg a ⟨_, s, t, hy⟩ t
    | error e t => exact Or.inl rfl
    | stopped m t => exact Or.inl rfl
  · refine Or.inr ⟨n, t, ?_⟩
    rw [Eval.bind_apply, hlimit]

/-- The elementary operations do not look at the limit. -/
theorem outlasts_elementary {N : Census} {scope : ScopeId} {x : Eval α} {Φ : Census → α → Prop}
    (h : Elementary N scope x Φ) : Outlasts cfg d d' x x := by
  intro s
  cases h with
  | bind binding u name hv =>
    cases binding with
    | inward | outward => exact Or.inl rfl
  | _ => exact Or.inl rfl

/-- An error is handed on once a promise is pending again. -/
theorem outlasts_onError {x y : Eval α} (f : Store → Store) (hxy : Outlasts cfg d d' x y) :
    Outlasts cfg d d' (Eval.onError x (Eval.modifyStore f))
      (Eval.onError y (Eval.modifyStore f)) := by
  intro s
  rw [Eval.onError_apply, Eval.onError_apply]
  rcases hxy s with hsame | ⟨n, t, hlimit⟩
  · rw [hsame]
    cases y (cfg.strictWithin d') s <;> exact Or.inl rfl
  · rw [hlimit]
    exact Or.inr ⟨n, _, rfl⟩

/-- An error is handed on once a frame is dropped. -/
theorem outlasts_withFrame {parent : ScopeId} {x y : ScopeId → Eval α}
    (hxy : ∀ frame, Outlasts cfg d d' (x frame) (y frame)) :
    Outlasts cfg d d' (Eval.withFrame parent x) (Eval.withFrame parent y) := by
  intro s
  rw [Eval.withFrame_apply, Eval.withFrame_apply]
  rcases hxy (s.arena.child parent).1 { s with arena := (s.arena.child parent).2 } with
    hsame | ⟨n, t, hlimit⟩
  · rw [hsame]
    exact Or.inl rfl
  · rw [hlimit]
    exact Or.inr ⟨n, _, rfl⟩

/-- `Outlasts`, as a relation that sequencing respects. -/
def congruence (cfg : Config) (d d' : Nat) : PlainCongruence where
  R := Outlasts cfg d d'
  pure _ := fun _ => Or.inl rfl
  fail _ := fun _ => Or.inl rfl
  bind := outlasts_bind
  elementary := outlasts_elementary

/-- **A strict multi-function does not get over the limit**: the first alternative to fail ends
it. -/
theorem outlasts_choose {T T' : ClosureId → Eval (Option Value)} {ids : List ClosureId}
    (h : ∀ id ∈ ids, Outlasts cfg d d' (T id) (T' id)) :
    Outlasts cfg d d' (Eval.choose T ids) (Eval.choose T' ids) := by
  have hrel : (congruence cfg d d').toCongruence.Rel () Arena.root (Eval.firstAnswer T ids)
      (Eval.firstAnswer T' ids) Value.Within :=
    Congruence.Catches.firstAnswer fun _ id hid _ => ⟨h id hid, answers_optionWithin⟩
  exact hrel.1

theorem outlasts_force {r r' : Evaluator}
    (hr : ∀ node scope, Outlasts cfg d d' (r.eval node scope) (r'.eval node scope))
    (id : PromiseId) : Outlasts cfg d d' (Promise.force r id) (Promise.force r' id) :=
  (congruence cfg d d').force (fun _ _ => Or.inl rfl) (fun _ _ _ hx => outlasts_onError _ hx) hr

/-- **One level deeper**: what the shallower limit admits, the deeper one does. -/
theorem outlasts_deeper (hle : d ≤ d') {x y : Eval α} (hxy : Outlasts cfg d d' x y) :
    Outlasts cfg d d' (Eval.deeper x) (Eval.deeper y) := by
  intro s
  by_cases hdepth : d ≤ s.depth
  · refine Or.inr ⟨d, s, ?_⟩
    rw [Eval.deeper]
    exact if_pos hdepth
  · have hdepth' : ¬d' ≤ s.depth := fun h => hdepth (Nat.le_trans hle h)
    have hx : Eval.deeper x (cfg.strictWithin d) s = _ := if_neg hdepth
    have hy : Eval.deeper y (cfg.strictWithin d') s = _ := if_neg hdepth'
    rw [hx, hy]
    rcases hxy { s with depth := s.depth + 1 } with hsame | ⟨n, t, hlimit⟩
    · rw [hsame]
      exact Or.inl rfl
    · rw [hlimit]
      exact Or.inr ⟨n, _, rfl⟩

/-- **Outlasting is a comparison.** -/
def comparison (cfg : Config) (d d' : Nat) : PlainComparison where
  toPlainCongruence := congruence cfg d d'
  withFrame := outlasts_withFrame
  choose := outlasts_choose

theorem agree_ofFuel (cfg : Config) (hle : d ≤ d') (fuel : Nat) :
    (comparison cfg d d').Agree (.ofFuel fuel) (.ofFuel fuel) := by
  induction fuel with
  | zero => exact .of_force outlasts_force (fun _ _ _ => Or.inl rfl) fun _ _ _ _ => Or.inl rfl
  | succ n ih =>
    exact .of_force outlasts_force (fun node scope => outlasts_deeper hle (ih.evalNode node scope))
      ih.callValue

end Limit

/-- **A deeper limit changes no strict result**: a run under the strict policy that does not fail
for its depth limit ends in the same way and in the same state under every deeper limit. -/
theorem strict_run_under_deeper_limit {fuel : Nat} {code : String} {scope : ScopeId} {cfg : Config}
    {s : State} {d d' : Nat} (hle : d ≤ d')
    (h : ∀ n t, Program.runWith fuel code scope (cfg.strictWithin d) s ≠
      .error (.failed (.recursionLimit n)) t) :
    Program.runWith fuel code scope (cfg.strictWithin d') s =
      Program.runWith fuel code scope (cfg.strictWithin d) s := by
  rw [Program.runWith, Program.runUnder_apply] at h ⊢
  rw [Program.runUnder_apply]
  cases hread : read code with
  | error e => rfl
  | ok forms =>
    rw [hread] at h
    have hforms : Limit.Outlasts cfg d d' (Program.runForms (.ofFuel fuel) forms scope)
        (Program.runForms (.ofFuel fuel) forms scope) :=
      (Limit.agree_ofFuel cfg hle fuel).runForms forms scope
    dsimp only at h ⊢
    rcases hforms s with hsame | ⟨n, t, hlimit⟩
    · rw [hsame]
    · rw [hlimit] at h
      exact absurd rfl (h n t)

/-- `sum` of a list of three numbers nests no deeper than the limit 10, so that a limit of 512 makes
no difference to it. -/
theorem sum_under_deeper_limit :
    ∃ v t, (Program.runWith 60
        "(def sum (mfn ([(list)] 0) ([(cons n ns)] (add n (sum ns))))) (sum [1 2 3])"
        Arena.root (({} : Config).strictWithin 10) .initial = .ok v t ∧
        v == .integer 6) ∧
      Program.runWith 60
        "(def sum (mfn ([(list)] 0) ([(cons n ns)] (add n (sum ns))))) (sum [1 2 3])"
        Arena.root (({} : Config).strictWithin 512) .initial = .ok v t := by
  obtain ⟨v, t, h, hv⟩ := Outcome.exists_of_returns (· == .integer 6)
    (o := Program.runWith 60
      "(def sum (mfn ([(list)] 0) ([(cons n ns)] (add n (sum ns))))) (sum [1 2 3])"
      Arena.root (({} : Config).strictWithin 10) .initial)
    (by decide +kernel)
  refine ⟨v, t, ⟨h, hv⟩, ?_⟩
  rw [← h]
  exact strict_run_under_deeper_limit (by decide) fun n u hlimit => by
    rw [h] at hlimit
    cases hlimit

end Fexpr
