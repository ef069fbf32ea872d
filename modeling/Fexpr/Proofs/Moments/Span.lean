import Fexpr.Proofs.Return

/-!
# Proofs/Moments/Span — what begins in a run ends in it

    ──▸ evaluating node ──▸ … ──▸ answering v ──▸

A run that passes the moment where an evaluation begins passes the moment where it ends, or it is
broken off in between (`Span.crosses`).  So of an evaluation that a run gets beyond both ends are
moments of the run.
-/

namespace Fexpr

/-- **A moment of a task**, before the task is broken off by `stop`. -/
def Task.GetsTo (task : Task) (stop : Moment → State → Bool) (fuel : Nat) (cfg : Config) (s : State)
    (m : Moment) (t : State) : Prop :=
  ∃ early, (∀ m t, stop m t → early m t) ∧
    task.under (.until early fuel) cfg s = .stopped m t

/-- **An evaluation that comes to a value**, with the states it leads from and to. -/
structure Span where
  cfg : Config
  node : Node
  scope : ScopeId
  value : Value
  first : State
  last : State
  comes : ∃ n, (Evaluator.ofFuel n).eval node scope cfg first = .ok value last

namespace Span

variable (E : Span) {early late : Moment → State → Bool} {α β : Type}

/-- **What is broken off where the evaluation ends** does not get beyond it. -/
theorem isStopped (hend : late (.answering E.value) E.last) (n : Nat) :
    ((Evaluator.until late n).eval E.node E.scope E.cfg E.first).isStopped := by
  obtain ⟨fuel, hcomes⟩ := E.comes
  have hmatch := ((Coverage.agree_ofFuel_until late n fuel).eval E.node E.scope E.cfg E.first
    trivial).2
  rw [hcomes] at hmatch
  rcases hmatch with hstopped | heq | ⟨m, t, hstopped, -⟩
  · cases hstopped
  · cases n with
    | zero => rfl
    | succ n =>
      have hpause : (Evaluator.until late (n + 1)).eval E.node E.scope E.cfg E.first = _ :=
        Eval.pausing_apply late _ _ E.cfg E.first
      rw [hpause] at heq
      split at heq
      · cases heq
      · exact absurd hend (Outcome.eq_ok_of_checked heq.symm).2
  · rw [hstopped]
    rfl

/-- **Broken off in the middle of the evaluation.** -/
def Inside (late : Moment → State → Bool) (o : Outcome RunError α) : Prop :=
  ∃ n m t, (Evaluator.until late n).eval E.node E.scope E.cfg E.first = .stopped m t ∧
    o = .stopped m t

/-- Two computations that are the same, unless the later one is broken off in the middle of the
evaluation. -/
def Crosses (late : Moment → State → Bool) (x y : Eval α) : Prop :=
  ∀ s, x E.cfg s = y E.cfg s ∨ E.Inside late (y E.cfg s)

variable {E}

/-- What goes on after two computations, but not after one that was broken off. -/
theorem Crosses.through {x y : Eval α} (h : E.Crosses late x y) (s : State)
    {p p' : Outcome RunError β} (hsame : x E.cfg s = y E.cfg s → p = p')
    (hstop : ∀ m t, y E.cfg s = .stopped m t → p' = .stopped m t) :
    p = p' ∨ E.Inside late p' := by
  rcases h s with heq | ⟨n, m, t, hinside, hy⟩
  · exact .inl (hsame heq)
  · exact .inr ⟨n, m, t, hinside, hstop m t hy⟩

theorem crosses_refl (x : Eval α) : E.Crosses late x x := fun _ => .inl rfl

theorem crosses_bind {x y : Eval α} {f g : α → Eval β} (hxy : E.Crosses late x y)
    (hfg : ∀ a, Returns y a → E.Crosses late (f a) (g a)) :
    E.Crosses late (x >>= f) (y >>= g) := by
  intro s
  cases hy : y E.cfg s with
  | ok a t =>
    rcases hxy s with heq | ⟨n, m, u, -, hstop⟩
    · rw [Eval.bind_apply, Eval.bind_apply, heq, hy]
      exact hfg a ⟨_, s, t, hy⟩ t
    · rw [hy] at hstop
      cases hstop
  | error e t | stopped m t =>
    refine hxy.through s (fun heq => ?_) fun m' t' hstop => ?_
    · rw [Eval.bind_apply, Eval.bind_apply, heq, hy]
    · rw [Eval.bind_apply, hstop]

theorem crosses_attempt {x y : Eval α} (hxy : E.Crosses late x y) :
    E.Crosses late (Eval.attempt x) (Eval.attempt y) := by
  refine fun s => hxy.through s (fun heq => ?_) fun m t hstop => ?_
  · rw [Eval.attempt_apply, Eval.attempt_apply, heq]
  · rw [Eval.attempt_apply, hstop]

theorem crosses_withFrame {parent : ScopeId} {x y : ScopeId → Eval α}
    (hxy : ∀ frame, E.Crosses late (x frame) (y frame)) :
    E.Crosses late (Eval.withFrame parent x) (Eval.withFrame parent y) := by
  refine fun s => (hxy (s.arena.child parent).1).through
    { s with arena := (s.arena.child parent).2 } (fun heq => ?_) fun m t hstop => ?_
  · rw [Eval.withFrame_apply, Eval.withFrame_apply, heq]
  · rw [Eval.withFrame_apply, hstop]

theorem crosses_deeper {x y : Eval α} (hxy : E.Crosses late x y) :
    E.Crosses late (Eval.deeper x) (Eval.deeper y) := by
  intro s
  rw [Eval.deeper, Eval.deeper]
  split
  · exact .inl rfl
  · refine hxy.through { s with depth := s.depth + 1 } (fun heq => ?_) fun m t hstop => ?_
    · rw [heq]
    · rw [hstop]

/-- Crossing, as a relation that sequencing respects. -/
def congruence (E : Span) (late : Moment → State → Bool) : PlainCongruence where
  R := E.Crosses late
  pure _ := crosses_refl _
  fail _ := crosses_refl _
  bind := crosses_bind
  elementary _ := crosses_refl _

theorem catches (E : Span) (late : Moment → State → Bool) :
    (congruence E late).toCongruence.Catches :=
  (congruence E late).catches crosses_attempt (crosses_refl _)

/-- **Crossing is a comparison.** -/
def comparison (E : Span) (late : Moment → State → Bool) : PlainComparison :=
  .ofCatches (congruence E late) (catches E late) crosses_withFrame

theorem crosses_force {r r' : Evaluator}
    (hr : ∀ node scope, E.Crosses late (r.eval node scope) (r'.eval node scope)) (id : PromiseId) :
    E.Crosses late (Promise.force r id) (Promise.force r' id) :=
  (congruence E late).force_of_catches (catches E late) (fun _ => crosses_refl _) hr

/-! ## Runs that are broken off -/

section Until

variable (hle : ∀ m t, late m t → early m t)
  (hmore : ∀ m t, early m t → late m t ∨ m = .evaluating E.node E.scope ∧ t = E.first)
  (hend : late (.answering E.value) E.last)

include hle hmore

/-- Where no evaluation begins, the two are broken off alike. -/
theorem early_eq_late {m : Moment} {t : State}
    (h : ¬(m = .evaluating E.node E.scope ∧ t = E.first)) : early m t = late m t :=
  Bool.eq_iff_iff.mpr ⟨fun hearly => (hmore m t hearly).resolve_right h, hle m t⟩

theorem checked_early (o : Outcome RunError Value) : o.checked early = o.checked late := by
  cases o with
  | ok v t | error e t =>
    rw [Outcome.checked, Outcome.checked, early_eq_late hle hmore (fun h => by cases h.1)]
  | stopped m t => rfl

theorem crosses_pausing {x y : Eval Value} {m : Moment}
    (hfirst : m = .evaluating E.node E.scope →
      E.Inside late (Eval.pausing late m y E.cfg E.first))
    (hxy : E.Crosses late x y) :
    E.Crosses late (Eval.pausing early m x) (Eval.pausing late m y) := by
  intro s
  by_cases hbegin : m = .evaluating E.node E.scope ∧ s = E.first
  · obtain ⟨hm, rfl⟩ := hbegin
    exact .inr (hfirst hm)
  · rw [Eval.pausing_apply, Eval.pausing_apply, early_eq_late hle hmore hbegin]
    split
    · exact .inl rfl
    · refine hxy.through s (fun heq => ?_) fun m t hstop => ?_
      · rw [heq, checked_early hle hmore]
      · rw [hstop]
        rfl

include hend

theorem agree_until (fuel : Nat) :
    (comparison E late).Agree (.until early fuel) (.until late fuel) := by
  induction fuel with
  | zero => exact .of_force crosses_force (fun _ _ => crosses_refl _) fun _ _ _ => crosses_refl _
  | succ n ih =>
    refine .of_force crosses_force (fun node scope => ?_) fun callee arg scope => ?_
    · refine crosses_pausing hle hmore (fun hm => ?_) (crosses_deeper (ih.evalNode node scope))
      cases hm
      obtain ⟨m, t, hstop⟩ := Outcome.exists_of_isStopped (E.isStopped hend (n + 1))
      exact ⟨n + 1, m, t, hstop, hstop⟩
    · exact crosses_pausing hle hmore nofun (ih.callValue callee arg scope)

/-- **A task that is broken off where the evaluation ends**, and perhaps where it begins, does the
same either way, unless it is broken off in between. -/
theorem crosses (task : Task) (fuel : Nat) (s : State) :
    task.under (.until early fuel) E.cfg s = task.under (.until late fuel) E.cfg s ∨
      ∃ n m t, (Evaluator.until late n).eval E.node E.scope E.cfg E.first = .stopped m t ∧
        task.under (.until late fuel) E.cfg s = .stopped m t := by
  rcases (agree_until hle hmore hend fuel).task task with ⟨e, hsame⟩ | ⟨x, y, hxy, hsame⟩
  · exact .inl ((hsame E.cfg s).1.trans (hsame E.cfg s).2.symm)
  · have hcrosses : E.Crosses late x y := hxy
    rw [(hsame E.cfg s).1, (hsame E.cfg s).2]
    rcases hcrosses s with heq | ⟨n, m, t, hinside, hstop⟩
    · exact .inl (by rw [Run.ofEval, Run.ofEval, heq])
    · exact .inr ⟨n, m, t, hinside, by rw [Run.ofEval, hstop]⟩

end Until

end Span

end Fexpr
