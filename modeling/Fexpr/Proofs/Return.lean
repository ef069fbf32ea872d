import Fexpr.Proofs.Coverage

/-!
# Proofs/Return — which runs come back

The depth limit bounds how evaluations nest, but not how calls do.  `Evaluator.layered k d` admits
`d` evaluations inside each other and, between one evaluation and the next, `k` calls.  With as many
evaluations as the limit admits such a run is broken off at a call only (`agree_ofFuel_layered`), so
that **a run comes back if and only if some number of calls in a row is enough for it**
(`comes_back_iff`).

A run that gets to a moment from which nothing comes back does not come back either
(`isStopped_of_endless`).  There are such runs (`Fexpr/Proofs/Return/Knot`), and all of them nest
calls of `call` and `apply` without end (`Fexpr/Proofs/Return/Tower`).
-/

namespace Fexpr

/-! ## Evaluations and the calls between them -/

/-- Evaluates by `eval`, and lets `k` calls nest meanwhile. -/
def Evaluator.layer (eval : Node → ScopeId → Eval Value) : Nat → Evaluator
  | 0 => { eval, call := fun callee arg scope => Eval.stop (.calling callee arg scope) }
  | k + 1 => { eval, call := fun callee arg scope => callValue (layer eval k) callee arg scope }

/-- **The evaluator whose evaluations nest at most `d` deep**, with at most `k` calls in a row
between one and the next. -/
def Evaluator.layered (k : Nat) : Nat → Evaluator
  | 0 => .layer (fun node scope => Eval.deeper (Eval.stop (.evaluating node scope))) k
  | d + 1 => .layer (fun node scope => Eval.deeper (evalNode (layered k d) node scope)) k

/-- Whether something is about to be called. -/
def Moment.IsCall (m : Moment) : Prop :=
  ∃ callee arg scope, m = .calling callee arg scope

namespace Coverage

variable {k : Nat} {eval : Node → ScopeId → Eval Value}

/-- **At most `d` evaluations below the limit**: what is under way is broken off at a call only. -/
def below (d : Nat) : Terms where
  depth cfg n := cfg.maxDepth ≤ n + d
  breaks := Moment.IsCall
  excused _ _ _ := False

/-- Calls that nest no deeper than there is fuel. -/
theorem agree_ofFuel_layer {d : Nat}
    (heval : ∀ fuel ≤ k, ∀ node scope,
      Covers (below d) ((Evaluator.ofFuel fuel).eval node scope) (eval node scope))
    {j : Nat} (hj : j ≤ k) {fuel : Nat} (hfuel : fuel ≤ j) :
    (comparison (below d)).Agree (.ofFuel fuel) (.layer eval j) := by
  induction j generalizing fuel with
  | zero =>
    obtain rfl : fuel = 0 := Nat.le_zero.mp hfuel
    exact .of_force covers_force (heval 0 (Nat.zero_le k)) fun callee arg scope _ _ _ =>
      ⟨⟨callee, arg, scope, rfl⟩, Or.inl rfl⟩
  | succ j ih =>
    have hcall : ∀ f ≤ j, ∀ callee arg scope, Covers (below d)
        (callValue (.ofFuel f) callee arg scope) (callValue (.layer eval j) callee arg scope) :=
      fun f hf => (ih (Nat.le_of_succ_le hj) hf).callValue
    refine .of_force covers_force (heval fuel (Nat.le_trans hfuel hj)) fun callee arg scope => ?_
    cases fuel with
    | zero => exact (hcall 0 (Nat.zero_le j) callee arg scope).of_stopped fun _ _ => rfl
    | succ f => exact hcall f (Nat.le_of_succ_le_succ hfuel) callee arg scope

/-- **What comes to an end with some fuel does so with as many calls in a row**, and when these are
not enough it is for want of calls. -/
theorem agree_ofFuel_layered (k d : Nat) {fuel : Nat} (hfuel : fuel ≤ k) :
    (comparison (below d)).Agree (.ofFuel fuel) (.layered k d) := by
  induction d generalizing fuel with
  | zero =>
    have heval : ∀ f node scope, Covers (below 0) ((Evaluator.ofFuel (f + 1)).eval node scope)
        (Eval.deeper (Eval.stop (.evaluating node scope))) := fun f node scope =>
      covers_deeper (D := fun _ _ => False)
        (fun _ _ hdepth hlimit => absurd hdepth (Nat.not_le_of_lt hlimit)) (fun _ _ h => h.elim)
        fun _ _ h => h.elim
    refine agree_ofFuel_layer (fun f _ node scope => ?_) (Nat.le_refl k) hfuel
    cases f with
    | zero => exact (heval 0 node scope).of_stopped fun _ _ => rfl
    | succ f => exact heval f node scope
  | succ d ih =>
    have heval : ∀ f ≤ k, ∀ node scope, Covers (below (d + 1))
        ((Evaluator.ofFuel (f + 1)).eval node scope)
        (Eval.deeper (evalNode (.layered k d) node scope)) := fun f hf node scope => by
      refine covers_deeper (D := (below d).depth) (fun cfg n hdepth _ => ?_)
        (fun cfg n hdepth => ?_) ((ih hf).evalNode node scope)
      · simp only [below] at hdepth ⊢
        omega
      · simp only [below] at hdepth ⊢
        omega
    refine agree_ofFuel_layer (fun f hf node scope => ?_) (Nat.le_refl k) hfuel
    cases f with
    | zero => exact (heval 0 (Nat.zero_le k) node scope).of_stopped fun _ _ => rfl
    | succ f => exact heval f (Nat.le_of_succ_le hf) node scope

/-- Wherever it may be broken off, it is compared up to there. -/
def anywhere : Terms where
  depth _ _ := True
  breaks _ := True
  excused _ _ _ := False

theorem covers_anywhere_of_stopped {α : Type} {x y : Eval α} (hx : ∀ cfg s, (x cfg s).isStopped) :
    Covers anywhere x y := by
  refine fun cfg s _ => ⟨?_, Or.inl (hx cfg s)⟩
  cases y cfg s <;> exact trivial

theorem agree_layer_ofFuel {n : Nat}
    (heval : ∀ fuel, n ≤ fuel → ∀ node scope,
      Covers anywhere (eval node scope) ((Evaluator.ofFuel fuel).eval node scope))
    (j : Nat) {fuel : Nat} (hfuel : n + j ≤ fuel) :
    (comparison anywhere).Agree (.layer eval j) (.ofFuel fuel) := by
  induction j generalizing fuel with
  | zero =>
    exact .of_force covers_force (heval fuel hfuel) fun callee arg scope =>
      covers_anywhere_of_stopped fun _ _ => rfl
  | succ j ih =>
    obtain ⟨f, rfl⟩ : ∃ f, fuel = f + 1 := ⟨fuel - 1, by omega⟩
    exact .of_force covers_force (heval (f + 1) (by omega)) (ih (by omega)).callValue

/-- **So many evaluations and calls take no more fuel than this.** -/
theorem agree_layered_ofFuel (k d : Nat) {fuel : Nat} (hfuel : d * (k + 1) + 1 + k ≤ fuel) :
    (comparison anywhere).Agree (.layered k d) (.ofFuel fuel) := by
  induction d generalizing fuel with
  | zero =>
    refine agree_layer_ofFuel (n := 0 * (k + 1) + 1) (fun f hf node scope => ?_) k hfuel
    obtain ⟨f, rfl⟩ : ∃ f', f = f' + 1 := ⟨f - 1, by omega⟩
    exact covers_deeper (D := anywhere.depth) (fun _ _ _ _ => trivial) (fun _ _ _ => trivial)
      (covers_anywhere_of_stopped fun _ _ => rfl)
  | succ d ih =>
    refine agree_layer_ofFuel (n := (d + 1) * (k + 1) + 1) (fun f hf node scope => ?_) k hfuel
    obtain ⟨f, rfl⟩ : ∃ f', f = f' + 1 := ⟨f - 1, by omega⟩
    have hless : d * (k + 1) + 1 + k ≤ f := by
      rw [Nat.succ_mul] at hf
      omega
    exact covers_deeper (D := anywhere.depth) (fun _ _ _ _ => trivial) (fun _ _ _ => trivial)
      ((ih hless).evalNode node scope)

/-- Covering evaluators run programs alike. -/
theorem covers_runUnder {T : Terms} {r r' : Evaluator} (h : (comparison T).Agree r r')
    (code : String) (scope : ScopeId) (cfg : Config) (s : State) (hs : T.depth cfg s.depth) :
    T.Admits cfg (Program.runUnder r' code scope cfg s) ∧
      T.Matches cfg (Program.runUnder r code scope cfg s)
        (Program.runUnder r' code scope cfg s) := by
  rw [Program.runUnder_apply, Program.runUnder_apply]
  cases read code with
  | error e => exact ⟨hs, Or.inr (Or.inl rfl)⟩
  | ok forms =>
    have hforms : Covers T (Program.runForms r forms scope) (Program.runForms r' forms scope) :=
      h.runForms forms scope
    obtain ⟨hends, hmatch⟩ := hforms cfg s hs
    dsimp only
    refine ⟨?_, hmatch.through (fun hx => ?_) (fun m t hx => ?_) fun m t hy => ?_⟩
    · cases hy : Program.runForms r' forms scope cfg s with
      | ok v t | error e t | stopped m t =>
        rw [hy] at hends
        exact hends
    · rw [hx]
    · rw [hx]
    · rw [hy]

end Coverage

/-- **A program comes back exactly if some number of calls in a row is enough for it**, between one
evaluation and the next: evaluations themselves nest no deeper than the limit. -/
theorem comes_back_iff (code : String) (scope : ScopeId) (cfg : Config) (s : State) :
    (∃ fuel t, (Program.runWith fuel code scope cfg s).EndsIn t) ↔
      ∃ k, ∀ callee arg u t, Program.runUnder (.layered k cfg.maxDepth) code scope cfg s ≠
        .stopped (.calling callee arg u) t := by
  have hlimit : (Coverage.below cfg.maxDepth).depth cfg s.depth := Nat.le_add_left _ _
  constructor
  · rintro ⟨fuel, t, hend⟩
    refine ⟨fuel, fun callee arg u t' hstop => ?_⟩
    obtain ⟨-, hmatch⟩ := Coverage.covers_runUnder
      (Coverage.agree_ofFuel_layered fuel cfg.maxDepth (Nat.le_refl fuel)) code scope cfg s hlimit
    rw [hstop] at hmatch
    rcases hmatch with hstopped | heq | ⟨m, u, -, hex⟩
    · exact hend.not_isStopped hstopped
    · exact hend.not_isStopped (congrArg Outcome.isStopped heq)
    · exact hex
  · rintro ⟨k, hk⟩
    have hends := (Coverage.covers_runUnder
      (Coverage.agree_ofFuel_layered k cfg.maxDepth (Nat.zero_le k)) code scope cfg s hlimit).1
    obtain ⟨-, hmatch⟩ := Coverage.covers_runUnder
      (Coverage.agree_layered_ofFuel k cfg.maxDepth (Nat.le_refl _)) code scope cfg s trivial
    generalize Program.runUnder (.layered k cfg.maxDepth) code scope cfg s = o at *
    have hended : o.isStopped = false := by
      cases o with
      | ok v t | error e t => rfl
      | stopped m t =>
        obtain ⟨callee, arg, u, rfl⟩ := hends
        exact absurd rfl (hk callee arg u t)
    rcases hmatch with hstopped | heq | ⟨m, u, -, hex⟩
    · exact absurd hstopped (Bool.eq_false_iff.mp hended)
    · refine ⟨cfg.maxDepth * (k + 1) + 1 + k, o.state, ?_⟩
      rw [Program.runWith, ← heq]
      exact Outcome.endsIn_state hended
    · exact hex.elim

/-! ## Moments from which nothing comes back -/

/-- Whether so much fuel is not enough for what begins at a moment. -/
def Moment.BreaksOff (fuel : Nat) (cfg : Config) (t : State) : Moment → Prop
  | .evaluating node scope => ((Evaluator.ofFuel fuel).eval node scope cfg t).isStopped
  | .calling callee arg scope => ((Evaluator.ofFuel fuel).call callee arg scope cfg t).isStopped
  | .answering _ | .failing _ => False

/-- **A moment from which nothing comes back**, with whatever fuel. -/
def Moment.Endless (cfg : Config) (t : State) (m : Moment) : Prop :=
  ∀ fuel, m.BreaksOff fuel cfg t

namespace Coverage

/-- The second computation may be broken off where that is picked and some fuel, not more than
`most`, is enough. -/
def atEnding (most : Nat) (picked : Moment → State → Prop) : Terms where
  depth _ _ := True
  breaks _ := True
  excused cfg m t := picked m t ∧ ∃ fuel ≤ most, ¬m.BreaksOff fuel cfg t

variable {most fuel : Nat} {picked : Moment → State → Prop} {stop : Moment → State → Bool}
  {m : Moment} {x y : Eval Value}

theorem matches_stopped (hfuel : fuel ≤ most) {cfg : Config} {s : State}
    (hm : m.BreaksOff fuel cfg s → (x cfg s).isStopped) (hpicked : picked m s) :
    (atEnding most picked).Matches cfg (x cfg s) (.stopped m s) := by
  by_cases hbreaks : m.BreaksOff fuel cfg s
  · exact Or.inl (hm hbreaks)
  · exact Or.inr (Or.inr ⟨m, s, rfl, hpicked, fuel, hfuel, hbreaks⟩)

theorem covers_stop (hfuel : fuel ≤ most) (hpicked : ∀ s, picked m s)
    (hm : ∀ cfg s, m.BreaksOff fuel cfg s → (x cfg s).isStopped) :
    Covers (atEnding most picked) x (Eval.stop m) := fun cfg s _ =>
  ⟨trivial, matches_stopped hfuel (hm cfg s) (hpicked s)⟩

theorem covers_pausing (hstop : ∀ m t, stop m t → picked m t) (hfuel : fuel ≤ most)
    (hm : ∀ cfg s, m.BreaksOff fuel cfg s → (x cfg s).isStopped)
    (hxy : Covers (atEnding most picked) x y) :
    Covers (atEnding most picked) x (Eval.pausing stop m y) := by
  intro cfg s hs
  rw [Eval.pausing_apply]
  split
  · next hpick => exact ⟨trivial, matches_stopped hfuel (hm cfg s) (hstop m s hpick)⟩
  · obtain ⟨hends, hmatch⟩ := hxy cfg s hs
    cases hy : y cfg s with
    | ok v t =>
      rw [hy] at hends hmatch
      rw [Outcome.checked]
      split
      · next hpick =>
        exact ⟨trivial, Or.inr (Or.inr ⟨.answering v, t, rfl, hstop _ t hpick, fuel, hfuel, id⟩)⟩
      · exact ⟨hends, hmatch⟩
    | error e t =>
      rw [hy] at hends hmatch
      rw [Outcome.checked]
      split
      · next hpick =>
        exact ⟨trivial, Or.inr (Or.inr ⟨.failing e, t, rfl, hstop _ t hpick, fuel, hfuel, id⟩)⟩
      · exact ⟨hends, hmatch⟩
    | stopped m' t =>
      rw [hy] at hends hmatch
      exact ⟨hends, hmatch⟩

/-- **An evaluator that is broken off**, beside one with no more fuel, or with any if everything is
picked. -/
theorem agree_ofFuel_picked (hstop : ∀ m t, stop m t → picked m t) (n : Nat) (hfuel : fuel ≤ most)
    (h : fuel ≤ n ∨ ∀ m t, picked m t) :
    (comparison (atEnding most picked)).Agree (.ofFuel fuel) (.until stop n) := by
  induction n generalizing fuel with
  | zero =>
    rcases h with hle | hall
    · obtain rfl : fuel = 0 := Nat.le_zero.mp hle
      exact .of_force covers_force (fun _ _ _ _ _ => ⟨trivial, Or.inl rfl⟩)
        fun _ _ _ _ _ _ => ⟨trivial, Or.inl rfl⟩
    · exact .of_force covers_force
        (fun node scope => covers_stop hfuel (hall (.evaluating node scope)) fun _ _ => id)
        fun callee arg scope => covers_stop hfuel (hall (.calling callee arg scope)) fun _ _ => id
  | succ n ih =>
    have hdeeper : ∀ {f}, (comparison (atEnding most picked)).Agree (.ofFuel f) (.until stop n) →
        ∀ node scope, Covers (atEnding most picked) (Eval.deeper (evalNode (.ofFuel f) node scope))
          (Eval.deeper (evalNode (.until stop n) node scope)) := fun hless node scope =>
      covers_deeper (D := (atEnding most picked).depth) (fun _ _ _ _ => trivial)
        (fun _ _ _ => trivial) (hless.evalNode node scope)
    cases fuel with
    | zero =>
      have hnone := ih hfuel (Or.inl (Nat.zero_le n))
      exact .of_force covers_force
        (fun node scope => covers_pausing hstop hfuel (fun _ _ => id)
          ((hdeeper hnone node scope).of_stopped fun _ _ => rfl))
        fun callee arg scope => covers_pausing hstop hfuel (fun _ _ => id)
          ((hnone.callValue callee arg scope).of_stopped fun _ _ => rfl)
    | succ f =>
      have hless := ih (Nat.le_of_succ_le hfuel) (h.imp_left Nat.le_of_succ_le_succ)
      exact .of_force covers_force
        (fun node scope => covers_pausing hstop hfuel (fun _ _ => id) (hdeeper hless node scope))
        fun callee arg scope => covers_pausing hstop hfuel (fun _ _ => id)
          (hless.callValue callee arg scope)

/-- An evaluator that is broken off, beside one with any fuel. -/
theorem agree_ofFuel_until (stop : Moment → State → Bool) (n fuel : Nat) :
    (comparison (atEnding fuel fun _ _ => True)).Agree (.ofFuel fuel) (.until stop n) :=
  agree_ofFuel_picked (fun _ _ _ => trivial) n (Nat.le_refl fuel) (Or.inr fun _ _ => trivial)

end Coverage

/-- **A run that gets to where nothing comes back does not come back either**, with whatever
fuel. -/
theorem isStopped_of_endless {stop : Moment → State → Bool} {n : Nat} {code : String}
    {scope : ScopeId} {cfg : Config} {s t : State} {m : Moment}
    (h : Program.runUnder (.until stop n) code scope cfg s = .stopped m t) (hm : m.Endless cfg t)
    (fuel : Nat) : (Program.runWith fuel code scope cfg s).isStopped := by
  obtain ⟨-, hmatch⟩ := Coverage.covers_runUnder
    (Coverage.agree_ofFuel_until stop n fuel) code scope cfg s trivial
  rw [h] at hmatch
  rcases hmatch with hstopped | heq | ⟨m', t', heq, -, f, -, hex⟩
  · exact hstopped
  · exact congrArg Outcome.isStopped heq
  · cases heq
    exact absurd (hm f) hex

end Fexpr
