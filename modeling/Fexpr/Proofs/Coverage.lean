import Fexpr.Proofs.Comparison.Plain
import Fexpr.Proofs.Moments

/-!
# Proofs/Coverage — two computations that end alike unless they are broken off

`y` **covers** `x` when `y` ends where `x` ends, unless one of them is broken off before.  That `x`
may be broken off says that more fuel changes nothing but that; where `y` may be, and at which
depths the two are compared at all, are the terms of the comparison (`Coverage.Terms`).  The terms
look at the depth only, so nothing but `Eval.deeper` changes them.
-/

namespace Fexpr

namespace Coverage

/-- **What is asked of the second computation.** -/
structure Terms where
  /-- At which depths it is looked at. -/
  depth : Config → Nat → Prop
  /-- Where it may be broken off at all. -/
  breaks : Moment → Prop
  /-- Where it may be broken off although the first comes to an end. -/
  excused : Config → Moment → State → Prop

variable {ε ε' α β : Type} {T : Terms} {cfg : Config}

/-- An end that the second computation may come to. -/
def Terms.Admits (T : Terms) (cfg : Config) : Outcome ε α → Prop
  | .ok _ t | .error _ t => T.depth cfg t.depth
  | .stopped m _ => T.breaks m

/-- The same end, unless one is broken off. -/
def Terms.Matches (T : Terms) (cfg : Config) (o o' : Outcome ε α) : Prop :=
  o.isStopped ∨ o = o' ∨ ∃ m t, o' = .stopped m t ∧ T.excused cfg m t

/-- **`y` covers `x`.** -/
def Covers (T : Terms) (x y : Eval α) : Prop :=
  ∀ cfg s, T.depth cfg s.depth →
    T.Admits cfg (y cfg s) ∧ T.Matches cfg (x cfg s) (y cfg s)

/-- What goes on after two computations, but not after one that was broken off. -/
theorem Terms.Matches.through {o o' : Outcome ε α} {p p' : Outcome ε' β} (h : T.Matches cfg o o')
    (hsame : o = o' → p = p') (hstop : ∀ m t, o = .stopped m t → p = .stopped m t)
    (hstop' : ∀ m t, o' = .stopped m t → p' = .stopped m t) : T.Matches cfg p p' := by
  rcases h with ho | heq | ⟨m, t, ho', hex⟩
  · obtain ⟨m, t, ho⟩ := Outcome.exists_of_isStopped ho
    rw [hstop m t ho]
    exact Or.inl rfl
  · exact Or.inr (Or.inl (hsame heq))
  · exact Or.inr (Or.inr ⟨m, t, hstop' m t ho', hex⟩)

theorem isStopped_bind {x : Eval α} (f : α → Eval β) {s : State} (h : (x cfg s).isStopped) :
    ((x >>= f) cfg s).isStopped := by
  obtain ⟨m, t, hx⟩ := Outcome.exists_of_isStopped h
  rw [Eval.bind_apply, hx]
  rfl

/-- A computation that is always broken off is covered by whatever may end as it ends. -/
theorem Covers.of_stopped {x y z : Eval α} (h : Covers T x y) (hz : ∀ cfg s, (z cfg s).isStopped) :
    Covers T z y := fun cfg s hs =>
  ⟨(h cfg s hs).1, Or.inl (hz cfg s)⟩

/-! ## The rules -/

theorem covers_bind {x y : Eval α} {f g : α → Eval β} (hxy : Covers T x y)
    (hfg : ∀ a, Returns y a → Covers T (f a) (g a)) : Covers T (x >>= f) (y >>= g) := by
  intro cfg s hs
  obtain ⟨hends, hmatch⟩ := hxy cfg s hs
  rw [Eval.bind_apply y]
  cases hy : y cfg s with
  | ok a t =>
    rw [hy] at hends hmatch
    obtain ⟨hends', hmatch'⟩ := hfg a ⟨cfg, s, t, hy⟩ cfg t hends
    refine ⟨hends', ?_⟩
    rcases hmatch with hx | hx | ⟨m, u, hstop, -⟩
    · exact Or.inl (isStopped_bind f hx)
    · rw [Eval.bind_apply, hx]
      exact hmatch'
    · cases hstop
  | error e t | stopped m t =>
    rw [hy] at hends hmatch
    refine ⟨hends, hmatch.through (fun hx => ?_) (fun m' t' hx => ?_) fun _ _ h => ?_⟩
    · rw [Eval.bind_apply, hx]
    · rw [Eval.bind_apply, hx]
    · cases h <;> rfl

/-- The elementary operations leave the depth as it is. -/
theorem depth_elementary {N : Census} {scope : ScopeId} {x : Eval α} {Φ : Census → α → Prop}
    (h : Elementary N scope x Φ) (cfg : Config) (s : State) :
    (∃ a t, x cfg s = .ok a t ∧ t.depth = s.depth) ∨
      ∃ e t, x cfg s = .error e t ∧ t.depth = s.depth := by
  cases h with
  | lookup name =>
    rw [Eval.lookup]
    split
    · exact Or.inl ⟨_, _, rfl, rfl⟩
    · exact Or.inr ⟨_, _, rfl, rfl⟩
  | bind binding u name hv =>
    cases binding with
    | inward | outward => exact Or.inl ⟨_, _, rfl, rfl⟩
  | trace message =>
    obtain ⟨log, htrace⟩ := Eval.trace_apply message cfg s
    exact Or.inl ⟨_, _, htrace, rfl⟩
  | read | capture | print | setSlot | setEntry | setAttribute =>
    exact Or.inl ⟨_, _, rfl, rfl⟩
  | addClosure | addObject | addDictionary | addPromise | freshTag | freshCurriedTag =>
    exact Or.inl ⟨_, _, rfl, rfl⟩

theorem covers_elementary {N : Census} {scope : ScopeId} {x : Eval α} {Φ : Census → α → Prop}
    (h : Elementary N scope x Φ) : Covers T x x := by
  intro cfg s hs
  refine ⟨?_, Or.inr (Or.inl rfl)⟩
  rcases depth_elementary h cfg s with ⟨a, t, hx, hdepth⟩ | ⟨e, t, hx, hdepth⟩
  · rwa [hx, Terms.Admits, hdepth]
  · rwa [hx, Terms.Admits, hdepth]

theorem covers_attempt {x y : Eval α} (hxy : Covers T x y) :
    Covers T (Eval.attempt x) (Eval.attempt y) := by
  intro cfg s hs
  obtain ⟨hends, hmatch⟩ := hxy cfg s hs
  refine ⟨?_, hmatch.through (fun hx => ?_) (fun m t hx => ?_) fun m t hy => ?_⟩
  · rw [Eval.attempt_apply]
    cases hy : y cfg s with
    | ok a t | error e t | stopped m t =>
      rw [hy] at hends
      exact hends
  · rw [Eval.attempt_apply, Eval.attempt_apply, hx]
  · rw [Eval.attempt_apply, hx]
  · rw [Eval.attempt_apply, hy]

theorem covers_withFrame {parent : ScopeId} {x y : ScopeId → Eval α}
    (hxy : ∀ frame, Covers T (x frame) (y frame)) :
    Covers T (Eval.withFrame parent x) (Eval.withFrame parent y) := by
  intro cfg s hs
  obtain ⟨hends, hmatch⟩ := hxy (s.arena.child parent).1 cfg
    { s with arena := (s.arena.child parent).2 } hs
  refine ⟨?_, hmatch.through (fun hx => ?_) (fun m t hx => ?_) fun m t hy => ?_⟩
  · rw [Eval.withFrame_apply]
    cases hy : y (s.arena.child parent).1 cfg { s with arena := (s.arena.child parent).2 } with
    | ok a t | error e t | stopped m t =>
      rw [hy] at hends
      exact hends
  · rw [Eval.withFrame_apply, Eval.withFrame_apply, hx]
  · rw [Eval.withFrame_apply, hx]
  · rw [Eval.withFrame_apply, hy]

/-- **One level deeper the comparison may be on other terms.** -/
theorem covers_deeper {D : Config → Nat → Prop} {x y : Eval α}
    (hdown : ∀ cfg n, T.depth cfg n → n < cfg.maxDepth → D cfg (n + 1))
    (hup : ∀ cfg n, D cfg n → T.depth cfg (n - 1)) (hxy : Covers { T with depth := D } x y) :
    Covers T (Eval.deeper x) (Eval.deeper y) := by
  intro cfg s hs
  rw [Eval.deeper, Eval.deeper]
  split
  · exact ⟨hs, Or.inr (Or.inl rfl)⟩
  · next hlimit =>
    obtain ⟨hends, hmatch⟩ := hxy cfg { s with depth := s.depth + 1 }
      (hdown cfg s.depth hs (Nat.lt_of_not_le hlimit))
    have hmatch : T.Matches cfg (x cfg { s with depth := s.depth + 1 })
        (y cfg { s with depth := s.depth + 1 }) := hmatch
    refine ⟨?_, hmatch.through (fun hx => ?_) (fun m t hx => ?_) fun m t hy => ?_⟩
    · cases hy : y cfg { s with depth := s.depth + 1 } with
      | ok a t | error e t =>
        rw [hy] at hends
        exact hup cfg t.depth hends
      | stopped m t =>
        rw [hy] at hends
        exact hends
    · rw [hx]
    · rw [hx]
    · rw [hy]

def congruence (T : Terms) : PlainCongruence where
  R := Covers T
  pure _ := fun _ _ hs => ⟨hs, Or.inr (Or.inl rfl)⟩
  fail _ := fun _ _ hs => ⟨hs, Or.inr (Or.inl rfl)⟩
  bind := covers_bind
  elementary := covers_elementary

theorem catches (T : Terms) : (congruence T).toCongruence.Catches :=
  (congruence T).catches covers_attempt fun _ _ hs => ⟨hs, Or.inr (Or.inl rfl)⟩

/-- **Coverage is a comparison**, on whatever terms. -/
def comparison (T : Terms) : PlainComparison :=
  .ofCatches (congruence T) (catches T) covers_withFrame

theorem covers_force {r r' : Evaluator}
    (hr : ∀ node scope, Covers T (r.eval node scope) (r'.eval node scope)) (id : PromiseId) :
    Covers T (Promise.force r id) (Promise.force r' id) :=
  (congruence T).force_of_catches (catches T) (fun _ _ _ hs => ⟨hs, Or.inr (Or.inl rfl)⟩) hr

end Coverage

end Fexpr
