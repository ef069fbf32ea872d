import Fexpr.Proofs.Calling
import Fexpr.Proofs.Evaluation

/-!
# Proofs/Nearness/Sinking — the same run, some levels further down

    s ──run──▸ t            s + k ──run──▸ t + k

Nothing but the depth limit looks at the depth, so a run that starts `k` levels further down ends
`k` levels further down, with the same value or error and in a state that is the same in all else,
the log of a debugging session included (`StaysBelowLimit.eval_sunk`).  The one thing that can keep
it from that is a recursion-limit error, at which it is broken off here (`atLimit`).

`Near` compares runs that do different things on their way; here the two runs do the same, so that
the ends can be equal and not only alike.
-/

namespace Fexpr

/-- **The state `k` levels further down.** -/
def State.sunk (k : Nat) (s : State) : State :=
  { s with depth := k + s.depth }

namespace Outcome

variable {ε α : Type}

/-- The same outcome in the state `k` levels further down. -/
def sunk (k : Nat) : Outcome ε α → Outcome ε α
  | .ok a t => .ok a (t.sunk k)
  | .error e t => .error e (t.sunk k)
  | .stopped m t => .stopped m (t.sunk k)

/-- Whatever has come to an end is at the depth `d`. -/
def EndsAtDepth (d : Nat) : Outcome ε α → Prop
  | .ok _ t | .error _ t => t.depth = d
  | .stopped _ _ => True

end Outcome

namespace Sinking

variable {k d : Nat} {α β : Type}

/-- **The outcome `o` is the outcome `o'` further down**, unless it was broken off at the limit. -/
def Follows (k d : Nat) (o o' : Outcome RunError α) : Prop :=
  (∃ m t, o = .stopped m t ∧ m.isLimit) ∨ (o = o'.sunk k ∧ o'.EndsAtDepth d)

/-- **`x` does further down what `y` does.** -/
def Sinks (k : Nat) (x y : Eval α) : Prop :=
  ∀ cfg s, Follows k s.depth (x cfg (s.sunk k)) (y cfg s)

/-- What goes on after two computations, but not after one that was broken off at the limit. -/
theorem Follows.through {d' : Nat} {o o' : Outcome RunError α} {p p' : Outcome RunError β}
    (h : Follows k d o o') (hstop : ∀ m t, o = .stopped m t → p = .stopped m t)
    (hsame : o = o'.sunk k → o'.EndsAtDepth d → Follows k d' p p') : Follows k d' p p' := by
  rcases h with ⟨m, t, ho, hm⟩ | ⟨ho, hd⟩
  · exact .inl ⟨m, t, hstop m t ho, hm⟩
  · exact hsame ho hd

/-! ## The rules -/

section Rules

variable {x y : Eval α} {f g : α → Eval β}

theorem sinks_bind (hxy : Sinks k x y) (hfg : ∀ a, Returns y a → Sinks k (f a) (g a)) :
    Sinks k (x >>= f) (y >>= g) := by
  intro cfg s
  refine (hxy cfg s).through (fun m t hx => by rw [Eval.bind_apply, hx]) fun hx hd => ?_
  rw [Eval.bind_apply, Eval.bind_apply, hx]
  cases hy : y cfg s with
  | ok a t =>
    rw [hy] at hd
    rw [← show t.depth = s.depth from hd]
    exact hfg a ⟨cfg, s, t, hy⟩ cfg t
  | error e t =>
    rw [hy] at hd
    exact .inr ⟨rfl, hd⟩
  | stopped m t => exact .inr ⟨rfl, trivial⟩

/-- The elementary operations do not look at the depth. -/
theorem sinks_elementary {N : Census} {scope : ScopeId} {Φ : Census → α → Prop}
    (h : Elementary N scope x Φ) : Sinks k x x := by
  intro cfg s
  refine .inr ⟨?_, ?_⟩
  · cases h with
    | lookup name =>
      simp only [Eval.lookup, State.sunk]
      cases s.arena.get? scope name <;> rfl
    | bind binding u name hv =>
      cases binding with
      | inward | outward => rfl
    | trace message =>
      rw [Eval.trace, Eval.trace]
      split <;> rfl
    | read | capture | print | setSlot | setEntry | setAttribute => rfl
    | addClosure | addObject | addDictionary | addPromise | freshTag | freshCurriedTag => rfl
  · rcases Coverage.depth_elementary h cfg s with ⟨a, t, hx, hd⟩ | ⟨e, t, hx, hd⟩
    · rwa [hx]
    · rwa [hx]

theorem sinks_attempt (hxy : Sinks k x y) : Sinks k (Eval.attempt x) (Eval.attempt y) := by
  intro cfg s
  refine (hxy cfg s).through (fun m t hx => by rw [Eval.attempt_apply, hx]) fun hx hd => ?_
  rw [Eval.attempt_apply, Eval.attempt_apply, hx]
  cases hy : y cfg s with
  | ok a t | error e t =>
    rw [hy] at hd
    exact .inr ⟨rfl, hd⟩
  | stopped m t => exact .inr ⟨rfl, trivial⟩

theorem sinks_withFrame {parent : ScopeId} {x y : ScopeId → Eval α}
    (hxy : ∀ frame, Sinks k (x frame) (y frame)) :
    Sinks k (Eval.withFrame parent x) (Eval.withFrame parent y) := by
  intro cfg s
  have hopened : Follows k s.depth
      (x ((s.sunk k).arena.child parent).1 cfg
        { s.sunk k with arena := ((s.sunk k).arena.child parent).2 })
      (y (s.arena.child parent).1 cfg { s with arena := (s.arena.child parent).2 }) :=
    hxy (s.arena.child parent).1 cfg { s with arena := (s.arena.child parent).2 }
  rw [Eval.withFrame_apply, Eval.withFrame_apply]
  refine hopened.through (fun m t hx => by rw [hx]) fun hx hd => ?_
  rw [hx]
  generalize y (s.arena.child parent).1 cfg _ = o at hd ⊢
  cases o with
  | ok a t | error e t => exact .inr ⟨rfl, hd⟩
  | stopped m t => exact .inr ⟨rfl, trivial⟩

/-- Sinking, as a relation that sequencing respects. -/
def congruence (k : Nat) : PlainCongruence where
  R := Sinks k
  pure _ := fun _ _ => .inr ⟨rfl, rfl⟩
  fail _ := fun _ _ => .inr ⟨rfl, rfl⟩
  bind := sinks_bind
  elementary := sinks_elementary

theorem catches (k : Nat) : (congruence k).toCongruence.Catches :=
  (congruence k).catches sinks_attempt fun _ _ => .inr ⟨rfl, rfl⟩

/-- **Sinking is a comparison.** -/
def comparison (k : Nat) : PlainComparison :=
  .ofCatches (congruence k) (catches k) sinks_withFrame

theorem sinks_force {r r' : Evaluator}
    (hr : ∀ node scope, Sinks k (r.eval node scope) (r'.eval node scope)) (id : PromiseId) :
    Sinks k (Promise.force r id) (Promise.force r' id) :=
  (congruence k).force_of_catches (catches k) (fun _ _ _ => .inr ⟨rfl, rfl⟩) hr

end Rules

/-! ## Broken off at the limit -/

variable {x y : Eval Value}

theorem Follows.checked {o o' : Outcome RunError Value} (h : Follows k d o o') :
    Follows k d (o.checked atLimit) o' := by
  refine h.through (fun m t ho => by rw [ho]; rfl) fun ho hd => ?_
  cases o' with
  | ok v t =>
    rw [ho]
    exact .inr ⟨rfl, hd⟩
  | error e t =>
    rw [ho, Outcome.sunk, Outcome.checked]
    split
    · next hlimit => exact .inl ⟨_, _, rfl, hlimit⟩
    · exact .inr ⟨rfl, hd⟩
  | stopped m t =>
    rw [ho]
    exact .inr ⟨rfl, trivial⟩

theorem sinks_calling (hxy : Sinks k x y) (callee : Value) (arg : Node) (scope : ScopeId) :
    Sinks k (Eval.pausing atLimit (.calling callee arg scope) x) y := by
  intro cfg s
  rw [Eval.pausing_apply]
  exact (hxy cfg s).checked

/-- **One level deeper**: where the upper run is at the limit, so is the lower one. -/
theorem sinks_evaluating (hxy : Sinks k x y) (node : Node) (scope : ScopeId) :
    Sinks k (Eval.pausing atLimit (.evaluating node scope) (Eval.deeper x)) (Eval.deeper y) := by
  intro cfg s
  rw [Eval.pausing_apply]
  change Follows k s.depth ((Eval.deeper x cfg (s.sunk k)).checked atLimit) _
  by_cases hlimit : cfg.maxDepth ≤ (s.sunk k).depth
  · rw [Eval.deeper_of_le hlimit]
    exact .inl ⟨_, _, rfl, rfl⟩
  · have hlower : (s.sunk k).depth < cfg.maxDepth := Nat.lt_of_not_le hlimit
    have hupper : s.depth < cfg.maxDepth := Nat.lt_of_le_of_lt (Nat.le_add_left _ _) hlower
    rw [Eval.deeper_of_lt hlower, Eval.deeper_of_lt hupper]
    have hinside : Follows k (s.depth + 1)
        (x cfg { s.sunk k with depth := (s.sunk k).depth + 1 })
        (y cfg { s with depth := s.depth + 1 }) := hxy cfg { s with depth := s.depth + 1 }
    refine Follows.checked (hinside.through (fun m t hx => by rw [hx]) fun hx hd => ?_)
    rw [hx]
    generalize y cfg { s with depth := s.depth + 1 } = o at hd ⊢
    -- the level that is left is the one that was entered, on both sides
    cases o with
    | ok v t | error e t =>
      obtain ⟨arena, store, depth, output, log⟩ := t
      obtain rfl : depth = s.depth + 1 := hd
      exact .inr ⟨rfl, rfl⟩
    | stopped m t => exact .inr ⟨rfl, trivial⟩

/-- **A run does further down what it does**, up to where it raises a recursion-limit error. -/
theorem agree_until (k fuel : Nat) :
    (comparison k).Agree (.until atLimit fuel) (.ofFuel fuel) := by
  induction fuel with
  | zero =>
    exact .of_force sinks_force (fun _ _ _ _ => Or.inr ⟨rfl, trivial⟩)
      fun _ _ _ _ _ => Or.inr ⟨rfl, trivial⟩
  | succ n ih =>
    exact .of_force sinks_force
      (fun node scope => sinks_evaluating (ih.evalNode node scope) node scope)
      fun callee arg scope => sinks_calling (ih.callValue callee arg scope) callee arg scope

end Sinking

/-- **Further down the same happens**, where no recursion-limit error is raised. -/
theorem StaysBelowLimit.eval_sunk {node : Node} {scope : ScopeId} {cfg : Config} {s : State}
    {k : Nat} (h : StaysBelowLimit (fun r => r.eval node scope) cfg (s.sunk k)) (fuel : Nat) :
    (Evaluator.ofFuel fuel).eval node scope cfg (s.sunk k) =
        ((Evaluator.ofFuel fuel).eval node scope cfg s).sunk k ∧
      ((Evaluator.ofFuel fuel).eval node scope cfg s).EndsAtDepth s.depth := by
  rcases (Sinking.agree_until k fuel).eval node scope cfg s with ⟨m, t, hstopped, hm⟩ | hsame
  · exact absurd hm (h fuel m t hstopped)
  · rwa [h.eval_eq fuel] at hsame

end Fexpr
