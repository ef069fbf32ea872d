import Fexpr.Proofs.Arena.Use
import Fexpr.Proofs.Comparison.Plain
import Fexpr.Proofs.Moments

/-!
# Proofs/Balance — evaluation leaks no frame and no depth

Every computation of the evaluator is **balanced**: whether it returns or fails, the depth is what
it was, the frames in use are still in use under the same parents, and what is in use beyond them
is captured.  Balance is a plain comparison of a computation with itself, whose one interesting law
is that of frames (`Arena.Settles.of_frame`): a frame that is opened is dropped on every way out,
and what was opened inside it and stayed had been captured.
-/

namespace Fexpr

/-- **From `s` to `t` nothing leaked.** -/
structure State.Balanced (s t : State) : Prop where
  depth : t.depth = s.depth
  settles : s.arena.Settles t.arena

/-- **A computation that returns or fails leaks nothing**; where it is broken off, the free list is
in order. -/
def Outcome.Balanced {ε α : Type} (s : State) : Outcome ε α → Prop
  | .ok _ t | .error _ t => s.Balanced t
  | .stopped _ t => t.arena.Tidy

namespace State.Balanced

variable {s t u : State}

theorem refl (h : s.arena.Tidy) : s.Balanced s := ⟨rfl, .refl h⟩

theorem trans (hst : s.Balanced t) (htu : t.Balanced u) : s.Balanced u :=
  ⟨htu.depth.trans hst.depth, hst.settles.trans htu.settles⟩

theorem tidy (h : s.Balanced t) : t.arena.Tidy := h.settles.tidy

end State.Balanced

theorem Outcome.Balanced.tidy {ε α : Type} {s : State} {o : Outcome ε α} (h : o.Balanced s) :
    o.state.arena.Tidy := by
  cases o with
  | ok a t => exact State.Balanced.tidy h
  | error e t => exact State.Balanced.tidy h
  | stopped m t => exact h

/-- What comes after a balanced step. -/
theorem Outcome.Balanced.after {ε α : Type} {s t : State} {o : Outcome ε α} (hst : s.Balanced t)
    (h : o.Balanced t) : o.Balanced s := by
  cases o with
  | ok a u => exact hst.trans h
  | error e u => exact hst.trans h
  | stopped m u => exact h

namespace Balance

/-- A computation that is balanced from every state with a tidy arena. -/
def Balanced {α : Type} (x : Eval α) : Prop :=
  ∀ cfg s, s.arena.Tidy → (x cfg s).Balanced s

variable {α β : Type}

theorem balanced_bind {x : Eval α} {f : α → Eval β} (hx : Balanced x)
    (hf : ∀ a, Returns x a → Balanced (f a)) : Balanced (x >>= f) := by
  intro cfg s hs
  have h := hx cfg s hs
  rw [Eval.bind_apply]
  cases hxs : x cfg s with
  | ok a t =>
    rw [hxs] at h
    exact (hf a ⟨cfg, s, t, hxs⟩ cfg t (State.Balanced.tidy h)).after h
  | error e t => rwa [hxs] at h
  | stopped m t => rwa [hxs] at h

theorem balanced_elementary {N : Census} {scope : ScopeId} {x : Eval α} {Φ : Census → α → Prop}
    (h : Elementary N scope x Φ) : Balanced x := by
  intro cfg s hs
  cases h with
  | lookup name =>
    rw [Eval.lookup]
    split <;> exact .refl hs
  | bind binding u name hv =>
    cases binding with
    | inward => exact ⟨rfl, Arena.settles_set hs u name _⟩
    | outward => exact ⟨rfl, Arena.settles_setOutward hs u name _⟩
  | capture => exact ⟨rfl, Arena.settles_capture hs scope⟩
  | trace message =>
    rw [Eval.trace]
    split <;> exact ⟨rfl, .refl hs⟩
  | read | print | setSlot | setEntry | setAttribute => exact ⟨rfl, .refl hs⟩
  | addClosure | addObject | addDictionary | addPromise => exact ⟨rfl, .refl hs⟩
  | freshTag | freshCurriedTag => exact ⟨rfl, .refl hs⟩

theorem balanced_attempt {x : Eval α} (hx : Balanced x) : Balanced (Eval.attempt x) := by
  intro cfg s hs
  have h := hx cfg s hs
  rw [Eval.attempt_apply]
  cases hxs : x cfg s <;> rwa [hxs] at h

/-- **A frame that is opened and closed again leaks nothing.** -/
theorem balanced_withFrame {parent : ScopeId} {x : ScopeId → Eval α}
    (hx : ∀ frame, Balanced (x frame)) : Balanced (Eval.withFrame parent x) := by
  intro cfg s hs
  have h := hx (s.arena.child parent).1 cfg { s with arena := (s.arena.child parent).2 }
    (hs.child parent)
  rw [Eval.withFrame_apply]
  cases hxs : x (s.arena.child parent).1 cfg { s with arena := (s.arena.child parent).2 } with
  | ok a t =>
    rw [hxs] at h
    obtain ⟨hdepth, hsettles⟩ := h
    exact ⟨hdepth, .of_frame hs hsettles⟩
  | error e t =>
    rw [hxs] at h
    obtain ⟨hdepth, hsettles⟩ := h
    exact ⟨hdepth, .of_frame hs hsettles⟩
  | stopped m t => rwa [hxs] at h

/-- A deeper level is left as it was entered. -/
theorem balanced_deeper {x : Eval α} (hx : Balanced x) : Balanced (Eval.deeper x) := by
  intro cfg s hs
  have h := hx cfg { s with depth := s.depth + 1 } hs
  rw [Eval.deeper]
  split
  · exact State.Balanced.refl hs
  · cases hxs : x cfg { s with depth := s.depth + 1 } with
    | ok a t =>
      rw [hxs] at h
      obtain ⟨hdepth, hsettles⟩ := h
      exact ⟨congrArg (· - 1) hdepth, hsettles⟩
    | error e t =>
      rw [hxs] at h
      obtain ⟨hdepth, hsettles⟩ := h
      exact ⟨congrArg (· - 1) hdepth, hsettles⟩
    | stopped m t => rwa [hxs] at h

theorem balanced_checked {stop : Moment → State → Bool} {s : State}
    {o : Outcome RunError Value} (h : o.Balanced s) : (o.checked stop).Balanced s := by
  cases o with
  | ok v t =>
    rw [Outcome.checked]
    split
    · exact State.Balanced.tidy h
    · exact h
  | error e t =>
    rw [Outcome.checked]
    split
    · exact State.Balanced.tidy h
    · exact h
  | stopped m t => exact h

theorem balanced_pausing {stop : Moment → State → Bool} {m : Moment} {x : Eval Value}
    (hx : Balanced x) : Balanced (Eval.pausing stop m x) := by
  intro cfg s hs
  rw [Eval.pausing_apply]
  split
  · exact hs
  · exact balanced_checked (hx cfg s hs)

/-- Balance, as a relation that sequencing respects. -/
def congruence : PlainCongruence where
  R _ y := Balanced y
  pure _ := fun _ _ hs => .refl hs
  fail _ := fun _ _ hs => State.Balanced.refl hs
  bind := balanced_bind
  elementary := balanced_elementary

theorem catches : congruence.toCongruence.Catches :=
  congruence.catches balanced_attempt fun _ _ hs => .refl hs

/-- **Balance is a comparison.** -/
def comparison : PlainComparison :=
  .ofCatches congruence catches balanced_withFrame

theorem balanced_force {r : Evaluator} (hr : ∀ node scope, Balanced (r.eval node scope))
    (id : PromiseId) : Balanced (Promise.force r id) :=
  congruence.force_of_catches catches (r := r) (fun _ _ _ hs => ⟨rfl, .refl hs⟩) hr

/-- **Every evaluator is balanced**, wherever it is broken off. -/
theorem agree_until (stop : Moment → State → Bool) (fuel : Nat) :
    comparison.Agree (.until stop fuel) (.until stop fuel) := by
  induction fuel with
  | zero => exact .of_force balanced_force (fun _ _ _ _ hs => hs) fun _ _ _ _ _ hs => hs
  | succ n ih =>
    exact .of_force balanced_force
      (fun node scope => balanced_pausing (balanced_deeper (ih.evalNode node scope)))
      fun callee arg scope => balanced_pausing (ih.callValue callee arg scope)

/-- Evaluators that are broken off for lack of fuel only. -/
theorem agree_ofFuel (fuel : Nat) : comparison.Agree (.ofFuel fuel) (.ofFuel fuel) := by
  rw [← Evaluator.until_never]
  exact agree_until _ fuel

/-- **Runs are balanced**, wherever they are broken off. -/
theorem balanced_runUnder (stop : Moment → State → Bool) (fuel : Nat) (code : String)
    (scope : ScopeId) {cfg : Config} {s : State} (hs : s.arena.Tidy) :
    (Program.runUnder (.until stop fuel) code scope cfg s).Balanced s := by
  rw [Program.runUnder_apply]
  split
  · exact State.Balanced.refl hs
  · next forms _ =>
    have h : Balanced (Program.runForms (.until stop fuel) forms scope) :=
      (agree_until stop fuel).runForms forms scope
    have hrun := h cfg s hs
    split
    all_goals next heq => rwa [heq] at hrun

end Balance

/-! ## From every reachable state -/

/-- **The free list is in order whatever a host does.** -/
theorem Reachable.tidy {s : State} (h : Reachable s) : s.arena.Tidy := by
  induction h with
  | initial =>
    exact State.arena_initial_of Arena.tidy_fresh fun _ name v _ ha =>
      (Arena.settles_set ha Arena.root name v).tidy
  | run stop fuel code scope cfg _ ih =>
    exact (Balance.balanced_runUnder stop fuel code scope ih).tidy
  | eval stop fuel node scope cfg _ ih =>
    exact ((Balance.agree_until stop fuel).eval node scope cfg _ ih).tidy
  | call stop fuel callee arg scope cfg _ ih =>
    exact ((Balance.agree_until stop fuel).call callee arg scope cfg _ ih).tidy
  | child parent _ ih => exact ih.child parent
  | set u name v _ ih => exact (Arena.settles_set ih u name v).tidy
  | setOutward u name v _ ih => exact (Arena.settles_setOutward ih u name v).tidy
  | capture u _ ih => exact (Arena.settles_capture ih u).tidy
  | release u _ ih => exact ih.release u
  | store st _ ih => exact ih

/-- **What an evaluation leaves behind**: the depth as it was, the frames in use still in use under
the same parents, and beside them captured frames only, as many as the arena has grown by. -/
structure State.Leakless (s t : State) : Prop where
  depth : t.depth = s.depth
  kept : ∀ u ∈ s.arena.inUse, u ∈ t.arena.inUse ∧ t.arena.parent? u = s.arena.parent? u
  opened : ∀ u ∈ t.arena.inUse, u ∉ s.arena.inUse → t.arena.isCaptured u
  live : t.arena.live = s.arena.live + (t.arena.inUse \ s.arena.inUse).card

theorem State.Balanced.leakless {s t : State} (hs : s.arena.Tidy) (h : s.Balanced t) :
    s.Leakless t where
  depth := h.depth
  kept u hu := ⟨h.settles.inUse u hu, h.settles.parent? u hu⟩
  opened u hu hnew := (h.settles.opened u hu).resolve_left hnew
  live := h.settles.live_eq hs

/-- **Evaluation leaks no frame and no depth**, whether it returns or fails, and neither does a
call. -/
theorem eval_and_call_leakless {s t : State} (hs : Reachable s) (fuel : Nat) (cfg : Config)
    (node : Node) (callee : Value) (arg : Node) (scope : ScopeId)
    (ht : ((Evaluator.ofFuel fuel).eval node scope cfg s).EndsIn t ∨
      ((Evaluator.ofFuel fuel).call callee arg scope cfg s).EndsIn t) :
    s.Leakless t := by
  have hagree := Balance.agree_until (fun _ _ => false) fuel
  rw [Evaluator.until_never] at hagree
  refine State.Balanced.leakless hs.tidy ?_
  rcases ht with (⟨v, h⟩ | ⟨e, h⟩) | (⟨v, h⟩ | ⟨e, h⟩)
  · have hbalanced := hagree.eval node scope cfg s hs.tidy
    rwa [h] at hbalanced
  · have hbalanced := hagree.eval node scope cfg s hs.tidy
    rwa [h] at hbalanced
  · have hbalanced := hagree.call callee arg scope cfg s hs.tidy
    rwa [h] at hbalanced
  · have hbalanced := hagree.call callee arg scope cfg s hs.tidy
    rwa [h] at hbalanced

/-- `((fn [x] (fn () x)) 1)`: a call whose frame a function holds on to. -/
def Node.heldFrame : Node :=
  .call (.call (.identifier "fn") [.call (.value "list" (.builtin .list)) [.identifier "x"],
    .call (.identifier "fn") [.nil, .identifier "x"]]) [.numeral 1]

theorem heldFrame_leakless :
    ∃ t, ((Evaluator.ofFuel 6).eval .heldFrame Arena.root {} .initial).EndsIn t ∧
      t.arena.live = 2 ∧ State.initial.Leakless t := by
  have hend := Outcome.endsIn_state
    (o := (Evaluator.ofFuel 6).eval .heldFrame Arena.root {} .initial) (by decide +kernel)
  exact ⟨_, hend, by decide +kernel,
    eval_and_call_leakless .initial 6 {} .heldFrame .nil .nil Arena.root (.inl hend)⟩

end Fexpr
