import Fexpr.Proofs.Comparison.Plain
import Fexpr.Proofs.Moments
import Fexpr.Proofs.Promises.Course

/-!
# Proofs/Promises — the evaluator settles promises

Whatever the evaluator does, it leaves of a promise what was there, or the value it has run to; and
where it is broken off a promise may be in the course of being forced (`Outcome.Settles`).  The one
step that is more than routine is to force a promise (`rel_force`): its evaluation starts with the
promise marked and settles it as it is, marked, so that the mark is there to be taken away at the
end, whatever else was forced, failed or caught meanwhile.

As for closures (`Fexpr/Proofs/Anchoring`), a run is compared with itself broken off later, so that
what was forced at a moment of a run is forced at all later ones.
-/

namespace Fexpr

/-- **What a computation does to promises**: it settles them, or is broken off while it does. -/
def Outcome.Settles {ε α : Type} (may : Yields) (s : State) : Outcome ε α → Prop
  | .ok _ t | .error _ t => s.store.Settles may t.store
  | .stopped _ t => s.store.Moves may t.store

namespace Outcome.Settles

variable {ε α : Type} {may : Yields} {s t : State} {o : Outcome ε α}

theorem moves (h : o.Settles may s) : s.store.Moves may o.state.store := by
  cases o with
  | ok a t => exact Store.Settles.moves h
  | error e t => exact Store.Settles.moves h
  | stopped m t => exact h

theorem after (hst : s.store.Settles may t.store) (h : o.Settles may t) : o.Settles may s := by
  cases o with
  | ok a u => exact hst.trans h
  | error e u => exact hst.trans h
  | stopped m u => exact hst.trans_moves h

theorem endsIn (h : o.Settles may s) (ht : o.EndsIn t) : s.store.Settles may t.store := by
  rcases ht with ⟨a, rfl⟩ | ⟨e, rfl⟩
  · exact h
  · exact h

end Outcome.Settles

namespace Promises

/-- **Two ways to break a run off**, under a configuration, and what promises can run to in the
later one. -/
structure Setting where
  cfg : Config
  early : Moment → State → Bool
  late : Moment → State → Bool
  may : Yields

variable {T : Setting} {α β : Type}

/-- The earlier run is broken off at a moment that the later one passes, and what is forced there is
forced where that gets to. -/
def Setting.Onward (T : Setting) (m : Moment) (t u : State) : Prop :=
  (T.early m t ∧ ¬T.late m t) ∧ t.store.Lasts u.store

/-- **`y` settles promises, and `x` comes before it.** -/
def Rel (T : Setting) (x y : Eval α) : Prop :=
  ∀ s, (y T.cfg s).Settles T.may s ∧ (x T.cfg s).Precedes T.Onward (y T.cfg s)

theorem rel_bind {x y : Eval α} {f g : α → Eval β} (hxy : Rel T x y)
    (hfg : ∀ a, Returns y a → Rel T (f a) (g a)) : Rel T (x >>= f) (y >>= g) := by
  intro s
  obtain ⟨hy, hprec⟩ := hxy s
  have hnext : ∀ a t, y T.cfg s = .ok a t → (g a T.cfg t).Settles T.may t ∧
      (f a T.cfg t).Precedes T.Onward (g a T.cfg t) := fun a t hyo => hfg a ⟨_, s, t, hyo⟩ t
  refine ⟨?_, hprec.bind fun a t hyo =>
    ⟨(hnext a t hyo).2, fun _ _ h => ⟨h.1, h.2.trans (hnext a t hyo).1.moves.lasts⟩⟩⟩
  rw [Eval.bind_apply]
  cases hyo : y T.cfg s with
  | ok a t =>
    rw [hyo] at hy
    exact (hnext a t hyo).1.after hy
  | error e t | stopped m t => rwa [hyo] at hy

/-- Elementary operations leave promises as they are; a new one is pending. -/
theorem settles_elementary {N : Census} {scope : ScopeId} {x : Eval α} {Φ : Census → α → Prop}
    (h : Elementary N scope x Φ) (may : Yields) (cfg : Config) (s : State) :
    (x cfg s).Settles may s := by
  cases h with
  | lookup name =>
    rw [Eval.lookup]
    split <;> exact Store.Settles.refl _
  | bind binding u name hv =>
    cases binding with
    | inward | outward => exact Store.Settles.refl _
  | trace message =>
    obtain ⟨log, htrace⟩ := Eval.trace_apply message cfg s
    rw [htrace]
    exact Store.Settles.refl _
  | addPromise => exact Store.Settles.addPromise ..
  | read | capture | print | setSlot | setEntry | setAttribute => exact .of_promises rfl
  | addClosure | addObject | addDictionary | freshTag | freshCurriedTag => exact .of_promises rfl

theorem rel_attempt {x y : Eval α} (hxy : Rel T x y) :
    Rel T (Eval.attempt x) (Eval.attempt y) := by
  intro s
  obtain ⟨hy, hprec⟩ := hxy s
  refine ⟨?_, hprec.attempt⟩
  rw [Eval.attempt_apply]
  cases hyo : y T.cfg s <;> rwa [hyo] at hy

theorem rel_withFrame {parent : ScopeId} {x y : ScopeId → Eval α}
    (hxy : ∀ frame, Rel T (x frame) (y frame)) :
    Rel T (Eval.withFrame parent x) (Eval.withFrame parent y) := by
  intro s
  obtain ⟨hy, hprec⟩ := hxy (s.arena.child parent).1 { s with arena := (s.arena.child parent).2 }
  refine ⟨?_, hprec.withFrame fun _ _ _ _ h => h⟩
  rw [Eval.withFrame_apply]
  cases hyo : y (s.arena.child parent).1 T.cfg { s with arena := (s.arena.child parent).2 } <;>
    rwa [hyo] at hy

theorem rel_deeper {x y : Eval α} (hxy : Rel T x y) : Rel T (Eval.deeper x) (Eval.deeper y) := by
  intro s
  obtain ⟨hy, hprec⟩ := hxy { s with depth := s.depth + 1 }
  refine ⟨?_, hprec.deeper fun _ _ _ h => h⟩
  rw [Eval.deeper]
  split
  · exact Store.Settles.refl _
  · cases hyo : y T.cfg { s with depth := s.depth + 1 } <;> rwa [hyo] at hy

/-- **What a promise is evaluated to while it is marked, it may run to.** -/
def Setting.Admits (T : Setting) (r : Evaluator) : Prop :=
  ∀ id node u s v t, s.store.promise id = .forcing → r.eval node u T.cfg s = .ok v t →
    T.may id node u v

/-- **Forcing a promise settles it.** -/
theorem rel_force {r r' : Evaluator} (hmay : T.Admits r')
    (hr : ∀ node u, Rel T (r.eval node u) (r'.eval node u)) (id : PromiseId) :
    Rel T (Promise.force r id) (Promise.force r' id) := by
  intro s
  cases hp : s.store.promise id with
  | forced v =>
    rw [Promise.force_forced hp, Promise.force_forced hp]
    exact ⟨Store.Settles.refl _, Or.inl rfl⟩
  | forcing =>
    rw [Promise.force_forcing hp, Promise.force_forcing hp]
    exact ⟨Store.Settles.refl _, Or.inl rfl⟩
  | pending node u =>
    have hid : id < s.store.promises.size := Store.lt_size_of_promise_ne (by simp [hp])
    rw [Promise.force_pending hp, Promise.force_pending hp]
    obtain ⟨hy, hprec⟩ := hr node u (s.marked T.cfg id node)
    cases hyo : r'.eval node u T.cfg (s.marked T.cfg id node) with
    | ok v t =>
      rw [hyo] at hy hprec
      have hv := hmay id node u _ v t (Store.promise_setPromise_self hid) hyo
      refine ⟨Store.Settles.of_force hp hy (.ran hv), hprec.through (fun hx => by rw [hx])
        (fun m w hx => by rw [hx]) fun m w h =>
          ⟨h.1, h.2.trans (Store.Settles.lasts_setPromise hp hy _)⟩⟩
    | error e t =>
      rw [hyo] at hy hprec
      refine ⟨Store.Settles.of_force hp hy (.same _), hprec.through (fun hx => by rw [hx])
        (fun m w hx => by rw [hx]) fun m w h =>
          ⟨h.1, h.2.trans (Store.Settles.lasts_setPromise hp hy _)⟩⟩
    | stopped m t =>
      rw [hyo] at hy hprec
      exact ⟨Store.Moves.of_force hp hy, hprec.through (fun hx => by rw [hx])
        (fun m w hx => by rw [hx]) fun _ _ h => h⟩

/-- The settling of promises, as a relation that sequencing respects. -/
def congruence (T : Setting) : PlainCongruence where
  R := Rel T
  pure _ := fun _ => ⟨Store.Settles.refl _, Or.inl rfl⟩
  fail _ := fun _ => ⟨Store.Settles.refl _, Or.inl rfl⟩
  bind := rel_bind
  elementary h := fun s => ⟨settles_elementary h T.may T.cfg s, Or.inl rfl⟩

/-- **The settling of promises is a comparison.** -/
def comparison (T : Setting) : PlainComparison :=
  .ofCatches (congruence T)
    ((congruence T).catches rel_attempt fun _ => ⟨Store.Settles.refl _, Or.inl rfl⟩) rel_withFrame

/-! ## Runs that are broken off -/

theorem settles_checked {stop : Moment → State → Bool} {may : Yields} {s : State}
    {o : Outcome RunError Value} (h : o.Settles may s) : (o.checked stop).Settles may s := by
  cases o with
  | ok v t =>
    rw [Outcome.checked]
    split
    · exact Store.Settles.moves h
    · exact h
  | error e t =>
    rw [Outcome.checked]
    split
    · exact Store.Settles.moves h
    · exact h
  | stopped m t => exact h

theorem rel_pausing (hle : ∀ m t, T.late m t → T.early m t) {m : Moment} {x y : Eval Value}
    (hxy : Rel T x y) : Rel T (Eval.pausing T.early m x) (Eval.pausing T.late m y) := by
  intro s
  obtain ⟨hy, hprec⟩ := hxy s
  refine ⟨?_, hprec.pausing hle (fun _ t hearly hlate => ⟨⟨hearly, hlate⟩, .refl t.store⟩)
    fun hearly hlate => ⟨⟨hearly, hlate⟩, hy.moves.lasts⟩⟩
  rw [Eval.pausing_apply]
  split
  · exact (Store.Settles.refl _).moves
  · exact settles_checked hy

/-- **Whatever is evaluated, called or forced settles promises**, and what is forced at a moment is
forced at every later one. -/
theorem agree_until (hle : ∀ m t, T.late m t → T.early m t)
    (hmay : ∀ n, T.Admits (.until T.late n)) (fuel : Nat) :
    (comparison T).Agree (.until T.early fuel) (.until T.late fuel) := by
  induction fuel with
  | zero =>
    exact .of_force (rel_force (hmay 0)) (fun _ _ _ => ⟨(Store.Settles.refl _).moves, Or.inl rfl⟩)
      fun _ _ _ _ => ⟨(Store.Settles.refl _).moves, Or.inl rfl⟩
  | succ n ih =>
    exact .of_force (rel_force (hmay (n + 1)))
      (fun node scope => rel_pausing hle (rel_deeper (ih.evalNode node scope)))
      fun callee arg scope => rel_pausing hle (ih.callValue callee arg scope)

/-- **Every task settles promises**, and what is forced at a moment of it is forced at every later
one. -/
theorem settles_task (hle : ∀ m t, T.late m t → T.early m t)
    (hmay : ∀ n, T.Admits (.until T.late n)) (task : Task) (fuel : Nat) (s : State) :
    (task.under (.until T.late fuel) T.cfg s).Settles T.may s ∧
      (task.under (.until T.early fuel) T.cfg s).Precedes T.Onward
        (task.under (.until T.late fuel) T.cfg s) := by
  rcases (agree_until hle hmay fuel).task task with ⟨e, hsame⟩ | ⟨x, y, hxy, hsame⟩
  · rw [(hsame T.cfg s).1, (hsame T.cfg s).2]
    exact ⟨Store.Settles.refl _, Or.inl rfl⟩
  · have hrel : Rel T x y := hxy
    obtain ⟨hy, hprec⟩ := hrel s
    rw [(hsame T.cfg s).1, (hsame T.cfg s).2]
    refine ⟨?_, hprec.ofEval⟩
    rw [Run.ofEval]
    cases hyo : y T.cfg s <;> rwa [hyo] at hy

end Promises

end Fexpr
