import Fexpr.Proofs.Arena.Use
import Fexpr.Proofs.Comparison.Plain
import Fexpr.Proofs.Moments

/-!
# Proofs/Permanence — what no computation takes back

A closure is what it was when it was made, and the arena never has fewer slots than before.  That is
so at every end of every computation, also where it is broken off (`agree_ofFuel`): a plain
comparison of a computation with itself that asks nothing of the state it starts from.
-/

namespace Fexpr

/-- **What is in `xs` is still in `ys`**, under the same numbers. -/
def Retained {α : Type} (xs ys : Array α) : Prop :=
  ∀ i < xs.size, ys[i]? = xs[i]?

namespace Retained

variable {α : Type} {xs ys zs : Array α}

theorem refl (xs : Array α) : Retained xs xs := fun _ _ => rfl

theorem trans (hxy : Retained xs ys) (hyz : Retained ys zs) : Retained xs zs := by
  intro i hi
  have hy : ys[i]? = some xs[i] := (hxy i hi).trans (Array.getElem?_eq_getElem hi)
  exact (hyz i (Array.getElem?_eq_some_iff.mp hy).1).trans (hxy i hi)

theorem push (xs : Array α) (x : α) : Retained xs (xs.push x) := by
  intro i hi
  rw [Array.getElem?_push, if_neg (Nat.ne_of_lt hi)]

end Retained

/-- **From `s` to `t` no closure has changed and no slot has gone.** -/
structure State.Extends (s t : State) : Prop where
  closures : Retained s.store.closures t.store.closures
  slots : s.arena.frames.size ≤ t.arena.frames.size

namespace State.Extends

variable {s t u : State}

theorem trans (hst : s.Extends t) (htu : t.Extends u) : s.Extends u :=
  ⟨hst.closures.trans htu.closures, Nat.le_trans hst.slots htu.slots⟩

/-- The same closures and no fewer slots. -/
theorem of_closures (hc : t.store.closures = s.store.closures)
    (ha : s.arena.frames.size ≤ t.arena.frames.size) : s.Extends t :=
  ⟨hc ▸ .refl _, ha⟩

theorem of_same (hc : t.store.closures = s.store.closures)
    (ha : t.arena.frames.size = s.arena.frames.size) : s.Extends t :=
  of_closures hc (Nat.le_of_eq ha.symm)

theorem refl (s : State) : s.Extends s := of_same rfl rfl

end State.Extends

/-! ## How many slots there are -/

namespace Arena

theorem size_set (a : Arena) (u : ScopeId) (name : String) (v : Value) :
    (a.set u name v).frames.size = a.frames.size :=
  size_update a u _

theorem size_setOutward (a : Arena) (u : ScopeId) (name : String) (v : Value) :
    (a.setOutward u name v).2.frames.size = a.frames.size := by
  rw [setOutward]
  split
  · exact size_set ..
  · exact size_set ..

theorem size_capture (a : Arena) (u : ScopeId) : (a.capture u).frames.size = a.frames.size :=
  size_marks a _

theorem size_le_child (a : Arena) (p : ScopeId) : a.frames.size ≤ (a.child p).2.frames.size := by
  rw [child]
  split <;> simp

end Arena

namespace Permanence

variable {α β : Type}

/-- A computation that takes nothing back. -/
def Permanent (x : Eval α) : Prop :=
  ∀ (cfg : Config) (s : State), s.Extends (x cfg s).state

theorem permanent_bind {x : Eval α} {f : α → Eval β} (hx : Permanent x)
    (hf : ∀ a, Returns x a → Permanent (f a)) : Permanent (x >>= f) := by
  intro cfg s
  have h := hx cfg s
  rw [Eval.bind_apply]
  cases hxs : x cfg s with
  | ok a t =>
    rw [hxs] at h
    exact State.Extends.trans h (hf a ⟨cfg, s, t, hxs⟩ cfg t)
  | error e t | stopped m t => rwa [hxs] at h

theorem permanent_elementary {N : Census} {scope : ScopeId} {x : Eval α} {Φ : Census → α → Prop}
    (h : Elementary N scope x Φ) : Permanent x := by
  intro cfg s
  cases h with
  | lookup name =>
    rw [Eval.lookup]
    split <;> exact .refl s
  | bind binding u name hv =>
    cases binding with
    | inward => exact .of_same rfl (s.arena.size_set u name _)
    | outward => exact .of_same rfl (s.arena.size_setOutward u name _)
  | capture => exact .of_same rfl (s.arena.size_capture scope)
  | trace message =>
    rw [Eval.trace]
    split <;> exact .of_same rfl rfl
  | addClosure hc => exact ⟨.push _ _, Nat.le_refl _⟩
  | read | print | setSlot | setEntry | setAttribute => exact .of_same rfl rfl
  | addObject | addDictionary | addPromise | freshTag | freshCurriedTag => exact .of_same rfl rfl

theorem permanent_attempt {x : Eval α} (hx : Permanent x) : Permanent (Eval.attempt x) := by
  intro cfg s
  have h := hx cfg s
  rw [Eval.attempt_apply]
  cases hxs : x cfg s <;> rwa [hxs] at h

theorem permanent_withFrame {parent : ScopeId} {x : ScopeId → Eval α}
    (hx : ∀ frame, Permanent (x frame)) : Permanent (Eval.withFrame parent x) := by
  intro cfg s
  have hopen : s.Extends { s with arena := (s.arena.child parent).2 } :=
    .of_closures rfl (s.arena.size_le_child parent)
  have hclose : ∀ t : State, t.Extends
      { t with arena := t.arena.release (s.arena.child parent).1 } := fun t =>
    .of_same rfl (t.arena.size_release _)
  have h := hopen.trans
    (hx (s.arena.child parent).1 cfg { s with arena := (s.arena.child parent).2 })
  rw [Eval.withFrame_apply]
  cases hxs : x (s.arena.child parent).1 cfg { s with arena := (s.arena.child parent).2 } with
  | ok a t | error e t =>
    rw [hxs] at h
    exact State.Extends.trans h (hclose t)
  | stopped m t => rwa [hxs] at h

theorem permanent_deeper {x : Eval α} (hx : Permanent x) : Permanent (Eval.deeper x) := by
  intro cfg s
  have h := hx cfg { s with depth := s.depth + 1 }
  rw [Eval.deeper]
  split
  · exact .refl s
  · cases hxs : x cfg { s with depth := s.depth + 1 } <;> rw [hxs] at h <;>
      exact ⟨h.closures, h.slots⟩

/-- Permanence, as a relation that sequencing respects. -/
def congruence : PlainCongruence where
  R _ y := Permanent y
  pure _ := fun _ s => .refl s
  fail _ := fun _ s => .refl s
  bind := permanent_bind
  elementary := permanent_elementary

theorem catches : congruence.toCongruence.Catches :=
  congruence.catches permanent_attempt fun _ s => .refl s

/-- **Permanence is a comparison.** -/
def comparison : PlainComparison :=
  .ofCatches congruence catches permanent_withFrame

theorem permanent_force {r : Evaluator} (hr : ∀ node scope, Permanent (r.eval node scope))
    (id : PromiseId) : Permanent (Promise.force r id) :=
  congruence.force_of_catches catches (r := r) (fun _ _ _ => .of_same rfl rfl) hr

/-- **Nothing an evaluator does takes anything back.** -/
theorem agree_ofFuel (fuel : Nat) : comparison.Agree (.ofFuel fuel) (.ofFuel fuel) := by
  induction fuel with
  | zero => exact .of_force permanent_force (fun _ _ _ s => .refl s) fun _ _ _ _ s => .refl s
  | succ n ih =>
    exact .of_force permanent_force (fun node scope => permanent_deeper (ih.evalNode node scope))
      ih.callValue

end Permanence

end Fexpr
