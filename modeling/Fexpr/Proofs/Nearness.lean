import Fexpr.Proofs.Comparison.Plain
import Fexpr.Proofs.Moments

/-!
# Proofs/Nearness — runs at different depths

Nothing but the depth limit looks at the depth.  So two runs from states that differ in their depth
end alike, unless the deeper one raises a recursion-limit error on its way; and with different fuels
they do, unless one of them runs out of it first (`agree_until`).

What an error does to a run depends on who catches it, so the deeper run is broken off where such an
error is handed back (`atLimit`).  The runs are then compared up to where they are broken off, and
which of the two may be, at which moments, is left open (`Excuses`).
-/

namespace Fexpr

/-! ## The limit -/

/-- Whether a recursion-limit error is about to be handed back. -/
def Moment.isLimit : Moment → Bool
  | .failing (.recursionLimit _) => true
  | _ => false

/-- **Breaks a run off where it raises a recursion-limit error.** -/
def atLimit (m : Moment) (_ : State) : Bool := m.isLimit

/-! ## Alike but for the depth -/

/-- **States that differ in nothing but the depth** and in the log of a debugging session. -/
structure State.Alike (cfg : Config) (s t : State) : Prop where
  arena : s.arena = t.arena
  store : s.store = t.store
  output : s.output = t.output
  log : cfg.debug = false → s.log = t.log

/-- **The same value or the same error**, in states that are alike. -/
inductive Outcome.Alike {α : Type} (cfg : Config) :
    Outcome RunError α → Outcome RunError α → Prop
  | ok {a : α} {s t : State} : s.Alike cfg t → Alike cfg (.ok a s) (.ok a t)
  | error {e : RunError} {s t : State} : s.Alike cfg t → Alike cfg (.error e s) (.error e t)

/-- Where two computations end alike, neither was broken off. -/
theorem Outcome.Alike.not_stopped {α : Type} {cfg : Config} {o o' : Outcome RunError α}
    (h : o.Alike cfg o') : o.isStopped = false ∧ o'.isStopped = false := by
  cases h with
  | ok | error => exact ⟨rfl, rfl⟩

theorem State.Alike.refl (cfg : Config) (s : State) : s.Alike cfg s :=
  ⟨rfl, rfl, rfl, fun _ => rfl⟩

/-- States that are alike are so at whatever depths. -/
theorem State.Alike.atDepth {cfg : Config} {s t : State} (h : s.Alike cfg t) (d d' : Nat) :
    { s with depth := d }.Alike cfg { t with depth := d' } :=
  ⟨h.arena, h.store, h.output, h.log⟩

/-- **Where two computations may be broken off** without the other. -/
structure Excuses where
  left : Moment → Prop
  right : Moment → Prop
  /-- The left one always at the limit. -/
  limit : ∀ m, m.isLimit → left m

namespace Excuses

variable {E : Excuses} {cfg : Config} {d d' : Nat} {α β : Type}

/-- **Two computations end alike**, each at the depth it started from, unless one has an excuse. -/
def Meets (E : Excuses) (cfg : Config) (d d' : Nat) (o o' : Outcome RunError α) : Prop :=
  (∃ m t, o = .stopped m t ∧ E.left m) ∨ (∃ m t, o' = .stopped m t ∧ E.right m) ∨
    (o.Alike cfg o' ∧ o.state.depth = d ∧ o'.state.depth = d')

/-- **From a state alike and no less deep, `x` meets what `y` does from `s'`.** -/
def NearFrom (E : Excuses) (cfg : Config) (s' : State) (x y : Eval α) : Prop :=
  ∀ s : State, s.Alike cfg s' → s'.depth ≤ s.depth →
    E.Meets cfg s.depth s'.depth (x cfg s) (y cfg s')

/-- **`x` is near `y`**: it does the same at greater depths. -/
def Near (E : Excuses) (x y : Eval α) : Prop :=
  ∀ cfg s', E.NearFrom cfg s' x y

theorem Meets.alike {o o' : Outcome RunError α} (h : o.Alike cfg o') (hd : o.state.depth = d)
    (hd' : o'.state.depth = d') : E.Meets cfg d d' o o' :=
  Or.inr (Or.inr ⟨h, hd, hd'⟩)

/-- What goes on after two computations, but not after one that was broken off. -/
theorem Meets.through {e e' : Nat} {o o' : Outcome RunError α} {p p' : Outcome RunError β}
    (h : E.Meets cfg d d' o o') (hstop : ∀ m t, o = .stopped m t → p = .stopped m t)
    (hstop' : ∀ m t, o' = .stopped m t → p' = .stopped m t)
    (halike : o.Alike cfg o' → o.state.depth = d → o'.state.depth = d' → E.Meets cfg e e' p p') :
    E.Meets cfg e e' p p' := by
  rcases h with ⟨m, t, ho, hm⟩ | ⟨m, t, ho', hm⟩ | ⟨hsame, hd, hd'⟩
  · exact Or.inl ⟨m, t, hstop m t ho, hm⟩
  · exact Or.inr (Or.inl ⟨m, t, hstop' m t ho', hm⟩)
  · exact halike hsame hd hd'

/-! ## The rules -/

section Rules

variable {s' : State} {x y : Eval α} {f g : α → Eval β}

/-- **One computation after the other**: what goes on need be near only where the second gets to. -/
protected theorem NearFrom.bind (hxy : E.NearFrom cfg s' x y)
    (hfg : ∀ a t', y cfg s' = .ok a t' → E.NearFrom cfg t' (f a) (g a)) :
    E.NearFrom cfg s' (x >>= f) (y >>= g) := by
  intro s hs hdepth
  refine (hxy s hs hdepth).through (fun m t hx => by rw [Eval.bind_apply, hx])
    (fun m t hy => by rw [Eval.bind_apply, hy]) fun hsame hd hd' => ?_
  rw [Eval.bind_apply, Eval.bind_apply]
  generalize hx : x cfg s = o at hsame hd ⊢
  generalize hy : y cfg s' = o' at hsame hd' ⊢
  cases hsame with
  | @ok a t t' ht =>
    have hnext := hfg a t' hy t ht (by simp only [Outcome.state] at hd hd'; omega)
    rwa [show t.depth = s.depth from hd, show t'.depth = s'.depth from hd'] at hnext
  | error ht => exact Meets.alike (.error ht) hd hd'

/-- A first step that only comes up with a value. -/
theorem NearFrom.absorb {a : α} {z : Eval β} (hx : E.NearFrom cfg s' x (pure a))
    (hf : E.NearFrom cfg s' (f a) z) : E.NearFrom cfg s' (x >>= f) z :=
  hx.bind (g := fun _ => z) fun _ _ ha => by
    cases ha
    exact hf

theorem near_pure (a : α) : E.Near (pure a) (pure a) := fun _ _ _ hs _ =>
  Meets.alike (.ok hs) rfl rfl

/-- Tracing is nothing but tracing. -/
theorem near_trace (message : Store → String) :
    E.NearFrom cfg s' (Eval.trace message) (pure ()) := by
  intro s hs _
  rw [Eval.trace]
  split
  · next hdebug =>
    refine Meets.alike (.ok ⟨hs.arena, hs.store, hs.output, fun h => ?_⟩) rfl rfl
    rw [h] at hdebug
    cases hdebug
  · exact Meets.alike (.ok hs) rfl rfl

/-- What the left computation reads from the store is there on the right. -/
theorem NearFrom.reads {γ : Type} {p : Store → γ} {k : γ → Eval α}
    (h : E.NearFrom cfg s' (k (p s'.store)) y) :
    E.NearFrom cfg s' (Eval.gets (fun s => p s.store) >>= k) y := by
  intro s hs hdepth
  change E.Meets cfg s.depth s'.depth (k (p s.store) cfg s) (y cfg s')
  rw [hs.store]
  exact h s hs hdepth

theorem near_bind (hxy : E.Near x y) (hfg : ∀ a, Returns y a → E.Near (f a) (g a)) :
    E.Near (x >>= f) (y >>= g) := fun cfg s' =>
  (hxy cfg s').bind fun a t' hy => hfg a ⟨cfg, s', t', hy⟩ cfg t'

/-- The elementary operations do not look at the depth. -/
theorem near_elementary {N : Census} {scope : ScopeId} {Φ : Census → α → Prop}
    (h : Elementary N scope x Φ) : E.Near x x := by
  intro cfg s' s hs _
  obtain ⟨arena, store, depth, output, log⟩ := s
  obtain ⟨rfl, rfl, rfl, hlog⟩ := hs
  cases h with
  | lookup name =>
    simp only [Eval.lookup]
    cases s'.arena.get? scope name with
    | some v => exact Meets.alike (.ok ⟨rfl, rfl, rfl, hlog⟩) rfl rfl
    | none => exact Meets.alike (.error ⟨rfl, rfl, rfl, hlog⟩) rfl rfl
  | bind binding u name hv =>
    cases binding with
    | inward | outward => exact Meets.alike (.ok ⟨rfl, rfl, rfl, hlog⟩) rfl rfl
  | trace message =>
    rw [Eval.trace, Eval.trace]
    split
    · next hdebug =>
      exact Meets.alike (.ok ⟨rfl, rfl, rfl, fun h => by rw [h] at hdebug; cases hdebug⟩) rfl rfl
    · exact Meets.alike (.ok ⟨rfl, rfl, rfl, hlog⟩) rfl rfl
  | read | capture | print | setSlot | setEntry | setAttribute =>
    exact Meets.alike (.ok ⟨rfl, rfl, rfl, hlog⟩) rfl rfl
  | addClosure | addObject | addDictionary | addPromise | freshTag | freshCurriedTag =>
    exact Meets.alike (.ok ⟨rfl, rfl, rfl, hlog⟩) rfl rfl

theorem near_attempt (hxy : E.Near x y) : E.Near (Eval.attempt x) (Eval.attempt y) := by
  intro cfg s' s hs hdepth
  refine (hxy cfg s' s hs hdepth).through (fun m t hx => by rw [Eval.attempt_apply, hx])
    (fun m t hy => by rw [Eval.attempt_apply, hy]) fun hsame hd hd' => ?_
  rw [Eval.attempt_apply, Eval.attempt_apply]
  generalize x cfg s = o at hsame hd ⊢
  generalize y cfg s' = o' at hsame hd' ⊢
  cases hsame with
  | ok ht | error ht => exact Meets.alike (.ok ht) hd hd'

theorem near_withFrame {parent : ScopeId} {x y : ScopeId → Eval α}
    (hxy : ∀ frame, E.Near (x frame) (y frame)) :
    E.Near (Eval.withFrame parent x) (Eval.withFrame parent y) := by
  intro cfg s' s hs hdepth
  obtain ⟨arena, store, depth, output, log⟩ := s
  obtain ⟨rfl, rfl, rfl, hlog⟩ := hs
  have hopened := hxy (s'.arena.child parent).1 cfg
    { s' with arena := (s'.arena.child parent).2 }
    ⟨(s'.arena.child parent).2, s'.store, depth, s'.output, log⟩ ⟨rfl, rfl, rfl, hlog⟩ hdepth
  rw [Eval.withFrame_apply, Eval.withFrame_apply]
  refine hopened.through (fun m t hx => by rw [hx]) (fun m t hy => by rw [hy])
    fun hsame hd hd' => ?_
  generalize x (s'.arena.child parent).1 cfg _ = o at hsame hd ⊢
  generalize y (s'.arena.child parent).1 cfg _ = o' at hsame hd' ⊢
  have hclose : ∀ {t t' : State}, t.Alike cfg t' →
      { t with arena := t.arena.release (s'.arena.child parent).1 }.Alike cfg
        { t' with arena := t'.arena.release (s'.arena.child parent).1 } := fun h =>
    ⟨congrArg (·.release (s'.arena.child parent).1) h.arena, h.store, h.output, h.log⟩
  cases hsame with
  | ok ht => exact Meets.alike (.ok (hclose ht)) hd hd'
  | error ht => exact Meets.alike (.error (hclose ht)) hd hd'

/-- Nearness, as a relation that sequencing respects. -/
def congruence (E : Excuses) : PlainCongruence where
  R := E.Near
  pure := near_pure
  fail _ := fun _ _ _ hs _ => Meets.alike (.error hs) rfl rfl
  bind := near_bind
  elementary := near_elementary

theorem catches (E : Excuses) : E.congruence.toCongruence.Catches :=
  E.congruence.catches near_attempt fun _ _ _ hs _ => Meets.alike (.ok hs) rfl rfl

/-- **Nearness is a comparison.** -/
def comparison (E : Excuses) : PlainComparison :=
  .ofCatches E.congruence E.catches near_withFrame

theorem near_force {r r' : Evaluator}
    (hr : ∀ node scope, E.Near (r.eval node scope) (r'.eval node scope)) (id : PromiseId) :
    E.Near (Promise.force r id) (Promise.force r' id) :=
  E.congruence.force_of_catches E.catches
    (fun p _ _ s hs _ => Meets.alike (.ok (s := { s with store := s.store.setPromise id p })
      ⟨hs.arena, congrArg (·.setPromise id p) hs.store, hs.output, hs.log⟩) rfl rfl) hr

end Rules

/-! ## Broken off at the limit -/

section Limit

variable {s' : State} {x y : Eval Value} {o o' : Outcome RunError Value}

/-- The left computation is broken off at the limit, or ends as before. -/
theorem Meets.checked (h : E.Meets cfg d d' o o') : E.Meets cfg d d' (o.checked atLimit) o' := by
  rcases h with ⟨m, t, rfl, hm⟩ | hright | ⟨hsame, hd, hd'⟩
  · exact Or.inl ⟨m, t, rfl, hm⟩
  · exact Or.inr (Or.inl hright)
  · cases hsame with
    | ok ht => exact Meets.alike (.ok ht) hd hd'
    | @error e t t' ht =>
      rw [Outcome.checked]
      split
      · next hlimit => exact Or.inl ⟨_, t, rfl, E.limit _ hlimit⟩
      · exact Meets.alike (.error ht) hd hd'

/-- Where the right one is broken off at the limit, so is the left one. -/
theorem Meets.checked_right {stop : Moment → State → Bool} (hstop : ∀ m t, stop m t → m.isLimit)
    (h : E.Meets cfg d d' (o.checked atLimit) o') :
    E.Meets cfg d d' (o.checked atLimit) (o'.checked stop) := by
  rcases h with hleft | ⟨m, t, rfl, hm⟩ | ⟨hsame, hd, hd'⟩
  · exact Or.inl hleft
  · exact Or.inr (Or.inl ⟨m, t, rfl, hm⟩)
  · generalize ho : o.checked atLimit = p at hsame hd ⊢
    cases hsame with
    | @ok v t t' ht =>
      rw [Outcome.checked, if_neg fun h => by cases hstop _ _ h]
      exact Meets.alike (.ok ht) hd hd'
    | @error e t t' ht =>
      -- the left one would have been broken off at this error
      have hlimit : ¬Moment.isLimit (.failing e) := by
        cases o with
        | ok v u =>
          rw [Outcome.checked] at ho
          split at ho <;> cases ho
        | error e' u =>
          rw [Outcome.checked] at ho
          split at ho
          · cases ho
          · next h =>
            cases ho
            exact h
        | stopped m u => cases ho
      rw [Outcome.checked, if_neg fun h => hlimit (hstop _ _ h)]
      exact Meets.alike (.error ht) hd hd'

theorem NearFrom.calling (hxy : E.NearFrom cfg s' x y) (callee : Value) (arg : Node)
    (scope : ScopeId) :
    E.NearFrom cfg s' (Eval.pausing atLimit (.calling callee arg scope) x) y := by
  intro s hs hdepth
  rw [Eval.pausing_apply]
  exact (hxy s hs hdepth).checked

/-- The left computation goes one level deeper, where the limit admits it. -/
theorem Meets.evaluating {s : State} {node : Node} {scope : ScopeId}
    (h : ¬cfg.maxDepth ≤ s.depth →
      E.Meets cfg (s.depth + 1) d' (x cfg { s with depth := s.depth + 1 }) o') :
    E.Meets cfg s.depth d'
      (Eval.pausing atLimit (.evaluating node scope) (Eval.deeper x) cfg s) o' := by
  rw [Eval.pausing_apply]
  change E.Meets cfg s.depth d' ((Eval.deeper x cfg s).checked atLimit) o'
  rw [Eval.deeper]
  split
  · exact Or.inl ⟨_, s, rfl, E.limit _ rfl⟩
  · next hlimit =>
    refine Meets.checked ((h hlimit).through (fun m t hx => by rw [hx]) (fun _ _ => id)
      fun hsame hd hd' => ?_)
    generalize x cfg { s with depth := s.depth + 1 } = o at hsame hd ⊢
    cases hsame with
    | ok ht => exact Meets.alike (.ok (ht.atDepth _ _)) (congrArg (· - 1) hd) hd'
    | error ht => exact Meets.alike (.error (ht.atDepth _ _)) (congrArg (· - 1) hd) hd'

/-- **The left computation may go one level deeper.** -/
theorem NearFrom.evaluating (hxy : E.NearFrom cfg s' x y) (node : Node) (scope : ScopeId) :
    E.NearFrom cfg s' (Eval.pausing atLimit (.evaluating node scope) (Eval.deeper x)) y :=
  fun s hs hdepth => Meets.evaluating fun _ => hxy { s with depth := s.depth + 1 }
    (hs.atDepth _ _) (Nat.le_succ_of_le hdepth)

variable {stop : Moment → State → Bool}

theorem near_calling (hstop : ∀ m t, stop m t → m.isLimit) (hxy : E.Near x y) (callee : Value)
    (arg : Node) (scope : ScopeId) :
    E.Near (Eval.pausing atLimit (.calling callee arg scope) x)
      (Eval.pausing stop (.calling callee arg scope) y) := by
  intro cfg s' s hs hdepth
  have hbegin : ¬stop (.calling callee arg scope) s' := fun h => by cases hstop _ _ h
  rw [Eval.pausing_apply stop, if_neg hbegin]
  have hleft := (hxy cfg s').calling callee arg scope s hs hdepth
  rw [Eval.pausing_apply] at hleft ⊢
  exact Meets.checked_right hstop hleft

/-- **One level deeper on both sides**: where the right computation is at the limit, so is the left
one. -/
theorem near_evaluating (hstop : ∀ m t, stop m t → m.isLimit) (hxy : E.Near x y) (node : Node)
    (scope : ScopeId) :
    E.Near (Eval.pausing atLimit (.evaluating node scope) (Eval.deeper x))
      (Eval.pausing stop (.evaluating node scope) (Eval.deeper y)) := by
  intro cfg s' s hs hdepth
  have hbegin : ¬stop (.evaluating node scope) s' := fun h => by cases hstop _ _ h
  rw [Eval.pausing_apply stop, if_neg hbegin]
  have hleft : E.Meets cfg s.depth s'.depth
      (Eval.pausing atLimit (.evaluating node scope) (Eval.deeper x) cfg s)
      (Eval.deeper y cfg s') := by
    refine Meets.evaluating fun hlimit => ?_
    have hdeeper := hxy cfg { s' with depth := s'.depth + 1 } { s with depth := s.depth + 1 }
      (hs.atDepth _ _) (Nat.succ_le_succ hdepth)
    rw [Eval.deeper, if_neg fun h => hlimit (Nat.le_trans h hdepth)]
    refine hdeeper.through (fun _ _ => id) (fun m t hy => by rw [hy]) fun hsame hd hd' => ?_
    generalize x cfg { s with depth := s.depth + 1 } = o at hsame hd ⊢
    generalize y cfg { s' with depth := s'.depth + 1 } = o' at hsame hd' ⊢
    cases hsame with
    | ok ht => exact Meets.alike (.ok (ht.atDepth _ _)) hd (congrArg (· - 1) hd')
    | error ht => exact Meets.alike (.error (ht.atDepth _ _)) hd (congrArg (· - 1) hd')
  rw [Eval.pausing_apply] at hleft ⊢
  exact Meets.checked_right hstop hleft

/-- **What the fuels must be for the excuses**: the computation with less of it may be broken off
for lack of it. -/
def Covers (E : Excuses) (fuel fuel' : Nat) : Prop :=
  (fuel ≤ fuel' ∧ ∀ m, E.left m) ∨ (fuel' ≤ fuel ∧ ∀ m, ¬m.isLimit → E.right m)

theorem agree_zero_left (h : ∀ m, E.left m) (r : Evaluator) :
    E.comparison.Agree (.until atLimit 0) r :=
  .of_force near_force (fun _ _ _ _ s _ _ => Or.inl ⟨_, s, rfl, h _⟩)
    fun _ _ _ _ _ s _ _ => Or.inl ⟨_, s, rfl, h _⟩

theorem agree_zero_right (h : ∀ m, ¬m.isLimit → E.right m) (r : Evaluator) :
    E.comparison.Agree r (.until stop 0) :=
  .of_force near_force
    (fun _ _ _ s' _ _ _ => Or.inr (Or.inl ⟨_, s', rfl, h _ Bool.false_ne_true⟩))
    fun _ _ _ _ s' _ _ _ => Or.inr (Or.inl ⟨_, s', rfl, h _ Bool.false_ne_true⟩)

/-- **A run does the same at greater depths**, with whatever fuel, up to where it raises a
recursion-limit error or one of the two runs out of fuel. -/
theorem agree_until (hstop : ∀ m t, stop m t → m.isLimit) {fuel fuel' : Nat}
    (hfuel : E.Covers fuel fuel') :
    E.comparison.Agree (.until atLimit fuel) (.until stop fuel') := by
  induction fuel generalizing fuel' with
  | zero =>
    rcases hfuel with ⟨-, hleft⟩ | ⟨hzero, hright⟩
    · exact agree_zero_left hleft _
    · obtain rfl : fuel' = 0 := Nat.le_zero.mp hzero
      exact agree_zero_right hright _
  | succ n ih =>
    cases fuel' with
    | zero =>
      rcases hfuel with ⟨hle, -⟩ | ⟨-, hright⟩
      · exact absurd hle (Nat.not_succ_le_zero n)
      · exact agree_zero_right hright _
    | succ n' =>
      have hless := ih (hfuel.imp (And.imp_left Nat.le_of_succ_le_succ)
        (And.imp_left Nat.le_of_succ_le_succ))
      exact .of_force near_force
        (fun node scope => near_evaluating hstop (hless.evalNode node scope) node scope)
        fun callee arg scope => near_calling hstop (hless.callValue callee arg scope) callee arg
          scope

end Limit

/-! ## Two kinds of excuses -/

/-- The left computation may be broken off anywhere, and the right one nowhere. -/
def leftOnly : Excuses := ⟨fun _ => True, fun _ => False, fun _ _ => trivial⟩

/-- The left computation may be broken off at the limit, and the right one for lack of fuel. -/
def eachItsOwn : Excuses := ⟨fun m => m.isLimit, fun m => ¬m.isLimit, fun _ => id⟩

theorem leftOnly_covers {fuel fuel' : Nat} (h : fuel ≤ fuel') : leftOnly.Covers fuel fuel' :=
  Or.inl ⟨h, fun _ => trivial⟩

theorem eachItsOwn_covers {fuel fuel' : Nat} (h : fuel' ≤ fuel) : eachItsOwn.Covers fuel fuel' :=
  Or.inr ⟨h, fun _ => id⟩

end Excuses

/-! ## Computations that stay below the limit -/

/-- **No recursion-limit error is raised**, with whatever fuel. -/
def StaysBelowLimit {α : Type} (x : Evaluator → Eval α) (cfg : Config) (s : State) : Prop :=
  ∀ fuel m t, x (.until atLimit fuel) cfg s = .stopped m t → ¬m.isLimit

open Excuses in
/-- An evaluation that comes to an end without such an error raises none. -/
theorem staysBelowLimit_of_ends {node : Node} {scope : ScopeId} {cfg : Config} {s : State}
    {fuel : Nat} (h : ((Evaluator.until atLimit fuel).eval node scope cfg s).isStopped = false) :
    StaysBelowLimit (fun r => r.eval node scope) cfg s := by
  have hmeets : ∀ {E : Excuses} {n : Nat}, E.Covers fuel n →
      E.Meets cfg s.depth s.depth ((Evaluator.until atLimit fuel).eval node scope cfg s)
        ((Evaluator.until atLimit n).eval node scope cfg s) := fun {E n} hfuel =>
    have hagree : E.comparison.Agree (.until atLimit fuel) (.until atLimit n) :=
      agree_until (fun _ _ => id) hfuel
    hagree.eval node scope cfg s s (.refl cfg s) (Nat.le_refl _)
  intro n m t hn hlimit
  change (Evaluator.until atLimit n).eval node scope cfg s = .stopped m t at hn
  have hleft : ∀ {m t}, (Evaluator.until atLimit fuel).eval node scope cfg s ≠ .stopped m t :=
    fun heq => by
      rw [heq] at h
      cases h
  rcases Nat.le_total fuel n with hle | hle
  · rcases hmeets (leftOnly_covers hle) with ⟨_, _, hstopped, -⟩ | hright | ⟨hsame, -⟩
    · exact hleft hstopped
    · obtain ⟨_, _, _, hnever⟩ := hright
      exact hnever
    · rw [hn] at hsame
      exact Bool.false_ne_true hsame.not_stopped.2.symm
  · rcases hmeets (eachItsOwn_covers hle) with ⟨_, _, hstopped, -⟩ | hright | ⟨hsame, -⟩
    · exact hleft hstopped
    · obtain ⟨m', t', heq, hm⟩ := hright
      rw [hn] at heq
      cases heq
      exact hm hlimit
    · rw [hn] at hsame
      exact Bool.false_ne_true hsame.not_stopped.2.symm

end Fexpr
