import Fexpr.Proofs.Arena.Use
import Fexpr.Proofs.Return

/-!
# Proofs/Return/Knot — a value that calls itself without end

`p` is `call:(fn x p)`.  To call it is to call the function, which looks `p` up and is done, and
then to `call` what came out: `p` again.  No evaluation is under way by then that was not under way
before, so none of them can run into the depth limit, and the frame of the function is dropped each
time: the run goes on for ever (`knot_never_comes_back`).
-/

namespace Fexpr

/-! ## The value and the states in which it is tied -/

/-- `call:f`, where `f` is the first function of its program. -/
def Value.knot : Value :=
  .pair (.builtin .call) (.function 0)

/-- Whether a value is `Value.knot`. -/
def Value.isKnot : Value → Bool
  | .pair (.builtin .call) (.function 0) => true
  | _ => false

theorem Value.eq_knot {v : Value} (h : v.isKnot) : v = .knot := by
  unfold Value.isKnot at h
  split at h
  · rfl
  · cases h

/-- `(fn x p)`, made in the outermost scope. -/
def Closure.knot : Closure where
  pattern := .identifier "x"
  body := [.identifier "p"]
  scope := Arena.root

/-- Whether a function is `Closure.knot`. -/
def Closure.isKnot : Closure → Bool
  | { pattern := .identifier "x", body := [.identifier "p"], scope := 0 } => true
  | _ => false

theorem Closure.eq_knot {f : Closure} (h : f.isKnot) : f = .knot := by
  unfold Closure.isKnot at h
  split at h
  · rfl
  · cases h

/-- **A state in which `p` is the value**, with room for one more evaluation. -/
structure State.Knotted (cfg : Config) (s : State) : Prop where
  depth : s.depth < cfg.maxDepth
  closure : s.store.closure 0 = .knot
  tidy : s.arena.Tidy
  root : Arena.root ∈ s.arena.inUse
  outermost : s.arena.parent? Arena.root = none
  bound : (s.arena.frame Arena.root).bindings["p"]? = some .knot

/-- A knotted state with a frame `u` of the function open. -/
structure State.Inside (cfg : Config) (u : ScopeId) (s : State) : Prop extends s.Knotted cfg where
  ne_root : u ≠ Arena.root
  mem : u ∈ s.arena.inUse
  parent : s.arena.parent? u = some Arena.root
  unbound : (s.arena.frame u).bindings["p"]? = none

variable {cfg : Config} {s : State} {u : ScopeId}

theorem State.Knotted.child (h : s.Knotted cfg) :
    State.Inside cfg (s.arena.child Arena.root).1
      { s with arena := (s.arena.child Arena.root).2 } := by
  have hnew : (s.arena.child Arena.root).1 ∉ s.arena.inUse := Arena.child_not_mem_inUse _ _
  have hne : Arena.root ≠ (s.arena.child Arena.root).1 := fun he => hnew (he ▸ h.root)
  have hself := Arena.frame_child_self Arena.root h.tidy
  have hother := Arena.frame_child_of_ne Arena.root hne
  refine ⟨⟨h.depth, h.closure, h.tidy.child _, ?_, ?_, ?_⟩, hne.symm, ?_, ?_, ?_⟩
  · exact (Arena.mem_inUse_child _ h.tidy).mpr (Or.inr h.root)
  · rw [Arena.parent?, hother]
    exact h.outermost
  · rw [hother]
    exact h.bound
  · exact (Arena.mem_inUse_child _ h.tidy).mpr (Or.inl rfl)
  · rw [Arena.parent?, hself]
  · rw [hself]
    exact Std.ExtTreeMap.getElem?_empty

namespace State.Inside

theorem set (h : s.Inside cfg u) {name : String} (hname : name ≠ "p") (v : Value) :
    State.Inside cfg u { s with arena := s.arena.set u name v } := by
  have hsettles := Arena.settles_set h.tidy u name v
  have hu : u < s.arena.frames.size := (Arena.mem_inUse.mp h.mem).1
  refine ⟨⟨h.depth, h.closure, hsettles.tidy, hsettles.inUse _ h.root, ?_, ?_⟩, h.ne_root,
    hsettles.inUse _ h.mem, ?_, ?_⟩
  · exact (hsettles.parent? _ h.root).trans h.outermost
  · rw [Arena.set, Arena.frame_update_of_ne _ h.ne_root]
    exact h.bound
  · exact (hsettles.parent? _ h.mem).trans h.parent
  · rw [Arena.set, Arena.frame_update_self _ hu, Std.ExtTreeMap.getElem?_insert,
      if_neg (by simpa using hname)]
    exact h.unbound

/-- **From inside the function `p` is the value.** -/
theorem get? (h : s.Inside cfg u) : s.arena.get? u "p" = some .knot := by
  have hu : u < s.arena.frames.size := (Arena.mem_inUse.mp h.mem).1
  have htwo : 1 < s.arena.frames.size :=
    Nat.lt_of_le_of_lt (Nat.pos_of_ne_zero h.ne_root) hu
  obtain ⟨n, hn⟩ := Nat.exists_eq_add_of_le' htwo
  have hchain : s.arena.chain u = [u, Arena.root] := by
    have hparent : (s.arena.frame u).parent = some Arena.root := h.parent
    have houter : (s.arena.frame Arena.root).parent = none := h.outermost
    rw [Arena.chain, hn, Arena.chainFrom, hparent]
    dsimp only
    rw [Arena.chainFrom, houter]
  rw [Arena.get?, hchain, List.findSome?_cons, h.unbound]
  dsimp only
  rw [List.findSome?_cons, h.bound]

theorem release (h : s.Inside cfg u) :
    State.Knotted cfg { s with arena := s.arena.release u } where
  depth := h.depth
  closure := h.closure
  tidy := h.tidy.release u
  root := by
    cases hr : s.arena.isReleasable u with
    | false =>
      rw [Arena.release_of_not_releasable hr]
      exact h.root
    | true => exact (Arena.mem_inUse_release hr).mpr ⟨h.ne_root.symm, h.root⟩
  outermost := by
    rw [Arena.parent?, Arena.frame_release_of_ne h.ne_root]
    exact h.outermost
  bound := by
    rw [Arena.frame_release_of_ne h.ne_root]
    exact h.bound

end State.Inside

/-! ## Calling the value -/

namespace Knot

variable {α β : Type} {P Q : State → Prop} {a : α} {b : β}

/-- Broken off, or answering `a` in a state with the property `P`. -/
def Answers (P : State → Prop) (o : Outcome RunError α) (a : α) : Prop :=
  o.isStopped ∨ ∃ t, P t ∧ o = .ok a t

theorem Answers.isStopped_bind {x : Eval α} (hx : Answers P (x cfg s) a) {f : α → Eval β}
    (hf : ∀ t, P t → (f a cfg t).isStopped) : ((x >>= f) cfg s).isStopped := by
  rcases hx with hx | ⟨t, ht, hx⟩
  · exact Coverage.isStopped_bind f hx
  · rw [Eval.bind_apply, hx]
    exact hf t ht

theorem Answers.bind {x : Eval α} (hx : Answers P (x cfg s) a) {f : α → Eval β}
    (hf : ∀ t, P t → Answers Q (f a cfg t) b) : Answers Q ((x >>= f) cfg s) b := by
  rcases hx with hx | ⟨t, ht, hx⟩
  · exact Or.inl (Coverage.isStopped_bind f hx)
  · rw [Eval.bind_apply, hx]
    exact hf t ht

theorem answers_trace (hs : s.Knotted cfg) (message : Store → String) :
    Answers (State.Knotted cfg) (Eval.trace message cfg s) () := by
  obtain ⟨log, htrace⟩ := Eval.trace_apply message cfg s
  exact Or.inr ⟨{ s with log },
    ⟨hs.depth, hs.closure, hs.tidy, hs.root, hs.outermost, hs.bound⟩, htrace⟩

theorem answers_set (hs : s.Inside cfg u) {name : String} (hname : name ≠ "p") (v : Value) :
    Answers (State.Inside cfg u) (Eval.modifyArena (·.set u name v) cfg s) () :=
  Or.inr ⟨_, hs.set hname v, rfl⟩

/-- Evaluating a node that needs no further evaluation. -/
theorem answers_eval (hs : s.depth < cfg.maxDepth) (fuel : Nat) {node : Node} {scope : ScopeId}
    {v : Value} (hv : ∀ r, evalNode r node scope cfg { s with depth := s.depth + 1 } =
      .ok v { s with depth := s.depth + 1 }) :
    Answers (· = s) ((Evaluator.ofFuel fuel).eval node scope cfg s) v := by
  cases fuel with
  | zero => exact Or.inl rfl
  | succ n =>
    refine Or.inr ⟨s, rfl, ?_⟩
    change Eval.deeper (evalNode (.ofFuel n) node scope) cfg s = _
    rw [Eval.deeper, if_neg (Nat.not_le_of_lt hs), hv]
    rfl

theorem Answers.withFrame {x : ScopeId → Eval α}
    (hx : Answers (State.Inside cfg (s.arena.child Arena.root).1)
      (x (s.arena.child Arena.root).1 cfg { s with arena := (s.arena.child Arena.root).2 }) a) :
    Answers (State.Knotted cfg) (Eval.withFrame Arena.root x cfg s) a := by
  rw [Eval.withFrame_apply]
  rcases hx with hx | ⟨t, ht, hx⟩
  · obtain ⟨m, t, hx⟩ := Outcome.exists_of_isStopped hx
    rw [hx]
    exact Or.inl rfl
  · rw [hx]
    exact Or.inr ⟨_, ht.release, rfl⟩

/-- The body of the function. -/
theorem answers_body (hs : s.Inside cfg u) (fuel : Nat) :
    Answers (State.Inside cfg u) (Closure.knot.runBody (.ofFuel fuel) u cfg s) .knot := by
  have hforms : ∀ t, State.Inside cfg u t → Answers (State.Inside cfg u)
      (Closure.runForms (.ofFuel fuel) u .void [.identifier "p"] cfg t) .knot := fun t ht => by
    have hlookup : ∀ r, evalNode r (.identifier "p") u cfg { t with depth := t.depth + 1 } =
        .ok .knot { t with depth := t.depth + 1 } := fun r => by
      change Eval.lookup u "p" cfg _ = _
      rw [Eval.lookup, ht.get?]
    refine (answers_eval ht.depth fuel hlookup).bind fun t' heq => ?_
    subst heq
    exact (answers_set ht (by decide) _).bind fun w hw => Or.inr ⟨w, hw, rfl⟩
  rw [Closure.runBody, Eval.bind_apply]
  dsimp only [Eval.gets]
  split
  · exact hforms s hs
  · exact (answers_set hs (by decide) _).bind hforms

/-- **The function answers the value that holds it.** -/
theorem answers_function (hs : s.Knotted cfg) (fuel : Nat) (scope : ScopeId) :
    Answers (State.Knotted cfg) ((Evaluator.ofFuel fuel).call (.function 0) .nil scope cfg s)
      .knot := by
  cases fuel with
  | zero => exact Or.inl rfl
  | succ n =>
    refine (answers_trace hs _).bind fun t ht => ?_
    change Answers _ ((t.store.closure 0).invoke (.ofFuel n) .nil scope none cfg t) _
    rw [ht.closure, Closure.invoke_eq]
    have hcall : Answers (State.Knotted cfg)
        (Closure.knot.call? (.ofFuel n) .nil scope none cfg t) (some .knot) := by
      refine (answers_eval ht.depth n fun _ => rfl).bind fun t' heq => ?_
      subst heq
      refine Answers.withFrame ?_
      have hmatch : Answers (State.Inside cfg (t'.arena.child Arena.root).1)
          (Closure.knot.pattern.matchWith (.ofFuel n) .inward (t'.arena.child Arena.root).1
            (some .nil) cfg { t' with arena := (t'.arena.child Arena.root).2 }) true :=
        (answers_set ht.child (by decide) Value.nil).bind fun w hw => Or.inr ⟨w, hw, rfl⟩
      rw [Closure.bindReceiver, pure_bind]
      refine hmatch.bind fun w hw => ?_
      exact (answers_body hw n).bind fun z hz => Or.inr ⟨z, hz, rfl⟩
    exact hcall.bind fun z hz => Or.inr ⟨z, hz, rfl⟩

/-- **Calling the value never comes to an end**: each call makes the same call again, with less
fuel. -/
theorem isStopped_call (hs : s.Knotted cfg) (fuel : Nat) (scope : ScopeId) :
    ((Evaluator.ofFuel fuel).call .knot .nil scope cfg s).isStopped := by
  induction fuel using Nat.strongRecOn generalizing s with
  | ind fuel ih =>
    cases fuel with
    | zero => rfl
    | succ n =>
      refine (answers_trace hs _).isStopped_bind fun t ht => ?_
      refine (answers_function ht n scope).isStopped_bind fun w hw => ?_
      -- the outer half, the primitive `call`, goes back to where this began
      cases n with
      | zero => rfl
      | succ n =>
        refine (answers_trace hw _).isStopped_bind fun z hz => ?_
        refine (answers_eval hz.depth n fun _ => rfl).isStopped_bind fun z' heq => ?_
        subst heq
        exact ih n (by omega) hz

/-- The moment in which a program calls the value, in a knotted state where no slot is free. -/
def calls : Moment → State → Bool
  | .calling callee .nil _, s =>
    callee.isKnot && decide (s.depth < 512) && (s.store.closure 0).isKnot &&
      s.arena.free.isEmpty && decide (0 < s.arena.frames.size) &&
      (s.arena.parent? Arena.root).isNone &&
      (s.arena.frame Arena.root).bindings["p"]?.any Value.isKnot
  | _, _ => false

theorem endless_of_calls {m : Moment} {t : State} (h : calls m t) : m.Endless {} t := by
  unfold calls at h
  split at h
  · next callee scope =>
    simp only [Bool.and_eq_true, decide_eq_true_iff, List.isEmpty_iff, Option.isNone_iff_eq_none,
      Option.any_eq_true] at h
    obtain ⟨⟨⟨⟨⟨⟨hcallee, hdepth⟩, hclosure⟩, hfree⟩, hsize⟩, houter⟩, v, hbound, hv⟩ := h
    obtain rfl := Value.eq_knot hcallee
    have hknotted : t.Knotted {} := {
      depth := hdepth
      closure := Closure.eq_knot hclosure
      tidy := ⟨by rw [hfree]; exact List.nodup_nil, by simp [hfree], by simp [hfree]⟩
      root := Arena.mem_inUse.mpr ⟨hsize, by simp [hfree]⟩
      outermost := houter
      bound := by rw [hbound, Value.eq_knot hv] }
    exact fun fuel => isStopped_call hknotted fuel scope
  · cases h

end Knot

/-- **A program that does not come back**, though nothing in it nests deeply. -/
theorem knot_never_comes_back :
    ¬∃ fuel t, (Program.runWith fuel "(def p call:(fn x p)) (p)" Arena.root {}
      .initial).EndsIn t := by
  rintro ⟨fuel, t, hend⟩
  obtain ⟨m, u, hstop, hcalls⟩ := Outcome.exists_of_breaksAt Knot.calls
    (o := Program.runUnder (.until Knot.calls 20) "(def p call:(fn x p)) (p)" Arena.root {}
      .initial) (by decide +kernel)
  exact hend.not_isStopped (isStopped_of_endless hstop (Knot.endless_of_calls hcalls) fuel)

end Fexpr
