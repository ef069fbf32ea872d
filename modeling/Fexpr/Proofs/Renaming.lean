import Fexpr.Proofs.Combinators
import Fexpr.Proofs.Renaming.State

/-!
# Proofs/Renaming — computations that do the same under other identities

`y` **follows** `x` under a renaming when it comes from the renamed state to the renamed end.  The
renaming has to agree with the identities that are given out on the way: it finds each of them as
much later as it is ahead (`Renaming.Shifts`).

The rules below say that the elementary operations follow themselves and that sequencing, frames,
clean-ups and alternatives keep following.  `Fexpr/Proofs/Renaming/Evaluator` puts the evaluator
together from them.
-/

namespace Fexpr

/-- How many identities of curried values have been given out. -/
abbrev State.issued (s : State) : Nat :=
  s.store.nextCurriedTag

namespace Renaming

variable {ρ : Renaming} {α β γ δ : Type}

/-- **What is given out between `m` and `n`** is found as much later as the renaming is ahead. -/
def Shifts (ρ : Renaming) (m n : Nat) : Prop :=
  ∀ tag, m ≤ tag → tag < n → ρ.tag tag = tag + ρ.ahead

theorem Shifts.mono {m m' n n' : Nat} (h : ρ.Shifts m n) (hm : m ≤ m') (hn : n' ≤ n) :
    ρ.Shifts m' n' := fun tag hle hlt =>
  h tag (Nat.le_trans hm hle) (Nat.lt_of_lt_of_le hlt hn)

/-- **`y` follows `x`**: it comes from the renamed state to the renamed end, where `f` renames what
is returned. -/
def Follows (ρ : Renaming) (f : α → β) (x : Eval α) (y : Eval β) : Prop :=
  ∀ cfg s, s.issued ≤ (x cfg s).state.issued ∧
    (ρ.Shifts s.issued (x cfg s).state.issued → y cfg (s.rename ρ) = (x cfg s).rename ρ f)

/-- A result with an error that is renamed too. -/
def result (ρ : Renaming) (f : α → β) : Except RunError α → Except RunError β
  | .ok a => .ok (f a)
  | .error e => .error (e.rename ρ.tag)

/-! ## Sequencing -/

protected theorem Follows.pure {f : α → β} {a : α} :
    ρ.Follows f (pure a) (pure (f a)) := fun _ _ =>
  ⟨Nat.le_refl _, fun _ => rfl⟩

theorem Follows.fail {f : α → β} {e : RunError} :
    ρ.Follows f (Eval.fail e) (Eval.fail (e.rename ρ.tag)) := fun _ _ =>
  ⟨Nat.le_refl _, fun _ => rfl⟩

theorem Follows.stop {f : α → β} {m : Moment} :
    ρ.Follows f (Eval.stop m) (Eval.stop (m.rename ρ.tag)) := fun _ _ =>
  ⟨Nat.le_refl _, fun _ => rfl⟩

protected theorem Follows.bind {f : α → β} {g : γ → δ} {x : Eval α} {y : Eval β} {k : α → Eval γ}
    {k' : β → Eval δ} (hx : ρ.Follows f x y) (hk : ∀ a, ρ.Follows g (k a) (k' (f a))) :
    ρ.Follows g (x >>= k) (y >>= k') := by
  intro cfg s
  obtain ⟨hle, heq⟩ := hx cfg s
  rw [Eval.bind_apply, Eval.bind_apply]
  cases hxs : x cfg s with
  | ok a t =>
    obtain ⟨hle', heq'⟩ := hk a cfg t
    rw [hxs] at hle heq
    refine ⟨Nat.le_trans hle hle', fun hshift => ?_⟩
    rw [heq (hshift.mono (Nat.le_refl _) hle')]
    exact heq' (hshift.mono hle (Nat.le_refl _))
  | error e t | stopped m t =>
    rw [hxs] at hle heq
    exact ⟨hle, fun hshift => by rw [heq hshift]; rfl⟩

/-- A step whose result is only wrapped up. -/
protected theorem Follows.map {f : α → β} {g : γ → δ} {x : Eval α} {y : Eval β} {h : α → γ}
    {h' : β → δ} (hx : ρ.Follows f x y) (hh : ∀ a, h' (f a) = g (h a)) :
    ρ.Follows g (x >>= fun a => pure (h a)) (y >>= fun b => pure (h' b)) :=
  hx.bind fun a => by
    rw [hh a]
    exact .pure

protected theorem Follows.attempt {f : α → β} {x : Eval α} {y : Eval β} (hx : ρ.Follows f x y) :
    ρ.Follows (ρ.result f) (Eval.attempt x) (Eval.attempt y) := by
  intro cfg s
  obtain ⟨hle, heq⟩ := hx cfg s
  rw [Eval.attempt_apply, Eval.attempt_apply]
  cases hxs : x cfg s with
  | ok a t | error e t | stopped m t =>
    rw [hxs] at hle heq
    exact ⟨hle, fun hshift => by rw [heq hshift]; rfl⟩

theorem Follows.ofExcept {f : α → β} (x : Except RunError α) :
    ρ.Follows f (Eval.ofExcept x) (Eval.ofExcept (ρ.result f x)) := by
  cases x with
  | ok a => exact .pure
  | error e => exact .fail

/-! ## Configuration and state -/

theorem Follows.config : ρ.Follows id Eval.config Eval.config := fun _ _ =>
  ⟨Nat.le_refl _, fun _ => rfl⟩

theorem Follows.gets {f : α → β} {p : State → α} {q : State → β}
    (h : ∀ s, q (s.rename ρ) = f (p s)) : ρ.Follows f (Eval.gets p) (Eval.gets q) := fun _ s =>
  ⟨Nat.le_refl _, fun _ => congrArg (Outcome.ok · (s.rename ρ)) (h s)⟩

theorem Follows.modifyArena {g h : Arena → Arena}
    (hgh : ∀ a, h (a.map (Value.rename ρ.tag)) = (g a).map (Value.rename ρ.tag)) :
    ρ.Follows id (Eval.modifyArena g) (Eval.modifyArena h) := fun _ s =>
  ⟨Nat.le_refl _, fun _ => congrArg
    (fun arena => Outcome.ok () { s with arena, store := s.store.rename ρ }) (hgh s.arena)⟩

/-- A change of the store that gives out no identity of a curried value. -/
theorem Follows.modifyStore {g h : Store → Store} (hgh : ∀ st, h (st.rename ρ) = (g st).rename ρ)
    (hissued : ∀ st, (g st).nextCurriedTag = st.nextCurriedTag) :
    ρ.Follows id (Eval.modifyStore g) (Eval.modifyStore h) := fun _ s =>
  ⟨Nat.le_of_eq (hissued s.store).symm, fun _ => congrArg (fun store => Outcome.ok ()
    { s with arena := s.arena.map (Value.rename ρ.tag), store }) (hgh s.store)⟩

/-- A new record, which is no curried value. -/
theorem Follows.allocate {g h : Store → Nat × Store}
    (hgh : ∀ st, h (st.rename ρ) = ((g st).1, (g st).2.rename ρ))
    (hissued : ∀ st, (g st).2.nextCurriedTag = st.nextCurriedTag) :
    ρ.Follows id (Eval.allocate g) (Eval.allocate h) := fun _ s =>
  ⟨Nat.le_of_eq (hissued s.store).symm, fun _ => congrArg (fun p : Nat × Store => Outcome.ok p.1
    { s with arena := s.arena.map (Value.rename ρ.tag), store := p.2 }) (hgh s.store)⟩

/-- The identity of a bound method or a multi-function. -/
theorem Follows.freshTag :
    ρ.Follows id (Eval.allocate (·.freshTag)) (Eval.allocate (·.freshTag)) :=
  .allocate (fun _ => rfl) fun _ => rfl

/-- **A fresh identity**, the one operation that makes the renaming keep up. -/
theorem Follows.freshCurriedTag :
    ρ.Follows ρ.tag (Eval.allocate (·.freshCurriedTag)) (Eval.allocate (·.freshCurriedTag)) := by
  intro cfg s
  refine ⟨Nat.le_succ _, fun hshift => ?_⟩
  have htag : ρ.tag s.issued = s.issued + ρ.ahead :=
    hshift s.issued (Nat.le_refl _) (Nat.lt_succ_self _)
  simp only [Eval.allocate, Store.freshCurriedTag, State.rename, Store.rename, Outcome.rename,
    htag, Nat.add_right_comm]

theorem Follows.lookup (scope : ScopeId) (name : String) :
    ρ.Follows (Value.rename ρ.tag) (Eval.lookup scope name) (Eval.lookup scope name) := by
  intro cfg s
  have hget : (s.rename ρ).arena.get? scope name =
      (s.arena.get? scope name).map (Value.rename ρ.tag) := Arena.get?_map _ _ scope name
  rw [Eval.lookup, Eval.lookup, hget]
  cases s.arena.get? scope name with
  | some v | none => exact ⟨Nat.le_refl _, fun _ => rfl⟩

theorem Follows.trace {message message' : Store → String}
    (h : ∀ st, message' (st.rename ρ) = message st) :
    ρ.Follows id (Eval.trace message) (Eval.trace message') := by
  intro cfg s
  have hmessage : message' (s.rename ρ).store = message s.store := h s.store
  rw [Eval.trace, Eval.trace, hmessage]
  cases cfg.debug with
  | true | false => exact ⟨Nat.le_refl _, fun _ => rfl⟩

theorem Follows.print (text : String) : ρ.Follows id (Eval.print text) (Eval.print text) :=
  fun _ _ => ⟨Nat.le_refl _, fun _ => rfl⟩

theorem Follows.openFrame (parent : ScopeId) :
    ρ.Follows id (Eval.openFrame parent) (Eval.openFrame parent) := by
  intro cfg s
  refine ⟨Nat.le_refl _, fun _ => ?_⟩
  have hchild := s.arena.child_map (Value.rename ρ.tag) parent
  exact congrArg (fun p : ScopeId × Arena => Outcome.ok p.1
    { s with arena := p.2, store := s.store.rename ρ }) hchild

theorem Follows.closeFrame (frame : ScopeId) :
    ρ.Follows id (Eval.closeFrame frame) (Eval.closeFrame frame) :=
  .modifyArena fun a => a.release_map _ frame

theorem Follows.capture (scope : ScopeId) :
    ρ.Follows id (Eval.modifyArena (·.capture scope)) (Eval.modifyArena (·.capture scope)) :=
  .modifyArena fun a => a.capture_map _ scope

theorem Follows.bindName (binding : Binding) (scope : ScopeId) (name : String) (v : Value) :
    ρ.Follows id (binding.bind scope name v) (binding.bind scope name (v.rename ρ.tag)) := by
  cases binding with
  | inward =>
    exact .modifyArena (g := (·.set scope name v)) (h := (·.set scope name (v.rename ρ.tag)))
      fun a => a.set_map _ scope name v
  | outward =>
    exact .modifyArena (g := fun a => (a.setOutward scope name v).2)
      (h := fun a => (a.setOutward scope name (v.rename ρ.tag)).2)
      fun a => a.setOutward_map _ scope name v

/-! ## Frames, clean-ups and alternatives -/

theorem Follows.withFrame {f : α → β} {x : ScopeId → Eval α} {y : ScopeId → Eval β}
    (hx : ∀ frame, ρ.Follows f (x frame) (y frame)) (parent : ScopeId) :
    ρ.Follows f (Eval.withFrame parent x) (Eval.withFrame parent y) :=
  (Follows.openFrame parent).bind fun frame => (hx frame).attempt.bind fun result =>
    (Follows.closeFrame frame).bind fun _ => .ofExcept result

theorem Follows.onError {f : α → β} {x : Eval α} {y : Eval β} {cleanup cleanup' : Eval Unit}
    (hx : ρ.Follows f x y) (hcleanup : ρ.Follows id cleanup cleanup') :
    ρ.Follows f (Eval.onError x cleanup) (Eval.onError y cleanup') :=
  hx.attempt.bind fun result => by
    cases result with
    | ok a => exact .pure
    | error e => exact hcleanup.bind fun _ => .fail

theorem Follows.orMismatch (o : Option Value) :
    ρ.Follows (Value.rename ρ.tag) (Eval.orMismatch o)
      (Eval.orMismatch (o.map (Value.rename ρ.tag))) := by
  cases o with
  | none => exact .fail
  | some v => exact .pure

section Alternatives

variable {T T' : ClosureId → Eval (Option Value)}

theorem Follows.firstAnswer {ids : List ClosureId}
    (hT : ∀ c, ρ.Follows (Option.map (Value.rename ρ.tag)) (T c) (T' c)) :
    ρ.Follows (Value.rename ρ.tag) (Eval.firstAnswer T ids) (Eval.firstAnswer T' ids) := by
  induction ids with
  | nil => exact .fail
  | cons c ids ih =>
    refine (hT c).bind fun answer => ?_
    cases answer with
    | some v => exact .pure
    | none => exact ih

theorem Follows.firstSuccess {ids : List ClosureId} {i : Nat}
    (hT : ∀ c, ρ.Follows (Option.map (Value.rename ρ.tag)) (T c) (T' c)) :
    ρ.Follows (Value.rename ρ.tag) (Eval.firstSuccess T i ids) (Eval.firstSuccess T' i ids) := by
  induction ids generalizing i with
  | nil => exact .fail
  | cons c ids ih =>
    refine ((hT c).bind Follows.orMismatch).attempt.bind fun result => ?_
    cases result with
    | ok v => exact .pure
    | error e =>
      have htrace : ρ.Follows id
          (Eval.trace fun _ => "alternative " ++ toString i ++ " failed: " ++ e.message)
          (Eval.trace fun _ => "alternative " ++ toString i ++ " failed: " ++
            (e.rename ρ.tag).message) := .trace fun _ => by rw [RunError.message_rename]
      exact htrace.bind fun _ => ih

theorem Follows.choose (ids : List ClosureId)
    (hT : ∀ c, ρ.Follows (Option.map (Value.rename ρ.tag)) (T c) (T' c)) :
    ρ.Follows (Value.rename ρ.tag) (Eval.choose T ids) (Eval.choose T' ids) := by
  refine Follows.config.bind fun cfg => ?_
  dsimp only [id]
  cases cfg.policy with
  | lenient => exact .firstSuccess hT
  | strict => exact .firstAnswer hT

end Alternatives

/-! ## Depth and moments -/

theorem Follows.deeper {f : α → β} {x : Eval α} {y : Eval β} (hx : ρ.Follows f x y) :
    ρ.Follows f (Eval.deeper x) (Eval.deeper y) := by
  intro cfg s
  rw [Eval.deeper, Eval.deeper]
  change _ ∧ (_ → (if cfg.maxDepth ≤ s.depth then _ else _) = _)
  split
  · exact ⟨Nat.le_refl _, fun _ => rfl⟩
  · obtain ⟨hle, heq⟩ := hx cfg { s with depth := s.depth + 1 }
    cases hxs : x cfg { s with depth := s.depth + 1 } with
    | ok a t | error e t | stopped m t =>
      rw [hxs] at hle heq
      refine ⟨hle, fun hshift => ?_⟩
      have hy : y cfg { s.rename ρ with depth := (s.rename ρ).depth + 1 } = _ := heq hshift
      rw [hy]
      rfl

/-- What breaks runs off does not depend on the identities. -/
def Respects (ρ : Renaming) (stop : Moment → State → Bool) : Prop :=
  ∀ m s, stop (m.rename ρ.tag) (s.rename ρ) = stop m s

theorem Follows.pausing {stop : Moment → State → Bool} (hstop : ρ.Respects stop) {m : Moment}
    {x y : Eval Value} (hx : ρ.Follows (Value.rename ρ.tag) x y) :
    ρ.Follows (Value.rename ρ.tag) (Eval.pausing stop m x)
      (Eval.pausing stop (m.rename ρ.tag) y) := by
  have hbreak : ∀ m, ρ.Follows id (Eval.breakAt stop m) (Eval.breakAt stop (m.rename ρ.tag)) := by
    intro m cfg s
    rw [Eval.breakAt, Eval.breakAt, hstop m s]
    split
    · exact ⟨Nat.le_refl _, fun _ => rfl⟩
    · exact ⟨Nat.le_refl _, fun _ => rfl⟩
  refine (hbreak m).bind fun _ => hx.attempt.bind fun result => ?_
  cases result with
  | ok v => exact (hbreak (.answering v)).bind fun _ => .pure
  | error e => exact (hbreak (.failing e)).bind fun _ => .fail

end Renaming

end Fexpr
