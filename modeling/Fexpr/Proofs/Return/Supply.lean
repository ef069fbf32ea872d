import Fexpr.Proofs.Return
import Fexpr.Proofs.Return.Layers

/-!
# Proofs/Return/Supply — computations that come to rest

A computation **comes to rest** when from some fuel on it comes to one and the same end
(`Resting.Rests`).  That speaks of many evaluators at once, one for each fuel; `Evaluator.supplied`
is all of them in one, and finds its fuel in the configuration, where the depth limit was.  What is
put together of computations that come to rest comes to rest (`Resting.comparison`), and only calls
and evaluations look at the limit (`Transfer.agree_supplied`).
-/

namespace Fexpr

/-- The configuration with another number in place of the depth limit. -/
def Config.within (cfg : Config) (n : Nat) : Config :=
  { cfg with maxDepth := n }

/-- **A sequence of evaluators in one**: they evaluate and call under `cfg`, and the number in place
of the depth limit says which of them does. -/
def Evaluator.supplied (r : Nat → Evaluator) (cfg : Config) : Evaluator where
  eval node scope := fun c s => (r c.maxDepth).eval node scope cfg s
  call callee arg scope := fun c s => (r c.maxDepth).call callee arg scope cfg s

/-! ## From the limit to the fuel -/

namespace Transfer

variable {cfg : Config} {n : Nat} {α β : Type}

/-- With `n` in place of the limit `x` does what `y` does. -/
def Transfers (cfg : Config) (n : Nat) (x y : Eval α) : Prop :=
  ∀ s, x (cfg.within n) s = y cfg s

theorem transfers_bind {x y : Eval α} {f g : α → Eval β} (hxy : Transfers cfg n x y)
    (hfg : ∀ a, Returns y a → Transfers cfg n (f a) (g a)) :
    Transfers cfg n (x >>= f) (y >>= g) := by
  intro s
  rw [Eval.bind_apply, Eval.bind_apply, hxy s]
  cases hy : y cfg s with
  | ok a t => exact hfg a ⟨cfg, s, t, hy⟩ t
  | error e t | stopped m t => rfl

/-- **No elementary operation looks at the depth limit.** -/
theorem transfers_elementary {N : Census} {scope : ScopeId} {x : Eval α} {Φ : Census → α → Prop}
    (h : Elementary N scope x Φ) : Transfers cfg n x x := by
  cases h with
  | bind binding u name hv => cases binding <;> exact fun _ => rfl
  | read | lookup | capture | print | trace => exact fun _ => rfl
  | setSlot | setEntry | setAttribute => exact fun _ => rfl
  | addClosure | addObject | addDictionary | addPromise | freshTag | freshCurriedTag =>
    exact fun _ => rfl

theorem transfers_attempt {x y : Eval α} (hxy : Transfers cfg n x y) :
    Transfers cfg n (Eval.attempt x) (Eval.attempt y) := fun s => by
  rw [Eval.attempt_apply, Eval.attempt_apply, hxy s]

theorem transfers_withFrame {parent : ScopeId} {x y : ScopeId → Eval α}
    (hxy : ∀ frame, Transfers cfg n (x frame) (y frame)) :
    Transfers cfg n (Eval.withFrame parent x) (Eval.withFrame parent y) := fun s => by
  rw [Eval.withFrame_apply, Eval.withFrame_apply, hxy]

def congruence (cfg : Config) (n : Nat) : PlainCongruence where
  R := Transfers cfg n
  pure _ := fun _ => rfl
  fail _ := fun _ => rfl
  bind := transfers_bind
  elementary := transfers_elementary

theorem catches (cfg : Config) (n : Nat) : (congruence cfg n).toCongruence.Catches :=
  (congruence cfg n).catches transfers_attempt fun _ => rfl

/-- **Finding the fuel in place of the limit is a comparison.** -/
def comparison (cfg : Config) (n : Nat) : PlainComparison :=
  .ofCatches (congruence cfg n) (catches cfg n) transfers_withFrame

theorem agree_supplied (r : Nat → Evaluator) (cfg : Config) (n : Nat) :
    (comparison cfg n).Agree (.supplied r cfg) (r n) :=
  .of_force
    (fun heval _ => (congruence cfg n).force_of_catches (catches cfg n) (fun _ _ => rfl) heval)
    (fun _ _ _ => rfl) fun _ _ _ _ => rfl

end Transfer

/-! ## Coming to rest -/

namespace Resting

variable {α β : Type}

/-- **How a computation is run.** -/
structure Terms where
  cfg : Config
  /-- Where it is broken off, with whatever fuel. -/
  picks : Moment → State → Bool

/-- **From some fuel on a computation comes to one and the same end**, or it is broken off where
that is picked. -/
def Rests (T : Terms) (x : Eval α) (s : State) : Prop :=
  ∃ n o, (∀ k, n ≤ k → x (T.cfg.within k) s = o) ∧ ∀ m t, o = .stopped m t → T.picks m t

variable {T : Terms} {room : Nat} {s : State} {scope : ScopeId}

theorem rests_of_ended {x : Eval α} {o : Outcome RunError α}
    (hx : ∀ k, x (T.cfg.within k) s = o) (ho : o.isStopped = false) : Rests T x s := by
  refine ⟨0, o, fun k _ => hx k, fun m t hstop => ?_⟩
  rw [hstop] at ho
  cases ho

/-- What ends as something does that comes to rest, and is broken off only where that is, comes to
rest too. -/
theorem Rests.through {x : Eval α} {y : Eval β} {t : State} (hx : Rests T x s)
    (hsame : ∀ j k, x (T.cfg.within j) s = x (T.cfg.within k) s →
      y (T.cfg.within j) t = y (T.cfg.within k) t)
    (hstop : ∀ k m u, y (T.cfg.within k) t = .stopped m u → x (T.cfg.within k) s = .stopped m u) :
    Rests T y t := by
  obtain ⟨n, o, hn, hpick⟩ := hx
  refine ⟨n, y (T.cfg.within n) t, fun k hk => hsame k n ?_, fun m u h => hpick m u ?_⟩
  · rw [hn k hk, hn n le_rfl]
  · rw [← hn n le_rfl, hstop n m u h]

/-- **`x` does what `y` does, and `y` comes to rest**, where so many evaluations at most are left
below the limit: at a state in which the evaluator can be asked something, and which `y` keeps
so. -/
structure Rel (T : Terms) (room : Nat) (s : State) (scope : ScopeId) (x y : Eval α)
    (Φ : Census → α → Prop) : Prop where
  keeps : Layering.Keeps s scope y Φ
  same : s.Poised scope → ∀ cfg, x cfg s = y cfg s
  rests : s.Poised scope → T.cfg.maxDepth ≤ s.depth + room → Rests T y s

theorem Rel.of_eq {x y : Eval α} {Φ : Census → α → Prop}
    (hxy : s.Poised scope → ∀ cfg, x cfg s = y cfg s) (hy : Rel T room s scope y y Φ) :
    Rel T room s scope x y Φ :=
  ⟨hy.keeps, hxy, hy.rests⟩

theorem Rel.rests_left {x y : Eval α} {Φ : Census → α → Prop} (hxy : Rel T room s scope x y Φ)
    (hs : s.Poised scope) (hroom : T.cfg.maxDepth ≤ s.depth + room) : Rests T x s := by
  obtain ⟨n, o, hn, hpick⟩ := hxy.rests hs hroom
  exact ⟨n, o, fun k hk => (hxy.same hs _).trans (hn k hk), hpick⟩

theorem rel_bind {x y : Eval α} {f g : α → Eval β} {Φ : Census → α → Prop}
    {Ψ : Census → β → Prop} (hxy : Rel T room s scope x y Φ)
    (hfg : ∀ t a, s.census ≤ t.census → Φ t.census a → Rel T room t scope (f a) (g a) Ψ) :
    Rel T room s scope (x >>= f) (y >>= g) Ψ := by
  refine ⟨Layering.keeps_bind hxy.keeps fun t a hle ha => (hfg t a hle ha).keeps,
    fun hs cfg => ?_, fun hs hroom => ?_⟩
  · rw [Eval.bind_apply, Eval.bind_apply, hxy.same hs cfg]
    cases hy : y cfg s with
    | ok a t =>
      obtain ⟨hle, ha, ht, -⟩ := hxy.keeps.of_ok hs hy
      exact (hfg t a hle ha).same ht cfg
    | error e t | stopped m t => rfl
  · obtain ⟨n, o, hn, hpick⟩ := hxy.rests hs hroom
    cases o with
    | ok a t =>
      obtain ⟨hle, ha, ht, hdepth⟩ := hxy.keeps.of_ok hs (hn n le_rfl)
      obtain ⟨k, o, hk, hpick'⟩ := (hfg t a hle ha).rests ht (by rwa [hdepth])
      refine ⟨max n k, o, fun j hj => ?_, hpick'⟩
      rw [Eval.bind_apply, hn j (le_of_max_le_left hj)]
      exact hk j (le_of_max_le_right hj)
    | error e t =>
      refine ⟨n, .error e t, fun j hj => ?_, fun m u h => by cases h⟩
      rw [Eval.bind_apply, hn j hj]
    | stopped m t =>
      refine ⟨n, .stopped m t, fun j hj => ?_, fun m' u h => ?_⟩
      · rw [Eval.bind_apply, hn j hj]
      · cases h
        exact hpick m t rfl

theorem rel_elementary {x : Eval α} {Φ : Census → α → Prop} (h : Elementary s.census scope x Φ) :
    Rel T room s scope x x Φ := by
  refine ⟨Layering.keeps_elementary h, fun _ _ => rfl, fun _ _ =>
    rests_of_ended (fun _ => Transfer.transfers_elementary h s) ?_⟩
  rcases Coverage.depth_elementary h T.cfg s with ⟨a, t, hx, -⟩ | ⟨e, t, hx, -⟩
  · rw [hx]
    rfl
  · rw [hx]
    rfl

theorem rel_attempt {x y : Eval α} {Φ : Census → α → Prop} (hxy : Rel T room s scope x y Φ) :
    Rel T room s scope (Eval.attempt x) (Eval.attempt y) (Congruence.IfOk Φ) := by
  refine ⟨Layering.keeps_attempt hxy.keeps, fun hs cfg => ?_, fun hs hroom => ?_⟩
  · rw [Eval.attempt_apply, Eval.attempt_apply, hxy.same hs cfg]
  · refine (hxy.rests hs hroom).through (fun j k h => ?_) fun k m t h => ?_
    · rw [Eval.attempt_apply, Eval.attempt_apply, h]
    · rw [Eval.attempt_apply] at h
      split at h
      · cases h
      · cases h
      · next hstop =>
        cases h
        exact hstop

theorem rel_withFrame {parent : ScopeId} {x y : ScopeId → Eval α} {Φ : Census → α → Prop}
    (hparent : parent = scope ∨ s.census.scope parent) (hΦ : Upward Φ)
    (hxy : ∀ t frame, s.census ≤ t.census → Rel T room t frame (x frame) (y frame) Φ) :
    Rel T room s scope (Eval.withFrame parent x) (Eval.withFrame parent y) Φ := by
  have hopen : ∀ hs : s.Poised scope,
      Rel T room { s with arena := (s.arena.child parent).2 } (s.arena.child parent).1
        (x (s.arena.child parent).1) (y (s.arena.child parent).1) Φ := fun hs =>
    hxy _ _ (hs.child hparent).1
  refine ⟨Layering.keeps_withFrame hparent hΦ fun t frame hle => (hxy t frame hle).keeps,
    fun hs cfg => ?_, fun hs hroom => ?_⟩
  · rw [Eval.withFrame_apply, Eval.withFrame_apply, (hopen hs).same (hs.child hparent).2 cfg]
  · refine ((hopen hs).rests (hs.child hparent).2 hroom).through (fun j k h => ?_) fun k m t h => ?_
    · rw [Eval.withFrame_apply, Eval.withFrame_apply, h]
    · rw [Eval.withFrame_apply] at h
      split at h
      · cases h
      · cases h
      · next hstop =>
        cases h
        exact hstop

/-- Coming to rest, as a relation that sequencing respects. -/
abbrev congruence (T : Terms) (room : Nat) : Congruence where
  World := State
  census := State.census
  Rel := Rel T room
  pure ha := ⟨Layering.congruence.pure ha, fun _ _ => rfl, fun _ _ =>
    rests_of_ended (fun _ => rfl) rfl⟩
  fail := ⟨Layering.congruence.fail, fun _ _ => rfl, fun _ _ => rests_of_ended (fun _ => rfl) rfl⟩
  bind := rel_bind
  elementary := rel_elementary

theorem catches (T : Terms) (room : Nat) : (congruence T room).Catches where
  attempt := rel_attempt
  policy := ⟨Layering.catches.policy, fun _ _ => rfl, fun _ _ =>
    rests_of_ended (o := .ok T.cfg.policy _) (fun _ => rfl) rfl⟩

/-- **Coming to rest is a comparison.** -/
abbrev comparison (T : Terms) (room : Nat) : Comparison where
  toCongruence := congruence T room
  withFrame := rel_withFrame
  choose := (catches T room).choose

theorem rel_force {r : Evaluator}
    (hr : ∀ (s : State) (scope : ScopeId) {node : Node}, node.Within s.census →
      Rel T room s scope (r.eval node scope) (r.eval node scope) Value.Within)
    (s : State) (scope : ScopeId) {id : PromiseId} (hid : s.census.promise id) :
    Rel T room s scope (Promise.force r id) (Promise.force r id) Value.Within := by
  have hrel : (congruence T room).Rel s scope (Promise.force r id) (Promise.force r id)
      Value.Within :=
    (catches T room).force
      (fun _ _ _ hp => ⟨Layering.keeps_setPromise hp, fun _ _ => rfl, fun _ _ =>
        rests_of_ended (o := .ok () _) (fun _ => rfl) rfl⟩)
      (fun t _ u _ hn hu => ⟨(hr t u hn).keeps.elsewhere hu, fun _ _ => rfl, fun ht hroom =>
        (hr t u hn).rests ⟨ht.sound, hu.mem_inUse, ht.layered⟩ hroom⟩) hid
  exact hrel

/-! ## Runs that are broken off at calls -/

/-- **All runs that are broken off where that is picked**, with whatever fuel, in one evaluator. -/
def Terms.runs (T : Terms) : Evaluator :=
  .supplied (.until T.picks) T.cfg

/-- Where only calls are picked, nothing is broken off where it ends. -/
theorem checked_of_calls {stop : Moment → State → Bool} (hcalls : ∀ m t, stop m t → m.IsCall)
    (o : Outcome RunError Value) : o.checked stop = o := by
  have hends : ∀ m t, ¬m.IsCall → stop m t = false := fun m t hm =>
    Bool.eq_false_iff.mpr fun h => hm (hcalls m t h)
  cases o with
  | ok v t =>
    have hv : ¬(Moment.answering v).IsCall := by
      rintro ⟨_, _, _, h⟩
      cases h
    rw [Outcome.checked, hends _ t hv]
    rfl
  | error e t =>
    have he : ¬(Moment.failing e).IsCall := by
      rintro ⟨_, _, _, h⟩
      cases h
    rw [Outcome.checked, hends _ t he]
    rfl
  | stopped m t => rfl

theorem keeps_runs (T : Terms) : Layering.comparison.Agree T.runs T.runs := by
  have heval : ∀ (s : State) (scope : ScopeId) {node : Node}, node.Within s.census →
      Layering.Keeps s scope (T.runs.eval node scope) Value.Within := fun s scope _ hn =>
    ⟨fun c => ((Layering.agree_until T.picks c.maxDepth).eval s scope hn).anchored T.cfg,
      fun c => ((Layering.agree_until T.picks c.maxDepth).eval s scope hn).layers T.cfg⟩
  refine ⟨fun s scope _ hn => heval s scope hn, fun s scope _ _ hc ha => ?_,
    fun s scope _ hid => Layering.keeps_force heval s scope hid⟩
  exact ⟨fun c => ((Layering.agree_until T.picks c.maxDepth).call s scope hc ha).anchored T.cfg,
    fun c => ((Layering.agree_until T.picks c.maxDepth).call s scope hc ha).layers T.cfg⟩

section Calls

variable (hcalls : ∀ m t, T.picks m t → m.IsCall)

include hcalls

/-- **An evaluation comes to rest if what it does one level deeper does**, and if there is no level
below. -/
theorem rests_eval {node : Node}
    (h : s.depth < T.cfg.maxDepth →
      Rests T (evalNode T.runs node scope) { s with depth := s.depth + 1 }) :
    Rests T (T.runs.eval node scope) s := by
  have hstep : ∀ k, T.runs.eval node scope (T.cfg.within (k + 1)) s =
      Eval.deeper (evalNode (.until T.picks k) node scope) T.cfg s := fun k => by
    change Eval.pausing T.picks _ _ T.cfg s = _
    rw [Eval.pausing_apply, checked_of_calls hcalls, if_neg]
    exact fun h => by
      obtain ⟨_, _, _, hm⟩ := hcalls _ _ h
      cases hm
  by_cases hlimit : T.cfg.maxDepth ≤ s.depth
  · refine ⟨1, .error (.recursionLimit T.cfg.maxDepth) s, fun k hk => ?_, fun m t h => by cases h⟩
    obtain ⟨j, rfl⟩ := Nat.exists_eq_add_of_le' hk
    rw [hstep, Eval.deeper, if_pos hlimit]
  · obtain ⟨n, o, hn, hpick⟩ := h (Nat.lt_of_not_le hlimit)
    have hinner : ∀ k, n ≤ k →
        evalNode (.until T.picks k) node scope T.cfg { s with depth := s.depth + 1 } = o :=
      fun k hk => ((Transfer.agree_supplied _ T.cfg k).evalNode node scope _).symm.trans (hn k hk)
    refine ⟨n + 1, T.runs.eval node scope (T.cfg.within (n + 1)) s, fun k hk => ?_, fun m t h => ?_⟩
    · obtain ⟨j, rfl⟩ : ∃ j, k = j + 1 := ⟨k - 1, by omega⟩
      rw [hstep, hstep, Eval.deeper, Eval.deeper, hinner n le_rfl, hinner j (by omega)]
    · rw [hstep, Eval.deeper, if_neg hlimit, hinner n le_rfl] at h
      cases o with
      | ok v u | error e u => cases h
      | stopped m' u =>
        cases h
        exact hpick m t rfl

/-- **A call comes to rest if what it does does.** -/
theorem rests_call {callee : Value} {arg : Node}
    (h : ¬T.picks (.calling callee arg scope) s → Rests T (callValue T.runs callee arg scope) s) :
    Rests T (T.runs.call callee arg scope) s := by
  have hstep : ∀ k, T.runs.call callee arg scope (T.cfg.within (k + 1)) s =
      if T.picks (.calling callee arg scope) s then .stopped (.calling callee arg scope) s
      else callValue (.until T.picks k) callee arg scope T.cfg s := fun k => by
    change Eval.pausing T.picks _ _ T.cfg s = _
    rw [Eval.pausing_apply, checked_of_calls hcalls]
  by_cases hpicked : T.picks (.calling callee arg scope) s
  · refine ⟨1, .stopped (.calling callee arg scope) s, fun k hk => ?_, fun m t h => ?_⟩
    · obtain ⟨j, rfl⟩ := Nat.exists_eq_add_of_le' hk
      rw [hstep, if_pos hpicked]
    · cases h
      exact hpicked
  · obtain ⟨n, o, hn, hpick⟩ := h hpicked
    refine ⟨n + 1, o, fun k hk => ?_, hpick⟩
    obtain ⟨j, rfl⟩ : ∃ j, k = j + 1 := ⟨k - 1, by omega⟩
    rw [hstep, if_neg hpicked, ← hn j (by omega)]
    exact ((Transfer.agree_supplied _ T.cfg j).callValue callee arg scope s).symm

end Calls

end Resting

end Fexpr
