import Fexpr.Proofs.Moments.Span
import Fexpr.Proofs.Permanence
import Fexpr.Proofs.Promises
import Mathlib.Logic.Relation

/-!
# Proofs/Promises/Once — a promise runs at most once to a value

`Promise.RunsOnce` says what becomes of a promise, whatever is run, evaluated, called or forced,
with whatever errors and under either policy, and **every promise of every state is like that**
(`Promise.runsOnce`).

To force a pending promise is to evaluate its node in its scope once, and no evaluator can tell it
from that (`Promise.RunsOnce.force`); to force any other promise is to evaluate nothing.  That a
promise gets its value in this way only (`Task.Computes`) is shown by breaking the task off: if it
were never broken off where such an evaluation begins, no promise would be admitted that value, and
if it were not broken off where the evaluation ends, it would have to be in the middle of it.
-/

namespace Fexpr

/-! ## From one moment on -/

/-- **One state after another**: two moments of one task, the beginning of a task and a moment of
it, or what a host does that leaves the promises there are as they are. -/
inductive State.Passes : State → State → Prop
  | onward (task : Task) {early late : Moment → State → Bool}
      (hle : ∀ m t, late m t → early m t) (fuel : Nat) (cfg : Config) (s : State) :
      Passes (task.under (.until early fuel) cfg s).state
        (task.under (.until late fuel) cfg s).state
  | starts (task : Task) (stop : Moment → State → Bool) (fuel : Nat) (cfg : Config) (s : State) :
      Passes s (task.under (.until stop fuel) cfg s).state
  | host {s t : State} : Retained s.store.promises t.store.promises → Passes s t

/-- **In the course of a task and before it is broken off by `stop`**, `node` is evaluated in `u`
while the promise `id` is marked: the evaluation begins in a state `t` and answers `v` in the state
`t'` that it comes to from there. -/
def Task.Computes (task : Task) (stop : Moment → State → Bool) (fuel : Nat) (cfg : Config)
    (s : State) (id : PromiseId) (node : Node) (u : ScopeId) (v : Value) : Prop :=
  ∃ t t', t.store.promise id = .forcing ∧
    (∃ n, (Evaluator.ofFuel n).eval node u cfg t = .ok v t') ∧
    task.GetsTo stop fuel cfg s (.evaluating node u) t ∧
    task.GetsTo stop fuel cfg s (.answering v) t'

/-- **What becomes of the promise `id`.** -/
structure Promise.RunsOnce (id : PromiseId) : Prop where
  /-- Once it has a value, it has that value for ever. -/
  forced : ∀ {s t : State} {v : Value}, s.store.promise id = .forced v →
    Relation.ReflTransGen State.Passes s t → t.store.promise id = .forced v
  /-- At every moment of a task a pending promise is pending as it was, in the course of being
  forced, which is over when the task comes to its end, or it has the value of an evaluation of its
  node. -/
  pending : ∀ (task : Task) (stop : Moment → State → Bool) (fuel : Nat) (cfg : Config) {s : State}
    {node : Node} {u : ScopeId}, s.store.promise id = .pending node u →
    let now := task.under (.until stop fuel) cfg s
    now.state.store.promise id = .pending node u ∨
      now.isStopped ∧ now.state.store.promise id = .forcing ∨
      ∃ v, now.state.store.promise id = .forced v ∧ task.Computes stop fuel cfg s id node u v
  /-- **To force it is to evaluate its node in its scope, once** and while it is marked, whatever
  the evaluator: it ends as that evaluation ends and in the same state, but that the promise has the
  value after a success and is pending as it was after a failure. -/
  force : ∀ (r : Evaluator) (cfg : Config) {s : State} {node : Node} {u : ScopeId},
    s.store.promise id = .pending node u →
    (s.marked cfg id node).store.promise id = .forcing ∧
    Promise.force r id cfg s =
      match r.eval node u cfg (s.marked cfg id node) with
      | .ok v t => .ok v { t with store := t.store.setPromise id (.forced v) }
      | .error e t => .error e { t with store := t.store.setPromise id (.pending node u) }
      | .stopped m t => .stopped m t
  /-- So it has its value after a success, and after a failure it can be forced again. -/
  left : ∀ (fuel : Nat) (cfg : Config) {s : State} {node : Node} {u : ScopeId},
    s.store.promise id = .pending node u →
    (∀ v t, Promise.force (.ofFuel fuel) id cfg s = .ok v t → t.store.promise id = .forced v) ∧
    ∀ e t, Promise.force (.ofFuel fuel) id cfg s = .error e t → t.store.promise id = .pending node u
  /-- While it is being forced, to force it is an error that changes nothing and evaluates nothing,
  and it stays marked at every moment. -/
  cycle : ∀ {s : State}, s.store.promise id = .forcing →
    (∀ (r : Evaluator) cfg, Promise.force r id cfg s = .error .promiseCycle s) ∧
    (id < s.store.promises.size → ∀ (task : Task) (stop : Moment → State → Bool) fuel cfg,
      (task.under (.until stop fuel) cfg s).state.store.promise id = .forcing)
  /-- What has a value returns it, changes nothing and evaluates nothing. -/
  again : ∀ {s : State} {v : Value}, s.store.promise id = .forced v → ∀ (r : Evaluator) cfg,
    Promise.force r id cfg s = .ok v s
  /-- When a task returns or fails, the promise is in the course of being forced if and only if it
  was before. -/
  forcing_iff : ∀ (task : Task) (fuel : Nat) (cfg : Config) {s t : State},
    (task.under (.ofFuel fuel) cfg s).EndsIn t → id < t.store.promises.size →
    (t.store.promise id = .forcing ↔ id < s.store.promises.size ∧ s.store.promise id = .forcing)

namespace Promises

variable {cfg : Config} {early late stop : Moment → State → Bool} {s t : State} {id : PromiseId}
  {node : Node} {u : ScopeId} {v : Value}

/-- Promises may run to anything. -/
def Setting.anyhow (cfg : Config) (early late : Moment → State → Bool) : Setting :=
  ⟨cfg, early, late, fun _ _ _ _ => True⟩

theorem settles_anyhow (hle : ∀ m t, late m t → early m t) (task : Task) (fuel : Nat)
    (cfg : Config) (s : State) :
    (task.under (.until late fuel) cfg s).Settles (fun _ _ _ _ => True) s ∧
      (task.under (.until early fuel) cfg s).Precedes (Setting.anyhow cfg early late).Onward
        (task.under (.until late fuel) cfg s) :=
  settles_task (T := .anyhow cfg early late) hle (fun _ _ _ _ _ _ _ _ _ => trivial) task fuel s

theorem moves_task (task : Task) (stop : Moment → State → Bool) (fuel : Nat) (cfg : Config)
    (s : State) :
    s.store.Moves (fun _ _ _ _ => True) (task.under (.until stop fuel) cfg s).state.store :=
  (settles_anyhow (fun _ _ => id) task fuel cfg s).1.moves

theorem settles_ended (task : Task) {fuel : Nat}
    (h : (task.under (.ofFuel fuel) cfg s).EndsIn t) :
    s.store.Settles (fun _ _ _ _ => True) t.store := by
  rw [← Evaluator.until_never] at h
  exact (settles_anyhow (fun _ _ => id) task fuel cfg s).1.endsIn h

theorem agree_ofFuel (cfg : Config) (fuel : Nat) :
    (comparison (.anyhow cfg (fun _ _ => false) fun _ _ => false)).Agree (.ofFuel fuel)
      (.ofFuel fuel) := by
  have h : (comparison (.anyhow cfg (fun _ _ => false) fun _ _ => false)).Agree
      (.until (fun _ _ => false) fuel) (.until (fun _ _ => false) fuel) :=
    agree_until (fun _ _ h => h) (fun _ _ _ _ _ _ _ _ _ => trivial) fuel
  rwa [Evaluator.until_never] at h

theorem lasts_passes (h : s.Passes t) : s.store.Lasts t.store := by
  cases h with
  | onward task hle fuel cfg s =>
    rcases (settles_anyhow hle task fuel cfg s).2 with heq | ⟨m, t, heq, -, hlasts⟩
    · rw [heq]
      exact .refl _
    · rw [heq]
      exact hlasts
  | starts task stop fuel cfg s => exact (moves_task task stop fuel cfg s).lasts
  | host h =>
    intro id v hv
    have hid : id < s.store.promises.size := Store.lt_size_of_promise_ne (by simp [hv])
    rw [Store.promise_eq, h id hid, ← Store.promise_eq]
    exact hv

/-- **What the forcing of a pending promise leaves of it.** -/
theorem force_leaves (fuel : Nat) (cfg : Config) (hp : s.store.promise id = .pending node u) :
    (∀ v t, Promise.force (.ofFuel fuel) id cfg s = .ok v t → t.store.promise id = .forced v) ∧
    ∀ e t, Promise.force (.ofFuel fuel) id cfg s = .error e t →
      t.store.promise id = .pending node u := by
  have hsettles : ((Evaluator.ofFuel fuel).eval node u cfg (s.marked cfg id node)).Settles _ _ :=
    ((agree_ofFuel cfg fuel).eval node u (s.marked cfg id node)).1
  rw [Promise.force_pending hp]
  cases heval : (Evaluator.ofFuel fuel).eval node u cfg (s.marked cfg id node) with
  | ok v t =>
    rw [heval] at hsettles
    have hid := (Store.Settles.promise_marked hp hsettles).2.1
    refine ⟨fun v' t' h => ?_, fun e t' h => by cases h⟩
    cases h
    exact Store.promise_setPromise_self hid
  | error e t =>
    rw [heval] at hsettles
    have hid := (Store.Settles.promise_marked hp hsettles).2.1
    refine ⟨fun v t' h => (by cases h), fun e' t' h => ?_⟩
    cases h
    exact Store.promise_setPromise_self hid
  | stopped m t => exact ⟨fun v t' h => (by cases h), fun e t' h => by cases h⟩

/-! ## Where a value comes from -/

/-- An evaluation that a promise waits for begins, and it will come to `v`. -/
def Begins (id : PromiseId) (node : Node) (u : ScopeId) (v : Value) (cfg : Config) (m : Moment)
    (t : State) : Prop :=
  m = .evaluating node u ∧ t.store.promise id = .forcing ∧
    ∃ n t', (Evaluator.ofFuel n).eval node u cfg t = .ok v t'

/-- An evaluation that is not broken off is an ordinary one. -/
theorem eval_ofFuel_of_until {n : Nat}
    (h : (Evaluator.until stop n).eval node u cfg s = .ok v t) :
    (Evaluator.ofFuel n).eval node u cfg s = .ok v t := by
  have hagree := agree_until (T := .anyhow cfg stop fun _ _ => false)
    (fun _ _ hnever => absurd hnever Bool.false_ne_true) (fun _ _ _ _ _ _ _ _ _ => trivial) n
  have hprec : ((Evaluator.until stop n).eval node u cfg s).Precedes _
      ((Evaluator.until (fun _ _ => false) n).eval node u cfg s) := (hagree.eval node u s).2
  rw [Evaluator.until_never] at hprec
  rcases hprec with hsame | ⟨m, t', hstopped, -⟩
  · rw [← hsame, h]
  · rw [h] at hstopped
    cases hstopped

/-- **A task that is broken off wherever such an evaluation begins gives no promise that value.** -/
theorem admits_of_begins (hstop : ∀ m t, Begins id node u v cfg m t → stop m t) (n : Nat) :
    Setting.Admits ⟨cfg, stop, stop, fun i n w x => ¬(i = id ∧ n = node ∧ w = u ∧ x = v)⟩
      (.until stop n) := by
  rintro i node' u' s v' t hmarked heval ⟨rfl, rfl, rfl, rfl⟩
  cases n with
  | zero => cases heval
  | succ n =>
    have hbegins : stop (.evaluating node' u') s :=
      hstop _ _ ⟨rfl, hmarked, n + 1, t, eval_ofFuel_of_until heval⟩
    have hpause : (Evaluator.until stop (n + 1)).eval node' u' cfg s = _ :=
      Eval.pausing_apply stop (.evaluating node' u') _ cfg s
    rw [if_pos hbegins, heval] at hpause
    cases hpause

open Classical in
/-- **A promise that has got a value was evaluated to it** where it was marked, at some moment. -/
theorem exists_begins (task : Task) (stop : Moment → State → Bool) {fuel : Nat}
    (hp : s.store.promise id = .pending node u)
    (hv : (task.under (.until stop fuel) cfg s).state.store.promise id = .forced v) :
    ∃ early t, (∀ m t, stop m t → early m t) ∧ (∀ m t, Begins id node u v cfg m t → early m t) ∧
      task.under (.until early fuel) cfg s = .stopped (.evaluating node u) t ∧
      Begins id node u v cfg (.evaluating node u) t := by
  have hid : id < s.store.promises.size := Store.lt_size_of_promise_ne (by simp [hp])
  let early : Moment → State → Bool := fun m t => stop m t || decide (Begins id node u v cfg m t)
  have hle : ∀ m t, stop m t → early m t := fun m t h => Bool.or_eq_true_iff.mpr (Or.inl h)
  have hbegins : ∀ m t, Begins id node u v cfg m t → early m t := fun m t h =>
    Bool.or_eq_true_iff.mpr (Or.inr (decide_eq_true h))
  rcases (settles_anyhow hle task fuel cfg s).2 with hsame | ⟨m, t, hstopped, ⟨hearly, hnot⟩, -⟩
  · -- never broken off where such an evaluation begins, so there is no such value
    have hmoves := (settles_task (T := ⟨cfg, early, early, _⟩) (fun _ _ h => h)
      (admits_of_begins hbegins) task fuel s).1.moves.old id hid
    dsimp only at hmoves
    rw [hsame, hp, hv] at hmoves
    cases hmoves with
    | settles hsettles =>
      cases hsettles with
      | ran hmay => exact absurd ⟨rfl, rfl, rfl, rfl⟩ hmay
  · have hbegin : Begins id node u v cfg m t :=
      of_decide_eq_true ((Bool.or_eq_true_iff.mp hearly).resolve_left hnot)
    obtain rfl := hbegin.1
    exact ⟨early, t, hle, hbegins, hstopped, hbegin⟩

/-! ## One moment more -/

section OrAt

variable {m m₀ : Moment} {t₀ : State}

open Classical in
/-- Breaks off where `stop` does, and at one moment more. -/
noncomputable def orAt (stop : Moment → State → Bool) (m₀ : Moment) (t₀ : State) :
    Moment → State → Bool := fun m t =>
  stop m t || decide (m = m₀ ∧ t = t₀)

theorem orAt_iff : orAt stop m₀ t₀ m t ↔ stop m t ∨ m = m₀ ∧ t = t₀ := by
  simp only [orAt, Bool.or_eq_true, decide_eq_true_eq]

/-- **Broken off at one moment more**, a task gets to that moment or does what it did. -/
theorem under_orAt (stop : Moment → State → Bool) (m₀ : Moment) (t₀ : State) (task : Task)
    (fuel : Nat) (cfg : Config) (s : State) :
    task.under (.until (orAt stop m₀ t₀) fuel) cfg s = task.under (.until stop fuel) cfg s ∨
      task.under (.until (orAt stop m₀ t₀) fuel) cfg s = .stopped m₀ t₀ := by
  have hfewer : ∀ m t, stop m t → orAt stop m₀ t₀ m t := fun m t h => orAt_iff.mpr (.inl h)
  rcases (settles_anyhow hfewer task fuel cfg s).2 with hsame | ⟨m, t, hstopped, ⟨hearly, hlate⟩, -⟩
  · exact .inl hsame
  · obtain ⟨rfl, rfl⟩ := (orAt_iff.mp hearly).resolve_left hlate
    exact .inr hstopped

end OrAt

/-- **A promise that has got a value was evaluated to it**: both ends of the evaluation are moments
of the task. -/
theorem computes_of_forced (task : Task) (stop : Moment → State → Bool) {fuel : Nat}
    (hp : s.store.promise id = .pending node u)
    (hv : (task.under (.until stop fuel) cfg s).state.store.promise id = .forced v) :
    task.Computes stop fuel cfg s id node u v := by
  obtain ⟨early, t, hle, hbegins, hbroken, -, hmarked, n, t', heval⟩ :=
    exists_begins task stop hp hv
  have hid : id < t.store.promises.size := by
    have hsize := (moves_task task early fuel cfg s).size_le
    rw [hbroken] at hsize
    exact Nat.lt_of_lt_of_le (Store.lt_size_of_promise_ne (by simp [hp])) hsize
  -- all through the evaluation the promise is marked, and in the end it is not
  have hmeanwhile : ∀ stop' k, ((Evaluator.until stop' k).eval node u cfg
      t).state.store.promise id = .forcing := fun stop' k => by
    have hmoves := (moves_task (.eval node u) stop' k cfg t).forcing hid hmarked
    rw [Task.under, Run.ofEval] at hmoves
    cases hk : (Evaluator.until stop' k).eval node u cfg t <;> rwa [hk] at hmoves
  have hmarked' : t'.store.promise id = .forcing := by
    have hlast := hmeanwhile (fun _ _ => false) n
    rwa [Evaluator.until_never, heval] at hlast
  have hnot : ∀ m w, w.store.promise id = .forcing →
      task.under (.until stop fuel) cfg s ≠ .stopped m w := fun m w hw hnow => by
    rw [hnow, Outcome.state, hw] at hv
    cases hv
  let begun := orAt stop (.evaluating node u) t
  let late := orAt stop (.answering v) t'
  let both := orAt begun (.answering v) t'
  have hbegun : task.under (.until begun fuel) cfg s = .stopped (.evaluating node u) t := by
    have hfewer : ∀ m w, begun m w → early m w := fun m w h => by
      rcases orAt_iff.mp h with hstop | ⟨rfl, rfl⟩
      · exact hle m w hstop
      · exact hbegins _ _ ⟨rfl, hmarked, n, t', heval⟩
    rcases (settles_anyhow hfewer task fuel cfg s).2 with hsame | ⟨m, w, hstopped, ⟨-, hlate⟩, -⟩
    · rw [← hsame, hbroken]
    · rw [hbroken] at hstopped
      cases hstopped
      exact absurd (orAt_iff.mpr (.inr ⟨rfl, rfl⟩)) hlate
  rcases under_orAt stop (.answering v) t' task fuel cfg s with hsame | hends
  · -- never broken off where the evaluation ends, the task would be in the middle of it
    let E : Span := ⟨cfg, node, u, v, t, t', n, heval⟩
    have hless : ∀ m w, late m w → both m w := fun m w h =>
      orAt_iff.mpr ((orAt_iff.mp h).imp_left fun hstop => orAt_iff.mpr (.inl hstop))
    have hmore : ∀ m w, both m w → late m w ∨ m = .evaluating node u ∧ w = t := fun m w h => by
      rcases orAt_iff.mp h with hbegan | hend
      · exact (orAt_iff.mp hbegan).imp_left fun hstop => orAt_iff.mpr (.inl hstop)
      · exact .inl (orAt_iff.mpr (.inr hend))
    have hend : late (.answering v) t' := orAt_iff.mpr (.inr ⟨rfl, rfl⟩)
    have hnow : ∀ m w, w.store.promise id = .forcing →
        task.under (.until late fuel) cfg s ≠ .stopped m w := fun m w hw hstop =>
      hnot m w hw (hsame.symm.trans hstop)
    rcases E.crosses hless hmore hend task fuel s with hcross | ⟨k, m, w, hinside, hstop⟩
    · rcases under_orAt begun (.answering v) t' task fuel cfg s with hfirst | hfirst
      · exact absurd (hcross.symm.trans (hfirst.trans hbegun)) (hnow _ t hmarked)
      · exact absurd (hcross.symm.trans hfirst) (hnow _ t' hmarked')
    · have hw := hmeanwhile late k
      rw [hinside] at hw
      exact absurd hstop (hnow m w hw)
  · exact ⟨t, t', hmarked, ⟨n, heval⟩, ⟨begun, fun m w h => orAt_iff.mpr (.inl h), hbegun⟩,
      ⟨late, fun m w h => orAt_iff.mpr (.inl h), hends⟩⟩

end Promises

/-- **A promise runs at most once to a value**, whatever is run, evaluated, called and forced. -/
theorem Promise.runsOnce (id : PromiseId) : Promise.RunsOnce id where
  forced hv hpasses := by
    induction hpasses with
    | refl => exact hv
    | tail _ hpass ih => exact Promises.lasts_passes hpass id _ ih
  pending task stop fuel cfg s node u hp := by
    intro now
    have hid : id < s.store.promises.size := Store.lt_size_of_promise_ne (by simp [hp])
    have hsettles : now.Settles _ s :=
      (Promises.settles_anyhow (fun _ _ h => h) task fuel cfg s).1
    have hmoves := hsettles.moves.old id hid
    rw [hp] at hmoves
    cases hnow : now.state.store.promise id with
    | pending node' u' =>
      rw [hnow] at hmoves
      rcases hmoves with ⟨⟨-⟩⟩
      exact Or.inl rfl
    | forced v => exact Or.inr (Or.inr ⟨v, rfl, Promises.computes_of_forced task stop hp hnow⟩)
    | forcing =>
      refine Or.inr (Or.inl ⟨?_, rfl⟩)
      by_contra hended
      have hends := Outcome.endsIn_state (Bool.eq_false_iff.mpr hended)
      have hold := (hsettles.endsIn hends).old id hid
      rw [hp, hnow] at hold
      cases hold
  force r cfg s node u hp :=
    ⟨Store.promise_setPromise_self (Store.lt_size_of_promise_ne (by simp [hp])),
      Promise.force_pending hp r cfg⟩
  left fuel cfg s node u hp := Promises.force_leaves fuel cfg hp
  cycle hp := ⟨fun r cfg => Promise.force_forcing hp r cfg, fun hid task stop fuel cfg =>
    (Promises.moves_task task stop fuel cfg _).forcing hid hp⟩
  again hv r cfg := Promise.force_forced hv r cfg
  forcing_iff task fuel cfg s t hend hid := by
    have hsettles := Promises.settles_ended task hend
    constructor
    · intro ht
      have hold : id < s.store.promises.size := by
        by_contra hnew
        exact hsettles.new id hid (Nat.le_of_not_lt hnew) ht
      refine ⟨hold, ?_⟩
      by_contra hs
      exact (hsettles.old id hold).ne_forcing hs ht
    · rintro ⟨hold, hs⟩
      exact hsettles.moves.forcing hold hs

/-- `(add 1 2)` is delayed by one program and forced by another, once by itself and once as the cdr
of a pair: in the course of that it is evaluated to the value that the promise then has. -/
theorem delayed_sum_is_computed :
    let delayed := (Program.runWith 20 "(def p (delay (add 1 2)))" Arena.root {} .initial).state
    let task := Task.run "(list (force p) (cdr (cons 0 p)))" Arena.root
    ∃ node u v, delayed.store.promise 0 = .pending node u ∧ v == .integer 3 ∧
      (task.under (.until (fun _ _ => false) 20) {} delayed).state.store.promise 0 = .forced v ∧
      task.Computes (fun _ _ => false) 20 {} delayed 0 node u v := by
  intro delayed task
  -- without fuel a promise can be forced only if it has its value
  have hdelayed : (Promise.force (.ofFuel 0) 0 {} delayed).isStopped := by decide +kernel
  have hended : (Promise.force (.ofFuel 0) 0 {}
      (task.under (.until (fun _ _ => false) 20) {} delayed).state).returns (· == .integer 3) := by
    decide +kernel
  cases hp : delayed.store.promise 0 with
  | forced v =>
    rw [Promise.force_forced hp] at hdelayed
    cases hdelayed
  | forcing =>
    rw [Promise.force_forcing hp] at hdelayed
    cases hdelayed
  | pending node u =>
    have hnow := (Promise.runsOnce 0).pending task (fun _ _ => false) 20 {} hp
    rcases hnow with h | ⟨-, h⟩ | ⟨v, h, hv⟩
    · rw [Promise.force_pending h] at hended
      cases hended
    · rw [Promise.force_forcing h] at hended
      cases hended
    · rw [Promise.force_forced h] at hended
      exact ⟨node, u, v, rfl, hended, h, hv⟩

end Fexpr
