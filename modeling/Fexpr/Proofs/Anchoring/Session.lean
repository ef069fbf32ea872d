import Fexpr.Proofs.Anchoring

/-!
# Proofs/Anchoring/Session — no closure ever points at a recycled frame

A session runs one program after the other in the outermost scope.  From any moment of any run in it
(`FromThenOn`) the frames that functions and pending promises hold on to are in use, captured and
under the same parents, so that none of them is ever handed out again (`closures_stay_pinned`).
-/

namespace Fexpr

/-! ## Sessions -/

theorem State.sound_initial : State.initial.Sound := by
  have hempty : Arena.fresh.Within State.initial.census := fun u => by
    cases u <;> exact Bindings.within_empty
  have harena : State.initial.arena.Rooted ∧ State.initial.arena.Within State.initial.census :=
    State.arena_initial_of (P := fun a => a.Rooted ∧ a.Within State.initial.census)
      ⟨Arena.rooted_fresh, hempty⟩ fun _ name v hv ha =>
        ⟨ha.1.set _ name v, ha.2.set _ name (hv _)⟩
  refine ⟨harena.1, harena.2, ?_⟩
  exact ⟨fun _ h => absurd h (Nat.not_lt_zero _), fun _ h => absurd h (Nat.not_lt_zero _),
    fun _ h => absurd h (Nat.not_lt_zero _), fun _ h => absurd h (Nat.not_lt_zero _)⟩

theorem State.root_mem_initial : Arena.root ∈ State.initial.arena.inUse :=
  State.arena_initial_of (P := fun a => Arena.root ∈ a.inUse) (by decide) fun a name v _ ha => by
    rwa [Arena.set, Arena.inUse_update]

/-- **A session**: programs that are run one after the other in the outermost scope, each to its
end. -/
inductive Session (s : State) : State → Prop
  | refl : Session s s
  | run {t u : State} (fuel : Nat) (code : String) (cfg : Config) : Session s t →
      (Program.runWith fuel code Arena.root cfg t).EndsIn u → Session s u

theorem Outcome.Leads.endsIn {ε α : Type} {s t : State} {Φ : Census → α → Prop}
    {o : Outcome ε α} (h : o.Leads s Φ) (ht : o.EndsIn t) : s.Leads t := by
  rcases ht with ⟨a, rfl⟩ | ⟨e, rfl⟩
  · exact h.1
  · exact h

/-- Where a whole program gets to. -/
theorem leads_runWith (fuel : Nat) (code : String) (cfg : Config) {s : State} (hs : s.Sound)
    (hroot : Arena.root ∈ s.arena.inUse) :
    (Program.runWith fuel code Arena.root cfg s).Leads s Value.Within := by
  have h := Anchoring.leads_runUnder (fun _ _ => false) (fun _ _ => false) (fun _ _ => id)
    (le_refl fuel) code cfg hs hroot
  rw [Evaluator.until_never] at h
  exact h.1

/-- **A session keeps a sound state sound.** -/
theorem Session.leads {s t : State} (h : Session s t) (hs : s.Sound)
    (hroot : Arena.root ∈ s.arena.inUse) : s.Leads t := by
  induction h with
  | refl => exact .refl hs
  | run fuel code cfg _ hend ih =>
    exact ih.trans
      ((leads_runWith fuel code cfg ih.sound (ih.settles.inUse _ hroot)).endsIn hend)

/-- **The states from a moment of a run on**: those of the same run at moments that are not earlier,
and those of the runs that follow in the session. -/
inductive FromThenOn (early : Moment → State → Bool) (fuel : Nat) (code : String) (cfg : Config)
    (s : State) : State → Prop
  | sameRun (late : Moment → State → Bool) (fuel' : Nat) :
      Program.runUnder (.until (fun m t => early m t || late m t) fuel) code Arena.root cfg s =
        Program.runUnder (.until early fuel) code Arena.root cfg s →
      fuel ≤ fuel' →
      FromThenOn early fuel code cfg s
        (Program.runUnder (.until late fuel') code Arena.root cfg s).state
  | laterRun {t u : State} (fuel' : Nat) (stop : Moment → State → Bool) (n : Nat)
      (code' : String) (cfg' : Config) : fuel ≤ fuel' →
      (Program.runWith fuel' code Arena.root cfg s).EndsIn t → Session t u →
      FromThenOn early fuel code cfg s
        (Program.runUnder (.until stop n) code' Arena.root cfg' u).state

theorem FromThenOn.later {early : Moment → State → Bool} {fuel : Nat} {code : String}
    {cfg : Config} {s t : State} (h : FromThenOn early fuel code cfg s t) (hs : s.Sound)
    (hroot : Arena.root ∈ s.arena.inUse) :
    (Program.runUnder (.until early fuel) code Arena.root cfg s).state.Later t := by
  cases h with
  | sameRun late fuel' hearly hfuel =>
    rw [← hearly]
    exact (Anchoring.leads_runUnder _ late (fun _ _ h => Bool.or_eq_true_iff.mpr (Or.inr h)) hfuel
      code cfg hs hroot).2.later
  | laterRun fuel' stop n code' cfg' hfuel hend hsession =>
    -- up to the end of the run, over the runs between, and into the last one
    obtain ⟨hlead, hprec⟩ := Anchoring.leads_runUnder early (fun _ _ => false)
      (fun _ _ h => absurd h Bool.false_ne_true) hfuel code cfg hs hroot
    rw [Evaluator.until_never] at hlead hprec
    rw [Program.runWith] at hend
    have hrun := hlead.endsIn hend
    have hbetween := hsession.leads hrun.sound (hrun.settles.inUse _ hroot)
    have hlast := (Anchoring.leads_runUnder stop stop (fun _ _ => id) (le_refl n) code' cfg'
      hbetween.sound (hbetween.settles.inUse _ (hrun.settles.inUse _ hroot))).1
    have hend' := hprec.later
    rw [hend.state_eq] at hend'
    exact (hend'.trans hbetween.later).trans hlast.later

/-! ## Closures and the frames they point at -/

/-- **A frame that its arena holds on to**: it is in use and captured, so it is not on the free list
and no new frame takes its slot. -/
structure Arena.Holds (a : Arena) (u : ScopeId) : Prop where
  inUse : u ∈ a.inUse
  captured : a.isCaptured u
  notFree : u ∉ a.free
  notReused : ∀ p, (a.child p).1 ≠ u

theorem Arena.holds_of {a : Arena} {u : ScopeId} (hu : u ∈ a.inUse) (hc : a.isCaptured u) :
    a.Holds u :=
  ⟨hu, hc, (mem_inUse.mp hu).2, fun p he => child_not_mem_inUse a p (he ▸ hu)⟩

/-- **A scope is pinned from `s` to `t`**: it and all its ancestors are held in both states, under
the same parents. -/
def State.Pinned (s t : State) (u : ScopeId) : Prop :=
  ∀ v, s.arena.Ancestor u v →
    s.arena.Holds v ∧ t.arena.Holds v ∧ t.arena.parent? v = s.arena.parent? v

/-- **All functions and all pending promises are pinned**, from `s` to `t`. -/
structure State.AllPinned (s t : State) : Prop where
  closure : ∀ id < s.store.closures.size, s.Pinned t (s.store.closure id).scope
  promise : ∀ id node u, s.store.promise id = .pending node u → s.Pinned t u

theorem State.Later.pinned {s t : State} (h : s.Later t) {u : ScopeId}
    (hu : s.arena.Anchored u) : s.Pinned t u := by
  intro v hv
  obtain ⟨hmem, hc⟩ := hu v hv
  obtain ⟨hmem', hc', hp⟩ := h.keeps v hmem hc
  exact ⟨Arena.holds_of hmem hc, Arena.holds_of hmem' hc', hp⟩

theorem State.Sound.allPinned {s t : State} (hs : s.Sound) (h : s.Later t) : s.AllPinned t where
  closure id hid := h.pinned (hs.store.closure id hid).2.2
  promise id node u hp := by
    by_cases hid : id < s.store.promises.size
    · have hwithin := hs.store.promise id hid
      rw [hp] at hwithin
      exact h.pinned hwithin.2
    · simp [Store.promise, Array.getD, hid] at hp

/-- What an outcome puts into the hands of whoever asked, or is about to. -/
def Outcome.AtHand {ε : Type} : Outcome ε Value → Prop
  | .ok v t => v.Within t.census
  | .error _ _ => True
  | .stopped m t => m.Sound t

theorem Outcome.Leads.atHand {ε : Type} {s : State} {o : Outcome ε Value}
    (h : o.Leads s Value.Within) : o.AtHand := by
  cases o with
  | ok v t => exact h.2
  | error e t => exact trivial
  | stopped m t => exact h.2.2

/-- **No closure ever points at a recycled frame.**  At every moment of a run in a session, all
functions and pending promises hold on to scopes that are pinned from then on, and frames, records
and the values at hand mention no other functions and promises. -/
theorem closures_stay_pinned {s t : State} (hs : Session .initial s)
    (early : Moment → State → Bool) (fuel : Nat) (code : String) (cfg : Config)
    (ht : FromThenOn early fuel code cfg s t) :
    let now := Program.runUnder (.until early fuel) code Arena.root cfg s
    now.state.AllPinned t ∧ now.state.arena.Within now.state.census ∧
      now.state.store.Within now.state.census ∧ now.AtHand := by
  have hstart := hs.leads State.sound_initial State.root_mem_initial
  have hroot := hstart.settles.inUse _ State.root_mem_initial
  have hlead := (Anchoring.leads_runUnder early early (fun _ _ => id) (le_refl fuel) code cfg
    hstart.sound hroot).1
  have hlater := ht.later hstart.sound hroot
  exact ⟨hlead.sound.allPinned hlater, hlead.sound.arena, hlead.sound.store, hlead.atHand⟩

/-- A program that defines a function and calls it, from where the function is there. -/
theorem defined_function_stays_pinned :
    let defined : Moment → State → Bool := fun _ s => !s.store.closures.isEmpty
    let now := Program.runUnder (.until defined 20) "(def f (fn () 1)) (f)" Arena.root {} .initial
    let ended := Program.runUnder (.until (fun _ _ => false) 20) "(def f (fn () 1)) (f)" Arena.root
      {} .initial
    now.isStopped ∧ now.state.store.closures.size = 1 ∧ ended.returns (· == .integer 1) ∧
      now.state.AllPinned ended.state ∧ now.state.arena.Within now.state.census ∧
      now.state.store.Within now.state.census ∧ now.AtHand := by
  intro defined now ended
  have hended : FromThenOn defined 20 "(def f (fn () 1)) (f)" {} .initial ended.state :=
    .sameRun (fun _ _ => false) 20 (by simp only [Bool.or_false]) le_rfl
  exact ⟨by decide +kernel, by decide +kernel, by decide +kernel,
    closures_stay_pinned .refl defined 20 "(def f (fn () 1)) (f)" {} hended⟩

end Fexpr
