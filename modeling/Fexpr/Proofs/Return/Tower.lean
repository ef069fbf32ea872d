import Fexpr.Proofs.Calling
import Fexpr.Proofs.Return.Descent

/-!
# Proofs/Return/Tower — only calls that are handed on nest for ever

    program ──▸ call ──▸ apply ──▸ call ──▸ …      each in the course of the one before

**A program does not come back exactly if it gets to a call of `call` or `apply`, in its course to
another, in the course of that to another, and so on without end** (`never_comes_back_iff`): curried
and composed values, patterns, functions and multi-functions nest calls only as deep as they are
built.  A program in which neither primitive is called comes back (`comes_back_of_not_handsOn`).
-/

namespace Fexpr

/-! ## Where runs are broken off -/

/-- **A call of `call` or `apply`.** -/
def Moment.HandsOn : Moment → Prop
  | .calling callee _ _ => callee.HandsOn
  | .evaluating _ _ | .answering _ | .failing _ => False

namespace Resting

/-- **Broken off where `call` or `apply` is called and nothing comes back.** -/
noncomputable def forEver (cfg : Config) : Terms where
  cfg := cfg
  picks m t := open scoped Classical in decide (m.HandsOn ∧ m.Endless cfg t)

variable {cfg : Config} {m : Moment} {t : State}

theorem picks_forEver : (forEver cfg).picks m t ↔ m.HandsOn ∧ m.Endless cfg t :=
  open scoped Classical in decide_eq_true_iff

theorem isCall_of_picks (m : Moment) (t : State) (h : (forEver cfg).picks m t) : m.IsCall := by
  have hm := (picks_forEver.mp h).1
  cases m with
  | calling callee arg scope => exact ⟨callee, arg, scope, rfl⟩
  | evaluating _ _ | answering _ | failing _ => exact hm.elim

/-- **A call of `call` or `apply` comes to rest**: it is broken off at once, or some fuel is
enough. -/
theorem rests_handsOn (s : State) (callee : Value) (arg : Node) (scope : ScopeId)
    (h : callee.HandsOn) : Rests (forEver cfg) ((forEver cfg).runs.call callee arg scope) s := by
  have hhands : (Moment.calling callee arg scope).HandsOn := h
  by_cases hendless : (Moment.calling callee arg scope).Endless cfg s
  · exact rests_call isCall_of_picks fun hnot => absurd (picks_forEver.mpr ⟨hhands, hendless⟩) hnot
  · obtain ⟨fuel, hfuel⟩ := not_forall.mp hendless
    refine ⟨fuel, (Evaluator.ofFuel fuel).call callee arg scope cfg s, fun k hk => ?_,
      fun m t hstop => ?_⟩
    · have hagree : (Coverage.comparison (Coverage.atEnding fuel fun m t =>
          (forEver cfg).picks m t)).Agree (.ofFuel fuel) (.until (forEver cfg).picks k) :=
        Coverage.agree_ofFuel_picked (fun _ _ => id) k (Nat.le_refl fuel) (Or.inl hk)
      rcases (hagree.call callee arg scope cfg s trivial).2 with
        hstopped | heq | ⟨m, t, -, hpick, f, -, hnot⟩
      · exact absurd hstopped hfuel
      · exact heq.symm
      · exact absurd ((picks_forEver.mp hpick).2 f) hnot
    · exact absurd (congrArg Outcome.isStopped hstop) hfuel

theorem agree_forEver (cfg : Config) (room : Nat) :
    (comparison (forEver cfg) room).Agree (forEver cfg).runs (forEver cfg).runs :=
  agree_runs isCall_of_picks rests_handsOn (evalsRest isCall_of_picks rests_handsOn room)

end Resting

/-- **A call**, and the state it is made in. -/
structure Call where
  callee : Value
  arg : Node
  scope : ScopeId
  state : State

namespace Call

variable {cfg : Config} {c : Call}

/-- The moment of a call. -/
def moment (c : Call) : Moment :=
  .calling c.callee c.arg c.scope

/-- **`d` is made in the course of `c`.** -/
def Makes (cfg : Config) (c d : Call) : Prop :=
  ∃ stop n, callValue (.until stop n) c.callee c.arg c.scope cfg c.state =
    .stopped d.moment d.state

/-- **Nothing comes back from a call if another is made in its course, another in the course of
that, and so on.** -/
theorem endless_of_makes {calls : Nat → Call} (h : ∀ n, (calls n).Makes cfg (calls (n + 1)))
    (n : Nat) : (calls n).moment.Endless cfg (calls n).state := by
  intro fuel
  induction fuel using Nat.strongRecOn generalizing n with
  | ind fuel ih =>
    cases fuel with
    | zero => exact rfl
    | succ f =>
      obtain ⟨stop, k, hmakes⟩ := h n
      have hmatch := ((Coverage.agree_ofFuel_until stop k f).callValue (calls n).callee
        (calls n).arg (calls n).scope cfg (calls n).state trivial).2
      rw [hmakes] at hmatch
      rcases hmatch with hstopped | heq | ⟨m, t, heq, -, less, hle, hnot⟩
      · exact hstopped
      · exact congrArg Outcome.isStopped heq
      · -- the next call is broken off with the fuel that is left for it
        cases heq
        exact absurd (ih less (Nat.lt_succ_of_le hle) (n + 1)) hnot

/-- **A call of `call` or `apply` from which nothing comes back**, in a state in which it can be
made. -/
structure HandsOnForEver (cfg : Config) (c : Call) : Prop where
  handsOn : c.callee.HandsOn
  poised : c.state.Poised c.scope
  callee : c.callee.Within c.state.census
  arg : c.arg.Within c.state.census
  endless : c.moment.Endless cfg c.state

end Call

/-- **What evaluators do alike**, where values mention what is in `N`. -/
def Uniform (N : Census) (scope : ScopeId) (x : Evaluator → Eval Value) : Prop :=
  ∀ (C : Comparison) (w : C.World) (r r' : Evaluator), N ≤ C.census w → C.Agree r r' →
    C.Rel w scope (x r) (x r') Value.Within

section Endless

variable {s : State} {scope : ScopeId} {cfg : Config} {x : Evaluator → Eval Value}

/-- **What does not come to an end gets to a call of `call` or `apply`** that does not either. -/
theorem exists_handsOnForEver (hs : s.Poised scope) (hx : Uniform s.census scope x)
    (hnever : ∀ fuel, (x (.ofFuel fuel) cfg s).isStopped) :
    ∃ c : Call, c.HandsOnForEver cfg ∧
      ∃ stop n, x (.until stop n) cfg s = .stopped c.moment c.state := by
  have hrests : Resting.Rel (Resting.forEver cfg) cfg.maxDepth s scope
      (x (Resting.forEver cfg).runs) (x (Resting.forEver cfg).runs) Value.Within :=
    hx (Resting.comparison (Resting.forEver cfg) cfg.maxDepth) s _ _ le_rfl
      (Resting.agree_forEver cfg cfg.maxDepth)
  obtain ⟨n, o, hn, hpick⟩ := hrests.rests hs (Nat.le_add_left _ _)
  have hend : x (.until (Resting.forEver cfg).picks n) cfg s = o := by
    rw [← hn n le_rfl]
    exact ((hx (Transfer.comparison cfg n).toComparison () _ _ Census.le_all
      (Transfer.agree_supplied _ cfg n).toComparison).1 s).symm
  have hkeeps : Layering.Keeps s scope (x (.until (Resting.forEver cfg).picks n)) Value.Within :=
    hx Layering.comparison s _ _ le_rfl (Layering.agree_until _ n)
  have hlead := (hkeeps.anchored cfg hs.sound hs.inUse).1
  have hlayers := hkeeps.layers cfg hs
  have hlater : Anchoring.Rel s scope (x (.until (Resting.forEver cfg).picks n))
      (x (.until (fun _ _ => false) n)) Value.Within :=
    hx Anchoring.comparison s _ _ le_rfl
      (Anchoring.agree_until (fun _ _ h => absurd h Bool.false_ne_true) le_rfl)
  obtain ⟨-, hprec⟩ := hlater cfg hs.sound hs.inUse
  rw [Evaluator.until_never] at hprec
  rw [hend] at hlead hlayers hprec
  have hstopped : o.isStopped := by
    rcases hprec with heq | ⟨m, t, hstop, -⟩
    · rw [heq]
      exact hnever n
    · rw [hstop]
      rfl
  obtain ⟨m, t, rfl⟩ := Outcome.exists_of_isStopped hstopped
  obtain ⟨hhands, hendless⟩ := Resting.picks_forEver.mp (hpick m t rfl)
  cases m with
  | calling callee arg u =>
    obtain ⟨hsound, -, hc, ha, hu⟩ := hlead
    exact ⟨⟨callee, arg, u, t⟩, ⟨hhands, ⟨hsound, hu, hlayers⟩, hc, ha, hendless⟩, _, n, hend⟩
  | evaluating _ _ | answering _ | failing _ => exact hhands.elim

/-- **In the course of a call of `call` or `apply` from which nothing comes back there is
another.** -/
theorem Call.HandsOnForEver.again {c : Call} (hc : c.HandsOnForEver cfg) :
    ∃ d : Call, d.HandsOnForEver cfg ∧ c.Makes cfg d := by
  have huniform : Uniform c.state.census c.scope fun r => callValue r c.callee c.arg c.scope :=
    fun C w r r' hle h => h.callValue (hc.callee.mono hle) (hc.arg.mono hle)
  exact exists_handsOnForEver hc.poised huniform fun fuel => hc.endless (fuel + 1)

/-- **There are calls of `call` and `apply` without end**, each in the course of the one before. -/
theorem Call.HandsOnForEver.exists_calls {c : Call} (hc : c.HandsOnForEver cfg) :
    ∃ calls : Nat → Call, calls 0 = c ∧
      ∀ n, (calls n).callee.HandsOn ∧ (calls n).Makes cfg (calls (n + 1)) := by
  have hacc : ¬Acc (fun d c : Call => c.HandsOnForEver cfg ∧ c.Makes cfg d) c := by
    intro h
    induction h with
    | intro c _ ih =>
      obtain ⟨d, hd, hmakes⟩ := hc.again
      exact ih d ⟨hc, hmakes⟩ hd
  obtain ⟨calls, hzero, hcalls⟩ := not_acc_iff_exists_descending_chain.mp hacc
  exact ⟨calls, hzero, fun n => ⟨(hcalls n).1.handsOn, (hcalls n).2⟩⟩

end Endless

/-! ## Programs that do not come back -/

theorem Visited.layered {s : State} (h : Visited s) : s.Layered := by
  induction h with
  | initial => exact State.layered_initial
  | child parent _ _ ih => exact ih.of_closures rfl
  | run stop fuel code cfg hvisited hscope ih =>
    exact (Layering.keepsLayers_runUnder stop fuel code cfg
      ⟨hvisited.sound, hscope, ih⟩).layered

section Programs

variable {s : State} (hs : Visited s) {scope : ScopeId} (hscope : scope ∈ s.arena.inUse)
  (code : String) (cfg : Config)

include hs hscope

/-- **A program does not come back exactly if it gets to a call of `call` or `apply`, in its course
to another, in the course of that to another, and so on without end.** -/
theorem never_comes_back_iff :
    (∀ fuel, (Program.runWith fuel code scope cfg s).isStopped) ↔
      ∃ calls : Nat → Call,
        (∃ stop n, Program.runUnder (.until stop n) code scope cfg s =
          .stopped (calls 0).moment (calls 0).state) ∧
        ∀ n, (calls n).callee.HandsOn ∧ (calls n).Makes cfg (calls (n + 1)) := by
  constructor
  · intro hnever
    simp only [Program.runWith, Program.runUnder_apply] at hnever ⊢
    cases hread : read code with
    | error e =>
      rw [hread] at hnever
      exact absurd (hnever 0) Bool.false_ne_true
    | ok forms =>
      simp only [hread] at hnever ⊢
      have hforms : ∀ fuel, (Program.runForms (.ofFuel fuel) forms scope cfg s).isStopped :=
        fun fuel => by
          have hfuel := hnever fuel
          split at hfuel
          · cases hfuel
          · cases hfuel
          · next hrun =>
            rw [hrun]
            rfl
      have huniform : Uniform s.census scope fun r => Program.runForms r forms scope :=
        fun C w r r' _ h => h.runForms (within_of_read hread)
      obtain ⟨c, hc, stop, n, hstop⟩ :=
        exists_handsOnForEver ⟨hs.sound, hscope, hs.layered⟩ huniform hforms
      obtain ⟨calls, rfl, hcalls⟩ := hc.exists_calls
      exact ⟨calls, ⟨stop, n, by rw [hstop]⟩, hcalls⟩
  · rintro ⟨calls, ⟨stop, n, hstop⟩, hcalls⟩
    exact isStopped_of_endless hstop (Call.endless_of_makes (fun n => (hcalls n).2) 0)

/-- **What calls neither `call` nor `apply` comes back.** -/
theorem comes_back_of_not_handsOn
    (h : ∀ stop n callee arg u t, Program.runUnder (.until stop n) code scope cfg s =
      .stopped (.calling callee arg u) t → ¬callee.HandsOn) :
    ∃ fuel t, (Program.runWith fuel code scope cfg s).EndsIn t := by
  by_contra hnone
  have hnever : ∀ fuel, (Program.runWith fuel code scope cfg s).isStopped := fun fuel => by
    by_contra hended
    exact hnone ⟨fuel, _, Outcome.endsIn_state (Bool.eq_false_iff.mpr hended)⟩
  obtain ⟨calls, ⟨stop, n, hstop⟩, hcalls⟩ :=
    (never_comes_back_iff hs hscope code cfg).mp hnever
  exact h stop n _ _ _ _ hstop (hcalls 0).1

end Programs

end Fexpr
