import Fexpr.Proofs.Arena.Use
import Fexpr.Proofs.Comparison.Plain
import Fexpr.Proofs.Reader.Closure
import Fexpr.Proofs.Renaming.Evaluator

/-!
# Proofs/Renaming/Issued — every identity has been given out

In a state that a program visits, the identities of all curried values have been given out: a
renaming of those that are still to come changes nothing there (`Visited.issued`).

For the end of a run this is equivariance: the run starts in a state that the renaming leaves alone,
so it ends in one.  In the middle of a run it takes more, since what breaks a run off may look at
identities.  So the run is compared with itself broken off, moreover, wherever the renaming changes
something; it is not broken off any earlier.
-/

namespace Fexpr

open Renaming

/-- **`σ` leaves the first `n` identities alone**, and distinct ones stay distinct. -/
structure Spares (σ : Nat → Nat) (n : Nat) : Prop where
  injective : Function.Injective σ
  fixes : ∀ tag < n, σ tag = tag

theorem Spares.mono {σ : Nat → Nat} {m n : Nat} (h : Spares σ n) (hle : m ≤ n) : Spares σ m :=
  ⟨h.injective, fun tag htag => h.fixes tag (Nat.lt_of_lt_of_le htag hle)⟩

theorem Spares.shifts {σ : Nat → Nat} {n : Nat} (h : Spares σ n) (m : Nat) :
    Shifts ⟨σ, 0⟩ m n := fun tag _ htag => h.fixes tag htag

/-- The identities in a node are among the first `n`. -/
def Node.Issued (n : Nat) (node : Node) : Prop :=
  ∀ σ, Spares σ n → node.rename σ = node

/-- The identities in a value are among the first `n`. -/
def Value.Issued (n : Nat) (v : Value) : Prop :=
  ∀ σ, Spares σ n → v.rename σ = v

/-- **All identities in a state have been given out.** -/
def State.Issued (s : State) : Prop :=
  ∀ σ, Spares σ s.issued → s.rename ⟨σ, 0⟩ = s

theorem Node.Issued.mono {m n : Nat} {node : Node} (h : node.Issued m) (hle : m ≤ n) :
    node.Issued n := fun σ hσ => h σ (hσ.mono hle)

theorem Value.Issued.mono {m n : Nat} {v : Value} (h : v.Issued m) (hle : m ≤ n) : v.Issued n :=
  fun σ hσ => h σ (hσ.mono hle)

/-! ## What is read -/

/-- The reader does not lead out of the nodes that a renaming leaves alone. -/
theorem Node.closed_rename (σ : Nat → Nat) : Node.Closed fun n => n.rename σ = n := by
  have hspine : ∀ {args : List Node} {cdr : Node}, (∀ n ∈ args, n.rename σ = n) →
      cdr.rename σ = cdr → (spine args cdr).rename σ = spine args cdr := by
    intro args cdr hargs hcdr
    rw [rename_spine, List.map_congr_left hargs, List.map_id', hcdr]
  exact {
    nil := rfl
    binary := fun op _ _ hl hr => congrArg₂ op.apply hl hr
    unary := fun op _ h => by
      cases op with
      | id => exact congrArg (UnaryOperator.apply .id) h
      | ofThis => exact congrArg (UnaryOperator.apply .ofThis) h
    bracket := fun {b _ _ _} h hargs hcdr => by
      cases b with
      | form => cases h
      | list | array | shorthand | object | dictionary =>
        cases h
        exact congrArg (Node.form _) (hspine hargs hcdr)
    form := fun hhead hargs hcdr => congrArg₂ Node.form hhead (hspine hargs hcdr) }

/-- **A text mentions no identities.** -/
theorem rename_of_read (σ : Nat → Nat) {code : String} {forms : List Node}
    (h : read code = .ok forms) : ∀ form ∈ forms, form.rename σ = form :=
  forall_of_read (Node.closed_rename σ) (fun _ _ _ _ hn => by
    rcases Item.atom_cases hn with ⟨k, -, rfl⟩ | rfl | ⟨name, rfl, -⟩ <;> rfl) h

theorem issued_of_read {code : String} {forms : List Node} (h : read code = .ok forms) (n : Nat) :
    ∀ form ∈ forms, form.Issued n := fun form hform σ _ => rename_of_read σ h form hform

/-! ## From one state to another -/

/-- **What starts from what a renaming leaves alone ends in something that it leaves alone.** -/
theorem Renaming.Follows.fixed {α : Type} {ρ : Renaming} {f : α → α} {x : Eval α}
    (hx : ρ.Follows f x x) {cfg : Config} {s : State} (hs : s.rename ρ = s)
    (hshift : ρ.Shifts s.issued (x cfg s).state.issued) : (x cfg s).rename ρ f = x cfg s := by
  have hsame := (hx cfg s).2 hshift
  rw [hs] at hsame
  exact hsame.symm

/-! ## No identity is taken back -/

namespace Issuing

variable {early late : Moment → State → Bool} {α β : Type}

/-- The earlier run is broken off at a moment that the later one passes, and no identity is taken
back from there on. -/
def Onward (early late : Moment → State → Bool) (m : Moment) (t u : State) : Prop :=
  (early m t ∧ ¬late m t) ∧ t.issued ≤ u.issued

/-- **`y` takes no identity back, and `x` comes before it.** -/
def Rel (early late : Moment → State → Bool) (x y : Eval α) : Prop :=
  ∀ cfg s, s.issued ≤ (y cfg s).state.issued ∧ (x cfg s).Precedes (Onward early late) (y cfg s)

theorem rel_bind {x y : Eval α} {f g : α → Eval β} (hxy : Rel early late x y)
    (hfg : ∀ a, Returns y a → Rel early late (f a) (g a)) :
    Rel early late (x >>= f) (y >>= g) := by
  intro cfg s
  obtain ⟨hle, hprec⟩ := hxy cfg s
  have hnext : ∀ a t, y cfg s = .ok a t → t.issued ≤ (g a cfg t).state.issued ∧
      (f a cfg t).Precedes (Onward early late) (g a cfg t) :=
    fun a t hyo => hfg a ⟨cfg, s, t, hyo⟩ cfg t
  refine ⟨?_, hprec.bind fun a t hyo =>
    ⟨(hnext a t hyo).2, fun _ _ h => ⟨h.1, Nat.le_trans h.2 (hnext a t hyo).1⟩⟩⟩
  rw [Eval.bind_apply]
  cases hyo : y cfg s with
  | ok a t =>
    rw [hyo] at hle
    exact Nat.le_trans hle (hnext a t hyo).1
  | error e t | stopped m t => rwa [hyo] at hle

theorem issued_elementary {N : Census} {scope : ScopeId} {x : Eval α} {Φ : Census → α → Prop}
    (h : Elementary N scope x Φ) (cfg : Config) (s : State) :
    s.issued ≤ (x cfg s).state.issued := by
  cases h with
  | lookup name =>
    rw [Eval.lookup]
    split <;> exact Nat.le_refl _
  | bind binding u name hv =>
    cases binding with
    | inward | outward => exact Nat.le_refl _
  | trace message =>
    obtain ⟨log, htrace⟩ := Eval.trace_apply message cfg s
    rw [htrace]
    exact Nat.le_refl _
  | freshCurriedTag => exact Nat.le_succ _
  | read | capture | print | setSlot | setEntry | setAttribute => exact Nat.le_refl _
  | addClosure | addObject | addDictionary | addPromise | freshTag => exact Nat.le_refl _

theorem rel_attempt {x y : Eval α} (hxy : Rel early late x y) :
    Rel early late (Eval.attempt x) (Eval.attempt y) := by
  intro cfg s
  obtain ⟨hle, hprec⟩ := hxy cfg s
  refine ⟨?_, hprec.attempt⟩
  rw [Eval.attempt_apply]
  cases hyo : y cfg s <;> rwa [hyo] at hle

theorem rel_withFrame {parent : ScopeId} {x y : ScopeId → Eval α}
    (hxy : ∀ frame, Rel early late (x frame) (y frame)) :
    Rel early late (Eval.withFrame parent x) (Eval.withFrame parent y) := by
  intro cfg s
  obtain ⟨hle, hprec⟩ :=
    hxy (s.arena.child parent).1 cfg { s with arena := (s.arena.child parent).2 }
  refine ⟨?_, hprec.withFrame fun _ _ _ _ h => h⟩
  rw [Eval.withFrame_apply]
  cases hyo : y (s.arena.child parent).1 cfg { s with arena := (s.arena.child parent).2 } <;>
    rwa [hyo] at hle

theorem rel_deeper {x y : Eval α} (hxy : Rel early late x y) :
    Rel early late (Eval.deeper x) (Eval.deeper y) := by
  intro cfg s
  obtain ⟨hle, hprec⟩ := hxy cfg { s with depth := s.depth + 1 }
  refine ⟨?_, hprec.deeper fun _ _ _ h => h⟩
  rw [Eval.deeper]
  split
  · exact Nat.le_refl _
  · cases hyo : y cfg { s with depth := s.depth + 1 } <;> rwa [hyo] at hle

theorem rel_pausing (hle : ∀ m t, late m t → early m t) {m : Moment} {x y : Eval Value}
    (hxy : Rel early late x y) :
    Rel early late (Eval.pausing early m x) (Eval.pausing late m y) := by
  intro cfg s
  obtain ⟨hissued, hprec⟩ := hxy cfg s
  refine ⟨?_, hprec.pausing hle (fun _ t hearly hlate => ⟨⟨hearly, hlate⟩, Nat.le_refl _⟩)
    fun hearly hlate => ⟨⟨hearly, hlate⟩, hissued⟩⟩
  rw [Eval.pausing_apply]
  split
  · exact Nat.le_refl _
  · rwa [Outcome.state_checked]

/-- The relation, as one that sequencing respects. -/
def congruence (early late : Moment → State → Bool) : PlainCongruence where
  R := Rel early late
  pure _ := fun _ _ => ⟨Nat.le_refl _, Or.inl rfl⟩
  fail _ := fun _ _ => ⟨Nat.le_refl _, Or.inl rfl⟩
  bind := rel_bind
  elementary h := fun cfg s => ⟨issued_elementary h cfg s, Or.inl rfl⟩

theorem catches : (congruence early late).toCongruence.Catches :=
  (congruence early late).catches rel_attempt fun _ _ => ⟨Nat.le_refl _, Or.inl rfl⟩

def comparison (early late : Moment → State → Bool) : PlainComparison :=
  .ofCatches (congruence early late) catches rel_withFrame

theorem rel_force {r r' : Evaluator}
    (hr : ∀ node scope, Rel early late (r.eval node scope) (r'.eval node scope)) (id : PromiseId) :
    Rel early late (Promise.force r id) (Promise.force r' id) :=
  (congruence early late).force_of_catches catches
    (fun _ _ _ => ⟨Nat.le_refl _, Or.inl rfl⟩) hr

theorem agree_until (hle : ∀ m t, late m t → early m t) (fuel : Nat) :
    (comparison early late).Agree (.until early fuel) (.until late fuel) := by
  induction fuel with
  | zero =>
    exact .of_force rel_force (fun _ _ _ _ => ⟨Nat.le_refl _, Or.inl rfl⟩)
      fun _ _ _ _ _ => ⟨Nat.le_refl _, Or.inl rfl⟩
  | succ n ih =>
    exact .of_force rel_force
      (fun node scope => rel_pausing hle (rel_deeper (ih.evalNode node scope)))
      fun callee arg scope => rel_pausing hle (ih.callValue callee arg scope)

end Issuing

/-! ## The states that programs visit -/

/-- **The states that programs visit**: a fresh one, and what any moment of a program finds that
runs from such a state, in a scope in use or in a new one below it. -/
inductive Visited : State → Prop
  | initial : Visited .initial
  | child {s : State} (parent : ScopeId) : Visited s → parent ∈ s.arena.inUse →
      Visited { s with arena := (s.arena.child parent).2 }
  | run {s : State} (stop : Moment → State → Bool) (fuel : Nat) (code : String) {scope : ScopeId}
      (cfg : Config) : Visited s → scope ∈ s.arena.inUse →
      Visited (Program.runUnder (.until stop fuel) code scope cfg s).state

/-- A fresh state knows primitives and constants, which have no identities. -/
theorem State.issued_initial : State.initial.Issued := by
  intro σ _
  have hfold : ∀ (bs : List (String × Value)) (a : Arena), (∀ b ∈ bs, b.2.rename σ = b.2) →
      (bs.foldl (fun a b => a.set Arena.root b.1 b.2) a).map (Value.rename σ) =
        bs.foldl (fun a b => a.set Arena.root b.1 b.2) (a.map (Value.rename σ)) := by
    intro bs
    induction bs with
    | nil => exact fun _ _ => rfl
    | cons b bs ih =>
      intro a hbs
      obtain ⟨hb, hbs⟩ := List.forall_mem_cons.mp hbs
      rw [List.foldl_cons, List.foldl_cons, ih _ hbs, ← Arena.set_map, hb]
  have hfresh : Arena.fresh.map (Value.rename σ) = .fresh := by
    rw [Arena.map, Arena.fresh, List.map_toArray, List.map_cons, Frame.map, Arena.map_empty]
    rfl
  have harena : State.initial.arena.map (Value.rename σ) = State.initial.arena := by
    refine (hfold _ _ fun b hb => ?_).trans ?_
    · rcases List.mem_append.mp hb with hb | hb
      · obtain ⟨p, -, rfl⟩ := List.mem_map.mp hb
        rfl
      · simp only [List.mem_cons, List.not_mem_nil, or_false] at hb
        rcases hb with rfl | rfl | rfl | rfl <;> rfl
    · rw [hfresh]
      rfl
  have hstore : State.initial.store.rename ⟨σ, 0⟩ = State.initial.store := by
    simp only [Store.rename, State.initial, Array.map_empty]
  rw [State.rename, harena, hstore]

namespace Issuing

variable {σ : Nat → Nat}

open Classical in
/-- Breaks a run off where `stop` does and, moreover, wherever the renaming changes something. -/
noncomputable def untilMoved (σ : Nat → Nat) (stop : Moment → State → Bool) (m : Moment)
    (t : State) : Bool :=
  stop m t || !decide (m.rename σ = m ∧ t.rename ⟨σ, 0⟩ = t)

theorem untilMoved_of_stop {stop : Moment → State → Bool} {m : Moment} {t : State}
    (h : stop m t) : untilMoved σ stop m t := by
  rw [untilMoved, h, Bool.true_or]

/-- What the renaming leaves alone is broken off by `stop` alone. -/
theorem untilMoved_of_fixed (stop : Moment → State → Bool) {m : Moment} {t : State}
    (hm : m.rename σ = m) (ht : t.rename ⟨σ, 0⟩ = t) : untilMoved σ stop m t = stop m t := by
  simp only [untilMoved, hm, ht, and_self, decide_true, Bool.not_true, Bool.or_false]

/-- Whether the renaming changes something does not depend on the identities. -/
theorem respects_untilMoved (hσ : Function.Injective σ) (stop : Moment → State → Bool) :
    Respects ⟨σ, 0⟩ (untilMoved σ stop) := by
  intro m t
  by_cases h : m.rename σ = m ∧ t.rename ⟨σ, 0⟩ = t
  · rw [h.1, h.2]
  · have h' : ¬((m.rename σ).rename σ = m.rename σ ∧
        (t.rename ⟨σ, 0⟩).rename ⟨σ, 0⟩ = t.rename ⟨σ, 0⟩) := by
      rwa [(Moment.rename_injective hσ).eq_iff, (State.rename_injective hσ).eq_iff]
    simp only [untilMoved, h, h', decide_false, Bool.not_false, Bool.or_true]

end Issuing

open Issuing in
/-- **A program that runs from a state whose identities have all been given out visits no other
ones.** -/
theorem State.Issued.runForms {s : State} (hs : s.Issued) {forms : List Node}
    (hforms : ∀ form ∈ forms, form.Issued s.issued) (stop : Moment → State → Bool) (fuel : Nat)
    (scope : ScopeId) (cfg : Config) :
    (Program.runForms (.until stop fuel) forms scope cfg s).state.Issued := by
  intro σ hσ
  let early := untilMoved σ stop
  have hrespects : Respects ⟨σ, 0⟩ early := respects_untilMoved hσ.injective stop
  have hagree : (comparison early stop).Agree (.until early fuel) (.until stop fuel) :=
    agree_until (fun _ _ => untilMoved_of_stop) fuel
  have hrel : Rel early stop (Program.runForms (.until early fuel) forms scope)
      (Program.runForms (.until stop fuel) forms scope) := hagree.runForms forms scope
  obtain ⟨hle, hprec⟩ := hrel cfg s
  have hfollows : Follows ⟨σ, 0⟩ (Value.rename σ) (Program.runForms (.until early fuel) forms scope)
      (Program.runForms (.until early fuel) (forms.map (Node.rename σ)) scope) :=
    (equivariant_until hσ.injective hrespects fuel).runProgram forms
  rw [List.map_congr_left fun form hform => hforms form hform σ (hσ.mono hle), List.map_id']
    at hfollows
  have hfixed : ∀ o, Program.runForms (.until early fuel) forms scope cfg s = o →
      Spares σ o.state.issued → o.rename ⟨σ, 0⟩ (Value.rename σ) = o := by
    rintro o rfl ho
    exact hfollows.fixed (hs σ (hσ.mono hle)) (ho.shifts s.issued)
  rcases hprec with heq | ⟨m, t, hstopped, ⟨hearly, hlate⟩, ht⟩
  · have hstate := congrArg Outcome.state (hfixed _ heq hσ)
    rwa [Outcome.state_rename] at hstate
  · -- it would be broken off where the renaming changes nothing
    have hmt := hfixed _ hstopped (hσ.mono ht)
    injection hmt with hm ht
    exact absurd ((untilMoved_of_fixed stop hm ht).symm.trans hearly) hlate

/-- **In a state that a program visits, all identities have been given out.** -/
theorem Visited.issued {s : State} (h : Visited s) : s.Issued := by
  induction h with
  | initial => exact State.issued_initial
  | @child s parent _ _ ih =>
    intro σ hσ
    have hs := ih σ hσ
    have hstore : s.store.rename ⟨σ, 0⟩ = s.store := congrArg State.store hs
    have harena : s.arena.map (Value.rename σ) = s.arena := congrArg State.arena hs
    have hchild : (s.arena.child parent).2.map (Value.rename σ) = (s.arena.child parent).2 := by
      have hmap := congrArg Prod.snd (s.arena.child_map (Value.rename σ) parent)
      rw [harena] at hmap
      exact hmap.symm
    simp only [State.rename, hstore, hchild]
  | @run _ stop fuel code scope cfg _ _ ih =>
    rw [Program.runUnder_apply]
    cases hread : read code with
    | error e => exact ih
    | ok forms =>
      have hforms := ih.runForms (issued_of_read hread _) stop fuel scope cfg
      dsimp only
      cases hrun : Program.runForms (.until stop fuel) forms scope cfg _ with
      | ok v t | error e t | stopped m t =>
        rw [hrun] at hforms
        exact hforms

end Fexpr
