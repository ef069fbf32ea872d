import Fexpr.Proofs.Anchoring

/-!
# Proofs/Return/Layers — a pattern mentions older functions only

    fn 0  ◂──  fn 1  ◂──  fn 2  ◂── …

The pattern of a function is built before the function is made, so it mentions older functions only,
and it stays as it is (`State.Layered`).  Asking a predicate of a pattern that is asked by a
predicate of a pattern … comes to an end for that reason.

Where a computation returns or fails, moreover, the depth is what it was.
-/

namespace Fexpr

/-! ## Older functions -/

/-- **The functions made before the `n`th**, and everything else. -/
def Census.older (n : Nat) : Census where
  closure id := id < n
  object _ := True
  dictionary _ := True
  promise _ := True
  scope _ := True
  wellMade := False

theorem State.census_le_older (s : State) : s.census ≤ Census.older s.store.closures.size :=
  ⟨fun _ => id, fun _ _ => trivial, fun _ _ => trivial, fun _ _ => trivial, fun _ _ => trivial, id⟩

/-- **The pattern of every function mentions older functions only.** -/
def State.Layered (s : State) : Prop :=
  ∀ id, (s.store.closure id).pattern.Within (Census.older id)

theorem Store.closure_addClosure (st : Store) (c : Closure) (id : ClosureId) :
    (st.addClosure c).2.closure id = if id = st.closures.size then c else st.closure id := by
  simp only [closure, addClosure, Array.getD_eq_getD_getElem?, Array.getElem?_push]
  split <;> rfl

namespace State.Layered

variable {s t : State}

theorem of_closures (hs : s.Layered) (h : t.store.closures = s.store.closures) : t.Layered := by
  intro id
  rw [Store.closure, h]
  exact hs id

/-- **A new function is younger than all that its pattern mentions.** -/
theorem addClosure (hs : s.Layered) {c : Closure} (hc : c.Within s.census) :
    State.Layered { s with store := (s.store.addClosure c).2 } := by
  intro id
  change (Store.closure (s.store.addClosure c).2 id).pattern.Within _
  rw [Store.closure_addClosure]
  split
  · next hid => exact hid ▸ hc.1.mono s.census_le_older
  · exact hs id

end State.Layered

theorem State.layered_initial : State.initial.Layered := fun _ => trivial

/-- **A state in which the evaluator can be asked something**, on behalf of a scope. -/
structure State.Poised (s : State) (scope : ScopeId) : Prop where
  sound : s.Sound
  inUse : scope ∈ s.arena.inUse
  layered : s.Layered

/-- A state with a new frame in it. -/
theorem State.Poised.child {s : State} {scope parent : ScopeId} (hs : s.Poised scope)
    (hparent : parent = scope ∨ s.census.scope parent) :
    s.census ≤ ({ s with arena := (s.arena.child parent).2 } : State).census ∧
      State.Poised { s with arena := (s.arena.child parent).2 } (s.arena.child parent).1 := by
  have hmem : parent ∈ s.arena.inUse := by
    rcases hparent with rfl | hanchored
    · exact hs.inUse
    · exact hanchored.mem_inUse
  have htidy := hs.sound.rooted.tidy
  exact ⟨(State.Later.of_keeps (Arena.keeps_child parent htidy)).census_le, hs.sound.child hmem,
    (Arena.mem_inUse_child parent htidy).mpr (Or.inl rfl), hs.layered.of_closures rfl⟩

/-! ## What is left of it -/

/-- **What a computation leaves of the layers**; where it ends, the depth is what it was. -/
def Outcome.KeepsLayers {ε α : Type} (s : State) : Outcome ε α → Prop
  | .ok _ t | .error _ t => t.Layered ∧ t.depth = s.depth
  | .stopped _ t => t.Layered

namespace Outcome

variable {ε α : Type} {s t : State} {o : Outcome ε α}

theorem KeepsLayers.layered (h : o.KeepsLayers s) : o.state.Layered := by
  cases o with
  | ok a t | error e t => exact h.1
  | stopped m t => exact h

theorem KeepsLayers.after (hst : t.depth = s.depth) (h : o.KeepsLayers t) : o.KeepsLayers s := by
  cases o with
  | ok a u | error e u => exact ⟨h.1, h.2.trans hst⟩
  | stopped m u => exact h

theorem KeepsLayers.checked {stop : Moment → State → Bool} {o : Outcome RunError Value}
    (h : o.KeepsLayers s) : (o.checked stop).KeepsLayers s := by
  cases o with
  | ok v t | error e t =>
    rw [Outcome.checked]
    split
    · exact h.1
    · exact h
  | stopped m t => exact h

end Outcome

namespace Layering

variable {α β : Type} {s : State} {scope : ScopeId}

/-- **A computation that keeps a state sound and layered**, and answers `Φ`. -/
structure Keeps (s : State) (scope : ScopeId) (x : Eval α) (Φ : Census → α → Prop) : Prop where
  anchored : Anchoring.Rel s scope x x Φ
  layers : ∀ cfg, s.Poised scope → (x cfg s).KeepsLayers s

/-- The state and the answer of a computation that returns. -/
theorem Keeps.of_ok {x : Eval α} {Φ : Census → α → Prop} {cfg : Config} {a : α} {t : State}
    (hx : Keeps s scope x Φ) (hs : s.Poised scope) (h : x cfg s = .ok a t) :
    s.census ≤ t.census ∧ Φ t.census a ∧ t.Poised scope ∧ t.depth = s.depth := by
  have hlead := (hx.anchored cfg hs.sound hs.inUse).1
  have hlayers := hx.layers cfg hs
  rw [h] at hlead hlayers
  exact ⟨hlead.1.later.census_le, hlead.2,
    ⟨hlead.1.sound, hlead.1.settles.inUse scope hs.inUse, hlayers.1⟩, hlayers.2⟩

theorem keeps_bind {x : Eval α} {f : α → Eval β} {Φ : Census → α → Prop} {Ψ : Census → β → Prop}
    (hx : Keeps s scope x Φ)
    (hf : ∀ t a, s.census ≤ t.census → Φ t.census a → Keeps t scope (f a) Ψ) :
    Keeps s scope (x >>= f) Ψ := by
  refine ⟨Anchoring.rel_bind hx.anchored fun t a hle ha => (hf t a hle ha).anchored,
    fun cfg hs => ?_⟩
  have hlayers := hx.layers cfg hs
  rw [Eval.bind_apply]
  cases hxs : x cfg s with
  | ok a t =>
    obtain ⟨hle, ha, ht, hdepth⟩ := hx.of_ok hs hxs
    exact ((hf t a hle ha).layers cfg ht).after hdepth
  | error e t | stopped m t => rwa [hxs] at hlayers

/-- **Only a new function changes the layers**, and it adds one. -/
theorem keeps_elementary {x : Eval α} {Φ : Census → α → Prop} (h : Elementary s.census scope x Φ) :
    Keeps s scope x Φ := by
  refine ⟨fun cfg hs hscope => ⟨Anchoring.leads_elementary h cfg hs hscope, Or.inl rfl⟩,
    fun cfg hs => ?_⟩
  have hsame : ∀ {t : State}, t.store.closures = s.store.closures → t.Layered :=
    hs.layered.of_closures
  cases h with
  | lookup name =>
    rw [Eval.lookup]
    split
    · exact ⟨hs.layered, rfl⟩
    · exact ⟨hs.layered, rfl⟩
  | bind binding u name hv =>
    cases binding with
    | inward | outward => exact ⟨hsame rfl, rfl⟩
  | trace message =>
    obtain ⟨log, htrace⟩ := Eval.trace_apply message cfg s
    rw [htrace]
    exact ⟨hsame rfl, rfl⟩
  | addClosure hc => exact ⟨hs.layered.addClosure hc, rfl⟩
  | read | capture | print | setSlot | setEntry | setAttribute => exact ⟨hsame rfl, rfl⟩
  | addObject | addDictionary | addPromise | freshTag | freshCurriedTag => exact ⟨hsame rfl, rfl⟩

theorem keeps_attempt {x : Eval α} {Φ : Census → α → Prop} (hx : Keeps s scope x Φ) :
    Keeps s scope (Eval.attempt x) (Congruence.IfOk Φ) := by
  refine ⟨Anchoring.rel_attempt hx.anchored, fun cfg hs => ?_⟩
  have hlayers := hx.layers cfg hs
  rw [Eval.attempt_apply]
  cases hxs : x cfg s with
  | ok a t | error e t | stopped m t => rwa [hxs] at hlayers

/-- A frame that is opened and dropped again leaves the store alone. -/
theorem keeps_withFrame {parent : ScopeId} {x : ScopeId → Eval α} {Φ : Census → α → Prop}
    (hparent : parent = scope ∨ s.census.scope parent) (hΦ : Upward Φ)
    (hx : ∀ t frame, s.census ≤ t.census → Keeps t frame (x frame) Φ) :
    Keeps s scope (Eval.withFrame parent x) Φ := by
  refine ⟨Anchoring.rel_withFrame hparent hΦ fun t frame hle => (hx t frame hle).anchored,
    fun cfg hs => ?_⟩
  obtain ⟨hle, hopen⟩ := hs.child hparent
  have hlayers := (hx _ (s.arena.child parent).1 hle).layers cfg hopen
  rw [Eval.withFrame_apply]
  cases hxs : x (s.arena.child parent).1 cfg { s with arena := (s.arena.child parent).2 } with
  | ok a t | error e t =>
    rw [hxs] at hlayers
    exact ⟨hlayers.1.of_closures rfl, hlayers.2⟩
  | stopped m t => rwa [hxs] at hlayers

theorem keeps_deeper {x : Eval α} {Φ : Census → α → Prop}
    (hx : ∀ t : State, s.census ≤ t.census → Keeps t scope x Φ) :
    Keeps s scope (Eval.deeper x) Φ := by
  refine ⟨Anchoring.rel_deeper fun t hle => (hx t hle).anchored, fun cfg hs => ?_⟩
  have hdown : s.Leads { s with depth := s.depth + 1 } := .of_same hs.sound rfl rfl
  have hlayers := (hx { s with depth := s.depth + 1 } le_rfl).layers cfg
    ⟨hdown.sound, hs.inUse, hs.layered.of_closures rfl⟩
  rw [Eval.deeper]
  split
  · exact ⟨hs.layered, rfl⟩
  · cases hxs : x cfg { s with depth := s.depth + 1 } with
    | ok a t | error e t =>
      rw [hxs] at hlayers
      exact ⟨hlayers.1.of_closures rfl, Nat.sub_eq_of_eq_add hlayers.2⟩
    | stopped m t => rwa [hxs] at hlayers

theorem keeps_pausing {stop : Moment → State → Bool} {m : Moment} {x : Eval Value}
    (hm : scope ∈ s.arena.inUse → m.Sound s) (hx : Keeps s scope x Value.Within) :
    Keeps s scope (Eval.pausing stop m x) Value.Within := by
  refine ⟨fun cfg hs hscope => Anchoring.rel_pausing (fun _ _ => id) (hm hscope) hx.anchored cfg hs
    hscope, fun cfg hs => ?_⟩
  rw [Eval.pausing_apply]
  split
  · exact hs.layered
  · exact (hx.layers cfg hs).checked

/-- Layering, as a relation that sequencing respects. -/
abbrev congruence : Congruence where
  World := State
  census := State.census
  Rel s scope _ y Φ := Keeps s scope y Φ
  pure ha := ⟨Anchoring.congruence.pure ha, fun _ hs => ⟨hs.layered, rfl⟩⟩
  fail := ⟨Anchoring.congruence.fail, fun _ hs => ⟨hs.layered, rfl⟩⟩
  bind := keeps_bind
  elementary := keeps_elementary

theorem catches : congruence.Catches where
  attempt := keeps_attempt
  policy := ⟨Anchoring.catches.policy, fun _ hs => ⟨hs.layered, rfl⟩⟩

/-- **That functions are layered is a comparison** of a computation with itself. -/
abbrev comparison : Comparison where
  toCongruence := congruence
  withFrame := keeps_withFrame
  choose := catches.choose

theorem keeps_setPromise {id : PromiseId} {p : Promise} (hp : p.Within s.census) :
    Keeps s scope (Eval.modifyStore (·.setPromise id p)) Anything :=
  ⟨Anchoring.rel_setPromise hp, fun _ hs => ⟨hs.layered.of_closures rfl, rfl⟩⟩

/-- A computation on behalf of a scope that is held on to, instead of the one at hand. -/
theorem Keeps.elsewhere {u : ScopeId} {x : Eval α} {Φ : Census → α → Prop} (hx : Keeps s u x Φ)
    (hu : s.census.scope u) : Keeps s scope x Φ where
  anchored cfg hs _ := hx.anchored cfg hs hu.mem_inUse
  layers cfg hs := hx.layers cfg ⟨hs.sound, hu.mem_inUse, hs.layered⟩

theorem keeps_force {r : Evaluator}
    (hr : ∀ (s : State) (scope : ScopeId) {node : Node}, node.Within s.census →
      Keeps s scope (r.eval node scope) Value.Within)
    (s : State) (scope : ScopeId) {id : PromiseId} (hid : s.census.promise id) :
    Keeps s scope (Promise.force r id) Value.Within := by
  have hrel : congruence.Rel s scope (Promise.force r id) (Promise.force r id) Value.Within :=
    catches.force (fun _ _ _ hp => keeps_setPromise hp)
      (fun t _ u _ hn hu => (hr t u hn).elsewhere hu) hid
  exact hrel

/-- **Every evaluator keeps functions layered**, wherever it is broken off. -/
theorem agree_until (stop : Moment → State → Bool) (fuel : Nat) :
    comparison.Agree (.until stop fuel) (.until stop fuel) := by
  induction fuel with
  | zero =>
    have heval : ∀ (s : State) (scope : ScopeId) {node : Node}, node.Within s.census →
        Keeps s scope ((Evaluator.until stop 0).eval node scope) Value.Within :=
      fun s scope node hn => ⟨fun _ hs hscope => ⟨⟨hs, .refl s, hn, hscope⟩, Or.inl rfl⟩,
        fun _ hs => hs.layered⟩
    refine ⟨fun s scope _ hn => heval s scope hn, fun s scope callee arg hc ha => ?_,
      fun s scope _ hid => keeps_force heval s scope hid⟩
    exact ⟨fun _ hs hscope => ⟨⟨hs, .refl s, hc, ha, hscope⟩, Or.inl rfl⟩, fun _ hs => hs.layered⟩
  | succ n ih =>
    have heval : ∀ (s : State) (scope : ScopeId) {node : Node}, node.Within s.census →
        Keeps s scope ((Evaluator.until stop (n + 1)).eval node scope) Value.Within := by
      refine fun s scope node hn => keeps_pausing (fun hscope => ⟨hn, hscope⟩) ?_
      refine keeps_deeper fun t hle => ?_
      have hrel : comparison.Rel t scope (evalNode (.until stop n) node scope)
          (evalNode (.until stop n) node scope) Value.Within := ih.evalNode (hn.mono hle)
      exact hrel
    refine ⟨fun s scope _ hn => heval s scope hn, fun s scope callee arg hc ha => ?_,
      fun s scope _ hid => keeps_force heval s scope hid⟩
    have hrel : comparison.Rel s scope (callValue (.until stop n) callee arg scope)
        (callValue (.until stop n) callee arg scope) Value.Within := ih.callValue hc ha
    exact keeps_pausing (fun hscope => ⟨hc, ha, hscope⟩) hrel

/-- **Programs keep functions layered**, wherever they are broken off. -/
theorem keepsLayers_runUnder (stop : Moment → State → Bool) (fuel : Nat) (code : String)
    {scope : ScopeId} (cfg : Config) {s : State} (hs : s.Poised scope) :
    (Program.runUnder (.until stop fuel) code scope cfg s).KeepsLayers s := by
  rw [Program.runUnder_apply]
  split
  · exact ⟨hs.layered, rfl⟩
  · next forms hread =>
    have hforms : comparison.Rel s scope (Program.runForms (.until stop fuel) forms scope)
        (Program.runForms (.until stop fuel) forms scope) Value.Within :=
      (agree_until stop fuel).runForms (within_of_read hread)
    have hrun := hforms.layers cfg hs
    split
    all_goals next heq => rwa [heq] at hrun

end Layering

end Fexpr
