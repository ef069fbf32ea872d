import Fexpr.Proofs.Anchoring.Soundness
import Fexpr.Proofs.Comparison.Evaluator
import Fexpr.Proofs.Moments
import Fexpr.Proofs.Reader.Closure

/-!
# Proofs/Anchoring — the evaluator keeps closures anchored

The evaluator keeps a state sound and, on its way, everything that is captured in its place.  The
comparison relates a run to itself, broken off later: where the earlier one is broken off, the later
one is still to come (`Outcome.Precedes`).  So what holds where a run was broken off goes on to hold
(`leads_runUnder`).
-/

namespace Fexpr

/-! ## Where a computation gets to -/

/-- What is at hand at a moment belongs to the state. -/
def Moment.Sound (t : State) : Moment → Prop
  | .evaluating node scope => node.Within t.census ∧ scope ∈ t.arena.inUse
  | .calling callee arg scope =>
    callee.Within t.census ∧ arg.Within t.census ∧ scope ∈ t.arena.inUse
  | .answering v => v.Within t.census
  | .failing _ => True

/-- **Where a computation gets to from a sound state.** -/
def Outcome.Leads {ε α : Type} (s : State) (Φ : Census → α → Prop) : Outcome ε α → Prop
  | .ok a t => s.Leads t ∧ Φ t.census a
  | .error _ t => s.Leads t
  | .stopped m t => t.Sound ∧ s.Later t ∧ m.Sound t

namespace Outcome

variable {ε α : Type} {s t : State} {Φ Ψ : Census → α → Prop} {o o' : Outcome ε α}

theorem Leads.sound (h : o.Leads s Φ) : o.state.Sound := by
  cases o with
  | ok a t => exact h.1.sound
  | error e t => exact State.Leads.sound h
  | stopped m t => exact h.1

theorem Leads.later (h : o.Leads s Φ) : s.Later o.state := by
  cases o with
  | ok a t => exact h.1.later
  | error e t => exact State.Leads.later h
  | stopped m t => exact h.2.1

theorem Leads.after (hst : s.Leads t) (h : o.Leads t Φ) : o.Leads s Φ := by
  cases o with
  | ok a u => exact ⟨hst.trans h.1, h.2⟩
  | error e u => exact hst.trans h
  | stopped m u => exact ⟨h.1, hst.later.trans h.2.1, h.2.2⟩

theorem Precedes.later (h : o.Precedes (fun _ => State.Later) o') : o.state.Later o'.state := by
  rcases h with rfl | ⟨m, t, rfl, ht⟩
  · exact .refl _
  · exact ht

end Outcome

namespace Anchoring

variable {α β : Type}

/-- At a sound state and in a scope in use, `y` leads on and `x` comes before it. -/
def Rel (s : State) (scope : ScopeId) (x y : Eval α) (Φ : Census → α → Prop) : Prop :=
  ∀ cfg, s.Sound → scope ∈ s.arena.inUse →
    (y cfg s).Leads s Φ ∧ (x cfg s).Precedes (fun _ => State.Later) (y cfg s)

theorem rel_bind {s : State} {scope : ScopeId} {x y : Eval α} {f g : α → Eval β}
    {Φ : Census → α → Prop} {Ψ : Census → β → Prop} (hxy : Rel s scope x y Φ)
    (hfg : ∀ t a, s.census ≤ t.census → Φ t.census a → Rel t scope (f a) (g a) Ψ) :
    Rel s scope (x >>= f) (y >>= g) Ψ := by
  intro cfg hs hscope
  obtain ⟨hy, hprec⟩ := hxy cfg hs hscope
  have hnext : ∀ a t, y cfg s = .ok a t → (g a cfg t).Leads t Ψ ∧
      (f a cfg t).Precedes (fun _ => State.Later) (g a cfg t) := by
    intro a t hyo
    rw [hyo] at hy
    obtain ⟨hlead, ha⟩ := hy
    exact hfg t a hlead.later.census_le ha cfg hlead.sound (hlead.settles.inUse scope hscope)
  refine ⟨?_, hprec.bind fun a t hyo =>
    ⟨(hnext a t hyo).2, fun _ _ h => h.trans (hnext a t hyo).1.later⟩⟩
  rw [Eval.bind_apply]
  cases hyo : y cfg s with
  | ok a t =>
    rw [hyo] at hy
    exact (hnext a t hyo).1.after hy.1
  | error e t => rwa [hyo] at hy
  | stopped m t => rwa [hyo] at hy

/-- **The elementary operations keep a state sound** and answer what they promise. -/
theorem leads_elementary {s : State} {scope : ScopeId} {x : Eval α} {Φ : Census → α → Prop}
    (h : Elementary s.census scope x Φ) (cfg : Config) (hs : s.Sound)
    (hscope : scope ∈ s.arena.inUse) : (x cfg s).Leads s Φ := by
  have harena := hs.rooted
  have htidy := hs.rooted.tidy
  cases h with
  | read f Φ hf => exact ⟨.refl hs, hf s.arena s.store hs.arena hs.store⟩
  | lookup name =>
    rw [Eval.lookup]
    split
    · next v hv => exact ⟨.refl hs, hs.arena.get? hv⟩
    · exact State.Leads.refl hs
  | bind binding u name hv =>
    cases binding with
    | inward =>
      exact ⟨.of_arena hs (harena.set u name _) (Arena.settles_set htidy u name _)
        (hs.arena.set u name hv), trivial⟩
    | outward =>
      exact ⟨.of_arena hs (harena.setOutward u name _) (Arena.settles_setOutward htidy u name _)
        (hs.arena.setOutward u name hv), trivial⟩
  | capture =>
    exact ⟨.of_arena hs (harena.capture hscope) (Arena.settles_capture htidy scope)
      (hs.arena.capture scope), Arena.anchored_capture harena hscope⟩
  | print text => exact ⟨.of_same hs rfl rfl, trivial⟩
  | trace message =>
    obtain ⟨log, htrace⟩ := Eval.trace_apply message cfg s
    rw [htrace]
    exact ⟨.of_same hs rfl rfl, trivial⟩
  | setSlot id name hv =>
    exact ⟨.of_sameRecords hs rfl Array.size_modify rfl rfl (hs.store.setSlot id name hv), trivial⟩
  | setEntry id hk hv =>
    exact ⟨.of_sameRecords hs rfl rfl Array.size_modify rfl (hs.store.setEntry id hk hv), trivial⟩
  | setAttribute id name hv =>
    exact ⟨.of_sameRecords hs rfl rfl Array.size_modify rfl (hs.store.setAttribute id name hv),
      trivial⟩
  | addClosure hc => exact ⟨.addClosure hs hc, State.Leads.lt_size_push _ _⟩
  | addObject ho => exact ⟨.addObject hs ho, State.Leads.lt_size_push _ _⟩
  | addDictionary hd => exact ⟨.addDictionary hs hd, State.Leads.lt_size_push _ _⟩
  | addPromise hp => exact ⟨.addPromise hs hp, State.Leads.lt_size_push _ _⟩
  | freshTag | freshCurriedTag => exact ⟨.of_sameRecords hs rfl rfl rfl rfl
      ⟨hs.store.closure, hs.store.object, hs.store.dictionary, hs.store.promise⟩, trivial⟩

theorem rel_attempt {s : State} {scope : ScopeId} {x y : Eval α} {Φ : Census → α → Prop}
    (hxy : Rel s scope x y Φ) :
    Rel s scope (Eval.attempt x) (Eval.attempt y) (Congruence.IfOk Φ) := by
  intro cfg hs hscope
  obtain ⟨hy, hprec⟩ := hxy cfg hs hscope
  refine ⟨?_, hprec.attempt⟩
  rw [Eval.attempt_apply]
  cases hyo : y cfg s with
  | ok a t =>
    rw [hyo] at hy
    refine ⟨hy.1, fun b hb => ?_⟩
    cases hb
    exact hy.2
  | error e t =>
    rw [hyo] at hy
    refine ⟨hy, fun b hb => ?_⟩
    cases hb
  | stopped m t => rwa [hyo] at hy

/-- Dropping a frame that was opened from a sound state. -/
theorem leads_release {s t : State} {parent : ScopeId} (hs : s.Sound)
    (hparent : parent ∈ s.arena.inUse)
    (ht : ({ s with arena := (s.arena.child parent).2 } : State).Leads t) :
    s.Leads { t with arena := t.arena.release (s.arena.child parent).1 } ∧
      t.Later { t with arena := t.arena.release (s.arena.child parent).1 } := by
  have htidy := hs.rooted.tidy
  have hopen : s.Later { s with arena := (s.arena.child parent).2 } :=
    .of_keeps (Arena.keeps_child parent htidy)
  have hkeeps := Arena.keeps_release t.arena (s.arena.child parent).1
  have hclose : t.Later { t with arena := t.arena.release (s.arena.child parent).1 } :=
    .of_keeps hkeeps
  refine ⟨⟨⟨?_, ?_, ?_⟩, (hopen.trans ht.later).trans hclose, .of_frame htidy ht.settles⟩, hclose⟩
  · exact .of_frame hs.rooted hparent ht.sound.rooted ht.settles
  · exact (ht.sound.arena.mono hclose.census_le).release _
  · exact ht.sound.store_of_keeps hkeeps

/-- **A frame that is opened and dropped again leaves a sound state.** -/
theorem rel_withFrame {s : State} {scope parent : ScopeId} {x y : ScopeId → Eval α}
    {Φ : Census → α → Prop} (hparent : parent = scope ∨ s.census.scope parent) (hΦ : Upward Φ)
    (hxy : ∀ t frame, s.census ≤ t.census → Rel t frame (x frame) (y frame) Φ) :
    Rel s scope (Eval.withFrame parent x) (Eval.withFrame parent y) Φ := by
  intro cfg hs hscope
  have hmem : parent ∈ s.arena.inUse := by
    rcases hparent with rfl | hanchored
    · exact hscope
    · exact hanchored.mem_inUse
  have htidy := hs.rooted.tidy
  have hkeeps := Arena.keeps_child parent htidy
  have hopen : s.Later { s with arena := (s.arena.child parent).2 } := .of_keeps hkeeps
  have hle := hopen.census_le
  obtain ⟨hy, hprec⟩ := hxy _ (s.arena.child parent).1 hle cfg (hs.child hmem)
    ((Arena.mem_inUse_child parent htidy).mpr (Or.inl rfl))
  refine ⟨?_, hprec.withFrame fun _ _ t frame h =>
    h.trans (.of_keeps (Arena.keeps_release t.arena frame))⟩
  rw [Eval.withFrame_apply]
  cases hyo : y (s.arena.child parent).1 cfg { s with arena := (s.arena.child parent).2 } with
  | ok a t =>
    rw [hyo] at hy
    obtain ⟨hlead, hclose⟩ := leads_release hs hmem hy.1
    exact ⟨hlead, hΦ hclose.census_le hy.2⟩
  | error e t =>
    rw [hyo] at hy
    exact (leads_release hs hmem hy).1
  | stopped m t =>
    rw [hyo] at hy
    exact ⟨hy.1, hopen.trans hy.2.1, hy.2.2⟩

theorem rel_deeper {s : State} {scope : ScopeId} {x y : Eval α} {Φ : Census → α → Prop}
    (hxy : ∀ t : State, s.census ≤ t.census → Rel t scope x y Φ) :
    Rel s scope (Eval.deeper x) (Eval.deeper y) Φ := by
  intro cfg hs hscope
  have hdown : s.Leads { s with depth := s.depth + 1 } := .of_same hs rfl rfl
  have hup : ∀ t : State, t.Later { t with depth := t.depth - 1 } := fun t =>
    ⟨.refl t.arena, fun _ hid => ⟨hid, rfl⟩, le_rfl, le_rfl, le_rfl⟩
  obtain ⟨hy, hprec⟩ := hxy { s with depth := s.depth + 1 } le_rfl cfg hdown.sound hscope
  refine ⟨?_, hprec.deeper fun _ _ t h => h.trans (hup t)⟩
  rw [Eval.deeper]
  split
  · exact State.Leads.refl hs
  · cases hyo : y cfg { s with depth := s.depth + 1 } with
    | ok a t =>
      rw [hyo] at hy
      exact ⟨(hdown.trans hy.1).trans (.of_same hy.1.sound rfl rfl), hy.2⟩
    | error e t =>
      rw [hyo] at hy
      exact (hdown.trans hy).trans (.of_same (State.Leads.sound hy) rfl rfl)
    | stopped m t =>
      rw [hyo] at hy
      exact ⟨hy.1, hdown.later.trans hy.2.1, hy.2.2⟩

/-- **The anchoring of closures is a comparison.** -/
def congruence : Congruence where
  World := State
  census := State.census
  Rel := Rel
  pure ha := fun _ hs _ => ⟨⟨.refl hs, ha⟩, Or.inl rfl⟩
  fail := fun _ hs _ => ⟨State.Leads.refl hs, Or.inl rfl⟩
  bind := rel_bind
  elementary h := fun cfg hs hscope => ⟨leads_elementary h cfg hs hscope, Or.inl rfl⟩

theorem catches : congruence.Catches where
  attempt := rel_attempt
  policy := fun _ hs _ => ⟨⟨.refl hs, trivial⟩, Or.inl rfl⟩

def comparison : Comparison where
  toCongruence := congruence
  withFrame := rel_withFrame
  choose := catches.choose

/-- The stage of a promise may be set to what is within the census. -/
theorem rel_setPromise {s : State} {scope : ScopeId} {id : PromiseId} {p : Promise}
    (hp : p.Within s.census) :
    Rel s scope (Eval.modifyStore (·.setPromise id p)) (Eval.modifyStore (·.setPromise id p))
      Anything := fun _ hs _ =>
  ⟨⟨.of_sameRecords hs rfl rfl rfl Array.size_modify (hs.store.setPromise id hp), trivial⟩,
    Or.inl rfl⟩

/-- A promise is forced in the scope that it holds on to and not in the one at hand. -/
theorem rel_force {r r' : Evaluator}
    (hr : ∀ (s : State) (scope : ScopeId) {node : Node}, node.Within s.census →
      Rel s scope (r.eval node scope) (r'.eval node scope) Value.Within)
    (s : State) (scope : ScopeId) {id : PromiseId} (hid : s.census.promise id) :
    Rel s scope (Promise.force r id) (Promise.force r' id) Value.Within :=
  catches.force (fun _ _ _ hp => rel_setPromise hp)
    (fun t _ u _ hn hu cfg ht _ => hr t u hn cfg ht hu.mem_inUse) hid

/-! ## Runs that are broken off -/

section Until

variable {early late : Moment → State → Bool}

theorem leads_checked {stop : Moment → State → Bool} {s : State} {o : Outcome RunError Value}
    (h : o.Leads s Value.Within) : (o.checked stop).Leads s Value.Within := by
  cases o with
  | ok v t =>
    rw [Outcome.checked]
    split
    · exact ⟨h.1.sound, h.1.later, h.2⟩
    · exact h
  | error e t =>
    rw [Outcome.checked]
    split
    · exact ⟨State.Leads.sound h, State.Leads.later h, trivial⟩
    · exact h
  | stopped m t => exact h

theorem rel_pausing (hle : ∀ m t, late m t → early m t) {s : State} {scope : ScopeId} {m : Moment}
    {x y : Eval Value} (hm : m.Sound s) (hxy : Rel s scope x y Value.Within) :
    Rel s scope (Eval.pausing early m x) (Eval.pausing late m y) Value.Within := by
  intro cfg hs hscope
  obtain ⟨hy, hprec⟩ := hxy cfg hs hscope
  have hlead : (Eval.pausing late m y cfg s).Leads s Value.Within := by
    rw [Eval.pausing_apply]
    split
    · exact ⟨hs, .refl s, hm⟩
    · exact leads_checked hy
  exact ⟨hlead, hprec.pausing hle (fun _ t _ _ => .refl t) fun _ _ => hy.later⟩

/-- **A run that may be broken off earlier comes before one that may not**, and the latter keeps a
sound state sound. -/
theorem agree_until (hle : ∀ m t, late m t → early m t) {fuel fuel' : Nat} (hfuel : fuel ≤ fuel') :
    comparison.Agree (.until early fuel) (.until late fuel') := by
  induction fuel' generalizing fuel with
  | zero =>
    obtain rfl : fuel = 0 := Nat.le_zero.mp hfuel
    have heval : ∀ (s : State) (scope : ScopeId) {node : Node}, node.Within s.census →
        Rel s scope ((Evaluator.until early 0).eval node scope)
          ((Evaluator.until late 0).eval node scope) Value.Within :=
      fun s _ _ hn _ hs hscope => ⟨⟨hs, .refl s, hn, hscope⟩, Or.inl rfl⟩
    exact ⟨heval,
      fun s scope _ _ hc ha _ hs hscope => ⟨⟨hs, .refl s, hc, ha, hscope⟩, Or.inl rfl⟩,
      rel_force heval⟩
  | succ n ih =>
    have hstep : ∀ k ≤ n, comparison.Agree (.until early (k + 1)) (.until late (n + 1)) := by
      intro k hk
      have hagree := ih hk
      have heval : ∀ (s : State) (scope : ScopeId) {node : Node}, node.Within s.census →
          Rel s scope ((Evaluator.until early (k + 1)).eval node scope)
            ((Evaluator.until late (n + 1)).eval node scope) Value.Within := by
        intro s scope node hn cfg hs hscope
        have hm : (Moment.evaluating node scope).Sound s := ⟨hn, hscope⟩
        exact rel_pausing hle hm
          (rel_deeper fun t ht => hagree.evalNode (hn.mono ht)) cfg hs hscope
      refine ⟨heval, fun s scope callee arg hc ha cfg hs hscope => ?_, rel_force heval⟩
      have hm : (Moment.calling callee arg scope).Sound s := ⟨hc, ha, hscope⟩
      exact rel_pausing hle hm (hagree.callValue hc ha) cfg hs hscope
    cases fuel with
    | succ k => exact hstep k (Nat.le_of_succ_le_succ hfuel)
    | zero =>
      -- broken off at once, with everything still to come
      have hlast := hstep n le_rfl
      have heval : ∀ (s : State) (scope : ScopeId) {node : Node}, node.Within s.census →
          Rel s scope ((Evaluator.until early 0).eval node scope)
            ((Evaluator.until late (n + 1)).eval node scope) Value.Within := by
        intro s scope node hn cfg hs hscope
        have hlead := (hlast.eval s scope hn cfg hs hscope).1
        exact ⟨hlead, Or.inr ⟨_, s, rfl, hlead.later⟩⟩
      refine ⟨heval, fun s scope callee arg hc ha cfg hs hscope => ?_, rel_force heval⟩
      have hlead := (hlast.call s scope hc ha cfg hs hscope).1
      exact ⟨hlead, Or.inr ⟨_, s, rfl, hlead.later⟩⟩

/-- **Where a program gets to**, and that it gets there later when it is broken off later. -/
theorem leads_runUnder (early late : Moment → State → Bool) (hle : ∀ m t, late m t → early m t)
    {fuel fuel' : Nat} (hfuel : fuel ≤ fuel') (code : String) {scope : ScopeId} (cfg : Config)
    {s : State} (hs : s.Sound) (hscope : scope ∈ s.arena.inUse) :
    (Program.runUnder (.until late fuel') code scope cfg s).Leads s Value.Within ∧
      (Program.runUnder (.until early fuel) code scope cfg s).Precedes (fun _ => State.Later)
        (Program.runUnder (.until late fuel') code scope cfg s) := by
  rw [Program.runUnder_apply, Program.runUnder_apply]
  cases hread : read code with
  | error e => exact ⟨State.Leads.refl hs, Or.inl rfl⟩
  | ok forms =>
    have hforms : ∀ form ∈ forms, form.Within s.census := within_of_read hread
    have hrel : Rel s scope (Program.runForms (.until early fuel) forms scope)
        (Program.runForms (.until late fuel') forms scope) Value.Within :=
      (agree_until hle hfuel).runForms hforms
    obtain ⟨hlead, hprec⟩ := hrel cfg hs hscope
    dsimp only
    cases hrun : Program.runForms (.until late fuel') forms scope cfg s with
    | ok v t =>
      rw [hrun] at hlead hprec
      exact ⟨hlead, hprec.through (fun h => by rw [h]) (fun m u h => by rw [h]) fun _ _ => id⟩
    | error e t =>
      rw [hrun] at hlead hprec
      exact ⟨hlead, hprec.through (fun h => by rw [h]) (fun m u h => by rw [h]) fun _ _ => id⟩
    | stopped m t =>
      rw [hrun] at hlead hprec
      exact ⟨hlead, hprec.through (fun h => by rw [h]) (fun m u h => by rw [h]) fun _ _ => id⟩

end Until

end Anchoring

end Fexpr
