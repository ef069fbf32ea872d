import Fexpr.Proofs.Anchoring.Soundness
import Fexpr.Proofs.Balance
import Fexpr.Proofs.Comparison.Evaluator
import Fexpr.Proofs.Reader.Closure

/-!
# Proofs/WellMade — what programs make is well made

In the states that programs bring about (`Attainable`) every value mentions objects and dictionaries
that are there, every pattern is in normal form, no two keys of a dictionary are equal, and an
object's prototype is older than the object (`Attainable.wellMade`).  That an evaluation keeps it so
is a comparison of a run with itself: what each elementary operation adds is within the **ledger** of
what there is.
-/

namespace Fexpr

/-! ## Records under operations on the store -/

theorem getD_modify {α : Type} {xs : Array α} {d : α} {i : Nat} (hi : i < xs.size) (f : α → α)
    (j : Nat) : (xs.modify i f).getD j d = if j = i then f (xs.getD j d) else xs.getD j d := by
  simp only [Array.getD_eq_getD_getElem?, Array.getElem?_modify]
  by_cases hj : j = i
  · subst hj
    simp only [if_true, Array.getElem?_eq_getElem hi, Option.map_some, Option.getD_some]
  · simp only [hj, Ne.symm hj, if_false]

namespace Store

theorem object_addObject (st : Store) (o : Object) (id : ObjectId) :
    (st.addObject o).2.object id = if id = st.objects.size then o else st.object id := by
  simp only [object, addObject, Array.getD_eq_getD_getElem?, Array.getElem?_push]
  split <;> rfl

/-- **Writing a slot moves no object.** -/
theorem prototype_setSlot (st : Store) (id : ObjectId) (name : String) (v : Value)
    (o : ObjectId) : ((st.setSlot id name v).object o).prototype = (st.object o).prototype :=
  getD_modify_of (P := fun x : Object => x.prototype = (st.object o).prototype) id o rfl
    fun _ hx => hx

end Store

/-- A property of all that an array reads as, and of one element that is added. -/
theorem getD_push_of_forall {α : Type} {P : α → Prop} {xs : Array α} {x d : α} (hx : P x)
    (h : ∀ i, P (xs.getD i d)) (i : Nat) : P ((xs.push x).getD i d) := by
  have hi := h i
  simp only [Array.getD_eq_getD_getElem?, Array.getElem?_push] at hi ⊢
  split
  · exact hx
  · exact hi

/-! ## Well-made states -/

/-- **What a state has**: its objects and dictionaries, and well-made patterns only. -/
def State.ledger (s : State) : Census where
  closure _ := True
  object id := id < s.store.objects.size
  dictionary id := id < s.store.dictionaries.size
  promise _ := True
  scope _ := True
  wellMade := True

/-- **A state in which everything is well made.** -/
structure State.WellMade (s : State) : Prop where
  arena : s.arena.Within s.ledger
  store : s.store.Within s.ledger
  /-- A prototype is older than the objects that extend it. -/
  older : ∀ id proto, (s.store.object id).prototype = some proto → proto < id

/-- **What is made of a state**: a well-made state that has more. -/
structure State.Makes (s t : State) : Prop where
  wellMade : t.WellMade
  more : s.ledger ≤ t.ledger

namespace State.Makes

variable {s t u : State}

theorem refl (h : s.WellMade) : s.Makes s := ⟨h, le_rfl⟩

theorem trans (hst : s.Makes t) (htu : t.Makes u) : s.Makes u :=
  ⟨htu.wellMade, hst.more.trans htu.more⟩

variable (h : s.WellMade)

include h

/-- A change of neither the arena nor the store. -/
theorem of_same (ha : t.arena = s.arena) (hst : t.store = s.store) : s.Makes t := by
  obtain ⟨a, st, depth, output, log⟩ := t
  cases ha
  cases hst
  exact ⟨⟨h.arena, h.store, h.older⟩, le_rfl⟩

/-- A change of the arena. -/
theorem of_arena {b : Arena} (hb : b.Within s.ledger) : s.Makes { s with arena := b } :=
  ⟨⟨hb, h.store, h.older⟩, le_rfl⟩

/-- A change of the store that adds neither objects nor dictionaries. -/
theorem of_store {st : Store} (ho : st.objects.size = s.store.objects.size)
    (hd : st.dictionaries.size = s.store.dictionaries.size) (hw : st.Within s.ledger)
    (holder : ∀ id, (st.object id).prototype = (s.store.object id).prototype) :
    s.Makes { s with store := st } := by
  have hledger : ({ s with store := st } : State).ledger = s.ledger := by
    simp only [State.ledger, ho, hd]
  refine ⟨⟨hledger ▸ h.arena, hledger ▸ hw, fun id proto hp => ?_⟩, hledger.ge⟩
  exact h.older id proto (holder id ▸ hp)

/-! ### New records -/

theorem addClosure {c : Closure} (hc : c.Within s.ledger) :
    s.Makes { s with store := (s.store.addClosure c).2 } :=
  of_store h rfl rfl
    ⟨fun id _ => getD_push_of_forall (P := Closure.Within s.ledger) hc
      (fun i => h.store.closure i trivial) id, h.store.object, h.store.dictionary, h.store.promise⟩
    fun _ => rfl

theorem addPromise {p : Promise} (hp : p.Within s.ledger) :
    s.Makes { s with store := (s.store.addPromise p).2 } :=
  of_store h rfl rfl
    ⟨h.store.closure, h.store.object, h.store.dictionary, fun id _ =>
      getD_push_of_forall (P := Promise.Within s.ledger) hp
        (fun i => h.store.promise i trivial) id⟩
    fun _ => rfl

/-- **A new object is younger than its prototype.** -/
theorem addObject {o : Object} (ho : o.Within s.ledger) :
    s.Makes { s with store := (s.store.addObject o).2 } := by
  have hle : s.ledger ≤ ({ s with store := (s.store.addObject o).2 } : State).ledger :=
    ⟨fun _ => id, fun _ hid => lt_trans hid (State.Leads.lt_size_push _ _), fun _ => id,
      fun _ => id, fun _ => id, id⟩
  refine ⟨⟨h.arena.mono hle, ⟨?_, ?_, ?_, ?_⟩, fun id proto hproto => ?_⟩, hle⟩
  · exact fun id hid => (h.store.closure id hid).mono hle
  · exact State.Leads.getD_push_of (ho.mono hle) fun id hid => (h.store.object id hid).mono hle
  · exact fun id hid => (h.store.dictionary id hid).mono hle
  · exact fun id hid => (h.store.promise id hid).mono hle
  · rw [Store.object_addObject] at hproto
    split at hproto
    · next hid => exact hid ▸ ho.2 proto hproto
    · exact h.older id proto hproto

theorem addDictionary {d : Dictionary} (hd : d.Within s.ledger) :
    s.Makes { s with store := (s.store.addDictionary d).2 } := by
  have hle : s.ledger ≤ ({ s with store := (s.store.addDictionary d).2 } : State).ledger :=
    ⟨fun _ => id, fun _ => id, fun _ hid => lt_trans hid (State.Leads.lt_size_push _ _),
      fun _ => id, fun _ => id, id⟩
  refine ⟨⟨h.arena.mono hle, ⟨?_, ?_, ?_, ?_⟩, h.older⟩, hle⟩
  · exact fun id hid => (h.store.closure id hid).mono hle
  · exact fun id hid => (h.store.object id hid).mono hle
  · exact State.Leads.getD_push_of (hd.mono hle) fun id hid => (h.store.dictionary id hid).mono hle
  · exact fun id hid => (h.store.promise id hid).mono hle

end State.Makes

/-! ## What computations make -/

/-- **What a computation makes of a state**; where it is broken off, the state is well made. -/
def Outcome.Makes {ε α : Type} (s : State) (Φ : Census → α → Prop) : Outcome ε α → Prop
  | .ok a t => s.Makes t ∧ Φ t.ledger a
  | .error _ t => s.Makes t
  | .stopped _ t => t.WellMade

namespace Outcome.Makes

variable {ε α : Type} {s t : State} {Φ : Census → α → Prop} {o : Outcome ε α}

theorem wellMade (h : o.Makes s Φ) : o.state.WellMade := by
  cases o with
  | ok a t => exact h.1.wellMade
  | error e t => exact State.Makes.wellMade h
  | stopped m t => exact h

theorem after (hst : s.Makes t) (h : o.Makes t Φ) : o.Makes s Φ := by
  cases o with
  | ok a u => exact ⟨hst.trans h.1, h.2⟩
  | error e u => exact hst.trans h
  | stopped m u => exact h

end Outcome.Makes

namespace Making

variable {α β : Type}

/-- **A computation makes more of a well-made state.** -/
def Makes (s : State) (x : Eval α) (Φ : Census → α → Prop) : Prop :=
  ∀ cfg, s.WellMade → (x cfg s).Makes s Φ

/-- What a computation that returns has made. -/
theorem Makes.of_ok {s t : State} {x : Eval α} {Φ : Census → α → Prop} {cfg : Config} {a : α}
    (hx : Makes s x Φ) (hs : s.WellMade) (h : x cfg s = .ok a t) : s.Makes t ∧ Φ t.ledger a := by
  have := hx cfg hs
  rwa [h] at this

theorem makes_bind {s : State} {x : Eval α} {f : α → Eval β} {Φ : Census → α → Prop}
    {Ψ : Census → β → Prop} (hx : Makes s x Φ)
    (hf : ∀ t a, s.ledger ≤ t.ledger → Φ t.ledger a → Makes t (f a) Ψ) :
    Makes s (x >>= f) Ψ := by
  intro cfg hs
  have h := hx cfg hs
  rw [Eval.bind_apply]
  cases hxs : x cfg s with
  | ok a t =>
    rw [hxs] at h
    exact (hf t a h.1.more h.2 cfg h.1.wellMade).after h.1
  | error e t | stopped m t => rwa [hxs] at h

/-- **The elementary operations keep a state well made.** -/
theorem makes_elementary {s : State} {scope : ScopeId} {x : Eval α} {Φ : Census → α → Prop}
    (h : Elementary s.ledger scope x Φ) : Makes s x Φ := by
  intro cfg hs
  cases h with
  | read f Φ hf => exact ⟨.refl hs, hf s.arena s.store hs.arena hs.store⟩
  | lookup name =>
    rw [Eval.lookup]
    split
    · next v hv => exact ⟨.refl hs, hs.arena.get? hv⟩
    · exact State.Makes.refl hs
  | bind binding u name hv =>
    cases binding with
    | inward => exact ⟨.of_arena hs (hs.arena.set u name hv), trivial⟩
    | outward => exact ⟨.of_arena hs (hs.arena.setOutward u name hv), trivial⟩
  | capture => exact ⟨.of_arena hs (hs.arena.capture scope), trivial⟩
  | print text => exact ⟨.of_same hs rfl rfl, trivial⟩
  | trace message =>
    obtain ⟨log, htrace⟩ := Eval.trace_apply message cfg s
    rw [htrace]
    exact ⟨.of_same hs rfl rfl, trivial⟩
  | setSlot id name hv =>
    exact ⟨.of_store hs Array.size_modify rfl (hs.store.setSlot id name hv)
      (s.store.prototype_setSlot id name _), trivial⟩
  | setEntry id hk hv =>
    exact ⟨.of_store hs rfl Array.size_modify (hs.store.setEntry id hk hv) fun _ => rfl, trivial⟩
  | setAttribute id name hv =>
    exact ⟨.of_store hs rfl Array.size_modify (hs.store.setAttribute id name hv) fun _ => rfl,
      trivial⟩
  | addClosure hc => exact ⟨.addClosure hs hc, trivial⟩
  | addObject ho => exact ⟨.addObject hs ho, State.Leads.lt_size_push _ _⟩
  | addDictionary hd => exact ⟨.addDictionary hs hd, State.Leads.lt_size_push _ _⟩
  | addPromise hp => exact ⟨.addPromise hs hp, trivial⟩
  | freshTag | freshCurriedTag =>
    exact ⟨.of_store hs rfl rfl
      ⟨hs.store.closure, hs.store.object, hs.store.dictionary, hs.store.promise⟩ fun _ => rfl,
      trivial⟩

theorem makes_attempt {s : State} {x : Eval α} {Φ : Census → α → Prop} (hx : Makes s x Φ) :
    Makes s (Eval.attempt x) (Congruence.IfOk Φ) := by
  intro cfg hs
  have h := hx cfg hs
  rw [Eval.attempt_apply]
  cases hxs : x cfg s with
  | ok a t =>
    rw [hxs] at h
    refine ⟨h.1, fun b hb => ?_⟩
    cases hb
    exact h.2
  | error e t =>
    rw [hxs] at h
    refine ⟨h, fun b hb => ?_⟩
    cases hb
  | stopped m t => rwa [hxs] at h

/-- A frame holds nothing when it is opened and nothing when it is dropped. -/
theorem makes_withFrame {s : State} {parent : ScopeId} {x : ScopeId → Eval α}
    {Φ : Census → α → Prop} (hx : ∀ t frame, s.ledger ≤ t.ledger → Makes t (x frame) Φ) :
    Makes s (Eval.withFrame parent x) Φ := by
  intro cfg hs
  have hopen : s.Makes { s with arena := (s.arena.child parent).2 } :=
    .of_arena hs (hs.arena.child parent)
  have hclose : ∀ {t : State}, t.WellMade →
      t.Makes { t with arena := t.arena.release (s.arena.child parent).1 } := fun ht =>
    .of_arena ht (ht.arena.release _)
  have h := (hx _ (s.arena.child parent).1 hopen.more cfg hopen.wellMade).after hopen
  rw [Eval.withFrame_apply]
  cases hxs : x (s.arena.child parent).1 cfg { s with arena := (s.arena.child parent).2 } with
  | ok a t =>
    rw [hxs] at h
    exact ⟨h.1.trans (hclose h.1.wellMade), h.2⟩
  | error e t =>
    rw [hxs] at h
    exact State.Makes.trans h (hclose (State.Makes.wellMade h))
  | stopped m t => rwa [hxs] at h

theorem makes_deeper {s : State} {x : Eval α} {Φ : Census → α → Prop}
    (hx : ∀ t : State, s.ledger ≤ t.ledger → Makes t x Φ) : Makes s (Eval.deeper x) Φ := by
  intro cfg hs
  have hdown : s.Makes { s with depth := s.depth + 1 } := .of_same hs rfl rfl
  have h := (hx _ hdown.more cfg hdown.wellMade).after hdown
  rw [Eval.deeper]
  split
  · exact State.Makes.refl hs
  · cases hxs : x cfg { s with depth := s.depth + 1 } with
    | ok a t =>
      rw [hxs] at h
      exact ⟨h.1.trans (.of_same h.1.wellMade rfl rfl), h.2⟩
    | error e t =>
      rw [hxs] at h
      exact State.Makes.trans h (.of_same (State.Makes.wellMade h) rfl rfl)
    | stopped m t => rwa [hxs] at h

/-- **That everything is well made is a comparison** of a computation with itself. -/
abbrev congruence : Congruence where
  World := State
  census := State.ledger
  Rel s _ _ y Φ := Makes s y Φ
  pure ha := fun _ hs => ⟨.refl hs, ha⟩
  fail := fun _ hs => State.Makes.refl hs
  bind := makes_bind
  elementary := makes_elementary

theorem catches : congruence.Catches where
  attempt := makes_attempt
  policy := fun _ hs => ⟨.refl hs, trivial⟩

abbrev comparison : Comparison where
  toCongruence := congruence
  withFrame _ _ hx := makes_withFrame hx
  choose := catches.choose

theorem makes_force {r : Evaluator}
    (hr : ∀ (s : State) (scope : ScopeId) {node : Node}, node.Within s.ledger →
      Makes s (r.eval node scope) Value.Within)
    (s : State) (scope : ScopeId) {id : PromiseId} (hid : s.ledger.promise id) :
    Makes s (Promise.force r id) Value.Within := by
  have hrel : congruence.Rel s scope (Promise.force r id) (Promise.force r id) Value.Within :=
    catches.force
      (fun _ _ _ hp _ ht =>
        ⟨.of_store ht rfl rfl (ht.store.setPromise id hp) fun _ => rfl, trivial⟩)
      (fun t _ u _ hn _ => hr t u hn) hid
  exact hrel

theorem makes_pausing {stop : Moment → State → Bool} {s : State} {m : Moment} {x : Eval Value}
    (hx : Makes s x Value.Within) : Makes s (Eval.pausing stop m x) Value.Within := by
  intro cfg hs
  have h := hx cfg hs
  rw [Eval.pausing_apply]
  split
  · exact hs
  · cases hxs : x cfg s with
    | ok v t =>
      rw [hxs] at h
      rw [Outcome.checked]
      split
      · exact h.1.wellMade
      · exact h
    | error e t =>
      rw [hxs] at h
      rw [Outcome.checked]
      split
      · exact State.Makes.wellMade h
      · exact h
    | stopped m' t => rwa [hxs] at h

/-- **Every evaluator keeps a state well made**, wherever it is broken off. -/
theorem agree_until (stop : Moment → State → Bool) (fuel : Nat) :
    comparison.Agree (.until stop fuel) (.until stop fuel) := by
  induction fuel with
  | zero =>
    have heval : ∀ (s : State) (scope : ScopeId) {node : Node}, node.Within s.ledger →
        Makes s ((Evaluator.until stop 0).eval node scope) Value.Within := fun _ _ _ _ _ hs => hs
    exact ⟨fun s scope _ hn => heval s scope hn, fun _ _ _ _ _ _ _ hs => hs,
      fun s scope _ hid => makes_force heval s scope hid⟩
  | succ n ih =>
    have heval : ∀ (s : State) (scope : ScopeId) {node : Node}, node.Within s.ledger →
        Makes s ((Evaluator.until stop (n + 1)).eval node scope) Value.Within := by
      intro s scope node hn
      refine makes_pausing (makes_deeper fun t ht => ?_)
      have hrel : comparison.Rel t scope (evalNode (.until stop n) node scope)
          (evalNode (.until stop n) node scope) Value.Within := ih.evalNode (hn.mono ht)
      exact hrel
    refine ⟨fun s scope _ hn => heval s scope hn, fun s scope callee arg hc ha => ?_,
      fun s scope _ hid => makes_force heval s scope hid⟩
    have hrel : comparison.Rel s scope (callValue (.until stop n) callee arg scope)
        (callValue (.until stop n) callee arg scope) Value.Within := ih.callValue hc ha
    exact makes_pausing hrel

/-- Evaluators that are broken off for lack of fuel only. -/
theorem agree_ofFuel (fuel : Nat) : comparison.Agree (.ofFuel fuel) (.ofFuel fuel) := by
  rw [← Evaluator.until_never]
  exact agree_until _ fuel

/-- **Runs keep a state well made**, wherever they are broken off. -/
theorem makes_runUnder (stop : Moment → State → Bool) (fuel : Nat) (code : String)
    (scope : ScopeId) (cfg : Config) {s : State} (hs : s.WellMade) :
    (Program.runUnder (.until stop fuel) code scope cfg s).Makes s Value.Within := by
  rw [Program.runUnder_apply]
  split
  · exact State.Makes.refl hs
  · next forms hread =>
    have hforms : comparison.Rel s scope (Program.runForms (.until stop fuel) forms scope)
        (Program.runForms (.until stop fuel) forms scope) Value.Within :=
      (agree_until stop fuel).runForms (within_of_read hread)
    have hrun := hforms cfg hs
    split
    all_goals next heq => rwa [heq] at hrun

end Making

/-! ## The states that programs make -/

theorem State.wellMade_initial : State.initial.WellMade := by
  have hempty : Arena.fresh.Within State.initial.ledger := fun u => by
    cases u <;> exact Bindings.within_empty
  refine ⟨State.arena_initial_of hempty fun _ name v hv ha => ha.set _ name (hv _), ?_, ?_⟩
  · refine ⟨fun id _ => ⟨trivial, fun _ hf => absurd hf List.not_mem_nil, trivial⟩, ?_, ?_, ?_⟩
    · exact fun _ h => absurd h (Nat.not_lt_zero _)
    · exact fun _ h => absurd h (Nat.not_lt_zero _)
    · exact fun _ _ => trivial
  · exact fun _ _ h => absurd h (by simp [Store.object, State.initial])

/-- **The states that programs make**: from a fresh state, by running programs, evaluating, calling
and forcing, each to its end or up to some moment, by any of the elementary operations and by opening
and dropping frames, all of it with values, patterns and nodes that are within the ledger. -/
inductive Attainable : State → Prop
  | initial : Attainable .initial
  | run {s : State} (stop : Moment → State → Bool) (fuel : Nat) (code : String) (scope : ScopeId)
      (cfg : Config) : Attainable s →
      Attainable (Program.runUnder (.until stop fuel) code scope cfg s).state
  | eval {s : State} (stop : Moment → State → Bool) (fuel : Nat) {node : Node} (scope : ScopeId)
      (cfg : Config) : Attainable s → node.Within s.ledger →
      Attainable ((Evaluator.until stop fuel).eval node scope cfg s).state
  | call {s : State} (stop : Moment → State → Bool) (fuel : Nat) {callee : Value} {arg : Node}
      (scope : ScopeId) (cfg : Config) : Attainable s → callee.Within s.ledger →
      arg.Within s.ledger →
      Attainable ((Evaluator.until stop fuel).call callee arg scope cfg s).state
  | force {s : State} (stop : Moment → State → Bool) (fuel : Nat) (id : PromiseId) (cfg : Config) :
      Attainable s → Attainable (Promise.force (.until stop fuel) id cfg s).state
  | operate {s : State} {α : Type} {x : Eval α} {Φ : Census → α → Prop} (scope : ScopeId)
      (cfg : Config) : Attainable s → Elementary s.ledger scope x Φ → Attainable (x cfg s).state
  | child {s : State} (parent : ScopeId) : Attainable s →
      Attainable { s with arena := (s.arena.child parent).2 }
  | release {s : State} (u : ScopeId) : Attainable s →
      Attainable { s with arena := s.arena.release u }

namespace Attainable

variable {s : State}

/-- **What programs make is well made.** -/
theorem wellMade (h : Attainable s) : s.WellMade := by
  induction h with
  | initial => exact State.wellMade_initial
  | run stop fuel code scope cfg _ ih =>
    exact (Making.makes_runUnder stop fuel code scope cfg ih).wellMade
  | @eval s stop fuel _ scope cfg _ hn ih =>
    exact Outcome.Makes.wellMade ((Making.agree_until stop fuel).eval s scope hn cfg ih)
  | @call s stop fuel _ _ scope cfg _ hc ha ih =>
    exact Outcome.Makes.wellMade ((Making.agree_until stop fuel).call s scope hc ha cfg ih)
  | @force s stop fuel id cfg _ ih =>
    exact Outcome.Makes.wellMade
      (Making.makes_force (fun s scope _ hn => (Making.agree_until stop fuel).eval s scope hn)
        s Arena.root (show s.ledger.promise id from trivial) cfg ih)
  | operate scope cfg _ hx ih => exact (Making.makes_elementary hx cfg ih).wellMade
  | child parent _ ih => exact (State.Makes.of_arena ih (ih.arena.child parent)).wellMade
  | release u _ ih => exact (State.Makes.of_arena ih (ih.arena.release u)).wellMade

/-- The free list is in order. -/
theorem tidy (h : Attainable s) : s.arena.Tidy := by
  induction h with
  | initial => exact Reachable.initial.tidy
  | run stop fuel code scope cfg _ ih =>
    exact (Balance.balanced_runUnder stop fuel code scope ih).tidy
  | eval stop fuel scope cfg _ _ ih =>
    exact ((Balance.agree_until stop fuel).eval _ scope cfg _ ih).tidy
  | call stop fuel scope cfg _ _ _ ih =>
    exact ((Balance.agree_until stop fuel).call _ _ scope cfg _ ih).tidy
  | force stop fuel id cfg _ ih =>
    exact (Balance.balanced_force (fun node scope =>
      (Balance.agree_until stop fuel).eval node scope) id cfg _ ih).tidy
  | operate scope cfg _ hx ih => exact (Balance.balanced_elementary hx cfg _ ih).tidy
  | child parent _ ih => exact ih.child parent
  | release u _ ih => exact ih.release u

end Attainable

end Fexpr
