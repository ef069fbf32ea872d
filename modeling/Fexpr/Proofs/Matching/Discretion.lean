import Fexpr.Proofs.Matching.Derivation

/-!
# Proofs/Matching/Discretion — a match into a frame stays in it

A match puts bindings into its frame and nowhere else, at every moment and on every way out
(`Pattern.keeps_matchWith`), as long as the predicates it asks leave alone what is in use
(`Pattern.Discreet`).  That is asked of the calls that the match makes and of no others; a predicate
that leaves alone what is in use whatever it is asked about is fit for every match
(`Pattern.discreet_of_spares`).
-/

namespace Fexpr

/-! ## Properties that a computation keeps -/

namespace Eval

variable {α β : Type} {cfg : Config} {P : State → Prop} {t : State}

/-- **A computation keeps a property of the state it begins in**, whether it returns or fails. -/
def Keeps (cfg : Config) (P : State → Prop) (t : State) (x : Eval α) : Prop :=
  P t → ∀ u, (x cfg t).EndsIn u → P u

namespace Keeps

theorem pure (a : α) : Keeps cfg P t (pure a) := by
  rintro ht u (⟨b, h⟩ | ⟨e, h⟩)
  · cases h
    exact ht
  · cases h

theorem bind {x : Eval α} {f : α → Eval β} (hx : Keeps cfg P t x)
    (hf : ∀ a t', x cfg t = .ok a t' → Keeps cfg P t' (f a)) : Keeps cfg P t (x >>= f) := by
  intro ht u hend
  rw [bind_apply] at hend
  cases hxt : x cfg t with
  | ok a t' =>
    rw [hxt] at hend
    exact hf a t' hxt (hx ht t' (.inl ⟨a, hxt⟩)) u hend
  | error e t' =>
    rw [hxt] at hend
    obtain rfl := hend.state_eq
    exact hx ht t' (.inr ⟨e, hxt⟩)
  | stopped m t' =>
    rw [hxt] at hend
    exact absurd rfl hend.not_isStopped

/-- Something that is done only if a test succeeds. -/
theorem guarded {x y : Eval Bool} (hx : Keeps cfg P t x)
    (hy : ∀ t', x cfg t = .ok true t' → Keeps cfg P t' y) :
    Keeps cfg P t (do if ← x then y else return false) := by
  refine hx.bind fun accepted t' hxt => ?_
  cases accepted with
  | true => exact hy t' hxt
  | false => exact .pure false

end Keeps

end Eval

open Eval (Keeps)

/-! ## Matching into a frame -/

/-- **A match into a frame is under way**: since `s`, names have been bound in the frame, and nothing
else has happened to what is in use. -/
def State.UnderWay (frame : ScopeId) (s t : State) : Prop :=
  ∃ bs : Row, s.Rebound .inward frame bs t

theorem State.UnderWay.refl {s : State} (frame : ScopeId) (hs : s.arena.Tidy) :
    s.UnderWay frame s :=
  ⟨[], .refl .inward frame hs⟩

namespace Pattern

section

variable (r : Evaluator) (frame : ScopeId) (cfg : Config)

/-- **A predicate leaves alone what is in use** when it is asked about a value in a state, whatever
it comes back with. -/
def Spares (predicate v : Value) (t : State) : Prop :=
  ∀ u, (r.call predicate (Node.quote (.ofList [v])) frame cfg t).EndsIn u → t.Undisturbed u

mutual

/-- **The predicates that a match asks leave alone what is in use**, each about the value and in the
state in which the match asks it. -/
def Discreet : Pattern → Option Value → State → Prop
  | .cons cars tail, target, s => DiscreetCars cars (fun rest t => tail.Discreet rest t) target s
  | .predicated base predicate, some v, s => base.Discreet (some v) s ∧
      ∀ t, base.matchWith r .inward frame (some v) cfg s = .ok true t →
        Spares r frame cfg predicate v t
  | .defaulted base fallback, some v, s => base.Discreet (some v) s ∧
      ∀ t, base.matchWith r .inward frame (some v) cfg s = .ok false t →
        base.Discreet (some fallback) t
  | .defaulted base fallback, none, s => base.Discreet (some fallback) s
  | .aliased first second, target, s => first.Discreet target s ∧
      ∀ t, first.matchWith r .inward frame target cfg s = .ok true t → second.Discreet target t
  | _, _, _ => True

/-- The same of cars, where `andThen` is asked of what is left. -/
def DiscreetCars : List Pattern → (Option Value → State → Prop) → Option Value → State → Prop
  | [], andThen, target, s => andThen target s
  | p :: ps, andThen, some (.pair car cdr), s => p.Discreet (some car) s ∧
      ∀ t, p.matchWith r .inward frame (some car) cfg s = .ok true t →
        DiscreetCars ps andThen (some cdr) t
  | p :: ps, andThen, some .nil, s => p.Discreet none s ∧
      ∀ t, p.matchWith r .inward frame none cfg s = .ok true t →
        DiscreetCars ps andThen (some .nil) t
  | p :: ps, andThen, none, s => p.Discreet none s ∧
      ∀ t, p.matchWith r .inward frame none cfg s = .ok true t → DiscreetCars ps andThen none t
  | _ :: _, _, some _, _ => True

end

mutual

/-- **A pattern whose predicates leave alone what is in use, whatever they are asked about**, asks
nothing else of them. -/
theorem discreet_of_spares : (p : Pattern) →
    (∀ base predicate, .predicated base predicate ∈ p.parts → ∀ v t,
      Spares r frame cfg predicate v t) →
    ∀ target s, p.Discreet r frame cfg target s
  | .identifier _, _ | .value _, _ | .defaultArguments, _ => fun target s => by
    simp [Discreet]
  | .cons cars tail, h => fun target s => by
    rw [Discreet]
    exact discreetCars_of_spares cars
      (fun base predicate hmem => h base predicate (by simp [parts, hmem]))
      (discreet_of_spares tail fun base predicate hmem => h base predicate (by simp [parts, hmem]))
      target s
  | .predicated base predicate, h => fun target s => by
    have hbase := discreet_of_spares base fun base predicate hmem =>
      h base predicate (by simp [parts, hmem])
    cases target with
    | none => simp [Discreet]
    | some v =>
      rw [Discreet]
      exact ⟨hbase _ _, fun t _ => h base predicate (by simp [parts]) v t⟩
  | .defaulted base fallback, h => fun target s => by
    have hbase := discreet_of_spares base fun base predicate hmem =>
      h base predicate (by simp [parts, hmem])
    cases target with
    | none =>
      rw [Discreet]
      exact hbase _ _
    | some v =>
      rw [Discreet]
      exact ⟨hbase _ _, fun t _ => hbase _ t⟩
  | .aliased first second, h => fun target s => by
    rw [Discreet]
    exact ⟨discreet_of_spares first (fun base predicate hmem =>
        h base predicate (by simp [parts, hmem])) _ _,
      fun t _ => discreet_of_spares second (fun base predicate hmem =>
        h base predicate (by simp [parts, hmem])) _ t⟩

theorem discreetCars_of_spares : (ps : List Pattern) →
    (∀ base predicate, .predicated base predicate ∈ partsAll ps → ∀ v t,
      Spares r frame cfg predicate v t) →
    {andThen : Option Value → State → Prop} → (∀ rest t, andThen rest t) →
    ∀ target s, DiscreetCars r frame cfg ps andThen target s
  | [], _, _, hthen => fun target s => by
    rw [DiscreetCars]
    exact hthen target s
  | p :: ps, h, _, hthen => fun target s => by
    have hfirst := discreet_of_spares p fun base predicate hmem =>
      h base predicate (by simp [partsAll, hmem])
    have hrest := discreetCars_of_spares ps (fun base predicate hmem =>
      h base predicate (by simp [partsAll, hmem])) hthen
    rcases target with _ | v
    · rw [DiscreetCars]
      exact ⟨hfirst _ _, fun t _ => hrest _ t⟩
    · cases v with
      | pair car cdr =>
        rw [DiscreetCars]
        exact ⟨hfirst _ _, fun t _ => hrest _ t⟩
      | nil =>
        rw [DiscreetCars]
        exact ⟨hfirst _ _, fun t _ => hrest _ t⟩
      | _ => simp [DiscreetCars]

end

end

section

variable {fuel : Nat} {frame : ScopeId} {cfg : Config} {s t : State}

theorem keeps_put (hs : s.arena.Tidy) (name : String) (v : Value) :
    Keeps cfg (s.UnderWay frame) t (Binding.inward.bind frame name v) := by
  rintro ⟨bs, ht⟩ u hend
  obtain rfl := hend.state_eq
  have hplace : Arena.Places .inward frame s.arena fun _ => frame := fun _ => rfl
  exact ⟨bs ++ [(name, v)], ht.put hs hplace name v⟩

theorem keeps_bindArguments (hs : s.arena.Tidy) (args : Value) :
    Keeps cfg (s.UnderWay frame) t (bindArguments .inward frame args) := by
  have hpositions : ∀ (vs : List Value) (n : Nat) {t : State},
      Keeps cfg (s.UnderWay frame) t (bindPositions .inward frame n vs) := by
    intro vs
    induction vs with
    | nil => exact fun n _ => .pure ()
    | cons v vs ih => exact fun n _ => (keeps_put hs _ v).bind fun _ _ _ => ih (n + 1)
  refine (hpositions _ 0).bind fun _ _ _ => ?_
  cases args.elements.1 with
  | nil => exact keeps_put hs "arguments" args
  | cons first rest =>
    exact (keeps_put hs "-" first).bind fun _ _ _ => keeps_put hs "arguments" args

theorem keeps_call {predicate v : Value} (h : Spares (.ofFuel fuel) frame cfg predicate v t) :
    Keeps cfg (s.UnderWay frame) t
      ((Evaluator.ofFuel fuel).call predicate (Node.quote (.ofList [v])) frame) := by
  rintro ⟨bs, ht⟩ u hend
  exact ⟨bs, ht.call hend (h u hend)⟩

mutual

/-- **A match into a frame stays under way**, up to whatever end it comes to. -/
theorem keeps_matchWith (hs : s.arena.Tidy) : (p : Pattern) → (target : Option Value) →
    {t : State} → p.Discreet (.ofFuel fuel) frame cfg target t →
      Keeps cfg (s.UnderWay frame) t (p.matchWith (.ofFuel fuel) .inward frame target)
  | .identifier name, target, _, _ => by
    rw [matchWith.eq_def]
    cases target with
    | none => exact .pure false
    | some v => exact (keeps_put hs name v).bind fun _ _ _ => .pure true
  | .value expected, target, _, _ => by
    rw [matchWith.eq_def]
    exact .pure _
  | .cons cars tail, target, _, h => by
    rw [Discreet] at h
    rw [matchWith.eq_def]
    exact keeps_matchCars hs cars target h fun rest => keeps_matchWith hs tail rest
  | .predicated base predicate, target, _, h => by
    rw [matchWith.eq_def]
    cases target with
    | none => exact .pure false
    | some v =>
      rw [Discreet] at h
      exact (keeps_matchWith hs base (some v) h.1).guarded fun t hbase =>
        (keeps_call (h.2 t hbase)).bind fun _ _ _ => .pure _
  | .defaulted base fallback, target, _, h => by
    rw [matchWith.eq_def]
    cases target with
    | none =>
      rw [Discreet] at h
      exact keeps_matchWith hs base (some fallback) h
    | some v =>
      rw [Discreet] at h
      -- what the first attempt has bound is still there when the second one begins
      refine (keeps_matchWith hs base (some v) h.1).bind fun accepted t hbase => ?_
      cases accepted with
      | true => exact .pure true
      | false => exact keeps_matchWith hs base (some fallback) (h.2 t hbase)
  | .aliased first second, target, _, h => by
    rw [Discreet] at h
    rw [matchWith.eq_def]
    exact (keeps_matchWith hs first target h.1).guarded fun t hfirst =>
      keeps_matchWith hs second target (h.2 t hfirst)
  | .defaultArguments, target, _, _ => by
    rw [matchWith.eq_def]
    exact (keeps_bindArguments hs _).bind fun _ _ _ => .pure true

theorem keeps_matchCars (hs : s.arena.Tidy) : (ps : List Pattern) → (target : Option Value) →
    {t : State} → {left : Option Value → State → Prop} → {andThen : Option Value → Eval Bool} →
      DiscreetCars (.ofFuel fuel) frame cfg ps left target t →
      (∀ rest {t : State}, left rest t → Keeps cfg (s.UnderWay frame) t (andThen rest)) →
      Keeps cfg (s.UnderWay frame) t (matchCars (.ofFuel fuel) .inward frame ps target andThen)
  | [], target, _, _, _, h, hthen => by
    rw [DiscreetCars] at h
    rw [matchCars]
    exact hthen target h
  | p :: ps, target, _, _, _, h, hthen => by
    rw [matchCars.eq_def]
    rcases target with _ | v
    · rw [DiscreetCars] at h
      exact (keeps_matchWith hs p none h.1).guarded fun t hfirst =>
        keeps_matchCars hs ps none (h.2 t hfirst) hthen
    · cases v with
      | pair car cdr =>
        rw [DiscreetCars] at h
        exact (keeps_matchWith hs p (some car) h.1).guarded fun t hfirst =>
          keeps_matchCars hs ps (some cdr) (h.2 t hfirst) hthen
      | nil =>
        rw [DiscreetCars] at h
        exact (keeps_matchWith hs p none h.1).guarded fun t hfirst =>
          keeps_matchCars hs ps (some .nil) (h.2 t hfirst) hthen
      | _ => exact .pure false

end

end

end Pattern

end Fexpr
