import Fexpr.Proofs.Equality
import Fexpr.Proofs.Matching.Derivation

/-!
# Proofs/Matching/Arity — how long a list a list pattern accepts

`[p1 ... pn]` accepts proper lists of at most `n` elements and nothing else: its patterns accept the
elements in turn, and those that have none accept that theirs is missing (`list_arity`).

Only a pattern that carries a default accepts a missing target (`carriesDefault_of_missing`), so
without defaults the length is exact.
-/

namespace Fexpr

namespace Pattern

section Acceptance

variable (r : Evaluator) (binding : Binding) (scope : ScopeId) (cfg : Config)

/-- **The pattern accepts the target** in one state, and leaves another. -/
def Accepts (p : Pattern) (target : Option Value) (s t : State) : Prop :=
  p.matchWith r binding scope target cfg s = .ok true t

/-- **Patterns accept targets in turn**: each its own, in the state that the one before it has
left. -/
inductive AcceptInTurn : List Pattern → List (Option Value) → State → State → Prop
  | nil {s : State} : AcceptInTurn [] [] s s
  | cons {p : Pattern} {ps : List Pattern} {target : Option Value} {targets : List (Option Value)}
      {s t u : State} : p.Accepts r binding scope cfg target s t → AcceptInTurn ps targets t u →
      AcceptInTurn (p :: ps) (target :: targets) s u

end Acceptance

variable {r : Evaluator} {binding : Binding} {scope : ScopeId} {cfg : Config} {s t : State}
  {p : Pattern} {ps : List Pattern} {target : Option Value} {vs : List Value}

theorem acceptInTurn_cons_iff {targets : List (Option Value)} :
    AcceptInTurn r binding scope cfg (p :: ps) (target :: targets) s t ↔
      ∃ u, p.Accepts r binding scope cfg target s u ∧
        AcceptInTurn r binding scope cfg ps targets u t := by
  constructor
  · rintro (_ | ⟨hp, hps⟩)
    exact ⟨_, hp, hps⟩
  · rintro ⟨u, hp, hps⟩
    exact .cons hp hps

/-- **A match that goes on only if another has accepted** accepts if both do. -/
theorem guarded_eq_ok_iff {x y : Eval Bool} :
    (do if ← x then y else return false) cfg s = .ok true t ↔
      ∃ u, x cfg s = .ok true u ∧ y cfg u = .ok true t := by
  constructor
  · intro h
    obtain ⟨accepted, u, hx, h⟩ := Eval.bind_eq_ok h
    cases accepted with
    | true => exact ⟨u, hx, h⟩
    | false => cases h
  · rintro ⟨u, hx, hy⟩
    rw [Eval.bind_apply, hx]
    exact hy

/-! ## Missing targets -/

/-- A pattern that has something to match in place of a missing target. -/
def IsDefault : Pattern → Prop
  | .defaulted .. | .defaultArguments => True
  | _ => False

/-- **A default is somewhere in the pattern.** -/
def CarriesDefault (p : Pattern) : Prop :=
  ∃ q ∈ p.parts, q.IsDefault

mutual

/-- **Only a pattern that carries a default accepts a missing target.** -/
theorem carriesDefault_of_missing : (p : Pattern) → (s t : State) →
    p.Accepts r binding scope cfg none s t → p.CarriesDefault
  | .identifier _, _, _, h | .value _, _, _, h | .predicated _ _, _, _, h => by
    rw [Accepts, matchWith] at h
    cases h
  | .cons cars tail, s, t, h => by
    rw [Accepts, matchWith_cons] at h
    rcases default_or_rest_of_missing cars s t h with ⟨q, hq, hdefault⟩ | htail
    · exact ⟨q, List.mem_cons_of_mem _ (List.mem_append_left _ hq), hdefault⟩
    · obtain ⟨q, hq, hdefault⟩ := carriesDefault_of_missing tail s t htail
      exact ⟨q, List.mem_cons_of_mem _ (List.mem_append_right _ hq), hdefault⟩
  | .aliased first second, s, t, h => by
    rw [Accepts, matchWith] at h
    obtain ⟨u, hfirst, -⟩ := guarded_eq_ok_iff.mp h
    obtain ⟨q, hq, hdefault⟩ := carriesDefault_of_missing first s u hfirst
    exact ⟨q, List.mem_cons_of_mem _ (List.mem_append_left _ hq), hdefault⟩
  | .defaulted base fallback, _, _, _ => ⟨.defaulted base fallback, List.mem_cons_self, trivial⟩
  | .defaultArguments, _, _, _ => ⟨.defaultArguments, List.mem_cons_self, trivial⟩

/-- A missing chain has missing cars, or is the missing rest of no cars at all. -/
theorem default_or_rest_of_missing {andThen : Option Value → Eval Bool} : (ps : List Pattern) →
    (s t : State) → matchCars r binding scope ps none andThen cfg s = .ok true t →
    (∃ q ∈ partsAll ps, q.IsDefault) ∨ andThen none cfg s = .ok true t
  | [], s, t, h => by
    rw [matchCars_nil] at h
    exact .inr h
  | p :: ps, s, t, h => by
    rw [matchCars_cons, matchCell] at h
    obtain ⟨u, hp, -⟩ := guarded_eq_ok_iff.mp h
    obtain ⟨q, hq, hdefault⟩ := carriesDefault_of_missing p s u hp
    exact .inl ⟨q, List.mem_append_left _ hq, hdefault⟩

end

/-! ## Cells -/

/-- **How a target is taken apart** into a car and a cdr, either of which may be missing. -/
inductive Cell : Option Value → Option Value → Option Value → Prop
  | pair (first rest : Value) : Cell (some (.pair first rest)) (some first) (some rest)
  | exhausted : Cell (some .nil) none (some .nil)
  | missing : Cell none none none

/-- **A cell is accepted** if its car and then its cdr are. -/
theorem matchCell_eq_ok_iff {car cdr : Option Value → Eval Bool} :
    matchCell car cdr target cfg s = .ok true t ↔
      ∃ first rest u, Cell target first rest ∧ car first cfg s = .ok true u ∧
        cdr rest cfg u = .ok true t := by
  constructor
  · intro h
    rcases target with _ | v
    · obtain ⟨u, hcar, hcdr⟩ := guarded_eq_ok_iff.mp h
      exact ⟨none, none, u, .missing, hcar, hcdr⟩
    cases v with
    | pair first rest =>
      obtain ⟨u, hcar, hcdr⟩ := guarded_eq_ok_iff.mp h
      exact ⟨some first, some rest, u, .pair first rest, hcar, hcdr⟩
    | nil =>
      obtain ⟨u, hcar, hcdr⟩ := guarded_eq_ok_iff.mp h
      exact ⟨none, some .nil, u, .exhausted, hcar, hcdr⟩
    | _ => cases h
  · rintro ⟨first, rest, u, hcell, hcar, hcdr⟩
    cases hcell <;> exact guarded_eq_ok_iff.mpr ⟨u, hcar, hcdr⟩

/-! ## Lists -/

/-- **What `n` patterns find in a list**: its elements, and missing ones behind them. -/
def targetsOf (n : Nat) (vs : List Value) : List (Option Value) :=
  vs.map some ++ List.replicate (n - vs.length) none

theorem targetsOf_nil (n : Nat) : targetsOf (n + 1) [] = none :: targetsOf n [] := rfl

theorem targetsOf_cons (n : Nat) (v : Value) (vs : List Value) :
    targetsOf (n + 1) (v :: vs) = some v :: targetsOf n vs := by
  rw [targetsOf, List.length_cons, Nat.add_sub_add_right]
  rfl

theorem ofList_injective : Function.Injective Value.ofList := fun vs ws h => by
  simpa [Value.elements_ofList] using congrArg Value.elements h

/-- **Cars with nothing behind them** are those of a proper list, which is no longer than their
patterns are many. -/
theorem matchCars_eq_ok_iff :
    matchCars r binding scope ps target ((Pattern.value .nil).matchWith r binding scope) cfg s =
        .ok true t ↔
      ∃ vs, target = some (.ofList vs) ∧ vs.length ≤ ps.length ∧
        AcceptInTurn r binding scope cfg ps (targetsOf ps.length vs) s t := by
  induction ps generalizing target s with
  | nil =>
    rw [matchCars_nil, matchWith]
    constructor
    · intro h
      obtain ⟨hnil, rfl⟩ := Outcome.ok.inj h
      exact ⟨[], Value.eq_some_of_any hnil trivial, Nat.le_refl 0, .nil⟩
    · rintro ⟨vs, rfl, hlength, haccept⟩
      obtain rfl := List.eq_nil_of_length_eq_zero (Nat.le_zero.mp hlength)
      cases haccept
      rfl
  | cons p ps ih =>
    rw [matchCars_cons, matchCell_eq_ok_iff]
    constructor
    · rintro ⟨first, rest, u, hcell, hp, hps⟩
      obtain ⟨vs, hvs, hlength, haccept⟩ := ih.mp hps
      cases hcell with
      | pair first rest =>
        obtain rfl := Option.some.inj hvs
        refine ⟨first :: vs, rfl, Nat.succ_le_succ hlength, ?_⟩
        rw [List.length_cons, targetsOf_cons]
        exact .cons hp haccept
      | exhausted =>
        cases vs with
        | nil => exact ⟨[], rfl, Nat.zero_le _, .cons hp haccept⟩
        | cons => cases hvs
      | missing => cases hvs
    · rintro ⟨vs, rfl, hlength, haccept⟩
      cases vs with
      | nil =>
        rw [List.length_cons, targetsOf_nil, acceptInTurn_cons_iff] at haccept
        obtain ⟨u, hp, hps⟩ := haccept
        exact ⟨none, some .nil, u, .exhausted, hp, ih.mpr ⟨[], rfl, Nat.zero_le _, hps⟩⟩
      | cons v vs =>
        rw [List.length_cons, targetsOf_cons, acceptInTurn_cons_iff] at haccept
        obtain ⟨u, hp, hps⟩ := haccept
        exact ⟨some v, some (.ofList vs), u, .pair v _, hp,
          ih.mpr ⟨vs, rfl, Nat.le_of_succ_le_succ hlength, hps⟩⟩

theorem accepts_iff : (Pattern.cons ps (.value .nil)).Accepts r binding scope cfg target s t ↔
    ∃ vs, target = some (.ofList vs) ∧ vs.length ≤ ps.length ∧
      AcceptInTurn r binding scope cfg ps (targetsOf ps.length vs) s t := by
  rw [Accepts, matchWith_cons, matchCars_eq_ok_iff]

/-- Patterns that have no element left carry defaults. -/
theorem AcceptInTurn.carriesDefault
    (h : AcceptInTurn r binding scope cfg ps (targetsOf ps.length vs) s t) :
    ∀ p ∈ ps.drop vs.length, p.CarriesDefault := by
  induction ps generalizing vs s with
  | nil => simp
  | cons p ps ih =>
    cases vs with
    | nil =>
      rw [List.length_cons, targetsOf_nil, acceptInTurn_cons_iff] at h
      obtain ⟨u, hp, hps⟩ := h
      exact List.forall_mem_cons.mpr ⟨carriesDefault_of_missing p s u hp, ih hps⟩
    | cons v vs =>
      rw [List.length_cons, targetsOf_cons, acceptInTurn_cons_iff] at h
      obtain ⟨u, -, hps⟩ := h
      exact ih hps

/-- **List patterns have exact arity.**  A list pattern of `n` elements accepts a proper list if that
has at most `n` elements and the patterns accept these in turn, and missing ones behind them; it
accepts nothing else, be it an improper list, no list at all, or missing.  Where an element is
missing its pattern carries a default, so if none does, the list has exactly `n` elements. -/
theorem list_arity (r : Evaluator) (binding : Binding) (scope : ScopeId) (cfg : Config)
    (ps : List Pattern) :
    (∀ (vs : List Value) (s t : State),
      (Pattern.cons ps (.value .nil)).Accepts r binding scope cfg (some (.ofList vs)) s t ↔
        vs.length ≤ ps.length ∧
          AcceptInTurn r binding scope cfg ps (targetsOf ps.length vs) s t) ∧
    (∀ target : Option Value, (∀ vs, target ≠ some (.ofList vs)) → ∀ s t,
      ¬(Pattern.cons ps (.value .nil)).Accepts r binding scope cfg target s t) ∧
    (∀ (vs : List Value) (s t : State),
      (Pattern.cons ps (.value .nil)).Accepts r binding scope cfg (some (.ofList vs)) s t →
        ∀ p ∈ ps.drop vs.length, p.CarriesDefault) ∧
    ((∀ p ∈ ps, ¬p.CarriesDefault) → ∀ (target : Option Value) (s t : State),
      (Pattern.cons ps (.value .nil)).Accepts r binding scope cfg target s t →
        ∃ vs, target = some (.ofList vs) ∧ vs.length = ps.length) := by
  have hlist : ∀ (vs : List Value) (s t : State),
      (Pattern.cons ps (.value .nil)).Accepts r binding scope cfg (some (.ofList vs)) s t ↔
        vs.length ≤ ps.length ∧
          AcceptInTurn r binding scope cfg ps (targetsOf ps.length vs) s t := by
    intro vs s t
    rw [accepts_iff]
    refine ⟨fun ⟨ws, hws, h⟩ => ?_, fun h => ⟨vs, rfl, h⟩⟩
    obtain rfl := ofList_injective (Option.some.inj hws)
    exact h
  refine ⟨hlist, fun target htarget s t h => ?_, fun vs s t h => ?_, fun hps target s t h => ?_⟩
  · obtain ⟨vs, hvs, -⟩ := accepts_iff.mp h
    exact htarget vs hvs
  · exact ((hlist vs s t).mp h).2.carriesDefault
  · obtain ⟨vs, hvs, hlength, haccept⟩ := accepts_iff.mp h
    refine ⟨vs, hvs, Nat.le_antisymm hlength (Nat.le_of_not_lt fun hlt => ?_)⟩
    -- a pattern without an element would carry a default
    have hmem := List.getElem_mem (List.length_drop ▸ Nat.sub_pos_of_lt hlt)
    exact hps _ (List.mem_of_mem_drop hmem) (haccept.carriesDefault _ hmem)

/-- `[x y = 2]` accepts a list of one, and `[x y]` lists of two only. -/
theorem two_names_arity :
    let x := Pattern.identifier "x"
    let y := Pattern.identifier "y"
    (∃ t, (Pattern.cons [x, .defaulted y (.integer 2)] (.value .nil)).Accepts (.ofFuel 0) .inward
      Arena.root {} (some (.ofList [.integer 1])) .initial t) ∧
    (∀ p ∈ [x, y], ¬p.CarriesDefault) ∧
    ∀ (target : Option Value) (s t : State),
      (Pattern.cons [x, y] (.value .nil)).Accepts (.ofFuel 0) .inward Arena.root {} target s t →
        ∃ vs, target = some (.ofList vs) ∧ vs.length = 2 := by
  intro x y
  have hnames : ∀ p ∈ [x, y], ¬p.CarriesDefault := by
    simp [x, y, CarriesDefault, parts, IsDefault]
  obtain ⟨s, hx⟩ : ∃ s, x.Accepts (.ofFuel 0) .inward Arena.root {} (some (.integer 1)) .initial s :=
    ⟨_, by rw [Accepts, matchWith]; rfl⟩
  obtain ⟨t, hy⟩ : ∃ t, (Pattern.defaulted y (.integer 2)).Accepts (.ofFuel 0) .inward Arena.root {}
      none s t := ⟨_, by rw [Accepts, matchWith, matchWith]; rfl⟩
  obtain ⟨haccepts, -, -, -⟩ :=
    list_arity (.ofFuel 0) .inward Arena.root {} [x, .defaulted y (.integer 2)]
  obtain ⟨-, -, -, hexact⟩ := list_arity (.ofFuel 0) .inward Arena.root {} [x, y]
  exact ⟨⟨t, (haccepts [.integer 1] .initial t).mpr ⟨by decide, .cons hx (.cons hy .nil)⟩⟩, hnames,
    hexact hnames⟩

end Pattern

end Fexpr
