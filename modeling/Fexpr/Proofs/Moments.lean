import Fexpr.Program
import Fexpr.Proofs.Census
import Fexpr.Proofs.Combinators

/-!
# Proofs/Moments — breaking a run off where it is

An evaluation begins and ends, and so does a call: these are the moments of a run.
`Evaluator.until stop` is the evaluator that is broken off at the first moment that `stop` picks,
and a run of it ends in the state of that moment.  Letting `stop` vary visits every moment of a run;
picking none is the evaluator itself (`until_never`).

`Reachable` are the states a host can bring about, at the end of a run and in the middle of one.
-/

namespace Fexpr

namespace Eval

/-- Breaks off at a moment that `stop` picks. -/
def breakAt (stop : Moment → State → Bool) (m : Moment) : Eval Unit := fun _ s =>
  if stop m s then .stopped m s else .ok () s

/-- **A computation that may be broken off where it begins and where it ends.** -/
def pausing (stop : Moment → State → Bool) (m : Moment) (x : Eval Value) : Eval Value := do
  breakAt stop m
  match ← attempt x with
  | .ok v => do
    breakAt stop (.answering v)
    return v
  | .error e => do
    breakAt stop (.failing e)
    fail e

end Eval

/-- An end that may be broken off at the last moment. -/
def Outcome.checked (stop : Moment → State → Bool) :
    Outcome RunError Value → Outcome RunError Value
  | .ok v t => if stop (.answering v) t then .stopped (.answering v) t else .ok v t
  | .error e t => if stop (.failing e) t then .stopped (.failing e) t else .error e t
  | .stopped m t => .stopped m t

/-- What is not broken off at the last moment ended there. -/
theorem Outcome.eq_ok_of_checked {stop : Moment → State → Bool} {o : Outcome RunError Value}
    {v : Value} {t : State} (h : o.checked stop = .ok v t) :
    o = .ok v t ∧ ¬stop (.answering v) t := by
  cases o with
  | ok w u =>
    rw [checked] at h
    split at h
    · cases h
    · next hnot =>
      cases h
      exact ⟨rfl, hnot⟩
  | error e u =>
    rw [checked] at h
    split at h <;> cases h
  | stopped m u => cases h

theorem Eval.pausing_apply (stop : Moment → State → Bool) (m : Moment) (x : Eval Value)
    (cfg : Config) (s : State) :
    Eval.pausing stop m x cfg s =
      if stop m s then .stopped m s else (x cfg s).checked stop := by
  rw [Eval.pausing, Eval.bind_apply, Eval.breakAt]
  cases stop m s with
  | true => rfl
  | false =>
    simp only [Bool.false_eq_true, if_false]
    rw [Eval.bind_apply, Eval.attempt_apply]
    cases x cfg s with
    | ok v t =>
      simp only [Eval.bind_apply, Eval.breakAt, Outcome.checked]
      cases stop (.answering v) t <;> rfl
    | error e t =>
      simp only [Eval.bind_apply, Eval.breakAt, Outcome.checked]
      cases stop (.failing e) t <;> rfl
    | stopped m' t => rfl

theorem Eval.pausing_never (m : Moment) (x : Eval Value) :
    Eval.pausing (fun _ _ => false) m x = x := by
  funext cfg s
  rw [Eval.pausing_apply]
  cases x cfg s <;> rfl

/-- **The evaluator that is broken off** at the first moment that `stop` picks, or when evaluations
and calls nest deeper than the fuel. -/
def Evaluator.until (stop : Moment → State → Bool) : Nat → Evaluator
  | 0 =>
    { eval := fun node scope => Eval.stop (.evaluating node scope)
      call := fun callee arg scope => Eval.stop (.calling callee arg scope) }
  | n + 1 =>
    { eval := fun node scope =>
        Eval.pausing stop (.evaluating node scope)
          (Eval.deeper (evalNode (.until stop n) node scope))
      call := fun callee arg scope =>
        Eval.pausing stop (.calling callee arg scope) (callValue (.until stop n) callee arg scope) }

/-- **Broken off nowhere, a run is an ordinary run.** -/
theorem Evaluator.until_never (n : Nat) :
    Evaluator.until (fun _ _ => false) n = Evaluator.ofFuel n := by
  induction n with
  | zero => rfl
  | succ n ih => simp only [Evaluator.until, Evaluator.ofFuel, Eval.pausing_never, ih]

/-! ## The end of a run -/

namespace Outcome

variable {ε α : Type}

/-- The state in which a computation ended or was broken off. -/
def state : Outcome ε α → State
  | .ok _ s | .error _ s | .stopped _ s => s

/-- Whether a computation was broken off. -/
def isStopped : Outcome ε α → Bool
  | .stopped .. => true
  | _ => false

theorem exists_of_isStopped {o : Outcome ε α} (h : o.isStopped) : ∃ m t, o = .stopped m t := by
  cases o with
  | ok a t => cases h
  | error e t => cases h
  | stopped m t => exact ⟨m, t, rfl⟩

/-- Whether a computation returned something that passes a test. -/
def returns (test : α → Bool) : Outcome ε α → Bool
  | .ok a _ => test a
  | _ => false

/-- Whether a computation was broken off where a test passes. -/
def breaksAt (test : Moment → State → Bool) : Outcome ε α → Bool
  | .stopped m s => test m s
  | _ => false

theorem exists_of_returns (test : α → Bool) {o : Outcome ε α} (h : o.returns test) :
    ∃ a t, o = .ok a t ∧ test a := by
  cases o with
  | ok a t => exact ⟨a, t, rfl, h⟩
  | error e t => cases h
  | stopped m t => cases h

theorem exists_of_breaksAt (test : Moment → State → Bool) {o : Outcome ε α} (h : o.breaksAt test) :
    ∃ m t, o = .stopped m t ∧ test m t := by
  cases o with
  | ok a t => cases h
  | error e t => cases h
  | stopped m t => exact ⟨m, t, rfl, h⟩

/-- **A computation returns or fails in a state.** -/
def EndsIn (o : Outcome ε α) (t : State) : Prop :=
  (∃ a, o = .ok a t) ∨ ∃ e, o = .error e t

theorem endsIn_state {o : Outcome ε α} (h : o.isStopped = false) : o.EndsIn o.state := by
  cases o with
  | ok a t => exact Or.inl ⟨a, rfl⟩
  | error e t => exact Or.inr ⟨e, rfl⟩
  | stopped m t => cases h

theorem EndsIn.not_isStopped {o : Outcome ε α} {t : State} (h : o.EndsIn t) : ¬o.isStopped := by
  rcases h with ⟨a, rfl⟩ | ⟨e, rfl⟩
  · exact Bool.false_ne_true
  · exact Bool.false_ne_true

theorem EndsIn.state_eq {o : Outcome ε α} {t : State} (h : o.EndsIn t) : o.state = t := by
  rcases h with ⟨a, rfl⟩ | ⟨e, rfl⟩
  · rfl
  · rfl

end Outcome

/-! ## One run before another -/

namespace Outcome

variable {ε ε' α β : Type} {L : Moment → State → State → Prop} {early late : Moment → State → Bool}

/-- **A run that is broken off comes before one that goes on**: the moment at which it is broken off
has `L` to the state that the other one gets to. -/
def Precedes (L : Moment → State → State → Prop) (o o' : Outcome ε α) : Prop :=
  o = o' ∨ ∃ m t, o = .stopped m t ∧ L m t o'.state

/-- What goes on after two runs, but not after one that was broken off. -/
theorem Precedes.through {o o' : Outcome ε α} {p p' : Outcome ε' β} (h : o.Precedes L o')
    (hsame : o = o' → p = p') (hstop : ∀ m t, o = .stopped m t → p = .stopped m t)
    (hlater : ∀ m t, L m t o'.state → L m t p'.state) : p.Precedes L p' := by
  rcases h with heq | ⟨m, t, ho, ht⟩
  · exact Or.inl (hsame heq)
  · exact Or.inr ⟨m, t, hstop m t ho, hlater m t ht⟩

theorem Precedes.bind {x y : Eval α} {f g : α → Eval β} {cfg : Config} {s : State}
    (h : (x cfg s).Precedes L (y cfg s))
    (hnext : ∀ a t, y cfg s = .ok a t → (f a cfg t).Precedes L (g a cfg t) ∧
      ∀ m u, L m u t → L m u (g a cfg t).state) :
    ((x >>= f) cfg s).Precedes L ((y >>= g) cfg s) := by
  have hstop : ∀ m t, x cfg s = .stopped m t → (x >>= f) cfg s = .stopped m t := fun m t hx => by
    rw [Eval.bind_apply, hx]
  rw [Eval.bind_apply y]
  cases hy : y cfg s with
  | ok a t =>
    obtain ⟨hprec, hlater⟩ := hnext a t hy
    rw [hy] at h
    rcases h with hx | ⟨m, u, hx, hu⟩
    · rw [Eval.bind_apply, hx]
      exact hprec
    · exact Or.inr ⟨m, u, hstop m u hx, hlater m u hu⟩
  | error e t | stopped m t =>
    rw [hy] at h
    exact h.through (fun hx => by rw [Eval.bind_apply, hx]) hstop fun _ _ => id

theorem Precedes.attempt {x y : Eval α} {cfg : Config} {s : State}
    (h : (x cfg s).Precedes L (y cfg s)) :
    (Eval.attempt x cfg s).Precedes L (Eval.attempt y cfg s) := by
  refine h.through (fun hx => ?_) (fun m t hx => ?_) fun m t ht => ?_
  · rw [Eval.attempt_apply, Eval.attempt_apply, hx]
  · rw [Eval.attempt_apply, hx]
  · rw [Eval.attempt_apply]
    cases hy : y cfg s <;> rwa [hy] at ht

/-- A frame is dropped where the later run gets to. -/
theorem Precedes.withFrame {parent : ScopeId} {x y : ScopeId → Eval α} {cfg : Config} {s : State}
    (hclose : ∀ m t (u : State) frame, L m t u →
      L m t { u with arena := u.arena.release frame })
    (h : (x (s.arena.child parent).1 cfg
      { s with arena := (s.arena.child parent).2 }).Precedes L
        (y (s.arena.child parent).1 cfg { s with arena := (s.arena.child parent).2 })) :
    (Eval.withFrame parent x cfg s).Precedes L (Eval.withFrame parent y cfg s) := by
  refine h.through (fun hx => ?_) (fun m t hx => ?_) fun m t ht => ?_
  · rw [Eval.withFrame_apply, Eval.withFrame_apply, hx]
  · rw [Eval.withFrame_apply, hx]
  · rw [Eval.withFrame_apply]
    cases hy : y (s.arena.child parent).1 cfg { s with arena := (s.arena.child parent).2 } with
    | ok a u | error e u =>
      rw [hy] at ht
      exact hclose m t u _ ht
    | stopped m' u => rwa [hy] at ht

/-- A level is left where the later run gets to. -/
theorem Precedes.deeper {x y : Eval α} {cfg : Config} {s : State}
    (hup : ∀ m t (u : State), L m t u → L m t { u with depth := u.depth - 1 })
    (h : (x cfg { s with depth := s.depth + 1 }).Precedes L
      (y cfg { s with depth := s.depth + 1 })) :
    (Eval.deeper x cfg s).Precedes L (Eval.deeper y cfg s) := by
  rw [Eval.deeper, Eval.deeper]
  split
  · exact Or.inl rfl
  · refine h.through (fun hx => ?_) (fun m t hx => ?_) fun m t ht => ?_
    · rw [hx]
    · rw [hx]
    · cases hy : y cfg { s with depth := s.depth + 1 } with
      | ok a u | error e u =>
        rw [hy] at ht
        exact hup m t u ht
      | stopped m' u => rwa [hy] at ht

theorem Precedes.ofEval {x y : Eval α} {cfg : Config} {s : State}
    (h : (x cfg s).Precedes L (y cfg s)) :
    (Run.ofEval x cfg s).Precedes L (Run.ofEval y cfg s) := by
  refine h.through (fun hx => ?_) (fun m t hx => ?_) fun m t ht => ?_
  · rw [Run.ofEval, Run.ofEval, hx]
  · rw [Run.ofEval, hx]
  · rw [Run.ofEval]
    cases hy : y cfg s <;> rwa [hy] at ht

theorem state_checked (stop : Moment → State → Bool) (o : Outcome RunError Value) :
    (o.checked stop).state = o.state := by
  cases o with
  | ok v t | error e t =>
    rw [checked]
    split <;> rfl
  | stopped m t => rfl

/-- A run that is broken off where it ends comes before one that is not. -/
theorem Precedes.checked (hle : ∀ m t, late m t → early m t)
    (hnow : ∀ m t, early m t → ¬late m t → L m t t) {o o' : Outcome RunError Value}
    (h : o.Precedes L o') : (o.checked early).Precedes L (o'.checked late) := by
  rcases h with rfl | ⟨m, t, rfl, ht⟩
  · -- at the same end one is broken off and the other is not, or both go the same way
    have hend : ∀ m t, o.state = t → (if early m t then .stopped m t else o).Precedes L
        (if late m t then .stopped m t else o) := by
      rintro m t rfl
      by_cases hlate : late m o.state
      · rw [if_pos hlate, if_pos (hle m _ hlate)]
        exact Or.inl rfl
      · by_cases hearly : early m o.state
        · rw [if_pos hearly, if_neg hlate]
          exact Or.inr ⟨m, _, rfl, hnow m _ hearly hlate⟩
        · rw [if_neg hearly, if_neg hlate]
          exact Or.inl rfl
    cases o with
    | ok v t => exact hend (.answering v) t rfl
    | error e t => exact hend (.failing e) t rfl
    | stopped m t => exact Or.inl rfl
  · exact Or.inr ⟨m, t, rfl, by rwa [state_checked]⟩

/-- A run that may be broken off where it begins comes before one that may not. -/
theorem Precedes.pausing (hle : ∀ m t, late m t → early m t)
    (hnow : ∀ m t, early m t → ¬late m t → L m t t) {x y : Eval Value} {m : Moment} {cfg : Config}
    {s : State} (h : (x cfg s).Precedes L (y cfg s))
    (hbegin : early m s → ¬late m s → L m s (y cfg s).state) :
    (Eval.pausing early m x cfg s).Precedes L (Eval.pausing late m y cfg s) := by
  rw [Eval.pausing_apply, Eval.pausing_apply]
  by_cases hlate : late m s
  · rw [if_pos hlate, if_pos (hle m s hlate)]
    exact Or.inl rfl
  · by_cases hearly : early m s
    · rw [if_pos hearly, if_neg hlate]
      refine Or.inr ⟨m, s, rfl, ?_⟩
      rw [state_checked]
      exact hbegin hearly hlate
    · rw [if_neg hearly, if_neg hlate]
      exact h.checked hle hnow

end Outcome

/-- How a program runs: it is read, and if that succeeds its forms run. -/
theorem Program.runUnder_apply (r : Evaluator) (code : String) (scope : ScopeId) (cfg : Config)
    (s : State) :
    runUnder r code scope cfg s =
      match read code with
      | .error e => .error (.unreadable e) s
      | .ok forms =>
        match runForms r forms scope cfg s with
        | .ok v t => .ok v t
        | .error e t => .error (.failed e) t
        | .stopped m t => .stopped m t := by
  change Run.bind (Run.ofReading (read code)) (fun forms => Run.ofEval (runForms r forms scope))
    cfg s = _
  cases read code with
  | error e => rfl
  | ok forms =>
    change Run.ofEval (runForms r forms scope) cfg s = _
    simp only [Run.ofEval]
    cases runForms r forms scope cfg s <;> rfl

/-! ## What a host asks for -/

/-- **What a host has done**, by some evaluator and from some state. -/
inductive Task where
  | run (code : String) (scope : ScopeId)
  | eval (node : Node) (scope : ScopeId)
  | call (callee : Value) (arg : Node) (scope : ScopeId)
  | force (id : PromiseId)

/-- The task, as the evaluator `r` does it. -/
def Task.under (r : Evaluator) : Task → Run Value
  | .run code scope => Program.runUnder r code scope
  | .eval node scope => Run.ofEval (r.eval node scope)
  | .call callee arg scope => Run.ofEval (r.call callee arg scope)
  | .force id => Run.ofEval (Promise.force r id)

/-! ## States -/

/-- What holds of an empty arena and goes on to hold as primitives and constants are bound in its
outermost frame holds of the initial arena. -/
theorem State.arena_initial_of {P : Arena → Prop} (hfresh : P .fresh)
    (hset : ∀ a name v, (∀ N, v.Within N) → P a → P (a.set Arena.root name v)) :
    P State.initial.arena := by
  have hfold : ∀ (bs : List (String × Value)) (a : Arena), (∀ b ∈ bs, ∀ N, b.2.Within N) → P a →
      P (bs.foldl (fun a b => a.set Arena.root b.1 b.2) a) := by
    intro bs
    induction bs with
    | nil => exact fun _ _ ha => ha
    | cons b bs ih =>
      intro a hbs ha
      obtain ⟨hb, hbs⟩ := List.forall_mem_cons.mp hbs
      exact ih _ hbs (hset a b.1 b.2 hb ha)
  refine hfold (Builtin.globals.map (fun b => (b.1, Value.builtin b.2)) ++
    [("nil", .nil), ("void", .void), ("true", .bool true), ("false", .bool false)]) .fresh
    (fun b hb N => ?_) hfresh
  rcases List.mem_append.mp hb with hb | hb
  · obtain ⟨⟨name, builtin⟩, -, rfl⟩ := List.mem_map.mp hb
    exact trivial
  · simp only [List.mem_cons, List.not_mem_nil, or_false] at hb
    rcases hb with rfl | rfl | rfl | rfl
    all_goals exact trivial

/-- **The states a host can bring about**: from a fresh state, by running programs, by evaluating
and calling, each to its end or up to some moment, and by working on the arena and the store
itself. -/
inductive Reachable : State → Prop
  | initial : Reachable .initial
  | run {s : State} (stop : Moment → State → Bool) (fuel : Nat) (code : String) (scope : ScopeId)
      (cfg : Config) : Reachable s →
      Reachable (Program.runUnder (.until stop fuel) code scope cfg s).state
  | eval {s : State} (stop : Moment → State → Bool) (fuel : Nat) (node : Node) (scope : ScopeId)
      (cfg : Config) : Reachable s →
      Reachable ((Evaluator.until stop fuel).eval node scope cfg s).state
  | call {s : State} (stop : Moment → State → Bool) (fuel : Nat) (callee : Value) (arg : Node)
      (scope : ScopeId) (cfg : Config) : Reachable s →
      Reachable ((Evaluator.until stop fuel).call callee arg scope cfg s).state
  | child {s : State} (parent : ScopeId) : Reachable s →
      Reachable { s with arena := (s.arena.child parent).2 }
  | set {s : State} (u : ScopeId) (name : String) (v : Value) : Reachable s →
      Reachable { s with arena := s.arena.set u name v }
  | setOutward {s : State} (u : ScopeId) (name : String) (v : Value) : Reachable s →
      Reachable { s with arena := (s.arena.setOutward u name v).2 }
  | capture {s : State} (u : ScopeId) : Reachable s →
      Reachable { s with arena := s.arena.capture u }
  | release {s : State} (u : ScopeId) : Reachable s →
      Reachable { s with arena := s.arena.release u }
  | store {s : State} (store : Store) : Reachable s → Reachable { s with store }

end Fexpr
