import Fexpr.Proofs.Calling.Currying
import Fexpr.Proofs.Nearness.Sinking

/-!
# Proofs/Calling/Requoting — values that are evaluated again

    (quote v … v | w)  ──▸  v … v | w            (quote v … v) before node  ──▸  v … v | eval node

Whoever hands evaluated arguments on puts them back into an argument list, which the callee evaluates
once more.  That changes nothing: a list that was put back evaluates to what it was made of, without
an effect, and behind a list whatever follows is evaluated once and in its own right
(`requoted_evaluates`).

What follows a list is evaluated one level further down than it is by itself, unless it is a spine of
its own.  That it does the same there is `StaysBelowLimit.eval_sunk`.
-/

namespace Fexpr

variable {r : Evaluator} {scope : ScopeId} {cfg : Config} {s : State}

theorem State.sunk_one (s : State) : s.sunk 1 = { s with depth := s.depth + 1 } := by
  rw [State.sunk, Nat.add_comm]

namespace Eval

variable {α β : Type}

/-- **Below the limit** a level is entered one level further down, and left again. -/
theorem deeper_eq_sunk {x : Eval α} (h : s.depth < cfg.maxDepth) :
    deeper x cfg s =
      match x cfg (s.sunk 1) with
      | .ok a t => .ok a { t with depth := t.depth - 1 }
      | .error e t => .error e { t with depth := t.depth - 1 }
      | .stopped m t => .stopped m t := by
  rw [State.sunk_one]
  exact deeper_of_lt h

/-- What becomes of a result does not matter to the level it is found at. -/
theorem deeper_map (f : α → β) (x : Eval α) : deeper (f <$> x) = f <$> deeper x := by
  funext cfg s
  rw [map_eq_pure_bind, map_eq_pure_bind, bind_apply, deeper, deeper]
  split
  · rfl
  · rw [bind_apply]
    cases x cfg { s with depth := s.depth + 1 } <;> rfl

/-- **One level deeper the same happens**, where it does so one level further down. -/
theorem deeper_of_sunk {x : Eval α} (h : s.depth < cfg.maxDepth)
    (hx : x cfg (s.sunk 1) = (x cfg s).sunk 1) :
    deeper x cfg s = x cfg s ∨ (deeper x cfg s).isStopped ∧ (x cfg s).isStopped := by
  rw [deeper_eq_sunk h, hx]
  cases x cfg s with
  | ok a t | error e t =>
    refine .inl ?_
    simp only [Outcome.sunk, State.sunk, Nat.add_sub_cancel_left]
  | stopped m t => exact .inr ⟨rfl, rfl⟩

end Eval

/-! ## Below the limit -/

/-- An evaluation may be broken off where it hands its error back. -/
theorem until_eval_apply (n : Nat) (node : Node) :
    (Evaluator.until atLimit (n + 1)).eval node scope cfg s =
      (Eval.deeper (evalNode (.until atLimit n) node scope) cfg s).checked atLimit :=
  Eval.pausing_apply atLimit (.evaluating node scope) _ cfg s

namespace StaysBelowLimit

variable {α β : Type} {node : Node}

theorem of_bind {x : Evaluator → Eval α} {f : Evaluator → α → Eval β}
    (h : StaysBelowLimit (fun r => x r >>= f r) cfg s) : StaysBelowLimit x cfg s := by
  intro n m t hx
  refine h n m t ?_
  change (x (.until atLimit n) >>= f (.until atLimit n)) cfg s = _
  rw [Eval.bind_apply, hx]

/-- **An evaluation that stays below the limit** finds room for a level, and stays below it there. -/
theorem inside (h : StaysBelowLimit (fun r => r.eval node scope) cfg s) :
    s.depth < cfg.maxDepth ∧ StaysBelowLimit (fun r => evalNode r node scope) cfg (s.sunk 1) := by
  have hdepth : s.depth < cfg.maxDepth := by
    refine Nat.lt_of_not_le fun hle => ?_
    refine h 1 (.failing (.recursionLimit cfg.maxDepth)) s ?_ rfl
    change (Evaluator.until atLimit 1).eval node scope cfg s = _
    rw [until_eval_apply, Eval.deeper_of_le hle]
    rfl
  refine ⟨hdepth, fun n m t hn => h (n + 1) m t ?_⟩
  change (Evaluator.until atLimit (n + 1)).eval node scope cfg s = _
  rw [until_eval_apply, Eval.deeper_eq_sunk hdepth]
  change evalNode (.until atLimit n) node scope cfg (s.sunk 1) = _ at hn
  rw [hn]
  rfl

end StaysBelowLimit

/-! ## Values in front of a spine -/

/-- **What has its value at once** with whatever evaluator has it with this one, from the state
`s`. -/
def Evaluator.Immediate (r : Evaluator) (scope : ScopeId) (cfg : Config) (s : State) : Prop :=
  ∀ node v, (∀ r' t, evalNode r' node scope cfg t = .ok v t) → r.eval node scope cfg s = .ok v s

theorem immediate_ofFuel (h : s.depth < cfg.maxDepth) (n : Nat) :
    (Evaluator.ofFuel (n + 1)).Immediate scope cfg s := fun node _ hnode =>
  Eval.deeper_eq_ok (x := evalNode (.ofFuel n) node scope) h fun t _ => hnode _ t

theorem immediate_until (h : s.depth < cfg.maxDepth) (n : Nat) :
    (Evaluator.until atLimit (n + 1)).Immediate scope cfg s := fun node v hnode => by
  have hdeeper : Eval.deeper (evalNode (.until atLimit n) node scope) cfg s = .ok v s :=
    Eval.deeper_eq_ok h fun t _ => hnode _ t
  rw [until_eval_apply, hdeeper]
  rfl

theorem Evaluator.Immediate.quoted (hr : r.Immediate scope cfg s) (v : Value) :
    r.eval (.quoted v) scope cfg s = .ok v s :=
  hr (.quoted v) v fun _ _ => rfl

/-- A list that was put back is a spine of its elements, in front of a tail that has its value at
once. -/
theorem exists_quote_eq (a : Value) (scope : ScopeId) (cfg : Config) : ∃ tail,
    Node.quote a = .spine (a.elements.1.map .quoted) tail ∧ (∀ car cdr, tail ≠ .pair car cdr) ∧
      ∀ r' t, evalNode r' tail scope cfg t = .ok a.elements.2 t := by
  rw [Node.quote]
  cases a.elements.2 with
  | nil =>
    refine ⟨.nil, rfl, fun car cdr hpair => ?_, fun _ _ => rfl⟩
    cases hpair
  | _ =>
    refine ⟨.quoted _, rfl, fun car cdr hpair => ?_, fun _ _ => rfl⟩
    cases hpair

/-- **A list that was put back evaluates to what it was made of**, and nothing else happens. -/
theorem evalNode_quote (hr : r.Immediate scope cfg s) (a : Value) :
    evalNode r (.quote a) scope cfg s = .ok a s := by
  have hspine : evalSpine r scope (.quote a) cfg s = .ok a s := by
    obtain ⟨tail, hquote, hnode, htail⟩ := exists_quote_eq a scope cfg
    rw [hquote, evalSpine_values hr.quoted, map_eq_pure_bind, Eval.bind_apply,
      evalSpine_eq_eval hnode, hr tail _ htail]
    exact congrArg (Outcome.ok · s) a.chain_elements
  cases a with
  | pair car cdr => exact hspine
  | _ => rfl

/-- A run without fuel is not broken off at the limit. -/
theorem staysBelowLimit_zero {node : Node} {m : Moment} {t : State}
    (h : evalSpine (.until atLimit 0) scope node cfg s = .stopped m t) : ¬m.isLimit := by
  cases node <;> cases h <;> exact Bool.false_ne_true

section

variable {v : Value} {vs : List Value} {node : Node}
  (h : StaysBelowLimit (fun r => r.eval (.spine ((v :: vs).map .quoted) node) scope) cfg s)

include h

/-- Below values there is room for one more level. -/
theorem sunk_depth_lt : (s.sunk 1).depth < cfg.maxDepth :=
  h.inside.2.of_bind.inside.1

/-- **What stands behind values stays below the limit** where the whole does. -/
theorem StaysBelowLimit.behind : StaysBelowLimit (fun r => evalSpine r scope node) cfg (s.sunk 1) := by
  intro n m t hn
  cases n with
  | zero => exact staysBelowLimit_zero hn
  | succ n =>
    refine h.inside.2 (n + 1) m t ?_
    change evalSpine (.until atLimit (n + 1)) scope (.spine ((v :: vs).map .quoted) node) cfg _ = _
    change evalSpine (.until atLimit (n + 1)) scope node cfg _ = _ at hn
    rw [evalSpine_values (immediate_until (sunk_depth_lt h) n).quoted, map_eq_pure_bind,
      Eval.bind_apply, hn]

/-- **A spine with values in front** evaluates to these values in front of what becomes of the
rest. -/
theorem eval_values (n : Nat) :
    (Evaluator.ofFuel (n + 2)).eval (.spine ((v :: vs).map .quoted) node) scope cfg s =
      (Value.chain (v :: vs) <$> Eval.deeper (evalSpine (.ofFuel (n + 1)) scope node)) cfg s := by
  have hinside : evalNode (.ofFuel (n + 1)) (.spine ((v :: vs).map .quoted) node) scope cfg
      (s.sunk 1) = (Value.chain (v :: vs) <$> evalSpine (.ofFuel (n + 1)) scope node) cfg
      (s.sunk 1) :=
    evalSpine_values (immediate_ofFuel (sunk_depth_lt h) n).quoted (v :: vs) node
  rw [← Eval.deeper_map]
  change Eval.deeper (evalNode (.ofFuel (n + 1)) _ scope) cfg s = _
  rw [Eval.deeper_eq_sunk h.inside.1, Eval.deeper_eq_sunk h.inside.1, hinside]

end

/-! ## Ends -/

/-- Computations that are the same from some fuel on, unless both are broken off, come to the same
ends. -/
theorem endsAs_congr {α : Type} {x y : Evaluator → Eval α} {o : Outcome RunError α} (k n₀ : Nat)
    (h : ∀ n, n₀ ≤ n → x (.ofFuel (n + k)) cfg s = y (.ofFuel n) cfg s ∨
      (x (.ofFuel (n + k)) cfg s).isStopped ∧ (y (.ofFuel n) cfg s).isStopped) :
    EndsAs x cfg s o ↔ EndsAs y cfg s o := by
  refine and_congr_right fun hended => ⟨?_, ?_⟩
  · rintro ⟨n, hn⟩
    refine ⟨max n n₀, fun fuel hfuel => ?_⟩
    have hx := hn (fuel + k) (by omega)
    rcases h fuel (by omega) with hsame | ⟨hstopped, -⟩
    · rw [← hsame, hx]
    · rw [hx, hended] at hstopped
      cases hstopped
  · rintro ⟨n, hn⟩
    refine ⟨max n n₀ + k, fun fuel hfuel => ?_⟩
    obtain ⟨m, rfl⟩ : ∃ m, fuel = m + k := ⟨fuel - k, by omega⟩
    have hy := hn m (by omega)
    rcases h m (by omega) with hsame | ⟨-, hstopped⟩
    · rw [hsame, hy]
    · rw [hy, hended] at hstopped
      cases hstopped

/-- **What stands behind values is evaluated in its own right.** -/
theorem endsAs_values {vs : List Value} {node : Node} {o : Outcome RunError Value}
    (h : StaysBelowLimit (fun r => r.eval (.spine (vs.map .quoted) node) scope) cfg s) :
    EndsAs (fun r => r.eval (.spine (vs.map .quoted) node) scope) cfg s o ↔
      EndsAs (fun r => Value.chain vs <$> r.eval node scope) cfg s o := by
  cases vs with
  | nil =>
    have hsame : (fun r : Evaluator => Value.chain [] <$> r.eval node scope) =
        fun r => r.eval node scope := funext fun r => id_map (r.eval node scope)
    rw [hsame]
    rfl
  | cons v vs =>
    have hbehind := h.behind
    by_cases hspine : ∃ car cdr, node = .pair car cdr
    · -- a spine goes on at the level of the values, which is the level of its own elements
      obtain ⟨car, cdr, rfl⟩ := hspine
      refine endsAs_congr 0 2 fun n hn => .inl ?_
      obtain ⟨n, rfl⟩ : ∃ n', n = n' + 2 := ⟨n - 2, by omega⟩
      exact eval_values h n
    · -- anything else is evaluated one level further down
      have hnode : ∀ car cdr, node ≠ .pair car cdr := fun car cdr hpair => hspine ⟨car, cdr, hpair⟩
      simp only [evalSpine_eq_eval hnode] at hbehind
      refine endsAs_congr 1 1 fun n hn => ?_
      obtain ⟨n, rfl⟩ : ∃ n', n = n' + 1 := ⟨n - 1, by omega⟩
      have hsunk := (hbehind.eval_sunk (n + 1)).1
      have heval := eval_values h n
      rw [evalSpine_eq_eval hnode] at heval
      rw [heval, map_eq_pure_bind, map_eq_pure_bind, Eval.bind_apply, Eval.bind_apply]
      rcases Eval.deeper_of_sunk h.inside.1 hsunk with hsame | ⟨hdeeper, hupper⟩
      · rw [hsame]
        exact .inl rfl
      · obtain ⟨_, _, hdeeper⟩ := Outcome.exists_of_isStopped hdeeper
        obtain ⟨_, _, hupper⟩ := Outcome.exists_of_isStopped hupper
        rw [hdeeper, hupper]
        exact .inr ⟨rfl, rfl⟩

/-! ## Arguments that were put back -/

/-- **Two levels are enough** for a list that was put back. -/
theorem staysBelowLimit_quote (h : s.depth + 1 < cfg.maxDepth) (a : Value) :
    StaysBelowLimit (fun r => r.eval (.quote a) scope) cfg s := by
  have hsunk : (s.sunk 1).depth < cfg.maxDepth := by
    rw [State.sunk_one]
    exact h
  have hends : ((Evaluator.until atLimit 2).eval (.quote a) scope cfg s).isStopped = false := by
    rw [until_eval_apply, Eval.deeper_eq_sunk (Nat.lt_of_succ_lt h),
      evalNode_quote (immediate_until hsunk 0)]
    rfl
  exact staysBelowLimit_of_ends hends

/-- A list that was put back comes to what it was made of. -/
theorem endsAs_quote {a : Value} (h : StaysBelowLimit (fun r => r.eval (.quote a) scope) cfg s) :
    EndsAs (fun r => r.eval (.quote a) scope) cfg s (.ok a s) := by
  refine ⟨rfl, 2, fun fuel hfuel => ?_⟩
  obtain ⟨n, rfl⟩ : ∃ n, fuel = n + 2 := ⟨fuel - 2, by omega⟩
  change Eval.deeper (evalNode (.ofFuel (n + 1)) (.quote a) scope) cfg s = _
  have hinside : evalNode (.ofFuel (n + 1)) (.quote a) scope cfg (s.sunk 1) = .ok a (s.sunk 1) := by
    cases a with
    | pair car cdr =>
      obtain ⟨tail, hquote, -⟩ := exists_quote_eq (.pair car cdr) scope cfg
      rw [hquote] at h
      exact evalNode_quote (immediate_ofFuel (sunk_depth_lt h) n) (.pair car cdr)
    | _ => rfl
  rw [Eval.deeper_eq_sunk h.inside.1, hinside]
  simp only [State.sunk, Nat.add_sub_cancel_left]

/-- **Arguments that are evaluated again are what they were.**  A value that was put back into an
argument list evaluates to itself, and the state stays as it is.  Behind a list that was put back,
whatever follows is evaluated once: to the same value, with the elements of the list in front of it, or
to the same error, and in the same state.  That is so where no recursion-limit error is raised. -/
theorem requoted_evaluates (a : Value) (node : Node) (scope : ScopeId) (cfg : Config) (s : State) :
    (StaysBelowLimit (fun r => r.eval (.quote a) scope) cfg s →
      EndsAs (fun r => r.eval (.quote a) scope) cfg s (.ok a s)) ∧
    (a.IsList → StaysBelowLimit (fun r => r.eval (.quoteBefore a node) scope) cfg s → ∀ o,
      EndsAs (fun r => r.eval (.quoteBefore a node) scope) cfg s o ↔
        EndsAs (fun r => do
          let v ← r.eval node scope
          return .chain a.elements.1 v) cfg s o) := by
  refine ⟨endsAs_quote, fun hlist h o => ?_⟩
  rw [Node.quoteBefore_of_isList hlist] at h ⊢
  simp only [← map_eq_pure_bind]
  exact endsAs_values h

/-- `(1 2)` in front of `(list (print 3))`: the list is there again, and 3 is printed once. -/
theorem printed_once_behind_list :
    let a := Value.ofList [.integer 1, .integer 2]
    let node := Node.call (.value "_list" (.builtin .list))
      [.call (.identifier "print") [.numeral 3]]
    StaysBelowLimit (fun r => r.eval (.quote a) Arena.root) {} .initial ∧
      EndsAs (fun r => r.eval (.quote a) Arena.root) {} .initial (.ok a .initial) ∧
      a.IsList ∧ StaysBelowLimit (fun r => r.eval (.quoteBefore a node) Arena.root) {} .initial ∧
      ∃ v t, EndsAs (fun r => r.eval node Arena.root) {} .initial (.ok v t) ∧ t.output = "3\n" ∧
        EndsAs (fun r => r.eval (.quoteBefore a node) Arena.root) {} .initial
          (.ok (.chain [.integer 1, .integer 2] v) t) := by
  intro a node
  have hquote : StaysBelowLimit (fun r => r.eval (.quote a) Arena.root) {} .initial :=
    staysBelowLimit_quote (by decide) a
  have hended : ((Evaluator.until atLimit 20).eval (.quoteBefore a node) Arena.root {}
      .initial).isStopped = false := by decide +kernel
  have hbefore : StaysBelowLimit (fun r => r.eval (.quoteBefore a node) Arena.root) {} .initial :=
    staysBelowLimit_of_ends hended
  obtain ⟨hends, hends_before⟩ := requoted_evaluates a node Arena.root {} .initial
  obtain ⟨v, t, hv, -⟩ := Outcome.exists_of_returns (fun _ => true)
    (o := (Evaluator.ofFuel 20).eval node Arena.root {} .initial) (by decide +kernel)
  have houtput : ((Evaluator.ofFuel 20).eval node Arena.root {} .initial).state.output = "3\n" := by
    decide +kernel
  have hnode : EndsAs (fun r => r.eval node Arena.root) {} .initial (.ok v t) := by
    rw [← hv]
    exact endsAs_eval (by rw [hv]; rfl)
  rw [hv] at houtput
  refine ⟨hquote, hends hquote, rfl, hbefore, v, t, hnode, houtput, ?_⟩
  exact (hends_before rfl hbefore _).mpr (hnode.bind_ok ⟨rfl, 0, fun _ _ => rfl⟩)

end Fexpr
