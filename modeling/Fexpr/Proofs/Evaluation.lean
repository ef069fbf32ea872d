import Fexpr.Proofs.Combinators
import Fexpr.Eval.Evaluator

/-!
# Proofs/Evaluation — evaluations that leave the state as it is

Names, constants and values that are there already evaluate without a trace, as long as the limit
admits one more level (`Eval.deeper_eq_ok`); where it does not, nothing evaluates.  In front of a spine such values stay
what they are (`evalSpine_values`).
-/

namespace Fexpr

namespace Eval

variable {α : Type} {x : Eval α} {cfg : Config} {s : State}

/-- **Below the limit** a level is entered and left again. -/
theorem deeper_of_lt (h : s.depth < cfg.maxDepth) :
    deeper x cfg s =
      match x cfg { s with depth := s.depth + 1 } with
      | .ok a t => .ok a { t with depth := t.depth - 1 }
      | .error e t => .error e { t with depth := t.depth - 1 }
      | .stopped m t => .stopped m t :=
  if_neg (Nat.not_le_of_lt h)

/-- **At the limit** nothing is done. -/
theorem deeper_of_le (h : cfg.maxDepth ≤ s.depth) :
    deeper x cfg s = .error (.recursionLimit cfg.maxDepth) s := by
  rw [deeper, if_pos h]

/-- What leaves the state as it is does so one level deeper. -/
theorem deeper_eq_ok {a : α} (h : s.depth < cfg.maxDepth)
    (hx : ∀ t : State, t.arena = s.arena → x cfg t = .ok a t) : deeper x cfg s = .ok a s := by
  rw [deeper_of_lt h, hx { s with depth := s.depth + 1 } rfl]
  rfl

end Eval

namespace Evaluator

/-- How two arguments are evaluated. -/
theorem evalTwoArguments_apply {r : Evaluator} {a b : Node} {scope : ScopeId} {cfg : Config}
    {s t u : State} {v w : Value} (procedure : String) (ha : r.eval a scope cfg s = .ok v t)
    (hb : r.eval b scope cfg t = .ok w u) :
    r.evalTwoArguments procedure (.spine [a, b] .nil) scope cfg s = .ok (v, w) u := by
  change (r.eval a scope >>= fun v => r.eval b scope >>= fun w => pure (v, w)) cfg s = _
  rw [Eval.bind_apply, ha]
  dsimp only
  rw [Eval.bind_apply, hb]
  rfl

variable {n : Nat} {scope : ScopeId} {cfg : Config} {s : State}

/-- **At the limit** every evaluation fails. -/
theorem eval_of_le (h : cfg.maxDepth ≤ s.depth) (node : Node) :
    (ofFuel (n + 1)).eval node scope cfg s = .error (.recursionLimit cfg.maxDepth) s :=
  Eval.deeper_of_le h

variable (h : s.depth < cfg.maxDepth)

include h

theorem eval_numeral (m : Nat) :
    (ofFuel (n + 1)).eval (.numeral m) scope cfg s = .ok (.integer m) s :=
  Eval.deeper_eq_ok (x := evalNode (ofFuel n) (.numeral m) scope) h fun _ _ => rfl

/-- **A value that is there already** is its own value. -/
theorem eval_value (label : String) (v : Value) :
    (ofFuel (n + 1)).eval (.value label v) scope cfg s = .ok v s :=
  Eval.deeper_eq_ok (x := evalNode (ofFuel n) (.value label v) scope) h fun _ _ => rfl

theorem eval_quoted (v : Value) : (ofFuel (n + 1)).eval (.quoted v) scope cfg s = .ok v s :=
  eval_value h "_arg" v

/-- **A name is looked up**, and nothing else happens. -/
theorem eval_identifier {name : String} {v : Value} (hv : s.arena.get? scope name = some v) :
    (ofFuel (n + 1)).eval (.identifier name) scope cfg s = .ok v s := by
  refine Eval.deeper_eq_ok h fun t ht => ?_
  change Eval.lookup scope name cfg t = _
  rw [Eval.lookup, ht, hv]

end Evaluator

/-! ## Spines -/

section

variable {r : Evaluator} {scope : ScopeId} {cfg : Config} {s : State}

/-- **Values in a spine are there at once**, in front of what becomes of the rest of it. -/
theorem evalSpine_values (hr : ∀ v, r.eval (.quoted v) scope cfg s = .ok v s) (vs : List Value)
    (node : Node) :
    evalSpine r scope (.spine (vs.map .quoted) node) cfg s =
      (Value.chain vs <$> evalSpine r scope node) cfg s := by
  induction vs with
  | nil => exact (congrFun (congrFun (id_map _) cfg) s).symm
  | cons v vs ih =>
    rw [List.map_cons]
    change (r.eval (.quoted v) scope >>= fun v =>
      evalSpine r scope (.spine (vs.map .quoted) node) >>= fun w => pure (Value.pair v w)) cfg s = _
    rw [Eval.bind_apply, hr]
    dsimp only
    rw [Eval.bind_apply, ih, map_eq_pure_bind, map_eq_pure_bind, Eval.bind_apply, Eval.bind_apply]
    cases evalSpine r scope node cfg s <;> rfl

/-- What is no spine of its own is evaluated as the end of one. -/
theorem evalSpine_eq_eval {node : Node} (h : ∀ car cdr, node ≠ .pair car cdr) :
    evalSpine r scope node = r.eval node scope := by
  cases node with
  | pair car cdr => exact absurd rfl (h car cdr)
  | _ => rfl

end

end Fexpr
