import Fexpr.Proofs.Calling.Ends
import Fexpr.Proofs.Evaluation

/-!
# Proofs/Calling/Currying — what a curried value hands on

A curried value keeps argument lists, one inside the other when it was curried again.  A call of it
is a call of the callee below (`Value.core`) with one list: what is kept, value by value and quoted,
and then the argument list of the call as it is (`Value.handed`).

That is so when what is kept are lists.  A list that ends in a rest of its own has no room behind
it, and what would come there is left out, not evaluated and not reported (`handed_of_rest`).
-/

namespace Fexpr

namespace Value

/-- **The callee below all that is kept.** -/
def core : Value → Value
  | .curried _ callee _ => callee.core
  | v => v

/-- **The argument lists that a curried value keeps**, in the order in which the callee gets
them. -/
def supplied : Value → List Value
  | .curried _ callee args => callee.supplied ++ [args]
  | _ => []

/-- **The argument list that is handed on** to the callee below. -/
def handed (v : Value) (arg : Node) : Node :=
  v.supplied.foldr Node.quoteBefore arg

/-- Whether a value is a list, and not a chain of pairs that ends in something else. -/
def IsList (v : Value) : Prop :=
  v.elements.2 = .nil

/-- The elements of some argument lists, one list after the other. -/
def inOrder (lists : List Value) : List Value :=
  lists.flatMap (·.elements.1)

theorem inOrder_cons (args : Value) (lists : List Value) :
    inOrder (args :: lists) = args.elements.1 ++ inOrder lists :=
  List.flatMap_cons

theorem inOrder_concat (lists : List Value) (args : Value) :
    inOrder (lists ++ [args]) = inOrder lists ++ args.elements.1 := by
  rw [inOrder, List.flatMap_append, List.flatMap_singleton, inOrder]

end Value

/-! ## The list that is handed on -/

namespace Node

variable {args : Value}

theorem quoteBefore_of_isList (h : args.IsList) (rest : Node) :
    quoteBefore args rest = spine (args.elements.1.map quoted) rest := by
  rw [quoteBefore, show args.elements.2 = .nil from h]

/-- A rest of its own leaves no room for another. -/
theorem quoteBefore_of_rest (h : ¬args.IsList) (rest : Node) :
    quoteBefore args rest = spine (args.elements.1.map quoted) (quoted args.elements.2) := by
  rw [Value.IsList] at h
  rw [quoteBefore]
  cases htail : args.elements.2 with
  | nil => exact absurd htail h
  | _ => rfl

/-- Lists in front of a list are one list in front of it. -/
theorem foldr_quoteBefore {lists : List Value} (h : ∀ args ∈ lists, args.IsList) (rest : Node) :
    lists.foldr quoteBefore rest = spine ((Value.inOrder lists).map quoted) rest := by
  induction lists with
  | nil => rfl
  | cons args lists ih =>
    obtain ⟨hargs, hlists⟩ := List.forall_mem_cons.mp h
    rw [List.foldr_cons, ih hlists, quoteBefore_of_isList hargs, Value.inOrder_cons,
      List.map_append, spine_append]

end Node

namespace Value

variable {v : Value}

/-- **Kept lists come first**, the list of the call after them. -/
theorem handed_of_isList (h : ∀ args ∈ v.supplied, args.IsList) (arg : Node) :
    v.handed arg = Node.spine ((inOrder v.supplied).map Node.quoted) arg :=
  Node.foldr_quoteBefore h arg

/-- **Behind a rest nothing is handed on**: neither what is kept there nor the list of the call. -/
theorem handed_of_rest {before after : List Value} {args : Value}
    (hv : v.supplied = before ++ args :: after) (hbefore : ∀ l ∈ before, l.IsList)
    (hargs : ¬args.IsList) (arg : Node) :
    v.handed arg =
      Node.spine ((inOrder (before ++ [args])).map Node.quoted) (.quoted args.elements.2) := by
  rw [handed, hv, List.foldr_append, List.foldr_cons, Node.foldr_quoteBefore hbefore,
    Node.quoteBefore_of_rest hargs, ← Node.spine_append, ← List.map_append, inOrder_concat]

end Value

/-! ## The call -/

/-- **A call of a curried value is a call of the callee below** with the list that is handed on. -/
theorem sameEnds_call_core (v : Value) (arg : Node) (scope : ScopeId) :
    SameEnds (fun r => r.call v arg scope) (fun r => r.call v.core (v.handed arg) scope) := by
  fun_induction Value.core v generalizing arg with
  | case1 tag callee args ih =>
    have hhanded : (Value.curried tag callee args).handed arg =
        callee.handed (Node.quoteBefore args arg) := by
      rw [Value.handed, Value.supplied, List.foldr_append]
      rfl
    rw [hhanded]
    exact (sameEnds_call_curried arg scope tag callee args).trans (ih _)
  | case2 v hv =>
    have hhanded : v.handed arg = arg := by
      cases v <;> first | rfl | exact absurd rfl (hv _ _ _)
    rw [hhanded]
    exact sameEnds_call arg scope v

/-- **Kept values are not evaluated again**: a list with values in front evaluates as the rest of it
does, with the values in front of what comes of that. -/
theorem evalSpine_quoted {n : Nat} {cfg : Config} {s : State} (h : s.depth < cfg.maxDepth)
    (vs : List Value) (scope : ScopeId) (arg : Node) :
    evalSpine (.ofFuel (n + 1)) scope (.spine (vs.map .quoted) arg) cfg s =
      (Value.chain vs <$> evalSpine (.ofFuel (n + 1)) scope arg) cfg s :=
  evalSpine_values (fun v => Evaluator.eval_quoted h v) vs arg

/-- **What a call of a curried value comes to.**  It comes to the ends of a call of the callee below
with the list that is handed on.  If lists are all that is kept, that list is what is kept, value by
value and not evaluated again, and behind it the argument list of the call as it is.  Otherwise it
ends with the first that is not a list. -/
theorem curried_call (v : Value) (arg : Node) (scope : ScopeId) :
    (∀ cfg s o, cfg.debug = false → (EndsAs (fun r => r.call v arg scope) cfg s o ↔
      EndsAs (fun r => r.call v.core (v.handed arg) scope) cfg s o)) ∧
    (∀ cfg s o, EndsAs (fun r => r.call v arg scope) cfg s o →
      ∃ o', EndsAs (fun r => r.call v.core (v.handed arg) scope) cfg s o' ∧
        o.untraced cfg = o'.untraced cfg) ∧
    (∀ cfg s o', EndsAs (fun r => r.call v.core (v.handed arg) scope) cfg s o' →
      ∃ o, EndsAs (fun r => r.call v arg scope) cfg s o ∧ o.untraced cfg = o'.untraced cfg) ∧
    ((∀ args ∈ v.supplied, args.IsList) →
      v.handed arg = Node.spine ((Value.inOrder v.supplied).map Node.quoted) arg ∧
      ∀ n cfg s, s.depth < cfg.maxDepth →
        evalSpine (.ofFuel (n + 1)) scope (v.handed arg) cfg s =
          (Value.chain (Value.inOrder v.supplied) <$>
            evalSpine (.ofFuel (n + 1)) scope arg) cfg s) ∧
    ∀ before args after, v.supplied = before ++ args :: after → (∀ l ∈ before, l.IsList) →
      ¬args.IsList →
      v.handed arg =
        Node.spine ((Value.inOrder (before ++ [args])).map Node.quoted)
          (.quoted args.elements.2) := by
  have hcore := sameEnds_call_core v arg scope
  refine ⟨fun cfg s o hdebug => hcore.endsAs_iff hdebug, fun cfg s o => hcore.exists_end,
    fun cfg s o' => hcore.exists_end_left, fun hlists => ?_,
    fun before args after hv hbefore hargs => Value.handed_of_rest hv hbefore hargs arg⟩
  have hhanded := Value.handed_of_isList hlists arg
  refine ⟨hhanded, fun n cfg s hdepth => ?_⟩
  rw [hhanded]
  exact evalSpine_quoted hdepth _ scope arg

/-- **What is supplied behind a rest is dropped**: `(def n 5)` is handed on behind the list `(1 2)`,
but not behind the chain `(1 | 2)`, and then it is not evaluated either. -/
theorem argument_dropped_behind_rest :
    (∃ v t, Program.runWith 40 "(def n 0) ((curry (fn - n) 1 2) (def n 5))" Arena.root {} .initial =
      .ok v t ∧ v == .integer 5) ∧
    (∃ v t, Program.runWith 40 "(def n 0) ((curry (fn - n) 1 | 2) (def n 5))" Arena.root {}
      .initial = .ok v t ∧ v == .integer 0) ∧
    let v := Value.curried 0 (.function 0) (.pair (.integer 1) (.integer 2))
    let arg := Node.spine [.call (.identifier "def") [.identifier "n", .numeral 5]] .nil
    ¬∃ tail, v.handed arg =
      .spine ((Value.inOrder v.supplied).map .quoted ++ arg.elements.1) tail := by
  refine ⟨Outcome.exists_of_returns (· == Value.integer 5) (by decide +kernel),
    Outcome.exists_of_returns (· == Value.integer 0) (by decide +kernel), ?_⟩
  rintro v arg ⟨tail, h⟩
  cases h

end Fexpr
