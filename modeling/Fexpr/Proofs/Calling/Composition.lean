import Fexpr.Proofs.Calling.Ends

/-!
# Proofs/Calling/Composition — a composition is the order of its parts

A pair that is called composes its halves, and the halves may be pairs again.  How they are grouped
does not count: a tree of pairs is called by calling its leaves in turn, the last one with the
argument list as it is and every other with the list of what the one after it returned
(`sameEnds_callInTurn`).  So trees with the same leaves are called alike (`call_tree`).
-/

namespace Fexpr

/-- **What a value composes**: its leaves as a tree of pairs, from left to right. -/
def Value.leaves : Value → List Value
  | .pair car cdr => car.leaves ++ cdr.leaves
  | v => [v]

/-- **Calls values in turn**: the first with an argument list, each of the rest with the list of
what the one before it returned.  An error ends it. -/
def callInTurn (r : Evaluator) (first : Value) (rest : List Value) (arg : Node) (scope : ScopeId) :
    Eval Value := do
  let v ← r.call first arg scope
  rest.foldlM (fun v f => r.call f (Node.quote (.ofList [v])) scope) v

section

variable (r : Evaluator) (first next : Value) (rest more : List Value) (arg : Node)
  (scope : ScopeId)

theorem callInTurn_nil : callInTurn r first [] arg scope = r.call first arg scope :=
  bind_pure (r.call first arg scope)

/-- What comes later goes on with what has been returned so far. -/
theorem callInTurn_append :
    callInTurn r first (rest ++ next :: more) arg scope = (do
      let v ← callInTurn r first rest arg scope
      callInTurn r next more (Node.quote (.ofList [v])) scope) := by
  simp only [callInTurn, List.foldlM_append, List.foldlM_cons, bind_assoc]

end

/-- **A tree of pairs is called by calling its leaves in turn**, from the last to the first. -/
theorem sameEnds_callInTurn (v : Value) :
    ∃ first rest, v.leaves.reverse = first :: rest ∧ ∀ arg scope,
      SameEnds (fun r => r.call v arg scope) (fun r => callInTurn r first rest arg scope) := by
  fun_induction Value.leaves v with
  | case1 car cdr ihcar ihcdr =>
    obtain ⟨first, rest, hcdr, hfirst⟩ := ihcdr
    obtain ⟨next, more, hcar, hnext⟩ := ihcar
    refine ⟨first, rest ++ next :: more, ?_, fun arg scope => ?_⟩
    · rw [List.reverse_append, hcdr, hcar, List.cons_append]
    · simp only [callInTurn_append]
      exact (sameEnds_call_pair arg scope car cdr).trans
        ((hfirst arg scope).bind fun _ => hnext _ scope)
  | case2 v _ =>
    refine ⟨v, [], rfl, fun arg scope => ?_⟩
    simp only [callInTurn_nil]
    exact sameEnds_call arg scope v

/-- **Composition depends on the order of the parts alone.**  A tree of pairs comes to the ends of
calling its leaves in turn from the last to the first, and trees with the same leaves come to the
same ends: the same value or the same error, in the same state.  (In a debugging session the calls
of the pairs themselves are in the log too, and the states are the same beside the log.) -/
theorem call_tree (v : Value) :
    ∃ first rest, v.leaves.reverse = first :: rest ∧ ∀ arg scope cfg s,
      (cfg.debug = false → ∀ o, EndsAs (fun r => r.call v arg scope) cfg s o ↔
        EndsAs (fun r => callInTurn r first rest arg scope) cfg s o) ∧
      (∀ o, EndsAs (fun r => r.call v arg scope) cfg s o →
        ∃ o', EndsAs (fun r => callInTurn r first rest arg scope) cfg s o' ∧
          o.untraced cfg = o'.untraced cfg) ∧
      (∀ o', EndsAs (fun r => callInTurn r first rest arg scope) cfg s o' →
        ∃ o, EndsAs (fun r => r.call v arg scope) cfg s o ∧
          o.untraced cfg = o'.untraced cfg) ∧
      ∀ w : Value, w.leaves = v.leaves → ∀ o, EndsAs (fun r => r.call v arg scope) cfg s o →
        ∃ o', EndsAs (fun r => r.call w arg scope) cfg s o' ∧
          o.untraced cfg = o'.untraced cfg := by
  obtain ⟨first, rest, hleaves, hv⟩ := sameEnds_callInTurn v
  refine ⟨first, rest, hleaves, fun arg scope cfg s =>
    ⟨fun hdebug o => (hv arg scope).endsAs_iff hdebug, fun o ho => ?_, fun o' ho' => ?_, ?_⟩⟩
  · exact (hv arg scope).exists_end ho
  · exact (hv arg scope).exists_end_left ho'
  · intro w hw o ho
    obtain ⟨first', rest', hleaves', hturn⟩ := sameEnds_callInTurn w
    rw [hw, hleaves] at hleaves'
    obtain ⟨rfl, rfl⟩ := List.cons.inj hleaves'
    exact ((hv arg scope).trans (hturn arg scope).symm).exists_end ho

/-- The two groupings of three callees, be they pairs or not. -/
example (f g h : Value) : (Value.pair (.pair f g) h).leaves = (Value.pair f (.pair g h)).leaves :=
  List.append_assoc f.leaves g.leaves h.leaves

end Fexpr
