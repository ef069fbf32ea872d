import Fexpr.Proofs.Renaming.Primitive

/-!
# Proofs/Renaming/Evaluator — identities are nothing but identities

Whatever breaks runs off, as long as it does not depend on the identities, the evaluator is
equivariant under every injective renaming (`equivariant_until`): from a state with other identities
a run comes to the same end with other identities.
-/

namespace Fexpr

open Renaming

namespace Evaluator.Equivariant

variable {ρ : Renaming} {r : Evaluator} {scope : ScopeId}

theorem evalSpine (h : r.Equivariant ρ) (node : Node) :
    ρ.Follows (Value.rename ρ.tag) (Fexpr.evalSpine r scope node)
      (Fexpr.evalSpine r scope (node.rename ρ.tag)) := by
  induction node with
  | pair car cdr _ ihcdr =>
    exact (h.eval car scope).bind fun v => ihcdr.map fun _ => rfl
  | _ => exact h.eval _ scope

/-- **A renamed node has the renamed value.** -/
theorem evalNode (h : r.Equivariant ρ) (node : Node) :
    ρ.Follows (Value.rename ρ.tag) (Fexpr.evalNode r node scope)
      (Fexpr.evalNode r (node.rename ρ.tag) scope) := by
  cases node with
  | nil | numeral n | symbol name | value label v => exact .pure
  | identifier name => exact .lookup scope name
  | pair car cdr => exact evalSpine h (.pair car cdr)
  | form head args => exact (h.eval head scope).bind fun v => h.call v args scope

theorem patternTarget (h : r.Equivariant ρ) (arg : Node) :
    ρ.Follows (Option.map (Value.rename ρ.tag)) (Fexpr.patternTarget r arg scope)
      (Fexpr.patternTarget r (arg.rename ρ.tag) scope) := by
  cases arg with
  | nil => exact .pure
  | _ => exact (evalArgument h _).map fun _ => rfl

theorem callPattern (h : r.Equivariant ρ) (p : Pattern) (arg : Node) :
    ρ.Follows (Value.rename ρ.tag) (Fexpr.callPattern r p arg scope)
      (Fexpr.callPattern r (p.rename ρ.tag) (arg.rename ρ.tag) scope) := by
  refine (patternTarget h arg).bind fun target => (matchWith h p target).bind fun accepted => ?_
  cases accepted with
  | true => exact .pure
  | false => exact .fail

/-- **A renamed value is called with the renamed result.** -/
theorem callValue (h : r.Equivariant ρ) (callee : Value) (arg : Node) :
    ρ.Follows (Value.rename ρ.tag) (Fexpr.callValue r callee arg scope)
      (Fexpr.callValue r (callee.rename ρ.tag) (arg.rename ρ.tag) scope) := by
  have htrace : ρ.Follows id
      (Eval.trace fun st => "calling " ++ st.text callee ++ " with " ++ arg.text)
      (Eval.trace fun st => "calling " ++ st.text (callee.rename ρ.tag) ++ " with " ++
        (arg.rename ρ.tag).text) :=
    .trace fun st => by rw [Store.text_rename, Node.text_rename]
  refine htrace.bind fun _ => ?_
  -- what cannot be called is only named
  have huncallable : ∀ v : Value, ρ.Follows (Value.rename ρ.tag)
      (do
        let text ← Eval.gets fun s => s.store.text v
        Eval.fail (.uncallable text v.typeName) : Eval Value)
      (do
        let text ← Eval.gets fun s => s.store.text (v.rename ρ.tag)
        Eval.fail (.uncallable text (v.rename ρ.tag).typeName)) := fun v =>
    (readText ρ v).bind fun _ => by
      rw [Value.typeName_rename]
      exact .fail
  cases callee with
  | builtin b => exact runBuiltin arg h b
  | curried tag f args =>
    have hcall := h.call f (Node.quoteBefore args arg) scope
    rw [Node.rename_quoteBefore] at hcall
    exact hcall
  | function n => exact invoke h n arg none
  | method n => exact .fail
  | boundMethod tag n receiver => exact invoke h n arg (some receiver)
  | multiFunction tag alternatives => exact invokeAny h alternatives arg
  | pattern p => exact callPattern h p arg
  | pair outer inner =>
    refine (h.call inner arg scope).bind fun v => ?_
    have hcall := h.call outer (Node.quote (.ofList [v])) scope
    rw [Node.rename_quote, Value.rename_ofList] at hcall
    exact hcall
  | nil | void | integer _ | bool _ | symbol _ | object _ | dictionary _ | promise _ =>
    exact huncallable _

/-! ## Programs -/

theorem evalForms (h : r.Equivariant ρ) (latest : Value) (forms : List Node) :
    ρ.Follows (Value.rename ρ.tag) (Program.evalForms r scope latest forms)
      (Program.evalForms r scope (latest.rename ρ.tag) (forms.map (Node.rename ρ.tag))) := by
  induction forms generalizing latest with
  | nil => exact .pure
  | cons form forms ih => exact (h.eval form scope).bind fun v => ih v

theorem runProgram (h : r.Equivariant ρ) (forms : List Node) :
    ρ.Follows (Value.rename ρ.tag) (Program.runForms r forms scope)
      (Program.runForms r (forms.map (Node.rename ρ.tag)) scope) := by
  have htrace : ρ.Follows id
      (Eval.trace fun _ => "read " ++ toString forms.length ++ " top-level forms")
      (Eval.trace fun _ => "read " ++ toString (forms.map (Node.rename ρ.tag)).length ++
        " top-level forms") := .trace fun _ => by rw [List.length_map]
  exact htrace.bind fun _ => evalForms h .nil forms

end Evaluator.Equivariant

/-- **The evaluator is equivariant**: to it, the identities of curried values are nothing but
identities. -/
theorem equivariant_until {ρ : Renaming} (hρ : Function.Injective ρ.tag)
    {stop : Moment → State → Bool} (hstop : ρ.Respects stop) (fuel : Nat) :
    (Evaluator.until stop fuel).Equivariant ρ := by
  induction fuel with
  | zero => exact ⟨hρ, fun _ _ => .stop, fun _ _ _ => .stop⟩
  | succ n ih =>
    exact ⟨hρ, fun node _ => (ih.evalNode node).deeper.pausing hstop,
      fun callee arg _ => (ih.callValue callee arg).pausing hstop⟩

end Fexpr
