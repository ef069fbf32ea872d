import Fexpr.Program
import Fexpr.Proofs.Comparison.Primitive

/-!
# Proofs/Comparison/Evaluator — related evaluators are related in all they do

`Agree.evalNode` and `Agree.callValue` put the cases together: whatever a comparison says of what an
evaluator contains, it says of the evaluator.  A comparison of the evaluators that fuel ties is then
an induction on the fuel with nothing but the depth limit left to look at.
-/

namespace Fexpr

open Congruence (andThen)

namespace Comparison

variable {C : Comparison} {r r' : Evaluator} {w : C.World} {scope : ScopeId}

theorem evalSpine (h : C.Agree r r') : (node : Node) → ∀ {w : C.World},
    node.Within (C.census w) →
    C.Rel w scope (Fexpr.evalSpine r scope node) (Fexpr.evalSpine r' scope node) Value.Within
  | .pair car cdr, w, hn => by
    refine C.bind (h.eval w scope hn.1) fun w₁ v h₁ hv => ?_
    refine C.bind (evalSpine h cdr (hn.2.mono h₁)) fun w₂ u h₂ hu => ?_
    exact C.pure ⟨hv.mono h₂, hu⟩
  | .nil, w, hn | .form .., w, hn | .identifier _, w, hn | .numeral _, w, hn | .symbol _, w, hn
  | .value .., w, hn => h.eval w scope hn

/-- **Related evaluators evaluate alike.** -/
theorem Agree.evalNode (h : C.Agree r r') {node : Node} (hn : node.Within (C.census w)) :
    C.Rel w scope (Fexpr.evalNode r node scope) (Fexpr.evalNode r' node scope) Value.Within := by
  cases node with
  | nil | numeral n | symbol name => exact C.pure trivial
  | value label v => exact C.pure hn
  | identifier name => exact C.elementary (.lookup name)
  | pair car cdr => exact evalSpine h (.pair car cdr) hn
  | form head args =>
    exact C.bind (h.eval w scope hn.1) fun w₁ v h₁ hv => h.call w₁ scope hv (hn.2.mono h₁)

theorem patternTarget (h : C.Agree r r') {arg : Node} (ha : arg.Within (C.census w)) :
    C.Rel w scope (Fexpr.patternTarget r arg scope) (Fexpr.patternTarget r' arg scope)
      OptionWithin := by
  have hother : C.Rel w scope (do return some (← r.evalArgument "pattern" arg scope))
      (do return some (← r'.evalArgument "pattern" arg scope)) OptionWithin :=
    C.map (evalArgument h ha) fun _ _ hv => optionWithin_some.mpr hv
  cases arg with
  | nil => exact C.pure optionWithin_none
  | _ => exact hother

theorem callPattern (h : C.Agree r r') {p : Pattern} {arg : Node} (hp : p.Within (C.census w))
    (ha : arg.Within (C.census w)) :
    C.Rel w scope (Fexpr.callPattern r p arg scope) (Fexpr.callPattern r' p arg scope)
      Value.Within := by
  refine C.bind (patternTarget h ha) fun w₁ target h₁ ht => ?_
  refine andThen (matchWith h p (hp.mono h₁) ht) fun w₂ accepted _ => ?_
  cases accepted with
  | true => exact C.pure trivial
  | false => exact C.fail

/-- **Related evaluators call alike.** -/
theorem Agree.callValue (h : C.Agree r r') {callee : Value} {arg : Node}
    (hc : callee.Within (C.census w)) (ha : arg.Within (C.census w)) :
    C.Rel w scope (Fexpr.callValue r callee arg scope) (Fexpr.callValue r' callee arg scope)
      Value.Within := by
  refine andThen (C.elementary (.trace _)) fun w₁ _ h₁ => ?_
  have hc₁ := hc.mono h₁
  have ha₁ := ha.mono h₁
  -- what cannot be called is only named
  have huncallable : ∀ v : Value, C.Rel w₁ scope
      (do
        let text ← Eval.gets fun s => s.store.text v
        Eval.fail (.uncallable text v.typeName))
      (do
        let text ← Eval.gets fun s => s.store.text v
        Eval.fail (.uncallable text v.typeName)) Value.Within := fun v =>
    andThen (C.read fun _ st => st.text v) fun _ _ _ => C.fail
  cases callee with
  | builtin b => exact runBuiltin h b ha₁
  | curried tag f args => exact h.call w₁ scope hc₁.1 (Node.within_quoteBefore hc₁.2 ha₁)
  | function id => exact invoke h hc₁ ha₁ optionWithin_none
  | method id => exact C.fail
  | boundMethod tag id receiver => exact invoke h hc₁.1 ha₁ (optionWithin_some.mpr hc₁.2)
  | multiFunction tag alternatives => exact invokeAny h hc₁ ha₁
  | pattern p => exact callPattern h hc₁ ha₁
  | pair outer inner =>
    refine C.bind (h.call w₁ scope hc₁.2 ha₁) fun w₂ v h₂ hv => ?_
    refine h.call w₂ scope (hc₁.1.mono h₂) (Node.within_quote (Value.within_ofList fun u hu => ?_))
    rw [List.mem_singleton] at hu
    exact hu ▸ hv
  | nil | void | integer _ | bool _ | symbol _ | object _ | dictionary _ | promise _ =>
    exact huncallable _

/-! ## Programs -/

theorem evalForms (h : C.Agree r r') {latest : Value} {forms : List Node}
    (hl : latest.Within (C.census w)) (hf : ∀ form ∈ forms, form.Within (C.census w)) :
    C.Rel w scope (Program.evalForms r scope latest forms)
      (Program.evalForms r' scope latest forms) Value.Within := by
  induction forms generalizing w latest with
  | nil => exact C.pure hl
  | cons form forms ih =>
    refine C.bind (h.eval w scope (hf form List.mem_cons_self)) fun w₁ v h₁ hv => ?_
    exact ih hv fun form' hf' => (hf form' (List.mem_cons_of_mem form hf')).mono h₁

/-- **Related evaluators run the forms of a program alike.** -/
theorem Agree.runForms (h : C.Agree r r') {forms : List Node}
    (hf : ∀ form ∈ forms, form.Within (C.census w)) :
    C.Rel w scope (Program.runForms r forms scope) (Program.runForms r' forms scope)
      Value.Within :=
  andThen (C.elementary (.trace _)) fun _ _ hle =>
    Comparison.evalForms h trivial fun form hform => (hf form hform).mono hle

end Comparison

end Fexpr
