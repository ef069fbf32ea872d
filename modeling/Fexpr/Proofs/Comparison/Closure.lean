import Fexpr.Proofs.Comparison.Pattern

/-!
# Proofs/Comparison/Closure — related evaluators make and call functions alike

A function is made in the scope at hand, which is captured first; that is what entitles the new
record to hold on to it.  A call goes on in a frame below the function's own scope.
-/

namespace Fexpr

theorem Node.Within.bodyForms {N : Census} {body : Node} {forms : List Node} (h : body.Within N)
    (hf : body.bodyForms = .ok forms) : ∀ form ∈ forms, form.Within N := by
  rw [Node.bodyForms.eq_def] at hf
  split at hf
  · cases hf
    exact h.elements.1
  · cases hf

/-- Functions by their numbers. -/
def ClosuresWithin (N : Census) (ids : List ClosureId) : Prop :=
  ∀ id ∈ ids, N.closure id

open Congruence (andThen ofExcept orMismatch)

namespace Comparison

variable {C : Comparison} {r r' : Evaluator} {w : C.World} {scope : ScopeId}

/-! ## Making -/

theorem makeClosure (h : C.Agree r r') {pattern body : Node} (hp : pattern.Within (C.census w))
    (hb : body.Within (C.census w)) :
    C.Rel w scope (Closure.make r pattern body scope) (Closure.make r' pattern body scope)
      Census.closure := by
  refine C.bind (build h pattern hp) fun w₁ p h₁ hp => ?_
  refine C.bind (ofExcept (Φ := fun N forms => ∀ form ∈ forms, form.Within N) fun _ hf =>
    (hb.mono h₁).bodyForms hf) fun w₂ forms h₂ hforms => ?_
  refine C.bind (C.elementary .capture) fun w₃ _ h₃ hscope => ?_
  exact C.elementary <| .addClosure
    ⟨(hp.mono h₂).mono h₃, fun form hf => (hforms form hf).mono h₃, hscope⟩

theorem ofArguments (h : C.Agree r r') {arg : Node} (ha : arg.Within (C.census w)) :
    C.Rel w scope (Closure.ofArguments r arg scope) (Closure.ofArguments r' arg scope)
      Census.closure := by
  rw [Closure.ofArguments, Closure.ofArguments]
  split
  · next pattern body hs => exact makeClosure h (ha.split hs).1 (ha.split hs).2
  · exact C.fail

theorem shorthand {arg : Node} (ha : arg.Within (C.census w)) :
    C.Rel w scope (Closure.shorthand arg scope) (Closure.shorthand arg scope) Census.closure := by
  refine C.bind (C.elementary .capture) fun w' _ hle hscope => ?_
  refine C.elementary (.addClosure ⟨trivial, fun form hf => ?_, hscope⟩)
  split at hf
  · next head args hs =>
    rw [List.mem_singleton] at hf
    exact hf ▸ ⟨(ha.split hs).1.mono hle, (ha.split hs).2.mono hle⟩
  · exact absurd hf List.not_mem_nil

theorem makeAll (h : C.Agree r r') {alternatives : List Node}
    (ha : ∀ n ∈ alternatives, n.Within (C.census w)) :
    C.Rel w scope (Closure.makeAll r scope alternatives) (Closure.makeAll r' scope alternatives)
      ClosuresWithin := by
  induction alternatives generalizing w with
  | nil => exact C.pure fun _ hid => absurd hid List.not_mem_nil
  | cons alternative alternatives ih =>
    have hhead := ha alternative List.mem_cons_self
    rw [Closure.makeAll, Closure.makeAll]
    split
    · next pattern body hs =>
      refine C.bind (makeClosure h (hhead.split hs).1 (hhead.split hs).2) fun w₁ id h₁ hid => ?_
      refine C.bind (ih fun n hn => (ha n (List.mem_cons_of_mem _ hn)).mono h₁)
        fun w₂ ids h₂ hids => ?_
      refine C.pure fun c hc => ?_
      rcases List.mem_cons.mp hc with rfl | hc
      · exact Census.closure_mono h₂ hid
      · exact hids c hc
    · exact C.fail

/-! ## Calling -/

theorem bindReceiver {frame : ScopeId} {receiver : Option Value}
    (hr : OptionWithin (C.census w) receiver) :
    C.Rel w frame (Closure.bindReceiver frame receiver) (Closure.bindReceiver frame receiver)
      Anything := by
  cases receiver with
  | none => exact C.pure trivial
  | some v => exact C.elementary (.bind .inward frame "this" (optionWithin_some.mp hr))

theorem runForms (h : C.Agree r r') {frame : ScopeId} {latest : Value} {forms : List Node}
    (hl : latest.Within (C.census w)) (hf : ∀ form ∈ forms, form.Within (C.census w)) :
    C.Rel w frame (Closure.runForms r frame latest forms) (Closure.runForms r' frame latest forms)
      Value.Within := by
  induction forms generalizing w latest with
  | nil => exact C.pure hl
  | cons form forms ih =>
    refine C.bind (h.eval w frame (hf form List.mem_cons_self)) fun w₁ v h₁ hv => ?_
    refine andThen (C.elementary (.bind .inward frame "-" hv)) fun w₂ _ h₂ => ?_
    exact ih (hv.mono h₂) fun form' hf' =>
      ((hf form' (List.mem_cons_of_mem form hf')).mono h₁).mono h₂

theorem runBody (h : C.Agree r r') {frame : ScopeId} {f : Closure} (hf : f.Within (C.census w)) :
    C.Rel w frame (f.runBody r frame) (f.runBody r' frame) Value.Within := by
  refine andThen (C.read fun a _ => a.has frame "-") fun w₁ bound h₁ => ?_
  have hforms : ∀ w₂ : C.World, C.census w₁ ≤ C.census w₂ →
      C.Rel w₂ frame (Closure.runForms r frame .void f.body)
        (Closure.runForms r' frame .void f.body) Value.Within := fun w₂ h₂ =>
    runForms h trivial fun form hform => ((hf.2.1 form hform).mono h₁).mono h₂
  cases bound with
  | true => exact hforms w₁ le_rfl
  | false =>
    exact andThen (C.elementary (.bind .inward frame "-" (v := .void) trivial)) fun w₂ _ h₂ =>
      hforms w₂ h₂

/-- **Related evaluators let a function receive its arguments alike**, in a frame below its
scope. -/
theorem receive? (h : C.Agree r r') {f : Closure} {target : Value} {receiver : Option Value}
    (hf : f.Within (C.census w)) (ht : target.Within (C.census w))
    (hr : OptionWithin (C.census w) receiver) :
    C.Rel w scope (f.receive? r target receiver) (f.receive? r' target receiver) OptionWithin := by
  refine C.withFrame (.inr hf.2.2) upward_optionWithin fun w₁ frame h₁ => ?_
  refine andThen (bindReceiver fun v hv => (hr v hv).mono h₁) fun w₂ _ h₂ => ?_
  have hf₂ := (hf.mono h₁).mono h₂
  have ht₂ := optionWithin_some.mpr ((ht.mono h₁).mono h₂)
  refine andThen (matchWith h f.pattern hf₂.1 ht₂) fun w₃ accepted h₃ => ?_
  cases accepted with
  | true => exact C.map (runBody h (hf₂.mono h₃)) fun _ _ hv => optionWithin_some.mpr hv
  | false => exact C.pure optionWithin_none

/-- **Related evaluators call a function alike.** -/
theorem call? (h : C.Agree r r') {f : Closure} {arg : Node} {receiver : Option Value}
    (hf : f.Within (C.census w)) (ha : arg.Within (C.census w))
    (hr : OptionWithin (C.census w) receiver) :
    C.Rel w scope (f.call? r arg scope receiver) (f.call? r' arg scope receiver) OptionWithin :=
  C.bind (h.eval w scope ha) fun _ _ hle htarget =>
    receive? h (hf.mono hle) htarget fun v hv => (hr v hv).mono hle

/-- Looking a function up by its number. -/
theorem readClosure {id : ClosureId} (hid : (C.census w).closure id) :
    C.Rel w scope (Eval.gets fun s => s.store.closure id) (Eval.gets fun s => s.store.closure id)
      Closure.Within :=
  C.elementary (.read (fun _ st => st.closure id) _ fun _ _ _ hst => hst.closure id hid)

theorem invoke (h : C.Agree r r') {id : ClosureId} {arg : Node} {receiver : Option Value}
    (hid : (C.census w).closure id) (ha : arg.Within (C.census w))
    (hr : OptionWithin (C.census w) receiver) :
    C.Rel w scope
      (do
        let f ← Eval.gets fun s => s.store.closure id
        f.invoke r arg scope receiver)
      (do
        let f ← Eval.gets fun s => s.store.closure id
        f.invoke r' arg scope receiver) Value.Within := by
  refine C.bind (readClosure hid) fun w₁ f h₁ hf => ?_
  rw [Closure.invoke_eq, Closure.invoke_eq]
  exact C.bind (call? h hf (ha.mono h₁) fun v hv => (hr v hv).mono h₁) fun w₂ _ _ ho =>
    orMismatch ho

theorem alternative (h : C.Agree r r') {id : ClosureId} {arg : Node}
    (hid : (C.census w).closure id) (ha : arg.Within (C.census w)) :
    C.Rel w scope (Closure.alternative r arg scope id) (Closure.alternative r' arg scope id)
      OptionWithin :=
  C.bind (readClosure hid) fun _ _ h₁ hf => call? h hf (ha.mono h₁) optionWithin_none

/-- **Related evaluators call a multi-function alike.** -/
theorem invokeAny (h : C.Agree r r') {alternatives : List ClosureId} {arg : Node}
    (hids : ClosuresWithin (C.census w) alternatives) (ha : arg.Within (C.census w)) :
    C.Rel w scope (Closure.invokeAny r alternatives arg scope)
      (Closure.invokeAny r' alternatives arg scope) Value.Within := by
  rw [Closure.invokeAny_eq, Closure.invokeAny_eq]
  refine C.bind (h.eval w scope ha) fun w₁ args h₁ hargs => ?_
  refine C.choose fun w₂ id hid h₂ => ?_
  have hid₂ := Census.closure_mono h₂ (Census.closure_mono h₁ (hids id hid))
  have hargs₂ : (Node.quoted args).Within (C.census w₂) := hargs.mono h₂
  exact alternative h hid₂ hargs₂

end Comparison

end Fexpr
