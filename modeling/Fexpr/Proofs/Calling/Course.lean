import Fexpr.Proofs.Permanence
import Fexpr.Proofs.Renaming.Issued

/-!
# Proofs/Calling/Course — the course of a call

A call evaluates its arguments once each, from left to right, and then the callee receives their
values (`Callee.course`).  A call of a curried value goes the same course, but that some arguments
have been evaluated before the curried value was made.  What is left of that is its identity: all
that is given out later is one identity ahead (`exists_rename_detour`).
-/

namespace Fexpr

/-! ## Callees -/

/-- **A function, a bound method or a multi-function.** -/
inductive Callee where
  | function (id : ClosureId)
  | boundMethod (tag : Nat) (id : ClosureId) (receiver : Value)
  | multiFunction (tag : Nat) (alternatives : List ClosureId)

/-- The arguments, evaluated once each and from left to right. -/
def Evaluator.evalEach (r : Evaluator) (scope : ScopeId) (es : List Node) : Eval (List Value) :=
  es.mapM fun e => r.eval e scope

namespace Callee

/-- The callee as a value of the language. -/
def value : Callee → Value
  | .function id => .function id
  | .boundMethod tag id receiver => .boundMethod tag id receiver
  | .multiFunction tag alternatives => .multiFunction tag alternatives

/-- Passes evaluated arguments to the function of a number. -/
def pass (r : Evaluator) (args : Value) (receiver : Option Value) (id : ClosureId) :
    Eval (Option Value) := do
  let f ← Eval.gets fun s => s.store.closure id
  f.receive? r args receiver

/-- **Passes evaluated arguments to a callee.** -/
def receive (r : Evaluator) (g : Callee) (args : Value) : Eval Value :=
  match g with
  | .function id => pass r args none id >>= Eval.orMismatch
  | .boundMethod _ id receiver => pass r args (some receiver) id >>= Eval.orMismatch
  | .multiFunction _ alternatives => Eval.choose (pass r args none) alternatives

/-- The course of a call from where some of the arguments have their values. -/
def resume (r : Evaluator) (g : Callee) (vs : List Value) (es : List Node) (scope : ScopeId) :
    Eval Value := do
  let ws ← r.evalEach scope es
  g.receive r (.ofList (vs ++ ws))

/-- **The course of a call**: every argument is evaluated once, from left to right, and then the
callee receives the values. -/
def course (r : Evaluator) (g : Callee) (es : List Node) (scope : ScopeId) : Eval Value :=
  g.resume r [] es scope

/-- Makes a curried value of the callee. -/
def hold (g : Callee) (args : Value) : Eval Value := do
  let tag ← Eval.allocate (·.freshCurriedTag)
  return .curried tag g.value args

/-- **The course of a call that makes a curried value** when it has evaluated some arguments. -/
def detour (r : Evaluator) (g : Callee) (es es' : List Node) (scope : ScopeId) : Eval Value := do
  let vs ← r.evalEach scope es
  let _ ← Eval.allocate (·.freshCurriedTag)
  g.resume r vs es' scope

/-- Without the curried value this is the course of the call. -/
theorem course_append (r : Evaluator) (g : Callee) (es es' : List Node) (scope : ScopeId) :
    g.course r (es ++ es') scope =
      r.evalEach scope es >>= fun vs => g.resume r vs es' scope := by
  simp only [course, resume, Evaluator.evalEach, List.mapM_append, bind_assoc, pure_bind,
    List.nil_append]

end Callee

/-! ## Related evaluators -/

theorem PlainComparison.readClosure (P : PlainComparison) (id : ClosureId) :
    P.R (Eval.gets fun s => s.store.closure id) (Eval.gets fun s => s.store.closure id) := by
  have hread : Elementary Census.all Arena.root (Eval.gets fun s => s.store.closure id) Anything :=
    .read (fun _ st => st.closure id) Anything fun _ _ _ _ => trivial
  exact P.elementary hread

theorem PlainComparison.orMismatch (P : PlainComparison) (o : Option Value) :
    P.R (Eval.orMismatch o) (Eval.orMismatch o) := by
  cases o with
  | none => exact P.fail _
  | some v => exact P.pure v

namespace PlainComparison.Agree

variable {P : PlainComparison} {r r' : Evaluator}

theorem evalEach (h : P.Agree r r') (scope : ScopeId) (es : List Node) :
    P.R (r.evalEach scope es) (r'.evalEach scope es) := by
  rw [Evaluator.evalEach, Evaluator.evalEach]
  induction es with
  | nil => exact P.pure []
  | cons e es ih =>
    rw [List.mapM_cons, List.mapM_cons]
    exact P.bind (h.eval e scope) fun _ _ => P.bind ih fun _ _ => P.pure _

theorem receive? (h : P.Agree r r') (f : Closure) (args : Value) (receiver : Option Value) :
    P.R (f.receive? r args receiver) (f.receive? r' args receiver) := by
  have hrel : P.toComparison.Rel () Arena.root (f.receive? r args receiver)
      (f.receive? r' args receiver) OptionWithin :=
    Comparison.receive? h.toComparison f.within_all args.within_all fun v _ => v.within_all
  exact hrel.1

theorem receive (h : P.Agree r r') (g : Callee) (args : Value) :
    P.R (g.receive r args) (g.receive r' args) := by
  have hpass : ∀ receiver id,
      P.R (Callee.pass r args receiver id) (Callee.pass r' args receiver id) := fun receiver id =>
    P.bind (P.readClosure id) fun f _ => h.receive? f args receiver
  cases g with
  | function id => exact P.bind (hpass none id) fun o _ => P.orMismatch o
  | boundMethod tag id receiver => exact P.bind (hpass (some receiver) id) fun o _ => P.orMismatch o
  | multiFunction tag alternatives => exact P.choose fun id _ => hpass none id

/-- **Related evaluators go the same course.** -/
theorem resume (h : P.Agree r r') (g : Callee) (vs : List Value) (es : List Node)
    (scope : ScopeId) : P.R (g.resume r vs es scope) (g.resume r' vs es scope) :=
  P.bind (h.evalEach scope es) fun _ _ => h.receive g _

end PlainComparison.Agree

/-- The functions that a call of the callee is about to look up are there. -/
def Callee.ExistsIn (s : State) : Callee → Prop
  | .function id | .boundMethod _ id _ => id < s.store.closures.size
  | .multiFunction _ _ => True

section Permanence

variable {fuel : Nat} {scope : ScopeId} {es : List Node} {cfg : Config} {s t : State}
  {vs : List Value}

/-- **The evaluation of arguments changes no function.** -/
theorem closure_of_evalEach (h : (Evaluator.ofFuel fuel).evalEach scope es cfg s = .ok vs t)
    {id : ClosureId} (hid : id < s.store.closures.size) :
    id < t.store.closures.size ∧ t.store.closure id = s.store.closure id := by
  have hextends : s.Extends t := by
    have hend := (Permanence.agree_ofFuel fuel).evalEach scope es cfg s
    rwa [h] at hend
  have hsame := hextends.closures id hid
  rw [Array.getElem?_eq_getElem hid] at hsame
  refine ⟨(Array.getElem?_eq_some_iff.mp hsame).1, ?_⟩
  rw [Store.closure, Store.closure, Array.getD_eq_getD_getElem?, Array.getD_eq_getD_getElem?,
    hextends.closures id hid]

theorem Callee.ExistsIn.evalEach {g : Callee} (hg : g.ExistsIn s)
    (h : (Evaluator.ofFuel fuel).evalEach scope es cfg s = .ok vs t) : g.ExistsIn t := by
  cases g with
  | function id | boundMethod tag id receiver => exact (closure_of_evalEach h hg).1
  | multiFunction tag alternatives => exact trivial

theorem Callee.ExistsIn.of_closures {g : Callee} (hg : g.ExistsIn s)
    (h : t.store.closures = s.store.closures) : g.ExistsIn t := by
  cases g with
  | function id | boundMethod tag id receiver => exact Nat.lt_of_lt_of_eq hg (by rw [h])
  | multiFunction tag alternatives => exact trivial

end Permanence

/-! ## Other identities -/

open Renaming

def Callee.rename (σ : Nat → Nat) : Callee → Callee
  | .boundMethod tag id receiver => .boundMethod tag id (receiver.rename σ)
  | g => g

theorem Callee.value_rename (σ : Nat → Nat) (g : Callee) :
    (g.rename σ).value = g.value.rename σ := by
  cases g <;> rfl

theorem Callee.value_injective : Function.Injective Callee.value := by
  intro g g' h
  cases g <;> cases g' <;> cases h <;> rfl

namespace Evaluator.Equivariant

variable {ρ : Renaming} {r : Evaluator}

theorem evalEach (h : r.Equivariant ρ) (scope : ScopeId) (es : List Node) :
    ρ.Follows (List.map (Value.rename ρ.tag)) (r.evalEach scope es)
      (r.evalEach scope (es.map (Node.rename ρ.tag))) := by
  rw [Evaluator.evalEach, Evaluator.evalEach]
  induction es with
  | nil => exact .pure
  | cons e es ih =>
    rw [List.map_cons, List.mapM_cons, List.mapM_cons]
    exact (h.eval e scope).bind fun v => ih.map fun _ => rfl

theorem receive (h : r.Equivariant ρ) (g : Callee) (args : Value) :
    ρ.Follows (Value.rename ρ.tag) (g.receive r args)
      ((g.rename ρ.tag).receive r (args.rename ρ.tag)) := by
  have hpass : ∀ receiver id, ρ.Follows (Option.map (Value.rename ρ.tag))
      (Callee.pass r args receiver id)
      (Callee.pass r (args.rename ρ.tag) (receiver.map (Value.rename ρ.tag)) id) :=
    fun receiver id => (readClosure ρ id).bind fun f => receive? h f args receiver
  cases g with
  | function id => exact (hpass none id).bind Follows.orMismatch
  | boundMethod tag id receiver => exact (hpass (some receiver) id).bind Follows.orMismatch
  | multiFunction tag alternatives => exact .choose alternatives fun id => hpass none id

/-- **The course of a call under other identities.** -/
theorem resume (h : r.Equivariant ρ) (g : Callee) (vs : List Value) (es : List Node)
    (scope : ScopeId) :
    ρ.Follows (Value.rename ρ.tag) (g.resume r vs es scope)
      ((g.rename ρ.tag).resume r (vs.map (Value.rename ρ.tag)) (es.map (Node.rename ρ.tag))
        scope) := by
  refine (h.evalEach scope es).bind fun ws => ?_
  have hreceive := h.receive g (.ofList (vs ++ ws))
  rw [Value.rename_ofList, List.map_append] at hreceive
  exact hreceive

end Evaluator.Equivariant

/-- Fuel does not look at identities. -/
theorem equivariant_ofFuel {ρ : Renaming} (hρ : Function.Injective ρ.tag) (fuel : Nat) :
    (Evaluator.ofFuel fuel).Equivariant ρ := by
  rw [← Evaluator.until_never]
  exact equivariant_until hρ (fun _ _ => rfl) fuel

/-! ## One identity ahead -/

/-- **Passes over one identity**: all later ones are one ahead. -/
def Renaming.skip (m : Nat) : Renaming where
  tag n := if n < m then n else n + 1
  ahead := 1

theorem spares_skip (m : Nat) : Spares (skip m).tag m where
  injective n n' h := by
    simp only [skip] at h
    split at h <;> split at h <;> omega
  fixes n hn := if_pos hn

/-- A state whose identities have all been given out, with one more of them. -/
theorem State.Issued.rename_skip {s : State} (hs : s.Issued) :
    s.rename (skip s.issued) = { s with store := s.store.freshCurriedTag.2 } := by
  have hsame := hs (skip s.issued).tag (spares_skip s.issued)
  have harena : s.arena.map (Value.rename (skip s.issued).tag) = s.arena :=
    congrArg State.arena hsame
  have hstore : { s.store.rename ⟨(skip s.issued).tag, 0⟩ with
      nextCurriedTag := s.store.nextCurriedTag + 1 } = s.store.freshCurriedTag.2 :=
    congrArg (fun st : State => { st.store with nextCurriedTag := s.store.nextCurriedTag + 1 }) hsame
  have hrename : s.store.rename (skip s.issued) = s.store.freshCurriedTag.2 := hstore
  rw [State.rename, harena, hrename]

/-- **What starts from identities that have been given out ends in such ones.** -/
theorem State.Issued.ends {α : Type} {f : (Nat → Nat) → α → α} {x : Eval α} {cfg : Config}
    {s t : State} {a : α} (hs : s.Issued)
    (hx : ∀ σ, Spares σ s.issued → Follows ⟨σ, 0⟩ (f σ) x x) (ha : x cfg s = .ok a t) :
    s.issued ≤ t.issued ∧ t.Issued ∧ ∀ σ, Spares σ t.issued → f σ a = a := by
  have hle : s.issued ≤ t.issued := by
    have h := (hx id ⟨Function.injective_id, fun _ _ => rfl⟩ cfg s).1
    rwa [ha] at h
  have hfixed : ∀ σ, Spares σ t.issued → f σ a = a ∧ t.rename ⟨σ, 0⟩ = t := by
    intro σ hσ
    have h : (x cfg s).rename ⟨σ, 0⟩ (f σ) = x cfg s :=
      (hx σ (hσ.mono hle)).fixed (hs σ (hσ.mono hle)) (by rw [ha]; exact hσ.shifts s.issued)
    rw [ha] at h
    injection h with hvalue hstate
    exact ⟨hvalue, hstate⟩
  exact ⟨hle, fun σ hσ => (hfixed σ hσ).2, fun σ hσ => (hfixed σ hσ).1⟩

theorem State.Issued.eval {cfg : Config} {s t : State} (hs : s.Issued) {node : Node}
    (hnode : node.Issued s.issued) {fuel : Nat} {scope : ScopeId} {v : Value}
    (h : (Evaluator.ofFuel fuel).eval node scope cfg s = .ok v t) :
    s.issued ≤ t.issued ∧ t.Issued ∧ v.Issued t.issued := by
  refine hs.ends (f := Value.rename) (fun σ hσ => ?_) h
  have hequivariant : (Evaluator.ofFuel fuel).Equivariant ⟨σ, 0⟩ :=
    equivariant_ofFuel hσ.injective fuel
  have hfollows := hequivariant.eval node scope
  rwa [hnode σ hσ] at hfollows

theorem State.Issued.evalEach {cfg : Config} {s t : State} (hs : s.Issued) {es : List Node}
    (hes : ∀ e ∈ es, e.Issued s.issued) {fuel : Nat} {scope : ScopeId} {vs : List Value}
    (h : (Evaluator.ofFuel fuel).evalEach scope es cfg s = .ok vs t) :
    s.issued ≤ t.issued ∧ t.Issued ∧
      ∀ σ, Spares σ t.issued → vs.map (Value.rename σ) = vs := by
  refine hs.ends (f := fun σ => List.map (Value.rename σ)) (fun σ hσ => ?_) h
  have hequivariant : (Evaluator.ofFuel fuel).Equivariant ⟨σ, 0⟩ :=
    equivariant_ofFuel hσ.injective fuel
  have hfollows := hequivariant.evalEach scope es
  rwa [List.map_congr_left fun e he => hes e he σ hσ, List.map_id'] at hfollows

/-- The renaming changes nothing, or it passes over one identity that was still to come. -/
def Renaming.PassesOver (ρ : Renaming) (n : Nat) : Prop :=
  ρ = .refl ∨ ∃ m, n ≤ m ∧ ρ = skip m

theorem Outcome.rename_refl (o : Outcome RunError Value) :
    o.rename .refl (Value.rename Renaming.refl.tag) = o := by
  have hvalue : ∀ v : Value, v.rename Renaming.refl.tag = v := Value.rename_id
  have herror : ∀ e : RunError, e.rename Renaming.refl.tag = e := RunError.rename_id
  have hmoment : ∀ m : Moment, m.rename Renaming.refl.tag = m := Moment.rename_id
  cases o <;> simp only [Outcome.rename, State.rename_refl, hvalue, herror, hmoment]

/-- **The detour over a curried value ends as the course of the call**, with everything that is made
after the curried value one identity ahead. -/
theorem exists_rename_detour (cfg : Config) {s : State} (hs : s.Issued) {g : Callee}
    (hg : g.value.Issued s.issued) {es es' : List Node}
    (hes : ∀ e ∈ es ++ es', e.Issued s.issued) (fuel : Nat) (scope : ScopeId) :
    ∃ ρ : Renaming, ρ.PassesOver s.issued ∧
      g.detour (.ofFuel fuel) es es' scope cfg s =
        (g.course (.ofFuel fuel) (es ++ es') scope cfg s).rename ρ (Value.rename ρ.tag) := by
  rw [Callee.course_append, Callee.detour, Eval.bind_apply, Eval.bind_apply]
  cases hvs : (Evaluator.ofFuel fuel).evalEach scope es cfg s with
  | error e t | stopped m t => exact ⟨.refl, Or.inl rfl, (Outcome.rename_refl _).symm⟩
  | ok vs t =>
    obtain ⟨hle, ht, hvalues⟩ := hs.evalEach
      (fun e he => hes e (List.mem_append_left es' he)) hvs
    refine ⟨skip t.issued, Or.inr ⟨t.issued, hle, rfl⟩, ?_⟩
    have hspares := spares_skip t.issued
    -- what is left of the call, under the renaming, is itself
    have hresume := (equivariant_ofFuel hspares.injective fuel).resume g vs es' scope
    have hcallee : g.rename (skip t.issued).tag = g :=
      Callee.value_injective ((g.value_rename _).trans (hg _ (hspares.mono hle)))
    rw [hcallee, hvalues _ hspares, List.map_congr_left fun e he =>
      hes e (List.mem_append_right es he) _ (hspares.mono hle), List.map_id'] at hresume
    have hend := (hresume cfg t).2 fun tag htag _ => if_neg (Nat.not_lt.mpr htag)
    rw [ht.rename_skip] at hend
    exact hend

end Fexpr
