import Fexpr.Proofs.Anchoring.Session
import Fexpr.Proofs.Calling.Course
import Fexpr.Proofs.Nearness
import Fexpr.Proofs.Reader.Rests
import Fexpr.Reader

/-!
# Proofs/Calling/Ways — four ways of calling a callee

`(F e₁ … eₙ)`, `(call F e₁ … eₙ)`, `(apply F [e₁ … eₙ])` and `((curry F e₁ … eₖ) eₖ₊₁ … eₙ)` get the
arguments to the callee by different routes: values are put back into argument lists, as quoted
nodes, and evaluated once more there.  A quoted node has its value at once and without an effect
(`near_value`), so each way is near the course of the call (`Way.near_course`).
-/

namespace Fexpr

/-! ## The ways -/

/-- **A way of calling.** -/
inductive Way where
  /-- `(F e₁ … eₙ)` -/
  | direct
  /-- `(call F e₁ … eₙ)` -/
  | call
  /-- `(apply F [e₁ … eₙ])` -/
  | apply
  /-- `((curry F e₁ … eₖ) eₖ₊₁ … eₙ)` -/
  | curry (k : Nat)

namespace Way

/-- `[e₁ … eₙ]` -/
def brackets : List Node → Node
  | [] => .nil
  | e :: es => .call (.value "_list" (.builtin .list)) (e :: es)

/-- The brackets are what the reader makes of them. -/
theorem construct_list (es : List Node) :
    Bracket.construct .list (es.map .node) = .ok (brackets es) := by
  cases es with
  | nil => rfl
  | cons e es =>
    have hspine := (Item.IsSpine.proper (e :: es)).toSpine_eq
    rw [Bracket.construct, List.map_cons, List.isEmpty_cons, Bool.false_and]
    change (Item.toSpine ((e :: es).map .node) >>= fun args => pure (Node.form _ args)) = _
    rw [hspine]
    rfl

/-- **The form that calls `F` with `es`.** -/
def node (F : Node) (es : List Node) : Way → Node
  | .direct => .call F es
  | .call => .call (.identifier "call") (F :: es)
  | .apply => .call (.identifier "apply") [F, brackets es]
  | .curry k => .call (.call (.identifier "curry") (F :: es.take k)) (es.drop k)

/-- The primitive that the form names. -/
def primitive? : Way → Option Builtin
  | .direct => none
  | .call => some .call
  | .apply => some .apply
  | .curry _ => some .curry

/-- **The name that the form uses has its first meaning** in the scope. -/
def Named (w : Way) (s : State) (scope : ScopeId) : Prop :=
  ∀ b ∈ w.primitive?, s.arena.get? scope b.name = some (.builtin b)

/-- The course that the callee goes with its arguments. -/
def course (w : Way) (r : Evaluator) (g : Callee) (es : List Node) (scope : ScopeId) :
    Eval Value :=
  match w with
  | .curry k => g.detour r (es.take k) (es.drop k) scope
  | _ => g.course r es scope

end Way

/-! ## What is evaluated at once -/

open Excuses

variable {E : Excuses} {cfg : Config} {s' : State} {u : ScopeId} {n : Nat} {α : Type}

section Values

theorem near_value (label : String) (v : Value) :
    E.NearFrom cfg s' ((Evaluator.until atLimit (n + 1)).eval (.value label v) u) (pure v) :=
  NearFrom.evaluating (fun _ hs _ => Meets.alike (.ok hs) rfl rfl) _ u

theorem near_nil :
    E.NearFrom cfg s' ((Evaluator.until atLimit (n + 1)).eval .nil u) (pure .nil) :=
  NearFrom.evaluating (fun _ hs _ => Meets.alike (.ok hs) rfl rfl) _ u

/-- A name whose value is known. -/
theorem near_identifier {name : String} {v : Value} (h : s'.arena.get? u name = some v) :
    E.NearFrom cfg s' ((Evaluator.until atLimit (n + 1)).eval (.identifier name) u) (pure v) := by
  refine NearFrom.evaluating (x := Eval.lookup u name) (fun s hs _ => ?_) _ u
  rw [Eval.lookup, hs.arena, h]
  exact Meets.alike (.ok hs) rfl rfl

end Values

/-! ## Arguments that are handed on -/

section Arguments

variable {m : Nat} {vs : List Value} {es : List Node}

/-- **Values that were put back into an argument list are there again**, and what is still
unevaluated is evaluated in its turn. -/
theorem near_spine (hr : E.comparison.Agree (.until atLimit (n + 1)) (.ofFuel m)) :
    E.NearFrom cfg s' (evalSpine (.until atLimit (n + 1)) u (.spine (vs.map .quoted ++ es) .nil))
      ((Evaluator.ofFuel m).evalEach u es >>= fun ws => pure (.ofList (vs ++ ws))) := by
  induction vs generalizing s' with
  | nil =>
    rw [Evaluator.evalEach]
    induction es generalizing s' with
    | nil => exact near_nil
    | cons e es ih =>
      rw [List.mapM_cons, bind_assoc]
      refine NearFrom.bind (hr.eval e u cfg s') fun v t' _ => ?_
      have hrest := (@ih t').bind fun w t'' _ => near_pure (Value.pair v w) cfg t''
      simp only [bind_assoc, pure_bind] at hrest ⊢
      exact hrest
  | cons v vs ih =>
    have hrest := (@ih s').bind fun w t' _ => near_pure (Value.pair v w) cfg t'
    simp only [bind_assoc, pure_bind] at hrest
    exact NearFrom.absorb (near_value _ v) hrest

theorem near_values (hr : E.comparison.Agree (.until atLimit (n + 1)) (.ofFuel m))
    (vs : List Value) (es : List Node) :
    E.NearFrom cfg s'
      ((Evaluator.until atLimit (n + 2)).eval (.spine (vs.map .quoted ++ es) .nil) u)
      ((Evaluator.ofFuel m).evalEach u es >>= fun ws => pure (.ofList (vs ++ ws))) := by
  refine NearFrom.evaluating ?_ _ u
  match vs, es with
  | [], [] => exact near_pure Value.nil cfg s'
  | v :: vs, es => exact near_spine hr
  | [], e :: es => exact near_spine hr

/-- **What goes on with an argument list that is evaluated** goes on with the values. -/
theorem near_arguments (hr : E.comparison.Agree (.until atLimit (n + 1)) (.ofFuel m))
    (vs : List Value) (es : List Node) (k k' : Value → Eval α)
    (hk : ∀ ws t', (Evaluator.ofFuel m).evalEach u es cfg s' = .ok ws t' →
      E.NearFrom cfg t' (k (.ofList (vs ++ ws))) (k' (.ofList (vs ++ ws)))) :
    E.NearFrom cfg s'
      ((Evaluator.until atLimit (n + 2)).eval (.spine (vs.map .quoted ++ es) .nil) u >>= k)
      ((Evaluator.ofFuel m).evalEach u es >>= fun ws => k' (.ofList (vs ++ ws))) := by
  have hbind : E.NearFrom cfg s' (_ >>= k) (_ >>= k') :=
    (near_values hr vs es).bind fun args t' hargs => by
      obtain ⟨ws, t, hws, hpure⟩ := Eval.bind_eq_ok hargs
      cases hpure
      exact hk ws _ hws
  simpa only [bind_assoc, pure_bind] using hbind

end Arguments

/-! ## Callees that are called -/

/-- What is within the census of a state is there. -/
theorem Callee.ExistsIn.of_within {s : State} {g : Callee} (h : g.value.Within s.census) :
    g.ExistsIn s := by
  cases g with
  | function id => exact h
  | boundMethod tag id receiver => exact h.1
  | multiFunction tag alternatives => exact trivial

section Calls

variable {m : Nat} {g : Callee} {vs : List Value} {es : List Node}

/-- Where the callee is a single function. -/
theorem near_invoke (h₁ : E.comparison.Agree (.until atLimit (n + 1)) (.ofFuel m))
    (h₂ : E.comparison.Agree (.until atLimit (n + 2)) (.ofFuel m)) {id : ClosureId}
    (hid : id < s'.store.closures.size) (receiver : Option Value) :
    E.NearFrom cfg s'
      (do
        let f ← Eval.gets fun s => s.store.closure id
        f.invoke (.until atLimit (n + 2)) (.spine (vs.map .quoted ++ es) .nil) u receiver)
      ((Evaluator.ofFuel m).evalEach u es >>= fun ws =>
        Callee.pass (.ofFuel m) (.ofList (vs ++ ws)) receiver id >>= Eval.orMismatch) := by
  refine NearFrom.reads (p := fun st => st.closure id) ?_
  rw [Closure.invoke_eq, Closure.call?_eq, bind_assoc]
  refine near_arguments h₁ vs es _ (fun args => Callee.pass (.ofFuel m) args receiver id >>=
    Eval.orMismatch) fun ws t' hws => ?_
  -- the function is looked up before the arguments are evaluated, which does not change it
  have hclosure := (closure_of_evalEach hws hid).2
  have hreceive : E.Near
      ((s'.store.closure id).receive? (.until atLimit (n + 2)) (.ofList (vs ++ ws)) receiver >>=
        Eval.orMismatch)
      ((s'.store.closure id).receive? (.ofFuel m) (.ofList (vs ++ ws)) receiver >>=
        Eval.orMismatch) :=
    near_bind (h₂.receive? _ _ _) fun o _ => E.comparison.orMismatch o
  rw [← hclosure] at hreceive ⊢
  exact hreceive cfg t'

/-- **A callee that is called goes its course**, whatever of the arguments has been evaluated. -/
theorem near_call (h₁ : E.comparison.Agree (.until atLimit (n + 1)) (.ofFuel m))
    (h₂ : E.comparison.Agree (.until atLimit (n + 2)) (.ofFuel m)) (hg : g.ExistsIn s')
    (vs : List Value) (es : List Node) :
    E.NearFrom cfg s'
      ((Evaluator.until atLimit (n + 3)).call g.value (.spine (vs.map .quoted ++ es) .nil) u)
      (g.resume (.ofFuel m) vs es u) := by
  refine NearFrom.calling (NearFrom.absorb (near_trace _) ?_) _ _ u
  cases g with
  | function id => exact near_invoke h₁ h₂ hg none
  | boundMethod tag id receiver => exact near_invoke h₁ h₂ hg (some receiver)
  | multiFunction tag alternatives =>
    change E.NearFrom cfg s' (Closure.invokeAny _ _ _ _) _
    rw [Closure.invokeAny_eq]
    refine near_arguments h₁ vs es _ (fun args => Eval.choose (Callee.pass (.ofFuel m) args none)
      alternatives) fun ws t' _ => ?_
    refine E.comparison.choose (fun id _ => ?_) cfg t'
    refine near_bind (E.comparison.readClosure id) fun f _ cfg t'' => ?_
    rw [Closure.call?_eq]
    exact NearFrom.absorb (near_value _ _) (h₂.receive? f _ none cfg t'')

/-- The callee is evaluated first. -/
theorem near_callee {F : Node} {t : State}
    (hr : E.comparison.Agree (.until atLimit n) (.ofFuel m))
    (hF : (Evaluator.ofFuel m).eval F u cfg s' = .ok g.value t) {k : Value → Eval α} {z : Eval α}
    (hk : E.NearFrom cfg t (k g.value) z) :
    E.NearFrom cfg s' ((Evaluator.until atLimit n).eval F u >>= k)
      ((Evaluator.ofFuel m).eval F u >>= fun _ => z) :=
  NearFrom.bind (hr.eval F u cfg s') fun v t' hv => by
    rw [hF] at hv
    cases hv
    exact hk

end Calls

/-! ## Each way of calling -/

section Forms

variable {m : Nat} {F : Node} {g : Callee} {es : List Node} {t : State}

/-- A primitive that is called by its name. -/
theorem near_named {name : String} {b : Builtin} {args : Node} {y : Eval Value}
    (hb : s'.arena.get? u name = some (.builtin b))
    (h : E.NearFrom cfg s' (b.run (.until atLimit n) args u) y) :
    E.NearFrom cfg s'
      ((Evaluator.until atLimit (n + 2)).eval (.form (.identifier name) args) u) y :=
  NearFrom.evaluating (NearFrom.absorb (near_identifier hb)
    (NearFrom.calling (NearFrom.absorb (near_trace _) h) _ _ u)) _ u

/-- The callee and then its arguments. -/
theorem near_form (h₁ : E.comparison.Agree (.until atLimit (n + 1)) (.ofFuel m))
    (h₂ : E.comparison.Agree (.until atLimit (n + 2)) (.ofFuel m))
    (h₃ : E.comparison.Agree (.until atLimit (n + 3)) (.ofFuel m))
    (hF : (Evaluator.ofFuel m).eval F u cfg s' = .ok g.value t) (hg : g.ExistsIn t) :
    E.NearFrom cfg s'
      ((Evaluator.until atLimit (n + 3)).eval F u >>= fun v =>
        (Evaluator.until atLimit (n + 3)).call v (.spine es .nil) u)
      ((Evaluator.ofFuel m).eval F u >>= fun _ => g.course (.ofFuel m) es u) :=
  near_callee h₃ hF (near_call h₁ h₂ hg [] es)

/-- A bracketed list is evaluated as an argument list is. -/
theorem near_brackets (h : E.comparison.Agree (.until atLimit (n + 1)) (.ofFuel m)) :
    E.NearFrom cfg s' ((Evaluator.until atLimit (n + 4)).eval (Way.brackets es) u)
      ((Evaluator.ofFuel m).evalEach u es >>= fun ws => pure (.ofList ws)) := by
  cases es with
  | nil => exact near_nil
  | cons e es =>
    exact NearFrom.evaluating (NearFrom.absorb (near_value _ _)
      (NearFrom.calling (NearFrom.absorb (near_trace _) (near_values h [] (e :: es))) _ _ u)) _ u

theorem near_apply (h₁ : E.comparison.Agree (.until atLimit (n + 1)) (.ofFuel m))
    (h₂ : E.comparison.Agree (.until atLimit (n + 2)) (.ofFuel m))
    (h₃ : E.comparison.Agree (.until atLimit (n + 3)) (.ofFuel m))
    (h₄ : E.comparison.Agree (.until atLimit (n + 4)) (.ofFuel m))
    (hF : (Evaluator.ofFuel m).eval F u cfg s' = .ok g.value t) (hg : g.ExistsIn t) :
    E.NearFrom cfg s'
      (Builtin.run (.until atLimit (n + 4)) .apply (.spine [F, Way.brackets es] .nil) u)
      ((Evaluator.ofFuel m).eval F u >>= fun _ => g.course (.ofFuel m) es u) := by
  change E.NearFrom cfg s'
    (((Evaluator.until atLimit (n + 4)).eval F u >>= fun v =>
        (Evaluator.until atLimit (n + 4)).eval (Way.brackets es) u >>= fun w => pure (v, w)) >>=
      fun p => (Evaluator.until atLimit (n + 4)).call p.1 (Node.quote p.2) u) _
  simp only [bind_assoc, pure_bind]
  refine near_callee h₄ hF ?_
  have hcourse : g.course (.ofFuel m) es u =
      ((Evaluator.ofFuel m).evalEach u es >>= fun ws => pure (.ofList ws)) >>=
        g.receive (.ofFuel m) := by
    simp only [Callee.course, Callee.resume, List.nil_append, bind_assoc, pure_bind]
  rw [hcourse]
  refine (near_brackets h₁).bind fun args t' hargs => ?_
  obtain ⟨ws, _, hws, hpure⟩ := Eval.bind_eq_ok hargs
  cases hpure
  have hcall : E.NearFrom cfg t' ((Evaluator.until atLimit (n + 4)).call g.value
      (.spine (ws.map .quoted ++ []) .nil) u) (g.resume (.ofFuel m) ws [] u) :=
    near_call h₂ h₃ (hg.evalEach hws) ws []
  rw [Node.quote, Value.elements_ofList]
  simpa only [Callee.resume, Evaluator.evalEach, List.mapM_nil, pure_bind, List.append_nil]
    using hcall

/-! ### Currying -/

/-- The form that makes a curried value. -/
theorem near_curry (h₂ : E.comparison.Agree (.until atLimit (n + 2)) (.ofFuel m))
    (h₃ : E.comparison.Agree (.until atLimit (n + 3)) (.ofFuel m))
    (hF : (Evaluator.ofFuel m).eval F u cfg s' = .ok g.value t) :
    E.NearFrom cfg s' (Builtin.run (.until atLimit (n + 3)) .curry (.spine (F :: es) .nil) u)
      ((Evaluator.ofFuel m).eval F u >>= fun _ => (Evaluator.ofFuel m).evalEach u es >>= fun vs =>
        g.hold (.ofList vs)) := by
  refine near_callee h₃ hF (near_arguments h₂ [] es _ g.hold fun ws t' _ => ?_)
  have hfresh : Elementary Census.all u (Eval.allocate (·.freshCurriedTag)) Anything :=
    .freshCurriedTag
  exact E.congruence.bind (E.congruence.elementary hfresh)
    (fun tag _ => near_pure (Value.curried tag g.value _)) cfg t'

/-- The arguments that a curried value holds. -/
def Value.held : Value → List Value
  | .curried _ _ args => args.elements.1
  | _ => []

/-- The detour makes a curried value and goes on from the arguments that it holds. -/
theorem Callee.detour_eq (r : Evaluator) (g : Callee) (es es' : List Node) (scope : ScopeId) :
    g.detour r es es' scope =
      (r.evalEach scope es >>= fun vs => g.hold (.ofList vs)) >>= fun v =>
        g.resume r v.held es' scope := by
  simp only [detour, hold, bind_assoc, pure_bind, Value.held, Value.elements_ofList]

/-- **A curried value is called with the arguments it holds and then the others.** -/
theorem near_curried (h₂ : E.comparison.Agree (.until atLimit (n + 2)) (.ofFuel m))
    (h₃ : E.comparison.Agree (.until atLimit (n + 3)) (.ofFuel m)) (hg : g.ExistsIn s') (tag : Nat)
    (vs : List Value) (es : List Node) :
    E.NearFrom cfg s'
      ((Evaluator.until atLimit (n + 5)).call (.curried tag g.value (.ofList vs))
        (.spine es .nil) u) (g.resume (.ofFuel m) vs es u) := by
  have hcall : E.NearFrom cfg s' ((Evaluator.until atLimit (n + 4)).call g.value
      (.spine (vs.map .quoted ++ es) .nil) u) (g.resume (.ofFuel m) vs es u) :=
    near_call h₂ h₃ hg vs es
  rw [Node.spine_append] at hcall
  have hquote : Node.quoteBefore (.ofList vs) (.spine es .nil) =
      .spine (vs.map .quoted) (.spine es .nil) := by
    rw [Node.quoteBefore, Value.elements_ofList]
  rw [← hquote] at hcall
  exact NearFrom.calling (NearFrom.absorb (near_trace _) hcall) _ _ u

/-- A curried value is made and called. -/
theorem near_detour (h₂ : E.comparison.Agree (.until atLimit (n + 2)) (.ofFuel m))
    (h₃ : E.comparison.Agree (.until atLimit (n + 3)) (.ofFuel m))
    (hname : s'.arena.get? u "curry" = some (.builtin .curry))
    (hF : (Evaluator.ofFuel m).eval F u cfg s' = .ok g.value t) (hg : g.ExistsIn t)
    (es es' : List Node) :
    E.NearFrom cfg s'
      ((Evaluator.until atLimit (n + 5)).eval (.call (.identifier "curry") (F :: es)) u >>= fun v =>
        (Evaluator.until atLimit (n + 5)).call v (.spine es' .nil) u)
      ((Evaluator.ofFuel m).eval F u >>= fun _ => g.detour (.ofFuel m) es es' u) := by
  rw [Callee.detour_eq, ← bind_assoc]
  refine NearFrom.bind (near_named hname (near_curry h₂ h₃ hF)) fun v t' hv => ?_
  -- the value is the one that was made of the callee and its first arguments
  obtain ⟨_, _, hcallee, hmade⟩ := Eval.bind_eq_ok hv
  rw [hF] at hcallee
  cases hcallee
  obtain ⟨vs, t₁, hvs, hhold⟩ := Eval.bind_eq_ok hmade
  cases hhold
  rw [Value.held, Value.elements_ofList]
  have hheld : g.ExistsIn { t₁ with store := t₁.store.freshCurriedTag.2 } :=
    (hg.evalEach hvs).of_closures rfl
  exact near_curried h₂ h₃ hheld _ vs es'

/-- **Every way of calling is near its course.** -/
theorem Way.near_course (w : Way) (es : List Node)
    (hr : ∀ i ≤ 5, E.comparison.Agree (.until atLimit (n + i)) (.ofFuel m)) (hw : w.Named s' u)
    (hF : (Evaluator.ofFuel m).eval F u cfg s' = .ok g.value t) (hg : g.ExistsIn t) :
    E.NearFrom cfg s' ((Evaluator.until atLimit (n + 6)).eval (w.node F es) u)
      ((Evaluator.ofFuel m).eval F u >>= fun _ => w.course (.ofFuel m) g es u) := by
  have h₁ := hr 1 (by decide)
  have h₂ := hr 2 (by decide)
  have h₃ := hr 3 (by decide)
  have h₄ := hr 4 (by decide)
  have h₅ := hr 5 (by decide)
  cases w with
  | direct => exact NearFrom.evaluating (near_form h₃ h₄ h₅ hF hg) _ u
  | call =>
    have hname : s'.arena.get? u "call" = some (.builtin .call) := hw .call rfl
    exact near_named hname (near_form h₂ h₃ h₄ hF hg)
  | apply =>
    have hname : s'.arena.get? u "apply" = some (.builtin .apply) := hw .apply rfl
    exact near_named hname (near_apply h₁ h₂ h₃ h₄ hF hg)
  | curry k =>
    have hname : s'.arena.get? u "curry" = some (.builtin .curry) := hw .curry rfl
    exact NearFrom.evaluating (near_detour h₂ h₃ hname hF hg _ _) _ u

end Forms

end Fexpr
