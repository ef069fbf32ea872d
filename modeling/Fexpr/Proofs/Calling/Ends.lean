import Fexpr.Proofs.Calling
import Fexpr.Proofs.Tracing

/-!
# Proofs/Calling/Ends — computations that come to the same ends

`SameEnds` says of two computations that where one comes to an end so does the other: with the same
value or error, in the same state beside the log of a debugging session.  How much fuel each of them
needs does not count.  Sequencing respects it (`SameEnds.bind`), and a call of a value has the ends
of what it does with the value (`sameEnds_call_pair`, `sameEnds_call_curried`): the tracing that
goes with a call changes nothing but the log.
-/

namespace Fexpr

variable {α β : Type}

/-! ## Ends of sequences -/

/-- **More fuel changes nothing** about a computation but where it is broken off. -/
def Steady (x : Evaluator → Eval α) : Prop :=
  ∀ n m, n ≤ m → Coverage.Covers Coverage.anywhere (x (.ofFuel n)) (x (.ofFuel m))

theorem Steady.bind {x : Evaluator → Eval α} {f : Evaluator → α → Eval β} (hx : Steady x)
    (hf : ∀ a, Steady fun r => f r a) : Steady fun r => x r >>= f r := fun n m hle =>
  (Coverage.comparison Coverage.anywhere).bind (hx n m hle) fun a _ => hf a n m hle

theorem steady_call (callee : Value) (arg : Node) (scope : ScopeId) :
    Steady fun r => r.call callee arg scope := fun _ _ hle =>
  (Coverage.agree_ofFuel hle).call callee arg scope

namespace EndsAs

variable {x : Evaluator → Eval α} {f : Evaluator → α → Eval β} {cfg : Config} {s t : State}

theorem bind_ok {a : α} {o : Outcome RunError β} (hx : EndsAs x cfg s (.ok a t))
    (hf : EndsAs (fun r => f r a) cfg t o) : EndsAs (fun r => x r >>= f r) cfg s o := by
  obtain ⟨-, n, hn⟩ := hx
  obtain ⟨hended, m, hm⟩ := hf
  refine ⟨hended, max n m, fun fuel hfuel => ?_⟩
  change (x (.ofFuel fuel) >>= f (.ofFuel fuel)) cfg s = o
  rw [Eval.bind_apply, hn fuel (le_trans (le_max_left n m) hfuel)]
  exact hm fuel (le_trans (le_max_right n m) hfuel)

theorem bind_error {e : RunError} (hx : EndsAs x cfg s (.error e t)) :
    EndsAs (fun r => x r >>= f r) cfg s (.error e t) := by
  obtain ⟨-, n, hn⟩ := hx
  refine ⟨rfl, n, fun fuel hfuel => ?_⟩
  change (x (.ofFuel fuel) >>= f (.ofFuel fuel)) cfg s = .error e t
  rw [Eval.bind_apply, hn fuel hfuel]

/-- **A sequence that ends** has passed its first step, or has failed there. -/
theorem of_bind (hx : Steady x) {o : Outcome RunError β}
    (h : EndsAs (fun r => x r >>= f r) cfg s o) :
    (∃ a t, EndsAs x cfg s (.ok a t) ∧ EndsAs (fun r => f r a) cfg t o) ∨
      ∃ e t, EndsAs x cfg s (.error e t) ∧ o = .error e t := by
  obtain ⟨hended, n, hn⟩ := h
  simp only [Eval.bind_apply] at hn
  have hfirst : (x (.ofFuel n) cfg s).isStopped = false := by
    have hlast := hn n le_rfl
    generalize x (.ofFuel n) cfg s = first at hlast ⊢
    cases first with
    | ok | error => rfl
    | stopped m t =>
      subst hlast
      cases hended
  have hends := endsAs_of_covers (hx n) hfirst
  have hsame : ∀ fuel, n ≤ fuel → x (.ofFuel fuel) cfg s = x (.ofFuel n) cfg s := fun fuel hle =>
    (hx n fuel hle).eq_of_ended hfirst
  generalize x (.ofFuel n) cfg s = first at hfirst hends hsame
  cases first with
  | ok a t =>
    refine Or.inl ⟨a, t, hends, hended, n, fun fuel hle => ?_⟩
    have hlast := hn fuel hle
    rwa [hsame fuel hle] at hlast
  | error e t =>
    refine Or.inr ⟨e, t, hends, ?_⟩
    have hlast := hn n le_rfl
    rw [hsame n le_rfl] at hlast
    exact hlast.symm
  | stopped m t => cases hfirst

end EndsAs

/-! ## The same ends -/

/-- **Every end of `x` is one of `y`**, from states that agree beside the log of a debugging
session. -/
def EndsLike (x y : Evaluator → Eval α) : Prop :=
  ∀ cfg s t o, s.untraced cfg = t.untraced cfg → EndsAs x cfg s o →
    ∃ o', EndsAs y cfg t o' ∧ o.untraced cfg = o'.untraced cfg

namespace EndsLike

variable {x y z : Evaluator → Eval α} {f g : Evaluator → α → Eval β}

theorem trans (hxy : EndsLike x y) (hyz : EndsLike y z) : EndsLike x z := by
  intro cfg s t o hst ho
  obtain ⟨o₁, hy, h₁⟩ := hxy cfg s t o hst ho
  obtain ⟨o₂, hz, h₂⟩ := hyz cfg t t o₁ rfl hy
  exact ⟨o₂, hz, h₁.trans h₂⟩

/-- What does the same with other fuel comes to the same ends. -/
theorem of_unread (hy : Steady y)
    (h : ∀ n, ∃ k m, n ≤ k ∧ Tracing.Unread (x (.ofFuel k)) (y (.ofFuel m))) : EndsLike x y := by
  rintro cfg s t o hst ⟨hended, n, hn⟩
  obtain ⟨k, m, hnk, hunread⟩ := h n
  have hsame := hunread cfg s t hst
  rw [hn k hnk] at hsame
  refine ⟨_, endsAs_of_covers (hy m) ?_, hsame⟩
  rw [← Outcome.isStopped_untraced cfg, ← hsame, Outcome.isStopped_untraced, hended]

protected theorem bind (hx : Steady x) (hxy : EndsLike x y)
    (hfg : ∀ a, EndsLike (fun r => f r a) (fun r => g r a)) :
    EndsLike (fun r => x r >>= f r) (fun r => y r >>= g r) := by
  intro cfg s t o hst ho
  rcases ho.of_bind hx with ⟨a, u, hxa, hf⟩ | ⟨e, u, hxe, rfl⟩
  · obtain ⟨o₁, hy, hsame⟩ := hxy cfg s t _ hst hxa
    obtain ⟨v, rfl, huv⟩ := Outcome.exists_ok hsame
    obtain ⟨o₂, hg, hsame₂⟩ := hfg a cfg u v o huv hf
    exact ⟨o₂, hy.bind_ok hg, hsame₂⟩
  · obtain ⟨o₁, hy, hsame⟩ := hxy cfg s t _ hst hxe
    obtain ⟨v, rfl, huv⟩ := Outcome.exists_error hsame
    exact ⟨_, hy.bind_error, congrArg (Outcome.error e) huv⟩

end EndsLike

/-- **Two computations come to the same ends.** -/
structure SameEnds (x y : Evaluator → Eval α) : Prop where
  left : Steady x
  right : Steady y
  forth : EndsLike x y
  back : EndsLike y x

namespace SameEnds

variable {x y z : Evaluator → Eval α} {f g : Evaluator → α → Eval β}

theorem symm (h : SameEnds x y) : SameEnds y x :=
  ⟨h.right, h.left, h.back, h.forth⟩

theorem trans (hxy : SameEnds x y) (hyz : SameEnds y z) : SameEnds x z :=
  ⟨hxy.left, hyz.right, hxy.forth.trans hyz.forth, hyz.back.trans hxy.back⟩

protected theorem bind (hxy : SameEnds x y)
    (hfg : ∀ a, SameEnds (fun r => f r a) (fun r => g r a)) :
    SameEnds (fun r => x r >>= f r) (fun r => y r >>= g r) where
  left := hxy.left.bind fun a => (hfg a).left
  right := hxy.right.bind fun a => (hfg a).right
  forth := hxy.forth.bind hxy.left fun a => (hfg a).forth
  back := hxy.back.bind hxy.right fun a => (hfg a).back

/-- From one state the two end with the same value or error, in the same state beside the log of a
debugging session. -/
theorem exists_end (h : SameEnds x y) {cfg : Config} {s : State} {o : Outcome RunError α}
    (ho : EndsAs x cfg s o) : ∃ o', EndsAs y cfg s o' ∧ o.untraced cfg = o'.untraced cfg :=
  h.forth cfg s s o rfl ho

/-- The same, from the ends of the other one. -/
theorem exists_end_left (h : SameEnds x y) {cfg : Config} {s : State} {o' : Outcome RunError α}
    (ho' : EndsAs y cfg s o') : ∃ o, EndsAs x cfg s o ∧ o.untraced cfg = o'.untraced cfg := by
  obtain ⟨o, ho, hsame⟩ := h.symm.exists_end ho'
  exact ⟨o, ho, hsame.symm⟩

/-- Outside of a debugging session the ends are the same and the states as well. -/
theorem endsAs_iff (h : SameEnds x y) {cfg : Config} (hdebug : cfg.debug = false) {s : State}
    {o : Outcome RunError α} : EndsAs x cfg s o ↔ EndsAs y cfg s o := by
  constructor
  · intro ho
    obtain ⟨o', ho', hsame⟩ := h.exists_end ho
    rw [Outcome.untraced_of_not_debug hdebug, Outcome.untraced_of_not_debug hdebug] at hsame
    exact hsame ▸ ho'
  · intro ho'
    obtain ⟨o', ho, hsame⟩ := h.exists_end_left ho'
    rw [Outcome.untraced_of_not_debug hdebug, Outcome.untraced_of_not_debug hdebug] at hsame
    exact hsame ▸ ho

end SameEnds

/-! ## Calls -/

namespace Tracing

/-- Nothing is lost with a trace in front. -/
theorem unread_trace_bind {x y : Eval α} (message : Store → String) (h : Unread x y) :
    Unread (Eval.trace message >>= fun _ => x) y := by
  intro cfg s t hst
  obtain ⟨log, hlog⟩ := Eval.trace_apply message cfg s
  have htrace := untraced_trace message cfg s
  rw [hlog] at htrace
  rw [Eval.bind_apply, hlog]
  exact h cfg _ t ((Outcome.ok.inj htrace).2.trans hst)

theorem Unread.symm {x y : Eval α} (h : Unread x y) : Unread y x := fun cfg s t hst =>
  (h cfg t s hst.symm).symm

end Tracing

variable (arg : Node) (scope : ScopeId)

theorem sameEnds_call (callee : Value) :
    SameEnds (fun r => r.call callee arg scope) (fun r => r.call callee arg scope) := by
  have hsteady := steady_call callee arg scope
  have h : EndsLike (fun r => r.call callee arg scope) (fun r => r.call callee arg scope) :=
    .of_unread hsteady fun n => ⟨n, n, le_rfl, (Tracing.agree_ofFuel n).call callee arg scope⟩
  exact ⟨hsteady, hsteady, h, h⟩

/-- **A call comes to the same ends as what it does with the value**: the trace in front of that is
but a trace, and it takes one step more. -/
theorem sameEnds_call_of_callValue {callee : Value} {y : Evaluator → Eval Value} (hy : Steady y)
    (hunread : ∀ n, Tracing.Unread (y (.ofFuel n)) (y (.ofFuel n)))
    (h : ∀ r, ∃ message, callValue r callee arg scope = Eval.trace message >>= fun _ => y r) :
    SameEnds (fun r => r.call callee arg scope) y := by
  have hcall : ∀ n, Tracing.Unread ((Evaluator.ofFuel (n + 1)).call callee arg scope)
      (y (.ofFuel n)) := fun n => by
    obtain ⟨message, heq⟩ := h (.ofFuel n)
    have hsame : (Evaluator.ofFuel (n + 1)).call callee arg scope = _ := heq
    rw [hsame]
    exact Tracing.unread_trace_bind message (hunread n)
  exact ⟨steady_call callee arg scope, hy,
    .of_unread hy fun n => ⟨n + 1, n, n.le_succ, hcall n⟩,
    .of_unread (steady_call callee arg scope) fun n => ⟨n, n + 1, le_rfl, (hcall n).symm⟩⟩

/-- **A pair composes**: its cdr is called with the argument list as it is, its car with the list of
what came of that. -/
theorem sameEnds_call_pair (outer inner : Value) :
    SameEnds (fun r => r.call (.pair outer inner) arg scope) (fun r => do
      let v ← r.call inner arg scope
      r.call outer (Node.quote (.ofList [v])) scope) :=
  sameEnds_call_of_callValue arg scope
    ((steady_call inner arg scope).bind fun _ => steady_call outer _ scope)
    (fun n => Tracing.unread_bind ((Tracing.agree_ofFuel n).call inner arg scope) fun _ _ =>
      (Tracing.agree_ofFuel n).call outer _ scope)
    fun _ => ⟨_, rfl⟩

/-- **A curried value puts its arguments in front** of those of the call. -/
theorem sameEnds_call_curried (tag : Nat) (callee args : Value) :
    SameEnds (fun r => r.call (.curried tag callee args) arg scope)
      (fun r => r.call callee (Node.quoteBefore args arg) scope) :=
  sameEnds_call_of_callValue arg scope (steady_call callee _ scope)
    (fun n => (Tracing.agree_ofFuel n).call callee _ scope) fun _ => ⟨_, rfl⟩

end Fexpr
