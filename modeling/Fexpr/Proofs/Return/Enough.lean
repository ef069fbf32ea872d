import Fexpr.Proofs.Return

/-!
# Proofs/Return/Enough — what a computation comes to with enough fuel

`ComesTo` says that from some fuel on a computation returns one and the same answer in one and the
same state.  More fuel changes nothing but where a computation is broken off (`agree_ofFuel`), so a
call that returns at all comes to its answer, and what is put together of steps that do comes to
what they come to.
-/

namespace Fexpr

namespace Coverage

/-- **More fuel changes nothing** but where a computation is broken off. -/
theorem agree_ofFuel {n m : Nat} (h : n ≤ m) :
    (comparison anywhere).Agree (.ofFuel n) (.ofFuel m) := by
  induction n generalizing m with
  | zero =>
    exact .of_force covers_force (fun _ _ => covers_anywhere_of_stopped fun _ _ => rfl)
      fun _ _ _ => covers_anywhere_of_stopped fun _ _ => rfl
  | succ n ih =>
    obtain ⟨m, rfl⟩ : ∃ k, m = k + 1 := ⟨m - 1, by omega⟩
    have hless := ih (Nat.le_of_succ_le_succ h)
    exact .of_force covers_force
      (fun node scope => covers_deeper (D := anywhere.depth) (fun _ _ _ _ => trivial)
        (fun _ _ _ => trivial) (hless.evalNode node scope)) hless.callValue

/-- What comes to an end is where every computation that covers it comes to. -/
theorem Covers.eq_of_ended {α : Type} {x y : Eval α} (h : Covers anywhere x y) {cfg : Config}
    {s : State} (hx : (x cfg s).isStopped = false) : y cfg s = x cfg s := by
  rcases (h cfg s trivial).2 with hstop | heq | ⟨_, _, _, hex⟩
  · rw [hx] at hstop
    cases hstop
  · exact heq.symm
  · exact hex.elim

/-- What returns is what every computation that covers it returns. -/
theorem Covers.eq_ok {α : Type} {x y : Eval α} (h : Covers anywhere x y) {cfg : Config}
    {s t : State} {a : α} (hx : x cfg s = .ok a t) : y cfg s = .ok a t := by
  rw [h.eq_of_ended (by rw [hx]; rfl), hx]

end Coverage

variable {α β : Type}

/-- **With enough fuel, a computation returns `a` in the state `t`.** -/
def ComesTo (x : Evaluator → Eval α) (cfg : Config) (s : State) (a : α) (t : State) : Prop :=
  ∃ n, ∀ fuel, n ≤ fuel → x (.ofFuel fuel) cfg s = .ok a t

namespace ComesTo

variable {x : Evaluator → Eval α} {cfg : Config} {s t u : State} {a : α} {b : β}

protected theorem pure (a : α) (cfg : Config) (s : State) :
    ComesTo (fun _ => pure a) cfg s a s :=
  ⟨0, fun _ _ => rfl⟩

/-- One step after the other: the larger fuel is enough for both. -/
protected theorem bind {f : Evaluator → α → Eval β} (hx : ComesTo x cfg s a t)
    (hf : ComesTo (fun r => f r a) cfg t b u) : ComesTo (fun r => x r >>= f r) cfg s b u := by
  obtain ⟨n, hn⟩ := hx
  obtain ⟨m, hm⟩ := hf
  refine ⟨max n m, fun fuel hfuel => ?_⟩
  change (x (.ofFuel fuel) >>= f (.ofFuel fuel)) cfg s = .ok b u
  rw [Eval.bind_apply, hn fuel (Nat.le_trans (Nat.le_max_left n m) hfuel)]
  exact hm fuel (Nat.le_trans (Nat.le_max_right n m) hfuel)

/-- What a first match rejects goes no further. -/
theorem guarded_false {x y : Evaluator → Eval Bool} (hx : ComesTo x cfg s false t) :
    ComesTo (fun r => do if ← x r then y r else return false) cfg s false t :=
  hx.bind (.pure false cfg t)

theorem guarded_true {x y : Evaluator → Eval Bool} {b : Bool} (hx : ComesTo x cfg s true t)
    (hy : ComesTo y cfg t b u) :
    ComesTo (fun r => do if ← x r then y r else return false) cfg s b u :=
  hx.bind hy

/-- **A call that returns comes to its answer.** -/
theorem call {callee v : Value} {arg : Node} {scope : ScopeId} {fuel : Nat}
    (h : (Evaluator.ofFuel fuel).call callee arg scope cfg s = .ok v t) :
    ComesTo (fun r => r.call callee arg scope) cfg s v t :=
  ⟨fuel, fun _ hle => Coverage.Covers.eq_ok ((Coverage.agree_ofFuel hle).call callee arg scope) h⟩

end ComesTo

end Fexpr
