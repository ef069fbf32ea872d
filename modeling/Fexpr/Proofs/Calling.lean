import Fexpr.Proofs.Calling.Ways
import Fexpr.Proofs.Return.Enough

/-!
# Proofs/Calling — all ways of calling agree

Whatever way a callee is called in, its arguments are evaluated once each and from left to right and
then it receives the values: each way ends as this course ends (`CallSite.follows`), with the same
value or error and in the same state, and if one way comes to an end so does every other
(`CallSite.ways_agree`).  A curried value that is made on the way has an identity of its own, so to
the way that makes one all identities that are given out later are one ahead.  No program can tell:
identities are compared and nothing else (`equivariant_until`).

That holds where no recursion-limit error is raised: the ways nest evaluations to different depths.
-/

namespace Fexpr

open Renaming Excuses

/-! ## Coming to an end -/

/-- **With enough fuel, a computation ends as `o`.** -/
def EndsAs {α : Type} (x : Evaluator → Eval α) (cfg : Config) (s : State)
    (o : Outcome RunError α) : Prop :=
  o.isStopped = false ∧ ∃ n, ∀ fuel, n ≤ fuel → x (.ofFuel fuel) cfg s = o

/-- What comes to an end with some fuel ends the same with more. -/
theorem endsAs_of_covers {α : Type} {x : Evaluator → Eval α} {cfg : Config} {s : State} {n : Nat}
    (hx : ∀ fuel, n ≤ fuel → Coverage.Covers Coverage.anywhere (x (.ofFuel n)) (x (.ofFuel fuel)))
    (h : (x (.ofFuel n) cfg s).isStopped = false) : EndsAs x cfg s (x (.ofFuel n) cfg s) :=
  ⟨h, n, fun fuel hle => (hx fuel hle).eq_of_ended h⟩

theorem endsAs_eval {node : Node} {u : ScopeId} {cfg : Config} {s : State} {n : Nat}
    (h : ((Evaluator.ofFuel n).eval node u cfg s).isStopped = false) :
    EndsAs (fun r => r.eval node u) cfg s ((Evaluator.ofFuel n).eval node u cfg s) :=
  endsAs_of_covers (fun _ hle => (Coverage.agree_ofFuel hle).eval node u) h

/-- **An evaluation that stays below the limit is not broken off there.** -/
theorem StaysBelowLimit.eval_eq {node : Node} {u : ScopeId} {cfg : Config} {s : State}
    (h : StaysBelowLimit (fun r => r.eval node u) cfg s) (fuel : Nat) :
    (Evaluator.until atLimit fuel).eval node u cfg s =
      (Evaluator.ofFuel fuel).eval node u cfg s := by
  have hagree : (Issuing.comparison atLimit fun _ _ => false).Agree (.until atLimit fuel)
      (.until (fun _ _ => false) fuel) :=
    Issuing.agree_until (fun _ _ h => absurd h Bool.false_ne_true) fuel
  rw [Evaluator.until_never] at hagree
  rcases (hagree.eval node u cfg s).2 with heq | ⟨m, t, hstopped, ⟨hlimit, -⟩, -⟩
  · exact heq
  · exact absurd hlimit (h fuel m t hstopped)

/-! ## Where a callee is called -/

/-- A state that programs visit is sound. -/
theorem Visited.sound {s : State} (h : Visited s) : s.Sound := by
  induction h with
  | initial => exact State.sound_initial
  | child parent _ hparent ih => exact ih.child hparent
  | run stop fuel code cfg _ hscope ih =>
    exact (Anchoring.leads_runUnder stop stop (fun _ _ => id) (Nat.le_refl fuel) code cfg ih
      hscope).1.sound

/-- **An expression of the language at a state**: what its values mention is there. -/
structure State.Knows (s : State) (node : Node) : Prop where
  within : node.Within s.census
  issued : node.Issued s.issued

/-- What is read mentions nothing. -/
theorem State.knows_of_read (s : State) {code : String} {forms : List Node}
    (h : read code = .ok forms) : ∀ form ∈ forms, s.Knows form := fun form hform =>
  ⟨within_of_read h form hform, issued_of_read h _ form hform⟩

/-- **A place where something is called**: an expression that evaluates to a callee, and
expressions for its arguments. -/
structure CallSite where
  cfg : Config
  state : State
  scope : ScopeId
  head : Node
  args : List Node
  callee : Callee
  /-- The state once the head has been evaluated. -/
  entry : State
  visited : Visited state
  inUse : scope ∈ state.arena.inUse
  known : ∀ e ∈ head :: args, state.Knows e
  evaluates : EndsAs (fun r => r.eval head scope) cfg state (.ok callee.value entry)

/-- The identities that a way of calling finds elsewhere: one that makes a curried value passes over
its identity. -/
def Way.Permits (w : Way) (n : Nat) (ρ : Renaming) : Prop :=
  match w with
  | .curry _ => ρ.PassesOver n
  | _ => ρ = .refl

/-- **A way of calling ends as a course ends**: with the same value or error in the same state, up
to identities that are given out on the way. -/
def Way.Agrees (w : Way) (cfg : Config) (n : Nat) (o c : Outcome RunError Value) : Prop :=
  ∃ ρ : Renaming, w.Permits n ρ ∧ o.Alike cfg (c.rename ρ (Value.rename ρ.tag)) ∧
    o.state.depth = c.state.depth

theorem Outcome.isStopped_rename {α β : Type} (ρ : Renaming) (f : α → β) (o : Outcome RunError α) :
    (o.rename ρ f).isStopped = o.isStopped := by
  cases o <;> rfl

namespace CallSite

variable (p : CallSite) {w w' : Way}

/-- The call in one of the ways. -/
def called (w : Way) (r : Evaluator) : Eval Value :=
  r.eval (w.node p.head p.args) p.scope

/-- The course of the call, once the head has been evaluated. -/
def course (r : Evaluator) : Eval Value :=
  p.callee.course r p.args p.scope

theorem head_known : p.state.Knows p.head :=
  p.known p.head List.mem_cons_self

/-- The functions that the callee names are there. -/
theorem existsIn_entry : p.callee.ExistsIn p.entry := by
  obtain ⟨-, n, hn⟩ := p.evaluates
  have hagree : Anchoring.comparison.Agree (.until (fun _ _ => false) n)
      (.until (fun _ _ => false) n) := Anchoring.agree_until (fun _ _ => id) (Nat.le_refl n)
  rw [Evaluator.until_never] at hagree
  have hlead := (hagree.eval p.state p.scope p.head_known.within p.cfg p.visited.sound p.inUse).1
  rw [show (Evaluator.ofFuel n).eval p.head p.scope p.cfg p.state = _ from hn n (Nat.le_refl n)]
    at hlead
  exact .of_within hlead.2

/-- **The course that a way of calling takes ends as the course of the call.** -/
theorem exists_rename_course (w : Way) (fuel : Nat) :
    ∃ ρ : Renaming, w.Permits p.state.issued ρ ∧
      w.course (.ofFuel fuel) p.callee p.args p.scope p.cfg p.entry =
        (p.course (.ofFuel fuel) p.cfg p.entry).rename ρ (Value.rename ρ.tag) := by
  obtain ⟨-, n, hn⟩ := p.evaluates
  obtain ⟨hle, hentry, hcallee⟩ := p.visited.issued.eval p.head_known.issued (hn n (Nat.le_refl n))
  cases w with
  | direct | call | apply => exact ⟨.refl, rfl, (Outcome.rename_refl _).symm⟩
  | curry k =>
    have hargs : ∀ e ∈ p.args.take k ++ p.args.drop k, e.Issued p.entry.issued := by
      rw [List.take_append_drop]
      exact fun e he => (p.known e (List.mem_cons_of_mem _ he)).issued.mono hle
    obtain ⟨ρ, hρ, heq⟩ := exists_rename_detour p.cfg hentry hcallee hargs fuel p.scope
    rw [List.take_append_drop] at heq
    exact ⟨ρ, hρ.imp_right fun ⟨m, hm, h⟩ => ⟨m, Nat.le_trans hle hm, h⟩, heq⟩

/-- Each way meets the course of the call, with excuses that suit the fuels. -/
theorem meets {E : Excuses} (hw : w.Named p.state p.scope)
    (hlimit : StaysBelowLimit (p.called w) p.cfg p.state) {n m : Nat}
    (hfuel : ∀ i ≤ 5, E.Covers (n + i) m)
    (hm : (Evaluator.ofFuel m).eval p.head p.scope p.cfg p.state =
      .ok p.callee.value p.entry) :
    ∃ ρ : Renaming, w.Permits p.state.issued ρ ∧
      E.Meets p.cfg p.state.depth p.state.depth (p.called w (.ofFuel (n + 6)) p.cfg p.state)
        ((p.course (.ofFuel m) p.cfg p.entry).rename ρ (Value.rename ρ.tag)) := by
  have hr : ∀ i ≤ 5, E.comparison.Agree (.until atLimit (n + i)) (.ofFuel m) := fun i hi => by
    have hagree : E.comparison.Agree (.until atLimit (n + i)) (.until (fun _ _ => false) m) :=
      agree_until (fun _ _ h => absurd h Bool.false_ne_true) (hfuel i hi)
    rwa [Evaluator.until_never] at hagree
  obtain ⟨ρ, hρ, hcourse⟩ := p.exists_rename_course w m
  refine ⟨ρ, hρ, ?_⟩
  have hnear := w.near_course p.args hr hw hm p.existsIn_entry p.state (.refl p.cfg p.state)
    (Nat.le_refl _)
  have hsame := hlimit.eval_eq (n + 6)
  rw [Eval.bind_apply, hm] at hnear
  rw [← hcourse]
  rw [hsame] at hnear
  exact hnear

/-- **A way of calling that comes to an end follows the course of the call.** -/
theorem follows (hw : w.Named p.state p.scope)
    (hlimit : StaysBelowLimit (p.called w) p.cfg p.state) {o : Outcome RunError Value}
    (ho : EndsAs (p.called w) p.cfg p.state o) :
    ∃ c, EndsAs p.course p.cfg p.entry c ∧ w.Agrees p.cfg p.state.issued o c := by
  obtain ⟨hended, n, hn⟩ := ho
  obtain ⟨-, n', hn'⟩ := p.evaluates
  have hm := hn' (max n n' + 6) (by omega)
  obtain ⟨ρ, hρ, hmeets⟩ := p.meets (E := leftOnly) hw hlimit (n := max n n')
    (fun i hi => leftOnly_covers (by omega)) hm
  rw [hn (max n n' + 6) (by omega)] at hmeets
  rcases hmeets with ⟨m, t, hstopped, -⟩ | hright | ⟨hsame, hd, hd'⟩
  · rw [hstopped] at hended
    cases hended
  · obtain ⟨_, _, _, hnever⟩ := hright
    exact hnever.elim
  · have hcourse := hsame.not_stopped.2
    rw [Outcome.isStopped_rename] at hcourse
    rw [Outcome.state_rename] at hd'
    exact ⟨_, endsAs_of_covers (fun _ hle => (Coverage.agree_ofFuel hle).resume p.callee [] p.args
      p.scope) hcourse, ρ, hρ, hsame, hd.trans hd'.symm⟩

/-- **Where the course of the call comes to an end, so does a way of calling** that stays below the
limit. -/
theorem reaches (hw : w.Named p.state p.scope)
    (hlimit : StaysBelowLimit (p.called w) p.cfg p.state) {c : Outcome RunError Value}
    (hc : EndsAs p.course p.cfg p.entry c) :
    ∃ o, EndsAs (p.called w) p.cfg p.state o ∧ w.Agrees p.cfg p.state.issued o c := by
  obtain ⟨hended, n, hn⟩ := hc
  obtain ⟨-, n', hn'⟩ := p.evaluates
  have hm := hn' (max n n') (by omega)
  obtain ⟨ρ, hρ, hmeets⟩ := p.meets (E := eachItsOwn) hw hlimit (n := max n n')
    (fun i hi => eachItsOwn_covers (by omega)) hm
  rw [hn (max n n') (by omega)] at hmeets
  rcases hmeets with ⟨m, t, hstopped, hatLimit⟩ | ⟨m, t, hstopped, -⟩ | ⟨hsame, hd, hd'⟩
  · exact absurd hatLimit (hlimit _ m t ((hlimit.eval_eq _).trans hstopped))
  · have hrenamed := Outcome.isStopped_rename ρ (Value.rename ρ.tag) c
    rw [hstopped, hended] at hrenamed
    cases hrenamed
  · rw [Outcome.state_rename] at hd'
    exact ⟨_, endsAs_eval hsame.not_stopped.1, ρ, hρ, hsame, hd.trans hd'.symm⟩

/-- **All ways of calling agree.**  Where they stay below the limit and one comes to an end, so does
the other, and so does the course of the call, on which every argument is evaluated once and from
left to right before the callee receives the values: all with the same value or error and in the
same state, up to the identities that are given out after a curried value was made. -/
theorem ways_agree (hw : w.Named p.state p.scope) (hw' : w'.Named p.state p.scope)
    (hlimit : StaysBelowLimit (p.called w) p.cfg p.state)
    (hlimit' : StaysBelowLimit (p.called w') p.cfg p.state) {o : Outcome RunError Value}
    (ho : EndsAs (p.called w) p.cfg p.state o) :
    ∃ c o', EndsAs p.course p.cfg p.entry c ∧ EndsAs (p.called w') p.cfg p.state o' ∧
      w.Agrees p.cfg p.state.issued o c ∧ w'.Agrees p.cfg p.state.issued o' c := by
  obtain ⟨c, hc, hagrees⟩ := p.follows hw hlimit ho
  obtain ⟨o', ho', hagrees'⟩ := p.reaches hw' hlimit' hc
  exact ⟨c, o', hc, ho', hagrees, hagrees'⟩

end CallSite

/-- With `(def f (fn [x y] (list y x)))`, the calls `((curry f (print 1)) 2)` and
`(apply f [(print 1) 2])` agree. -/
theorem curried_and_applied_agree :
    ∃ (p : CallSite) (o : Outcome RunError Value),
      p.state = (Program.runUnder (.until (fun _ _ => false) 30) "(def f (fn [x y] (list y x)))"
        Arena.root {} .initial).state ∧
      p.head = .identifier "f" ∧
      p.args = [.call (.identifier "print") [.numeral 1], .numeral 2] ∧
      (Way.curry 1).Named p.state p.scope ∧ Way.apply.Named p.state p.scope ∧
      StaysBelowLimit (p.called (.curry 1)) p.cfg p.state ∧
      StaysBelowLimit (p.called .apply) p.cfg p.state ∧
      EndsAs (p.called (.curry 1)) p.cfg p.state o ∧
      ∃ c o', EndsAs p.course p.cfg p.entry c ∧ EndsAs (p.called .apply) p.cfg p.state o' ∧
        (Way.curry 1).Agrees p.cfg p.state.issued o c ∧
        Way.apply.Agrees p.cfg p.state.issued o' c := by
  let s := (Program.runUnder (.until (fun _ _ => false) 30) "(def f (fn [x y] (list y x)))"
    Arena.root {} .initial).state
  have hvisited : Visited s := .run _ 30 _ {} .initial State.root_mem_initial
  have hroot : Arena.root ∈ s.arena.inUse := by decide +kernel
  obtain ⟨v, entry, hv, hfunction⟩ := Outcome.exists_of_returns (·.same (.function 0))
    (o := (Evaluator.ofFuel 30).eval (.identifier "f") Arena.root {} s) (by decide +kernel)
  have hcallee : v = (Callee.function 0).value := Value.eq_function_of_same hfunction
  have hnamed : ∀ b ∈ [Builtin.curry, .apply],
      s.arena.get? Arena.root b.name = some (.builtin b) := by
    intro b hb
    have hcheck : [Builtin.curry, .apply].all fun b =>
        (s.arena.get? Arena.root b.name).any (·.same (.builtin b)) := by decide +kernel
    obtain ⟨w, hget, hw⟩ := Option.any_eq_true _ _ |>.mp (List.all_eq_true.mp hcheck b hb)
    rw [hget, Value.eq_builtin_of_same hw]
  let args : List Node := [.call (.identifier "print") [.numeral 1], .numeral 2]
  have hknown : ∀ e ∈ Node.identifier "f" :: args, s.Knows e := by
    intro e he
    simp only [args, List.mem_cons, List.not_mem_nil, or_false] at he
    rcases he with rfl | rfl | rfl
    · exact ⟨trivial, fun _ _ => rfl⟩
    · exact ⟨⟨trivial, trivial, trivial⟩, fun _ _ => rfl⟩
    · exact ⟨trivial, fun _ _ => rfl⟩
  have hcurried : ((Evaluator.until atLimit 30).eval ((Way.curry 1).node (.identifier "f") args)
      Arena.root {} s).isStopped = false := by decide +kernel
  have happlied : ((Evaluator.until atLimit 30).eval (Way.apply.node (.identifier "f") args)
      Arena.root {} s).isStopped = false := by decide +kernel
  let p : CallSite := {
    cfg := {}, state := s, scope := Arena.root, head := .identifier "f", args
    callee := .function 0, entry, visited := hvisited, inUse := hroot
    known := hknown
    evaluates := by
      rw [← hcallee, ← hv]
      exact endsAs_eval (by rw [hv]; rfl) }
  have hcurry : (Way.curry 1).Named p.state p.scope := fun b hb => by
    cases hb
    exact hnamed .curry (by decide)
  have happly : Way.apply.Named p.state p.scope := fun b hb => by
    cases hb
    exact hnamed .apply (by decide)
  have hbelow : StaysBelowLimit (p.called (.curry 1)) p.cfg p.state :=
    staysBelowLimit_of_ends hcurried
  have hbelow' : StaysBelowLimit (p.called .apply) p.cfg p.state :=
    staysBelowLimit_of_ends happlied
  rw [hbelow.eval_eq 30] at hcurried
  have hends : EndsAs (p.called (.curry 1)) p.cfg p.state _ := endsAs_eval hcurried
  exact ⟨p, _, rfl, rfl, rfl, hcurry, happly, hbelow, hbelow', hends,
    p.ways_agree hcurry happly hbelow hbelow' hends⟩

end Fexpr
