import Fexpr.Proofs.Evaluation
import Fexpr.Proofs.Matching.Discretion

/-!
# Proofs/Matching/Traceless — a rejected pattern leaves no trace

A match into a frame of its own puts bindings there and nowhere else, as long as the predicates it
asks leave alone what is in use (`Pattern.Discreet`).  So dropping the frame puts everything back
(`State.UnderWay.traceless`): after `match?`, whatever it came to, after a function that was not
entered, and after each alternative of a multi-function that was passed over.
-/

namespace Fexpr

/-! ## Dropping the frame -/

namespace Arena

variable {a b : Arena} {p : ScopeId} {bs : Row}

theorem frame_setAll_of_ne {w u : ScopeId} (h : w ≠ u) :
    (setAll (fun _ => w) bs a).frame u = a.frame u := by
  induction bs generalizing a with
  | nil => rfl
  | cons b bs ih => exact ih.trans (frame_update_of_ne _ h)

/-- **A frame that is opened, bound in and dropped again leaves no trace.** -/
theorem Alike.release_child (ha : a.Tidy)
    (h : (setAll (fun _ => (a.child p).1) bs (a.child p).2).Alike b) :
    a.Alike (b.release (a.child p).1) := by
  have hne : ∀ u ∈ a.inUse, (a.child p).1 ≠ u := fun u hu he =>
    child_not_mem_inUse a p (he ▸ hu)
  have hinUse : ∀ u, u ∈ b.inUse ↔ u = (a.child p).1 ∨ u ∈ a.inUse := fun u => by
    rw [h.inUse, inUse_setAll, mem_inUse_child p ha]
  -- nothing has captured the frame, and it lies below its parent
  have hself : (b.frame (a.child p).1).parent = some p ∧
      (b.frame (a.child p).1).captured = false := by
    rw [h.frame _ (by rw [inUse_setAll]; exact (mem_inUse_child p ha).mpr (.inl rfl)),
      part_setAll (·.parent) fun _ _ => rfl, part_setAll (·.captured) fun _ _ => rfl,
      frame_child_self p ha]
    exact ⟨rfl, rfl⟩
  have hreleasable : b.isReleasable (a.child p).1 := by
    rw [isReleasable, hself.1, hself.2]
    rfl
  refine ⟨h.tidy.release _, Finset.ext fun u => ?_, fun u hu => ?_, ?_⟩
  · rw [mem_inUse_release hreleasable, hinUse]
    constructor
    · rintro ⟨hu, hu'⟩
      exact hu'.resolve_left hu
    · exact fun hu => ⟨(hne u hu).symm, .inr hu⟩
  · rw [frame_release_of_ne (hne u hu), h.frame u, frame_setAll_of_ne (hne u hu),
      frame_child_of_ne p (hne u hu).symm]
    rw [inUse_setAll]
    exact (mem_inUse_child p ha).mpr (.inr hu)
  · have hslots := h.slots
    rw [size_setAll] at hslots
    rw [size_release]
    exact (size_le_child a p).trans hslots

end Arena

/-- **Nothing is left of what has happened**, as far as frames go: the same ones are in use, with the
same bindings under the same parents, and as many are live. -/
structure State.Traceless (s t : State) : Prop where
  inUse : t.arena.inUse = s.arena.inUse
  frame : ∀ u ∈ s.arena.inUse, t.arena.parent? u = s.arena.parent? u ∧
    (t.arena.frame u).bindings = (s.arena.frame u).bindings
  live : t.arena.live = s.arena.live

theorem State.Traceless.refl (s : State) : s.Traceless s :=
  ⟨rfl, fun _ _ => ⟨rfl, rfl⟩, rfl⟩

theorem State.Traceless.trans {s t u : State} (hst : s.Traceless t) (htu : t.Traceless u) :
    s.Traceless u where
  inUse := htu.inUse.trans hst.inUse
  frame v hv := by
    have hst' := hst.frame v hv
    have htu' := htu.frame v (hst.inUse ▸ hv)
    exact ⟨htu'.1.trans hst'.1, htu'.2.trans hst'.2⟩
  live := htu.live.trans hst.live

theorem State.traceless_of_alike {s t : State} (hs : s.arena.Tidy) (h : s.arena.Alike t.arena) :
    s.Traceless t where
  inUse := h.inUse
  frame u hu := ⟨congrArg Frame.parent (h.frame u hu), congrArg Frame.bindings (h.frame u hu)⟩
  live := by rw [h.tidy.live_eq, hs.live_eq, h.inUse]

/-- **The state in which a match into a fresh frame begins**, with the receiver of a method. -/
def State.entered (s : State) (parent : ScopeId) (receiver : Option Value) : State :=
  { s with
    arena := match receiver with
      | some v => (s.arena.child parent).2.set (s.arena.child parent).1 "this" v
      | none => (s.arena.child parent).2 }

section

variable {s t : State} {parent : ScopeId} {receiver : Option Value}

theorem State.exists_entered_eq (s : State) (parent : ScopeId) (receiver : Option Value) :
    ∃ bs : Row, (s.entered parent receiver).arena =
      Arena.setAll (fun _ => (s.arena.child parent).1) bs (s.arena.child parent).2 := by
  cases receiver with
  | none => exact ⟨[], rfl⟩
  | some v => exact ⟨[("this", v)], rfl⟩

theorem State.tidy_entered (hs : s.arena.Tidy) (parent : ScopeId) (receiver : Option Value) :
    (s.entered parent receiver).arena.Tidy := by
  obtain ⟨bs, hbs⟩ := s.exists_entered_eq parent receiver
  rw [hbs]
  exact (hs.child parent).setAll

/-- **Wherever a match is under way, dropping its frame leaves no trace of it.** -/
theorem State.UnderWay.traceless (hs : s.arena.Tidy)
    (h : (s.entered parent receiver).UnderWay (s.arena.child parent).1 t) :
    s.Traceless { t with arena := t.arena.release (s.arena.child parent).1 } := by
  obtain ⟨bs, ht⟩ := h
  obtain ⟨cs, hcs⟩ := s.exists_entered_eq parent receiver
  have hplace : Arena.Places .inward (s.arena.child parent).1 (s.entered parent receiver).arena
      fun _ => (s.arena.child parent).1 := fun _ => rfl
  have harena := ht.arena
  rw [hplace.putAll_eq, hcs, ← Arena.setAll_append] at harena
  exact State.traceless_of_alike hs (harena.release_child hs)

/-- **However a match ends, dropping its frame leaves no trace of it.** -/
theorem Pattern.traceless_of_endsIn {p : Pattern} {fuel : Nat} {cfg : Config}
    {target : Option Value} (hs : s.arena.Tidy)
    (hdiscreet : p.Discreet (.ofFuel fuel) (s.arena.child parent).1 cfg target
      (s.entered parent receiver))
    (hend : (p.matchWith (.ofFuel fuel) .inward (s.arena.child parent).1 target cfg
      (s.entered parent receiver)).EndsIn t) :
    s.Traceless { t with arena := t.arena.release (s.arena.child parent).1 } := by
  have hentered := State.tidy_entered hs parent receiver
  exact (keeps_matchWith hentered p target hdiscreet (.refl _ hentered) t hend).traceless hs

end

/-! ## The three places where a match has a frame of its own -/

namespace Closure

variable {r : Evaluator} {f : Closure} {arg : Node} {scope : ScopeId} {receiver : Option Value}
  {cfg : Config} {s t u : State} {target : Value}

/-- **How a function is entered**, in terms of how the match of its arguments ends. -/
theorem enter?_apply (heval : r.eval arg scope cfg s = .ok target t) :
    f.enter? r arg scope receiver cfg s =
      match f.pattern.matchWith r .inward (t.arena.child f.scope).1 (some target) cfg
          (t.entered f.scope receiver) with
      | .ok true u => .ok (some (t.arena.child f.scope).1) u
      | .ok false u => .ok none { u with arena := u.arena.release (t.arena.child f.scope).1 }
      | .error e u => .error e { u with arena := u.arena.release (t.arena.child f.scope).1 }
      | .stopped m u => .stopped m u := by
  have hreceiver : bindReceiver (t.arena.child f.scope).1 receiver cfg
      { t with arena := (t.arena.child f.scope).2 } = .ok () (t.entered f.scope receiver) := by
    cases receiver <;> rfl
  rw [enter?_eq, Eval.bind_apply, heval]
  dsimp only
  rw [Eval.bind_apply]
  dsimp only [Eval.openFrame]
  rw [Eval.bind_apply, hreceiver]
  dsimp only
  rw [Eval.bind_apply, Eval.attempt_apply]
  cases f.pattern.matchWith r .inward (t.arena.child f.scope).1 (some target) cfg
      (t.entered f.scope receiver) with
  | ok accepted u => cases accepted <;> rfl
  | error e u => rfl
  | stopped m u => rfl

/-- **A function that is not entered leaves no trace**, whether its pattern rejects the arguments or
the match fails. -/
theorem traceless_of_not_entered {fuel : Nat} (ht : t.arena.Tidy)
    (heval : (Evaluator.ofFuel fuel).eval arg scope cfg s = .ok target t)
    (hdiscreet : f.pattern.Discreet (.ofFuel fuel) (t.arena.child f.scope).1 cfg (some target)
      (t.entered f.scope receiver))
    (hend : f.enter? (.ofFuel fuel) arg scope receiver cfg s = .ok none u ∨
      ∃ e, f.enter? (.ofFuel fuel) arg scope receiver cfg s = .error e u) : t.Traceless u := by
  rw [enter?_apply heval] at hend
  cases hmatch : f.pattern.matchWith (.ofFuel fuel) .inward (t.arena.child f.scope).1 (some target)
      cfg (t.entered f.scope receiver) with
  | ok accepted w =>
    have hw := Pattern.traceless_of_endsIn ht hdiscreet (.inl ⟨accepted, hmatch⟩)
    rw [hmatch] at hend
    cases accepted with
    | true => rcases hend with hend | ⟨e, hend⟩ <;> cases hend
    | false =>
      rcases hend with hend | ⟨e, hend⟩ <;> cases hend
      exact hw
  | error e w =>
    have hw := Pattern.traceless_of_endsIn ht hdiscreet (.inr ⟨e, hmatch⟩)
    rw [hmatch] at hend
    rcases hend with hend | ⟨e', hend⟩ <;> cases hend
    exact hw
  | stopped m w =>
    rw [hmatch] at hend
    rcases hend with hend | ⟨e, hend⟩ <;> cases hend

end Closure

/-- **`match?` leaves no trace**, whatever it comes to. -/
theorem Primitive.traceless_isMatch {fuel : Nat} {arg : Node} {scope : ScopeId} {cfg : Config}
    {s t u : State} {v target : Value} (ht : t.arena.Tidy)
    (heval : (Evaluator.ofFuel fuel).evalTwoArguments "match?" arg scope cfg s = .ok (v, target) t)
    (hdiscreet : ∀ p, v = .pattern p →
      p.Discreet (.ofFuel fuel) (t.arena.child scope).1 cfg (some target) (t.entered scope none))
    (hend : (Builtin.run (.ofFuel fuel) .isMatch arg scope cfg s).EndsIn u) : t.Traceless u := by
  change (Primitive.isMatch _ arg scope cfg s).EndsIn u at hend
  rw [Primitive.isMatch_eq, Eval.bind_apply, heval] at hend
  cases v with
  | pattern p =>
    dsimp only at hend
    rw [Eval.bind_apply, Eval.withFrame_apply] at hend
    cases hmatch : p.matchWith (.ofFuel fuel) .inward (t.arena.child scope).1 (some target) cfg
        { t with arena := (t.arena.child scope).2 } with
    | ok accepted w =>
      rw [hmatch] at hend
      obtain rfl := hend.state_eq
      exact Pattern.traceless_of_endsIn ht (hdiscreet p rfl) (.inl ⟨accepted, hmatch⟩)
    | error e w =>
      rw [hmatch] at hend
      obtain rfl := hend.state_eq
      exact Pattern.traceless_of_endsIn ht (hdiscreet p rfl) (.inr ⟨e, hmatch⟩)
    | stopped m w =>
      rw [hmatch] at hend
      exact absurd rfl hend.not_isStopped
  | _ =>
    obtain rfl := hend.state_eq
    exact .refl t

/-! ## Multi-functions -/

namespace Closure

section

variable (r : Evaluator) (args : Node) (scope : ScopeId)

/-- **Tries the alternatives that are left**, by the policy of the configuration. -/
def tryRest (i : Nat) (ids : List ClosureId) : Eval Value := do
  match (← Eval.config).policy with
  | .lenient => firstSuccess r args scope i ids
  | .strict => firstMatch r args scope ids

/-- **The alternatives that a multi-function has still to try, and the state in which it does**, from
the state in which its arguments have been evaluated.  The lenient policy passes over whatever fails,
and logs it, the strict one over what is not entered. -/
inductive Trying (cfg : Config) (alternatives : List ClosureId) (t : State) :
    Nat → List ClosureId → State → Prop
  | start : Trying cfg alternatives t 0 alternatives t
  | failed {i : Nat} {id : ClosureId} {ids : List ClosureId} {u v w : State} {e : RunError} :
      Trying cfg alternatives t i (id :: ids) u → cfg.policy = .lenient →
      (u.store.closure id).invoke r args scope none cfg u = .error e v →
      Eval.trace (fun _ => "alternative " ++ toString i ++ " failed: " ++ e.message) cfg v =
        .ok () w →
      Trying cfg alternatives t (i + 1) ids w
  | rejected {i : Nat} {id : ClosureId} {ids : List ClosureId} {u v : State} :
      Trying cfg alternatives t i (id :: ids) u → cfg.policy = .strict →
      (u.store.closure id).enter? r args scope none cfg u = .ok none v →
      Trying cfg alternatives t (i + 1) ids v

end

variable {r : Evaluator} {args : Node} {scope : ScopeId} {cfg : Config}
  {alternatives ids : List ClosureId} {i : Nat} {id : ClosureId} {t u v : State}

/-- What is not entered is a mismatch. -/
theorem invoke_of_rejected {f : Closure} {receiver : Option Value}
    (h : f.enter? r args scope receiver cfg u = .ok none v) :
    f.invoke r args scope receiver cfg u = .error .patternMismatch v := by
  rw [invoke, Eval.bind_apply, h]
  rfl

theorem tryRest_apply : tryRest r args scope i ids cfg u =
    (match cfg.policy with
      | .lenient => firstSuccess r args scope i ids
      | .strict => firstMatch r args scope ids) cfg u := rfl

/-- **A multi-function does what is left for it to do.** -/
theorem Trying.tryRest_eq (h : Trying r args scope cfg alternatives t i ids u) :
    tryRest r args scope 0 alternatives cfg t = tryRest r args scope i ids cfg u := by
  induction h with
  | start => rfl
  | @failed i id ids u v w e _ hpolicy hinvoke htrace ih =>
    rw [ih, tryRest_apply, tryRest_apply, hpolicy]
    change (Eval.attempt ((u.store.closure id).invoke r args scope none) >>= _) cfg u = _
    rw [Eval.bind_apply, Eval.attempt_apply, hinvoke]
    dsimp only
    rw [Eval.bind_apply, htrace]
  | @rejected i id ids u v _ hpolicy henter ih =>
    rw [ih, tryRest_apply, tryRest_apply, hpolicy]
    change ((u.store.closure id).enter? r args scope none >>= _) cfg u = _
    rw [Eval.bind_apply, henter]

theorem balanced_invoke (fuel : Nat) (f : Closure) (args : Node) (scope : ScopeId)
    (receiver : Option Value) :
    Balance.Balanced (f.invoke (.ofFuel fuel) args scope receiver) := by
  have hagree := (Balance.agree_ofFuel fuel).toComparison
  have hcall : Balance.comparison.toComparison.Rel () scope
      (f.call? (.ofFuel fuel) args scope receiver) (f.call? (.ofFuel fuel) args scope receiver)
      OptionWithin :=
    Comparison.call? hagree f.within_all args.within_all fun v _ => v.within_all
  rw [invoke_eq]
  refine Balance.balanced_bind hcall.1 fun answer _ => ?_
  cases answer with
  | none => exact fun _ _ hs => State.Balanced.refl hs
  | some v => exact fun _ _ hs => State.Balanced.refl hs

theorem Trying.tidy {fuel : Nat} (ht : t.arena.Tidy)
    (h : Trying (.ofFuel fuel) args scope cfg alternatives t i ids u) : u.arena.Tidy := by
  have hfailed : ∀ {f : Closure} {u v : State} {e : RunError}, u.arena.Tidy →
      f.invoke (.ofFuel fuel) args scope none cfg u = .error e v → v.arena.Tidy := by
    intro f u v e hu hinvoke
    have hbalanced := balanced_invoke fuel f args scope none cfg u hu
    rw [hinvoke] at hbalanced
    exact State.Balanced.tidy hbalanced
  induction h with
  | start => exact ht
  | @failed i id ids u v w e _ _ hinvoke htrace ih =>
    have hv := hfailed ih hinvoke
    obtain ⟨log, hlog⟩ := Eval.trace_apply _ cfg v
    cases htrace.symm.trans hlog
    exact hv
  | rejected _ _ henter ih => exact hfailed ih (invoke_of_rejected henter)

/-- Arguments that are handed on have been evaluated already. -/
theorem eval_of_rejected {fuel : Nat} {f : Closure} {receiver : Option Value} {args : Value}
    (h : f.enter? (.ofFuel fuel) (.quoted args) scope receiver cfg u = .ok none v) :
    (Evaluator.ofFuel fuel).eval (.quoted args) scope cfg u = .ok args u := by
  cases fuel with
  | zero =>
    rw [enter?_eq, Eval.bind_apply] at h
    cases h
  | succ n =>
    rcases Nat.lt_or_ge u.depth cfg.maxDepth with hdepth | hlimit
    · exact Evaluator.eval_quoted hdepth args
    · rw [enter?_eq, Eval.bind_apply, Evaluator.eval_of_le hlimit] at h
      cases h

/-- **Passing over an alternative that rejects its arguments leaves no trace**, and the
multi-function goes on with the next. -/
theorem Trying.traceless {fuel : Nat} {args : Value} (ht : t.arena.Tidy)
    (h : Trying (.ofFuel fuel) (.quoted args) scope cfg alternatives t i (id :: ids) u)
    (hdiscreet : (u.store.closure id).pattern.Discreet (.ofFuel fuel)
      (u.arena.child (u.store.closure id).scope).1 cfg (some args)
      (u.entered (u.store.closure id).scope none))
    (hrejected : (u.store.closure id).enter? (.ofFuel fuel) (.quoted args) scope none cfg u =
      .ok none v) :
    ∃ w, u.Traceless w ∧ Trying (.ofFuel fuel) (.quoted args) scope cfg alternatives t (i + 1) ids
      w := by
  have htraceless := traceless_of_not_entered (h.tidy ht) (eval_of_rejected hrejected) hdiscreet
    (.inl hrejected)
  cases hpolicy : cfg.policy with
  | strict => exact ⟨v, htraceless, .rejected h hpolicy hrejected⟩
  | lenient =>
    obtain ⟨log, hlog⟩ := Eval.trace_apply
      (fun _ => "alternative " ++ toString i ++ " failed: " ++ RunError.patternMismatch.message) cfg v
    exact ⟨{ v with log }, ⟨htraceless.inUse, htraceless.frame, htraceless.live⟩,
      .failed h hpolicy (invoke_of_rejected hrejected) hlog⟩

end Closure

/-- **A rejected pattern leaves no trace for the caller**, if the predicates it asks leave alone
what is in use.  From the state in which the arguments have been evaluated, the same frames are in
use under the same parents with the same bindings, and as many are live: when a function is not
entered, when a multi-function passes over an alternative that rejects, and after every `match?`.  A
multi-function goes on without a trace as long as it has done nothing but pass over alternatives. -/
theorem rejected_pattern_leaves_no_trace {s : State} (hs : Reachable s) (fuel : Nat) (cfg : Config)
    (scope : ScopeId) (arg : Node) :
    (∀ (f : Closure) (receiver : Option Value) (target : Value) (t u : State),
        (Evaluator.ofFuel fuel).eval arg scope cfg s = .ok target t →
        f.pattern.Discreet (.ofFuel fuel) (t.arena.child f.scope).1 cfg (some target)
          (t.entered f.scope receiver) →
        (f.enter? (.ofFuel fuel) arg scope receiver cfg s = .ok none u ∨
          ∃ e, f.enter? (.ofFuel fuel) arg scope receiver cfg s = .error e u) →
        t.Traceless u) ∧
      (∀ (alternatives : List ClosureId) (args : Value) (t : State),
        (Evaluator.ofFuel fuel).eval arg scope cfg s = .ok args t →
        ∀ i id ids u v, Closure.Trying (.ofFuel fuel) (.quoted args) scope cfg alternatives t i
            (id :: ids) u →
          (u.store.closure id).pattern.Discreet (.ofFuel fuel)
            (u.arena.child (u.store.closure id).scope).1 cfg (some args)
            (u.entered (u.store.closure id).scope none) →
          (u.store.closure id).enter? (.ofFuel fuel) (.quoted args) scope none cfg u =
            .ok none v →
          ∃ w, u.Traceless w ∧ (t.Traceless u → t.Traceless w) ∧
            Closure.Trying (.ofFuel fuel) (.quoted args) scope cfg alternatives t (i + 1) ids w ∧
            Closure.invokeAny (.ofFuel fuel) alternatives arg scope cfg s =
              Closure.tryRest (.ofFuel fuel) (.quoted args) scope (i + 1) ids cfg w) ∧
      ∀ (v target : Value) (t u : State),
        (Evaluator.ofFuel fuel).evalTwoArguments "match?" arg scope cfg s = .ok (v, target) t →
        (∀ p, v = .pattern p →
          p.Discreet (.ofFuel fuel) (t.arena.child scope).1 cfg (some target)
            (t.entered scope none)) →
        (Builtin.run (.ofFuel fuel) .isMatch arg scope cfg s).EndsIn u → t.Traceless u := by
  have hagree := Balance.agree_ofFuel fuel
  have htidy : ∀ {target : Value} {t : State},
      (Evaluator.ofFuel fuel).eval arg scope cfg s = .ok target t → t.arena.Tidy := by
    intro target t heval
    have hbalanced := hagree.eval arg scope cfg s hs.tidy
    rw [heval] at hbalanced
    exact State.Balanced.tidy hbalanced
  refine ⟨fun f receiver target t u heval hdiscreet hend =>
      Closure.traceless_of_not_entered (htidy heval) heval hdiscreet hend,
    fun alternatives args t heval i id ids u v htry hdiscreet hrejected => ?_,
    fun v target t u heval hdiscreet hend => ?_⟩
  · obtain ⟨w, htraceless, hnext⟩ := htry.traceless (htidy heval) hdiscreet hrejected
    refine ⟨w, htraceless, fun hbefore => hbefore.trans htraceless, hnext, ?_⟩
    change (_ >>= fun args => Closure.tryRest _ (.quoted args) scope 0 alternatives) cfg s = _
    rw [Eval.bind_apply, heval]
    exact hnext.tryRest_eq
  · have hboth : Balance.Balanced ((Evaluator.ofFuel fuel).evalTwoArguments "match?" arg scope) :=
      (Comparison.evalTwoArguments hagree.toComparison (w := ()) arg.within_all).1
    have hbalanced := hboth cfg s hs.tidy
    rw [heval] at hbalanced
    exact Primitive.traceless_isMatch (State.Balanced.tidy hbalanced) heval hdiscreet hend

/-- A multi-function whose first alternative asks for a second argument that is `true`. -/
def State.guarded : State :=
  (Program.runUnder (.until (fun _ _ => false) 40) "(def m (mfn ([x y::id] y) ([x y] x)))" Arena.root
    {} .initial).state

/-- A pattern whose only predicate is `id`. -/
def Pattern.asksId (p : Pattern) : Bool :=
  p.parts.all fun
    | .predicated _ predicate => predicate == .builtin .id
    | _ => true

/-- `id` answers with what it is asked about, and does nothing else. -/
theorem Pattern.discreet_of_asksId {p : Pattern} (h : p.asksId) (frame : ScopeId)
    (target : Option Value) (s : State) : p.Discreet (.ofFuel 2) frame {} target s := by
  refine discreet_of_spares _ _ _ p (fun base predicate hmem v t u hend => ?_) target s
  have hid : predicate == .builtin .id := List.all_eq_true.mp h _ hmem
  obtain rfl : predicate = .builtin .id := Value.eq_of_beq_plain hid trivial
  change ((Evaluator.ofFuel 1).eval (.quoted v) frame {} t).EndsIn u at hend
  rcases Nat.lt_or_ge t.depth 512 with hdepth | hlimit
  · rw [Evaluator.eval_quoted hdepth] at hend
    obtain rfl := hend.state_eq
    exact .refl t
  · rw [Evaluator.eval_of_le hlimit] at hend
    obtain rfl := hend.state_eq
    exact .refl t

theorem guarded_leaves_no_trace :
    let args := Value.ofList [.integer 1, .integer 2]
    let f := State.guarded.store.closure 0
    (∃ u, f.enter? (.ofFuel 2) (.quoted args) Arena.root none {} .guarded = .ok none u ∧
        State.guarded.Traceless u) ∧
      (∃ w, State.guarded.Traceless w ∧
        Closure.invokeAny (.ofFuel 2) [0, 1] (.quoted args) Arena.root {} .guarded =
          Closure.tryRest (.ofFuel 2) (.quoted args) Arena.root 1 [1] {} w) ∧
      ∃ u, (Builtin.run (.ofFuel 2) .isMatch
          (.spine [.quoted (.pattern f.pattern), .quoted args] .nil) Arena.root {} .guarded).EndsIn u ∧
        State.guarded.Traceless u := by
  intro args f
  have hs : Reachable .guarded := .run _ 40 _ Arena.root {} .initial
  obtain ⟨hdepth, hid, hrejected⟩ : State.guarded.depth < 512 ∧
      f.pattern.asksId ∧
      (f.enter? (.ofFuel 2) (.quoted args) Arena.root none {} .guarded).returns Option.isNone := by
    decide +kernel
  obtain ⟨frame?, u, henter, hnone⟩ := Outcome.exists_of_returns _ hrejected
  obtain rfl := Option.isNone_iff_eq_none.mp hnone
  have hdiscreet : ∀ frame s, f.pattern.Discreet (.ofFuel 2) frame {} (some args) s :=
    fun frame s => Pattern.discreet_of_asksId hid frame (some args) s
  have hquoted : ∀ v, (Evaluator.ofFuel 2).eval (.quoted v) Arena.root {} .guarded =
      .ok v .guarded := Evaluator.eval_quoted hdepth
  obtain ⟨hfunction, hmulti, -⟩ := rejected_pattern_leaves_no_trace hs 2 {} Arena.root (.quoted args)
  obtain ⟨-, -, hmatch⟩ := rejected_pattern_leaves_no_trace hs 2 {} Arena.root
    (.spine [.quoted (.pattern f.pattern), .quoted args] .nil)
  obtain ⟨w, hw, -, -, hrest⟩ := hmulti [0, 1] args .guarded (hquoted args) 0 0 [1] .guarded u .start
    (hdiscreet _ _) henter
  have hend := Outcome.endsIn_state (o := Builtin.run (.ofFuel 2) .isMatch
    (.spine [.quoted (.pattern f.pattern), .quoted args] .nil) Arena.root {} .guarded)
    (by decide +kernel)
  exact ⟨⟨u, henter, hfunction f none args .guarded u (hquoted args) (hdiscreet _ _) (.inl henter)⟩,
    ⟨w, hw, hrest⟩, _, hend, hmatch _ args .guarded _
      (Evaluator.evalTwoArguments_apply "match?" (hquoted _) (hquoted args))
      (fun p hp => by cases hp; exact hdiscreet _ _) hend⟩

end Fexpr
