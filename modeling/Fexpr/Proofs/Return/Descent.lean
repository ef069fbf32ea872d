import Fexpr.Proofs.Return.Asking
import Fexpr.Proofs.Return.Supply

/-!
# Proofs/Return/Descent — what hands nothing on comes to rest

    call ──▸ call ──▸ call ──▸ …      at one depth, each lighter than the one before,
                                      unless the primitive `call` or `apply` hands it on

What a call asks for weighs less than the call (`Asks.lighter`), so that calls come to rest if
evaluations do, and evaluations nest no deeper than the limit admits.  If calls of `call` and
`apply` come to rest, then, everything does (`evalsRest`, `agree_runs`).
-/

namespace Fexpr

namespace Resting

variable {T : Terms} {room : Nat} {s : State} {scope : ScopeId}

/-! ## What is asked for comes to rest -/

theorem returns_of_deeper {α : Type} {x : Eval α} {a : α} (h : Returns (Eval.deeper x) a) :
    Returns x a := by
  obtain ⟨cfg, s, t, h⟩ := h
  rw [Eval.deeper] at h
  split at h
  · cases h
  · split at h
    · next hx =>
      cases h
      exact ⟨cfg, _, _, hx⟩
    · cases h
    · cases h

theorem returns_of_pausing {stop : Moment → State → Bool} {m : Moment} {x : Eval Value} {v : Value}
    (h : Returns (Eval.pausing stop m x) v) : Returns x v := by
  obtain ⟨cfg, s, t, h⟩ := h
  rw [Eval.pausing_apply] at h
  split at h
  · cases h
  · exact ⟨cfg, s, t, (Outcome.eq_ok_of_checked h).1⟩

theorem keepsPatterns_runs (T : Terms) : T.runs.KeepsPatterns := by
  rintro node scope p hnode ⟨c, s, t, hx⟩
  have hreturns : ∀ n, Returns ((Evaluator.until T.picks n).eval node scope) (.pattern p) →
      ∃ k cfg u u', evalNode (.until T.picks k) node scope cfg u = .ok (.pattern p) u' := by
    rintro (_ | k) h
    · obtain ⟨_, _, _, h⟩ := h
      cases h
    · exact ⟨k, returns_of_deeper (returns_of_pausing h)⟩
  obtain ⟨k, cfg, u, u', hx⟩ := hreturns c.maxDepth ⟨T.cfg, s, t, hx⟩
  cases node with
  | nil => cases hx
  | value label v =>
    cases hx
    exact ⟨label, rfl⟩
  | pair car cdr =>
    obtain ⟨v, u₁, -, hx⟩ := Eval.bind_eq_ok hx
    obtain ⟨w, u₂, -, hx⟩ := Eval.bind_eq_ok hx
    cases hx
  | identifier _ | numeral _ | symbol _ => cases hnode
  | form head args => cases hnode

/-- A call that comes to rest, whenever it is made. -/
def CallRests (T : Terms) (room : Nat) (callee : Value) (arg : Node) : Prop :=
  ∀ s scope, callee.Within s.census → arg.Within s.census →
    Rel T room s scope (T.runs.call callee arg scope) (T.runs.call callee arg scope) Value.Within

/-- Evaluations come to rest. -/
def EvalsRest (T : Terms) (room : Nat) : Prop :=
  ∀ s scope, ∀ {node : Node}, node.Within s.census →
    Rel T room s scope (T.runs.eval node scope) (T.runs.eval node scope) Value.Within

section Asked

variable {r : Evaluator} {call : Value → Node → ScopeId → Eval Value} {callee : Value} {arg : Node}

/-- **A call does the same if only what it asks for is called**, and then it comes to rest. -/
theorem rel_callValue (hagree : (comparison T room).Agree (r.calling call) (r.calling call))
    (hasks : ∀ callee' arg', Asks callee arg callee' arg' → call callee' arg' = r.call callee' arg')
    (hr : r.KeepsPatterns) (hhands : ¬callee.HandsOn) (hc : callee.Within s.census)
    (ha : arg.Within s.census) :
    Rel T room s scope (callValue r callee arg scope) (callValue (r.calling call) callee arg scope)
      Value.Within := by
  refine Congruence.andThen ((comparison T room).elementary (.trace _)) fun w₁ _ h₁ => ?_
  have hc₁ := hc.mono h₁
  have ha₁ := ha.mono h₁
  -- what is called by `r` itself is asked for
  have hcall : ∀ {w : State} {callee' : Value} {arg' : Node}, Asks callee arg callee' arg' →
      callee'.Within w.census → arg'.Within w.census →
      Rel T room w scope (r.call callee' arg' scope) (call callee' arg' scope) Value.Within :=
    fun {w _ _} h hc' ha' => .of_eq (fun _ _ => by rw [hasks _ _ h]) (hagree.call w scope hc' ha')
  have hpredicates : ∀ {w : State} {id : ClosureId}, id ∈ callee.functions → w.Poised scope →
      r.AsksAlike call (w.store.closure id).pattern.predicates :=
    fun hid hw v hv u => hasks _ _ (.function u arg hid ((hw.layered _).predicate v hv))
  cases callee with
  | builtin b =>
    exact .of_eq (fun _ cfg => (congrFun₂ (Builtin.run_calling hasks hhands hr) cfg w₁).symm)
      (Comparison.runBuiltin hagree b ha₁)
  | curried tag f args =>
    exact hcall (.curried tag f args arg) hc₁.1 (Node.within_quoteBefore hc₁.2 ha₁)
  | function id =>
    refine .of_eq (fun hw cfg => ?_) (Comparison.invoke hagree hc₁ ha₁ optionWithin_none)
    change Closure.invoke r (w₁.store.closure id) arg scope none cfg w₁ = _
    rw [← Closure.invoke_calling (hpredicates List.mem_cons_self hw)]
    rfl
  | boundMethod tag id receiver =>
    refine .of_eq (fun hw cfg => ?_)
      (Comparison.invoke hagree hc₁.1 ha₁ (optionWithin_some.mpr hc₁.2))
    change Closure.invoke r (w₁.store.closure id) arg scope (some receiver) cfg w₁ = _
    rw [← Closure.invoke_calling (hpredicates List.mem_cons_self hw)]
    rfl
  | multiFunction tag ids =>
    change Rel T room w₁ scope (Closure.invokeAny r ids arg scope)
      (Closure.invokeAny (r.calling call) ids arg scope) Value.Within
    rw [Closure.invokeAny_eq, Closure.invokeAny_eq]
    refine (comparison T room).bind (hagree.eval w₁ scope ha₁) fun w₂ args h₂ hargs => ?_
    refine (comparison T room).choose fun w₃ id hid h₃ => ?_
    have hid₃ := Census.closure_mono h₃ (Census.closure_mono h₂ (hc₁ id hid))
    have hargs₃ : (Node.quoted args).Within w₃.census := hargs.mono h₃
    refine .of_eq (fun hw cfg => ?_) (Comparison.alternative hagree hid₃ hargs₃)
    change Closure.call? r (w₃.store.closure id) (.quoted args) scope none cfg w₃ = _
    rw [← Closure.call?_calling (hpredicates hid hw)]
    rfl
  | pattern p =>
    exact .of_eq (fun _ cfg => (congrFun₂ (callPattern_calling
      (fun v hv u => hasks _ _ (.pattern u arg hv)) arg) cfg w₁).symm)
      (Comparison.callPattern hagree hc₁ ha₁)
  | pair outer inner =>
    refine (comparison T room).bind (hcall (.inner outer inner arg) hc₁.2 ha₁) fun w₂ v h₂ hv => ?_
    refine hcall (.outer outer inner v arg) (hc₁.1.mono h₂)
      (Node.within_quote (Value.within_ofList fun u hu => ?_))
    rw [List.mem_singleton] at hu
    exact hu ▸ hv
  | method id => exact (comparison T room).fail
  | nil | void | integer _ | bool _ | symbol _ | object _ | dictionary _ | promise _ =>
    exact Congruence.andThen ((comparison T room).read fun _ st => st.text _) fun _ _ _ =>
      (comparison T room).fail

end Asked

/-- **What is asked for by a call**, and failure instead of any other. -/
noncomputable def asked (r : Evaluator) (callee : Value) (arg : Node) (callee' : Value)
    (arg' : Node) (scope : ScopeId) : Eval Value :=
  open scoped Classical in
  if Asks callee arg callee' arg' then r.call callee' arg' scope else Eval.fail .patternMismatch

section Rests

variable (hcalls : ∀ m t, T.picks m t → m.IsCall)
  (hhands : ∀ s callee arg scope, callee.HandsOn → Rests T (T.runs.call callee arg scope) s)
  (hevals : EvalsRest T room)

include hcalls hhands hevals

/-- **A call comes to rest if what it asks for does.** -/
theorem callRests_of_asks {callee : Value} {arg : Node}
    (h : ∀ callee' arg', Asks callee arg callee' arg' → CallRests T room callee' arg') :
    CallRests T room callee arg := by
  intro s scope hc ha
  refine ⟨(keeps_runs T).call s scope hc ha, fun _ _ => rfl, fun hs hroom => ?_⟩
  by_cases hhand : callee.HandsOn
  · exact hhands s callee arg scope hhand
  · have hagree : (comparison T room).Agree (T.runs.calling (asked T.runs callee arg))
        (T.runs.calling (asked T.runs callee arg)) := by
      refine ⟨fun w u _ hn => hevals w u hn, fun w u callee' arg' hc' ha' => ?_,
        fun w u _ hid => rel_force (fun w u _ hn => hevals w u hn) w u hid⟩
      change Rel T room w u (asked T.runs callee arg callee' arg' u)
        (asked T.runs callee arg callee' arg' u) Value.Within
      rw [asked]
      split
      · next hasks => exact h callee' arg' hasks w u hc' ha'
      · exact (comparison T room).fail
    have hrel : Rel T room s scope (callValue T.runs callee arg scope)
        (callValue (T.runs.calling (asked T.runs callee arg)) callee arg scope) Value.Within :=
      rel_callValue hagree (fun callee' arg' hasks => funext fun _ => if_pos hasks)
        (keepsPatterns_runs T) hhand hc ha
    exact rests_call hcalls fun _ => hrel.rests_left hs hroom

/-- **Every call comes to rest**: what it asks for weighs less. -/
theorem callRests (callee : Value) (arg : Node) : CallRests T room callee arg := by
  have hweight : ∀ w : Nat ×ₗ Nat ×ₗ Nat, ∀ n callee arg, weight n callee arg = w →
      Aged n callee arg → CallRests T room callee arg := by
    intro w
    induction w using WellFoundedLT.induction with
    | ind w ih =>
      rintro n callee arg rfl haged
      refine callRests_of_asks hcalls hhands hevals fun callee' arg' hasks => ?_
      rcases hasks.lighter haged with hless | ⟨n', haged', hless⟩
      · -- with less to do, whatever there is at the time of the call may be mentioned
        intro s scope hc ha
        exact ih _ (weight_lt_of_toDo hless) s.store.closures.size callee' arg' rfl
          (.of_within hc ha) s scope hc ha
      · exact ih _ hless n' callee' arg' rfl haged'
  intro s scope hc ha
  exact hweight _ s.store.closures.size callee arg rfl (.of_within hc ha) s scope hc ha

theorem agree_runs : (comparison T room).Agree T.runs T.runs :=
  ⟨fun s scope _ hn => hevals s scope hn,
    fun s scope callee arg hc ha => callRests hcalls hhands hevals callee arg s scope hc ha,
    fun s scope _ hid => rel_force (fun s scope _ hn => hevals s scope hn) s scope hid⟩

end Rests

/-- **Evaluations come to rest**, by induction on the room that is left for them. -/
theorem evalsRest (hcalls : ∀ m t, T.picks m t → m.IsCall)
    (hhands : ∀ s callee arg scope, callee.HandsOn → Rests T (T.runs.call callee arg scope) s)
    (room : Nat) : EvalsRest T room := by
  induction room with
  | zero =>
    exact fun s scope node hn => ⟨(keeps_runs T).eval s scope hn, fun _ _ => rfl, fun _ hroom =>
      rests_eval hcalls fun hless => absurd hroom (Nat.not_le_of_lt hless)⟩
  | succ room ih =>
    refine fun s scope node hn => ⟨(keeps_runs T).eval s scope hn, fun _ _ => rfl,
      fun hs hroom => rests_eval hcalls fun _ => ?_⟩
    have hdown : s.Leads { s with depth := s.depth + 1 } := .of_same hs.sound rfl rfl
    have hrel : Rel T room { s with depth := s.depth + 1 } scope (evalNode T.runs node scope)
        (evalNode T.runs node scope) Value.Within := (agree_runs hcalls hhands ih).evalNode hn
    refine hrel.rests ⟨hdown.sound, hs.inUse, hs.layered.of_closures rfl⟩ ?_
    dsimp only
    omega

end Resting

end Fexpr
