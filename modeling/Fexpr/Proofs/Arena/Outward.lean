import Fexpr.Proofs.Arena.Circle

/-!
# Proofs/Arena/Outward — binding outwards and looking up agree on where a name lives

Looking a name up and binding it outwards walk along the same parents.  Both walks end in one frame,
the **home** of the name: the nearest frame of the chain that binds it, or the last of the chain
when none does (`search_iff_home`).

Binding there moves no search, neither for that name nor for another, from no frame of the arena
(`Rebound.search`): so what changes is what those scopes see from which the home is not shadowed,
and nothing else (`setOutward_law`).
-/

namespace Fexpr

namespace Arena

/-- **The home of a name as seen from a scope**: the first frame of the chain that binds it, or the
last frame of the chain when none does. -/
def Home (a : Arena) (name : String) (s w : ScopeId) : Prop :=
  ∃ before after, a.Lineage s (before ++ w :: after) ∧
    (∀ u ∈ before, a.has u name = false) ∧ (a.has w name ∨ after = [])

/-- **A frame on the chain of a scope with no nearer binding of a name.** -/
def Unshadowed (a : Arena) (name : String) (t w : ScopeId) : Prop :=
  ∃ before after, a.Lineage t (before ++ w :: after) ∧ ∀ u ∈ before, a.has u name = false

/-- **One binding has changed**: that of `name` in the frame `w`, which is `v` now. -/
structure Rebound (a b : Arena) (w : ScopeId) (name : String) (v : Value) : Prop where
  free : b.free = a.free
  size : b.frames.size = a.frames.size
  parent? : ∀ u, b.parent? u = a.parent? u
  captured : ∀ u, b.isCaptured u = a.isCaptured u
  bindings : ∀ u m, (b.frame u).bindings[m]? =
    if u = w ∧ m = name then some v else (a.frame u).bindings[m]?

variable {a b : Arena} {name m : String} {s t u w : ScopeId} {us : List ScopeId} {v : Value}

/-! ## Where a search ends -/

theorem ChainsEnd.bounded (h : a.ChainsEnd) : a.Bounded := by
  intro u p hp
  obtain ⟨us, hus⟩ := h u (lt_size_of_parent hp)
  cases hus with
  | root _ hnone => cases hp.symm.trans hnone
  | step _ hp' hus =>
    obtain rfl := Option.some.inj (hp.symm.trans hp')
    exact hus.lt_size (by cases hus <;> exact List.mem_cons_self)

theorem Search.unique (h : a.Search name s t) (h' : a.Search name s u) : t = u := by
  induction h with
  | binder hs =>
    cases h' with
    | binder => rfl
    | outermost hs' => cases hs.symm.trans hs'
    | outwards hs' => cases hs.symm.trans hs'
  | outermost hs hp =>
    cases h' with
    | binder hs' => cases hs.symm.trans hs'
    | outermost => rfl
    | outwards _ hp' => cases hp.symm.trans hp'
  | outwards hs hp _ ih =>
    cases h' with
    | binder hs' => cases hs.symm.trans hs'
    | outermost _ hp' => cases hp.symm.trans hp'
    | outwards _ hp' h' =>
      obtain rfl := Option.some.inj (hp.symm.trans hp')
      exact ih h'

/-- A search passes what does not bind the name, up to where it has a reason to end. -/
theorem Search.of_lineage {before after : List ScopeId}
    (h : a.Lineage s (before ++ w :: after)) (hbefore : ∀ u ∈ before, a.has u name = false)
    (hw : a.has w name ∨ a.parent? w = none) : a.Search name s w := by
  induction before generalizing s with
  | nil =>
    obtain rfl : s = w := by cases h <;> rfl
    cases hs : a.has s name with
    | true => exact .binder hs
    | false => exact .outermost hs (hw.resolve_left (by simp [hs]))
  | cons u before ih =>
    obtain ⟨hu, hbefore⟩ := List.forall_mem_cons.mp hbefore
    cases hrest : before ++ w :: after with
    | nil => simp at hrest
    | cons p rest =>
      rw [List.cons_append, hrest] at h
      cases h with
      | step _ hp h => exact .outwards hu hp (ih (hrest ▸ h) hbefore)

/-- The chain up to where a search ends, and on from there. -/
theorem Search.exists_lineage (h : a.Search name s w) (hus : a.Lineage s us) :
    ∃ before after, us = before ++ w :: after ∧ (∀ u ∈ before, a.has u name = false) ∧
      (a.has w name ∨ after = []) := by
  induction h generalizing us with
  | @binder s hs => cases hus with
    | root => exact ⟨[], [], rfl, by simp, .inl hs⟩
    | @step _ _ us => exact ⟨[], us, rfl, by simp, .inl hs⟩
  | @outermost s _ hp => cases hus with
    | root => exact ⟨[], [], rfl, by simp, .inr rfl⟩
    | step _ hp' => cases hp.symm.trans hp'
  | @outwards s p w hs hp _ ih => cases hus with
    | root _ hnone => cases hp.symm.trans hnone
    | step _ hp' hus =>
      obtain rfl := Option.some.inj (hp.symm.trans hp')
      obtain ⟨before, after, rfl, hbefore, hw⟩ := ih hus
      exact ⟨s :: before, after, rfl, List.forall_mem_cons.mpr ⟨hs, hbefore⟩, hw⟩

/-- The last frame of a chain has no parent. -/
theorem Lineage.parent?_last {before : List ScopeId} (h : a.Lineage s (before ++ [w])) :
    a.parent? w = none := by
  induction before generalizing s with
  | nil => cases h with
    | root _ hp => exact hp
    | step _ _ h => exact absurd rfl h.ne_nil
  | cons u before ih =>
    cases hrest : before ++ [w] with
    | nil => simp at hrest
    | cons p rest =>
      rw [List.cons_append, hrest] at h
      cases h with
      | step _ _ h => exact ih (hrest ▸ h)

/-- **A search ends at home.** -/
theorem search_iff_home (h : a.ChainsEnd) (hs : s < a.frames.size) :
    a.Search name s w ↔ a.Home name s w := by
  constructor
  · intro hw
    obtain ⟨us, hus⟩ := h s hs
    obtain ⟨before, after, rfl, hbefore, hw⟩ := hw.exists_lineage hus
    exact ⟨before, after, hus, hbefore, hw⟩
  · rintro ⟨before, after, hus, hbefore, hw⟩
    refine .of_lineage hus hbefore (hw.imp_right ?_)
    rintro rfl
    exact hus.parent?_last

/-- A home of a name, of whatever scope, is the home of all scopes that see it unshadowed. -/
theorem search_iff_unshadowed (h : a.ChainsEnd) (ht : t < a.frames.size)
    (hw : a.has w name ∨ a.parent? w = none) :
    a.Search name t w ↔ a.Unshadowed name t w := by
  constructor
  · intro hsearch
    obtain ⟨before, after, hus, hbefore, -⟩ := (search_iff_home h ht).mp hsearch
    exact ⟨before, after, hus, hbefore⟩
  · rintro ⟨before, after, hus, hbefore⟩
    exact .of_lineage hus hbefore hw

/-! ## What a binding changes -/

theorem rebound_set (hw : w < a.frames.size) (name : String) (v : Value) :
    a.Rebound (a.set w name v) w name v where
  free := rfl
  size := size_update a w _
  parent? := parent?_set a w name v
  captured u := part_update (·.captured)
    (f := fun f => { f with bindings := f.bindings.insert name v }) (fun _ => rfl) a w u
  bindings u m := by
    by_cases hu : w = u
    · subst hu
      rw [set, frame_update_self _ hw, Std.ExtTreeMap.getElem?_insert]
      by_cases hm : m = name
      · simp [hm]
      · simp [hm, Ne.symm hm]
    · rw [set, frame_update_of_ne _ hu, if_neg fun h => hu h.1.symm]

theorem Rebound.has_eq (h : a.Rebound b w name v) (u : ScopeId) (m : String) :
    b.has u m = (decide (u = w ∧ m = name) || a.has u m) := by
  rw [has_eq_isSome, has_eq_isSome, h.bindings]
  split <;> simp [*]

/-- **A binding at home moves no search**: wherever one has ended, it ends there still. -/
theorem Rebound.search (h : a.Rebound b w name v) (hw : a.has w name ∨ a.parent? w = none)
    (hsearch : a.Search m t u) : b.Search m t u := by
  induction hsearch with
  | binder hs => exact .binder (by rw [h.has_eq, hs, Bool.or_true])
  | @outermost s hs hp =>
    by_cases hsw : s = w ∧ m = name
    · exact .binder (by rw [h.has_eq, decide_eq_true hsw, Bool.true_or])
    · exact .outermost (by rw [h.has_eq, hs, decide_eq_false hsw, Bool.false_or])
        ((h.parent? s).trans hp)
  | @outwards s p u hs hp _ ih =>
    -- a search goes past no frame that is the home of its name
    have hsw : ¬(s = w ∧ m = name) := by
      rintro ⟨rfl, rfl⟩
      rw [hs, hp] at hw
      simp at hw
    exact .outwards (by rw [h.has_eq, hs, decide_eq_false hsw, Bool.false_or])
      ((h.parent? s).trans hp) ih

theorem Rebound.bounded (h : a.Rebound b w name v) (ha : a.Bounded) : b.Bounded := by
  intro u p hp
  rw [h.parent?] at hp
  rw [h.size]
  exact ha u p hp

/-- **What is looked up after a binding at home**, from any frame. -/
theorem Rebound.get?_eq (h : a.Rebound b w name v) (ha : a.ChainsEnd)
    (hw : a.has w name ∨ a.parent? w = none) (ht : t < a.frames.size) (m : String) :
    (m = name ∧ a.Unshadowed name t w → b.get? t m = some v) ∧
      (¬(m = name ∧ a.Unshadowed name t w) → b.get? t m = a.get? t m) := by
  obtain ⟨us, hus⟩ := ha t ht
  obtain ⟨u, hu⟩ := exists_search_of_lineage hus m
  have hb : b.get? t m = (b.frame u).bindings[m]? :=
    (h.search hw hu).get?_eq (h.bounded ha.bounded) (h.size ▸ ht)
  rw [hb, h.bindings, hu.get?_eq ha.bounded ht]
  refine ⟨?_, fun hne => if_neg ?_⟩
  · rintro ⟨rfl, hseen⟩
    have hwu : w = u := ((search_iff_unshadowed ha ht hw).mpr hseen).unique hu
    exact if_pos ⟨hwu.symm, rfl⟩
  · rintro ⟨rfl, rfl⟩
    exact hne ⟨rfl, (search_iff_unshadowed ha ht hw).mp hu⟩

/-- **Binding outwards and looking up agree on where a name lives.**  When all chains end, binding
outwards tells whether the name was in scope, and it is bound to the value from then on.  One
binding changes, at the home of the name; other names are what they were from every frame, and this
name is the new value from those frames on whose chain no nearer frame than that home binds it. -/
theorem setOutward_law (h : a.ChainsEnd) (hs : s < a.frames.size) (name : String) (v : Value) :
    ((a.setOutward s name v).1 = true ↔ ∃ x, a.get? s name = some x) ∧
    (a.setOutward s name v).2.get? s name = some v ∧
    ∃ w, a.Home name s w ∧ a.Rebound (a.setOutward s name v).2 w name v ∧
      ∀ t < a.frames.size, ∀ m,
        (m = name ∧ a.Unshadowed name t w → (a.setOutward s name v).2.get? t m = some v) ∧
        (¬(m = name ∧ a.Unshadowed name t w) →
          (a.setOutward s name v).2.get? t m = a.get? t m) := by
  obtain ⟨us, hus⟩ := h s hs
  obtain ⟨w, hw⟩ := exists_search_of_lineage hus name
  have hb : a.Rebound (a.set w name v) w name v :=
    rebound_set (h.bounded.lt_of_ancestor hs hw.ancestor) name v
  have hseen := (search_iff_unshadowed h hs hw.has_or_outermost).mp hw
  rw [hw.setOutward_eq h.bounded hs]
  refine ⟨?_, (hb.get?_eq h hw.has_or_outermost hs name).1 ⟨rfl, hseen⟩, w,
    (search_iff_home h hs).mp hw, hb, fun t ht m => hb.get?_eq h hw.has_or_outermost ht m⟩
  rw [hw.get?_eq h.bounded hs, has_eq_isSome, Option.isSome_iff_exists]

/-- Frames whose chains meet in one that binds the name, as the end of the chains does too and one
of the frames below. -/
def branching : Arena where
  frames := #[{ bindings := .ofList [("x", Value.integer 1)] },
    { parent := some root, bindings := .ofList [("x", Value.integer 2)] },
    { parent := some 1 },
    { parent := some 1, bindings := .ofList [("x", Value.integer 3)] }]
  free := []

theorem chainsEnd_branching : branching.ChainsEnd := by
  have h : branching.Lineage 1 [1, 0] := .step (by decide) rfl (.root (by decide) rfl)
  intro s hs
  match s, hs with
  | 0, hs => exact ⟨[0], .root hs rfl⟩
  | 1, _ => exact ⟨[1, 0], h⟩
  | 2, hs => exact ⟨[2, 1, 0], .step hs rfl h⟩
  | 3, hs => exact ⟨[3, 1, 0], .step hs rfl h⟩

/-- From the second frame the name is bound in the first, where the chains meet. -/
theorem setOutward_branching :
    let b := (branching.setOutward 2 "x" (.integer 7)).2
    branching.ChainsEnd ∧ 2 < branching.frames.size ∧
      ((branching.setOutward 2 "x" (.integer 7)).1 = true ↔
        ∃ x, branching.get? 2 "x" = some x) ∧
      b.get? 2 "x" = some (.integer 7) ∧
      (∃ w, branching.Home "x" 2 w ∧ branching.Rebound b w "x" (.integer 7) ∧
        ∀ t < branching.frames.size, ∀ m,
          (m = "x" ∧ branching.Unshadowed "x" t w → b.get? t m = some (.integer 7)) ∧
          (¬(m = "x" ∧ branching.Unshadowed "x" t w) → b.get? t m = branching.get? t m)) ∧
      [0, 1, 2, 3].map (b.get? · "x") =
        [some (.integer 1), some (.integer 7), some (.integer 7), some (.integer 3)] := by
  intro b
  have hlt : 2 < branching.frames.size := by decide
  obtain ⟨hfound, hself, hhome⟩ := setOutward_law chainsEnd_branching hlt "x" (.integer 7)
  exact ⟨chainsEnd_branching, hlt, hfound, hself, hhome, rfl⟩

end Arena

end Fexpr
