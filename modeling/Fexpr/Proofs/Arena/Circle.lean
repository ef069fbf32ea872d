import Fexpr.Proofs.Arena.Client

/-!
# Proofs/Arena/Circle — when parents lead in a circle, and what still comes back then

The parent of a frame need not be older than the frame.  A slot that was released is handed out
again, also for a frame below itself: then the frame is its own parent
(`Client.frame_below_itself`), and a search from it for a name that it does not bind never ends.

This is how circles arise, and the only way: a chain stops ending exactly when a new frame takes the
slot in which the chain of its parent ends (`ChainsEnd.run_iff`).  Up to then every search ends, and
capturing always does (`Client.walks_end`).
-/

namespace Fexpr

namespace Arena

/-- **From every frame the parents lead to a frame without one.** -/
def ChainsEnd (a : Arena) : Prop :=
  ∀ s < a.frames.size, ∃ us, a.Lineage s us

/-- **A request for a frame that closes a circle**: the slot which it takes lies above the parent
that it names, or is that parent. -/
def Request.Closes (a : Arena) : Request → Prop
  | .child p => a.Ancestor p (a.child p).1
  | _ => False

/-- Every request that closes no circle. -/
def Client.noCircle : Client.Kind := fun a q => ¬q.Closes a

variable {a b : Arena} {p s u v : ScopeId} {us : List ScopeId}

/-! ## Chains and changes of parents -/

theorem eq_of_ancestor_of_outermost (hp : a.parent? s = none) (h : a.Ancestor s v) : v = s := by
  rcases Relation.ReflTransGen.cases_head h with rfl | ⟨w, hw, -⟩
  · rfl
  · cases hp.symm.trans hw

theorem Lineage.mem_of_ancestor (h : a.Lineage s us) (hv : a.Ancestor s v) : v ∈ us := by
  induction hv using Relation.ReflTransGen.head_induction_on generalizing us with
  | refl => cases h <;> exact List.mem_cons_self
  | head hp _ ih =>
    cases h with
    | root _ hnone => cases hp.symm.trans hnone
    | step _ hp' h =>
      obtain rfl := Option.some.inj (hp.symm.trans hp')
      exact List.mem_cons_of_mem _ (ih h)

theorem Lineage.ancestor_of_mem (h : a.Lineage s us) (hv : v ∈ us) : a.Ancestor s v := by
  induction h with
  | root =>
    obtain rfl := List.mem_singleton.mp hv
    exact .refl
  | step _ hp _ ih =>
    rcases List.mem_cons.mp hv with rfl | hv
    · exact .refl
    · exact .head hp (ih hv)

/-- Where parents lead back to the frame they start from, they do not end. -/
theorem not_lineage_of_circle (hp : a.parent? s = some p) (h : a.Ancestor p s) :
    ¬∃ us, a.Lineage s us := by
  rintro ⟨us, hus⟩
  have hnodup := hus.nodup
  cases hus with
  | root _ hnone => cases hp.symm.trans hnone
  | step _ hp' hus =>
    obtain rfl := Option.some.inj (hp.symm.trans hp')
    exact (List.nodup_cons.mp hnodup).1 (hus.mem_of_ancestor h)

/-- A chain whose frames keep their parents stays. -/
theorem Lineage.congr (h : a.Lineage s us) (hsize : a.frames.size ≤ b.frames.size)
    (hparent : ∀ u ∈ us, b.parent? u = a.parent? u) : b.Lineage s us := by
  induction h with
  | root hu hp =>
    exact .root (hu.trans_le hsize) ((hparent _ List.mem_cons_self).trans hp)
  | step hu hp _ ih =>
    exact .step (hu.trans_le hsize) ((hparent _ List.mem_cons_self).trans hp)
      (ih fun w hw => hparent w (List.mem_cons_of_mem _ hw))

/-- **Taking parents away leaves chains that end**, only sooner. -/
theorem Lineage.exists_of_removed (h : a.Lineage s us) (hsize : a.frames.size ≤ b.frames.size)
    (hparent : ∀ u, b.parent? u = a.parent? u ∨ b.parent? u = none) :
    ∃ us', b.Lineage s us' := by
  induction h with
  | root hu hp =>
    exact ⟨_, .root (hu.trans_le hsize) ((hparent _).elim (fun he => he.trans hp) id)⟩
  | step hu hp _ ih =>
    rcases hparent _ with he | hnone
    · obtain ⟨us', hus'⟩ := ih
      exact ⟨_, .step (hu.trans_le hsize) (he.trans hp) hus'⟩
    · exact ⟨_, .root (hu.trans_le hsize) hnone⟩

theorem ChainsEnd.of_removed (h : a.ChainsEnd) (hsize : b.frames.size = a.frames.size)
    (hparent : ∀ u, b.parent? u = a.parent? u ∨ b.parent? u = none) : b.ChainsEnd := by
  intro s hs
  obtain ⟨us, hus⟩ := h s (hsize ▸ hs)
  exact hus.exists_of_removed hsize.ge hparent

theorem ChainsEnd.of_sameShape (h : a.ChainsEnd) (hab : a.SameShape b) : b.ChainsEnd :=
  h.of_removed hab.size fun u => Or.inl (hab.parent? u)

theorem chainsEnd_fresh : fresh.ChainsEnd := by
  intro s hs
  have hlt : s < 1 := hs
  obtain rfl := Nat.lt_one_iff.mp hlt
  exact ⟨[0], .root hs rfl⟩

theorem ChainsEnd.release (h : a.ChainsEnd) (s : ScopeId) : (a.release s).ChainsEnd := by
  refine h.of_removed (size_release a s) fun u => ?_
  cases hr : a.isReleasable s with
  | false =>
    rw [release_of_not_releasable hr]
    exact Or.inl rfl
  | true =>
    by_cases hsu : s = u
    · exact Or.inr (hsu ▸ parent?_release_self hr)
    · rw [parent?, frame_release_of_ne hsu]
      exact Or.inl rfl

/-! ## New frames -/

section Child

variable (ha : a.InOrder)

include ha

/-- The slot of a new frame has no parent before. -/
theorem InOrder.parent?_new (p : ScopeId) : a.parent? (a.child p).1 = none := by
  cases h : a.parent? (a.child p).1 with
  | none => rfl
  | some q => exact absurd rfl ((ha.child_ne p).2 _ (by rw [h]; rfl))

/-- What lies above a frame still does when another has been opened. -/
theorem InOrder.ancestor_child (h : a.Ancestor s v) : (a.child p).2.Ancestor s v := by
  refine Relation.ReflTransGen.mono (fun u w hw => ?_) _ _ h
  have hne : u ≠ (a.child p).1 := by
    rintro rfl
    cases hw.symm.trans (ha.parent?_new p)
  exact (congrArg Frame.parent (frame_child_of_ne p hne)).trans hw

/-- **A frame that takes a slot above its parent closes a circle.** -/
theorem InOrder.not_chainsEnd_child (h : a.Ancestor p (a.child p).1) :
    ¬(a.child p).2.ChainsEnd := by
  intro hend
  have hnew : (a.child p).2.parent? (a.child p).1 = some p := by
    rw [parent?, frame_child_self p ha.tidy]
  exact not_lineage_of_circle hnew (ha.ancestor_child h)
    (hend _ ((lt_size_child_iff p ha.tidy).mpr (Or.inl rfl)))

/-- **Any other new frame leaves chains that end**: what led to its slot goes on with the chain of
its parent. -/
theorem InOrder.chainsEnd_child (hend : a.ChainsEnd) (hp : p < a.frames.size)
    (h : ¬a.Ancestor p (a.child p).1) : (a.child p).2.ChainsEnd := by
  have hsize : a.frames.size ≤ (a.child p).2.frames.size :=
    Nat.le_of_not_lt fun hlt => Nat.lt_irrefl _ ((lt_size_child_iff p ha.tidy).mpr (Or.inr hlt))
  have hparent : ∀ u, u ≠ (a.child p).1 → (a.child p).2.parent? u = a.parent? u := fun u hu =>
    congrArg Frame.parent (frame_child_of_ne p hu)
  obtain ⟨ps, hps⟩ := hend p hp
  have habove : (a.child p).2.Lineage p ps :=
    hps.congr hsize fun u hu => hparent u fun he => h (he ▸ hps.ancestor_of_mem hu)
  have hnew : (a.child p).2.Lineage (a.child p).1 ((a.child p).1 :: ps) :=
    .step ((lt_size_child_iff p ha.tidy).mpr (Or.inl rfl))
      (by rw [parent?, frame_child_self p ha.tidy]) habove
  have hold : ∀ {s us}, a.Lineage s us → ∃ us', (a.child p).2.Lineage s us' := by
    intro s us hus
    induction hus with
    | @root u hu hnone =>
      by_cases hun : u = (a.child p).1
      · exact ⟨_, hun ▸ hnew⟩
      · exact ⟨_, .root (hu.trans_le hsize) ((hparent u hun).trans hnone)⟩
    | @step u q us hu hq _ ih =>
      have hun : u ≠ (a.child p).1 := by
        rintro rfl
        cases hq.symm.trans (ha.parent?_new p)
      obtain ⟨us', hus'⟩ := ih
      exact ⟨_, .step (hu.trans_le hsize) ((hparent u hun).trans hq) hus'⟩
  intro s hs
  rcases (lt_size_child_iff p ha.tidy).mp hs with rfl | hs
  · exact ⟨_, hnew⟩
  · obtain ⟨us, hus⟩ := hend s hs
    exact hold hus

end Child

/-- **How circles arise**: when all chains end, they still do after a request unless that closes a
circle. -/
theorem ChainsEnd.run_iff (hend : a.ChainsEnd) (ha : a.InOrder) {q : Request}
    (hq : q.handle < a.frames.size) : (q.run a).ChainsEnd ↔ ¬q.Closes a := by
  cases q with
  | child p =>
    exact ⟨fun h hcloses => ha.not_chainsEnd_child hcloses h, ha.chainsEnd_child hend hq⟩
  | capture s => exact iff_of_true (hend.of_sameShape (sameShape_capture a s)) not_false
  | release s => exact iff_of_true (hend.release s) not_false
  | set s name v => exact iff_of_true (hend.of_sameShape (sameShape_set a s name v)) not_false
  | setOutward s name v =>
    exact iff_of_true (hend.of_sameShape (sameShape_setOutward a s name v)) not_false

/-! ## What a client can bring about -/

namespace Client

variable {x y : Client}

/-- Without a request that closes a circle all chains end. -/
theorem Reaches.chainsEnd (h : x.Reaches noCircle y) (hx : x.Sound) (hend : x.arena.ChainsEnd) :
    y.arena.ChainsEnd := by
  induction h with
  | refl => exact hend
  | tail hxy hstep ih =>
    obtain ⟨q, hq, -, hkind, rfl⟩ := hstep
    have hy := Reaches.sound hxy hx
    exact (ih.run_iff hy.inOrder ((hy.mem_handles _).mp hq)).mpr hkind

/-- **Which walks come back.**  Capturing always does.  A search for a name does if some frame on
its way binds the name or the chain ends, and only then; looking up and binding outwards do what it
finds.  All chains end as long as no request has closed a circle, and a request that does so is the
first after which some chain does not. -/
theorem walks_end (h : fresh.Reaches anything x) :
    (∀ s ∈ x.handles, ∀ b, Marking x.arena s b ↔ b = x.arena.capture s) ∧
    (∀ s ∈ x.handles, ∀ name,
      ((∃ t, x.arena.Search name s t) ↔
        (∃ v, x.arena.Ancestor s v ∧ x.arena.has v name) ∨ ∃ us, x.arena.Lineage s us) ∧
      ∀ t, x.arena.Search name s t →
        x.arena.get? s name = (x.arena.frame t).bindings[name]? ∧
        ∀ v, x.arena.setOutward s name v = (x.arena.has t name, x.arena.set t name v)) ∧
    (fresh.Reaches noCircle x → ∀ s ∈ x.handles, ∃ us, x.arena.Lineage s us) ∧
    (x.arena.ChainsEnd → ∀ q : Request, q.handle ∈ x.handles →
      ((q.run x.arena).ChainsEnd ↔ ¬q.Closes x.arena)) := by
  have hx := h.sound sound_fresh
  have hbounded := hx.inOrder.bounded
  refine ⟨fun s hs b => ?_, fun s hs name => ?_, fun hopen s hs => ?_, fun hend q hq => ?_⟩
  · exact marking_iff hbounded ((hx.mem_handles s).mp hs)
  · have hlt := (hx.mem_handles s).mp hs
    exact ⟨exists_search_iff hbounded hlt, fun t ht =>
      ⟨ht.get?_eq hbounded hlt, ht.setOutward_eq hbounded hlt⟩⟩
  · exact hopen.chainsEnd sound_fresh chainsEnd_fresh s ((hx.mem_handles s).mp hs)
  · exact hend.run_iff hx.inOrder ((hx.mem_handles _).mp hq)

/-- A frame below one that has been released and reopened, with the stale handle still about. -/
theorem walks_end_below_reopened :
    let x := (((fresh.ask (.child root)).ask (.release 1)).ask (.child root)).ask (.child 1)
    fresh.Reaches anything x ∧ fresh.Reaches noCircle x ∧ x.handles = [2, 1, 1, 0] ∧
      (∀ s ∈ x.handles, ∀ b, Marking x.arena s b ↔ b = x.arena.capture s) ∧
      (∀ s ∈ x.handles, ∀ name,
        ((∃ t, x.arena.Search name s t) ↔
          (∃ v, x.arena.Ancestor s v ∧ x.arena.has v name) ∨ ∃ us, x.arena.Lineage s us) ∧
        ∀ t, x.arena.Search name s t →
          x.arena.get? s name = (x.arena.frame t).bindings[name]? ∧
          ∀ v, x.arena.setOutward s name v = (x.arena.has t name, x.arena.set t name v)) ∧
      (fresh.Reaches noCircle x → ∀ s ∈ x.handles, ∃ us, x.arena.Lineage s us) ∧
      (x.arena.ChainsEnd → ∀ q : Request, q.handle ∈ x.handles →
        ((q.run x.arena).ChainsEnd ↔ ¬q.Closes x.arena)) := by
  intro x
  have hchild : fresh.Reaches noCircle (fresh.ask (.child root)) :=
    Reaches.ask .refl (by decide) trivial fun h =>
      absurd (eq_of_ancestor_of_outermost (by decide) h) (by decide)
  have hreleased : fresh.Reaches noCircle ((fresh.ask (.child root)).ask (.release 1)) :=
    hchild.ask (by decide) trivial not_false
  have hreopened : fresh.Reaches noCircle
      (((fresh.ask (.child root)).ask (.release 1)).ask (.child root)) :=
    hreleased.ask (by decide) trivial fun h =>
      absurd (eq_of_ancestor_of_outermost (by decide) h) (by decide)
  have hx : fresh.Reaches noCircle x := by
    refine hreopened.ask (by decide) trivial fun h => ?_
    rcases Relation.ReflTransGen.cases_head h with he | ⟨w, hw, h⟩
    · exact absurd he (by decide)
    · obtain rfl : root = w := Option.some.inj ((by decide : _ = some root).symm.trans hw)
      exact absurd (eq_of_ancestor_of_outermost (by decide) h) (by decide)
  have hany : fresh.Reaches anything x := hx.mono fun _ _ _ => trivial
  exact ⟨hany, hx, by decide, walks_end hany⟩

/-- **A frame that is its own parent**: a slot that is handed out again, for a frame below itself.
From there parents lead nowhere, and no search ends. -/
theorem frame_below_itself :
    let x := ((fresh.ask (.child root)).ask (.release 1)).ask (.child 1)
    fresh.Reaches anything x ∧ 1 ∈ x.handles ∧ x.arena.parent? 1 = some 1 ∧
      (¬∃ us, x.arena.Lineage 1 us) ∧ ∀ name, ¬∃ t, x.arena.Search name 1 t := by
  intro x
  have hchild : fresh.Reaches anything (fresh.ask (.child root)) :=
    Reaches.ask .refl (by decide) trivial trivial
  have hreleased : fresh.Reaches anything ((fresh.ask (.child root)).ask (.release 1)) :=
    hchild.ask (by decide) trivial trivial
  have hx : fresh.Reaches anything x := hreleased.ask (by decide) trivial trivial
  have hself : x.arena.parent? 1 = some 1 := by decide
  have hempty : ∀ name, x.arena.has 1 name = false := fun name => Std.ExtTreeMap.contains_empty
  refine ⟨hx, by decide, hself, not_lineage_of_circle hself .refl, fun name ⟨t, ht⟩ => ?_⟩
  generalize hs : 1 = s at ht
  induction ht with
  | binder h =>
    rw [← hs, hempty] at h
    cases h
  | outermost _ h =>
    rw [← hs, hself] at h
    cases h
  | outwards _ hp _ ih =>
    rw [← hs, hself] at hp
    exact ih (Option.some.inj hp)

end Client

end Arena

end Fexpr
