import Fexpr.Arena
import Mathlib.Data.Finset.Card
import Mathlib.Data.Finset.Range

/-!
# Proofs/Arena/Use — which frames are in use, and what a balanced use of the arena leaves behind

A slot is **in use** unless it is on the free list.  Two relations between an arena and a later one:

* `Keeps` — the captured frames are still there, captured and under the same parent.  Every single
  operation keeps (`keeps_child`, `keeps_release`, …).
* `Settles` — *every* frame in use is still there under the same parent, and whatever is in use now
  and was not before is captured.  A frame that is opened and closed again settles
  (`Settles.of_frame`), so a whole evaluation does.

Both need the free list to be in order (`Tidy`): no slot twice, none beyond the arena, none with a
parent left.
-/

namespace Fexpr

namespace Arena

/-- **The frames in use.** -/
def inUse (a : Arena) : Finset ScopeId :=
  Finset.range a.frames.size \ a.free.toFinset

/-- Whether a frame is marked as held. -/
def isCaptured (a : Arena) (u : ScopeId) : Bool :=
  (a.frame u).captured

/-- **The free list is in order**: no slot twice, none beyond the arena, none with a parent left. -/
structure Tidy (a : Arena) : Prop where
  nodup : a.free.Nodup
  bound : ∀ u ∈ a.free, u < a.frames.size
  orphan : ∀ u ∈ a.free, a.parent? u = none

/-- **What is captured stays**, in use and under the same parent. -/
def Keeps (a b : Arena) : Prop :=
  ∀ u ∈ a.inUse, a.isCaptured u →
    u ∈ b.inUse ∧ b.isCaptured u ∧ b.parent? u = a.parent? u

/-- **What a balanced use of the arena leaves behind**: the frames that were in use, under the same
parents and as captured as they were, and beside them captured frames only. -/
structure Settles (a b : Arena) : Prop where
  tidy : b.Tidy
  inUse : ∀ u ∈ a.inUse, u ∈ b.inUse
  parent? : ∀ u ∈ a.inUse, b.parent? u = a.parent? u
  captured : ∀ u ∈ a.inUse, a.isCaptured u → b.isCaptured u
  opened : ∀ u ∈ b.inUse, u ∈ a.inUse ∨ b.isCaptured u

theorem mem_inUse {a : Arena} {u : ScopeId} :
    u ∈ a.inUse ↔ u < a.frames.size ∧ u ∉ a.free := by
  simp [inUse]

/-- **As many frames are live as are in use.** -/
theorem Tidy.live_eq {a : Arena} (h : a.Tidy) : a.live = a.inUse.card := by
  have hsub : a.free.toFinset ⊆ Finset.range a.frames.size := fun u hu =>
    Finset.mem_range.mpr (h.bound u (List.mem_toFinset.mp hu))
  rw [inUse, Finset.card_sdiff_of_subset hsub, Finset.card_range,
    List.toFinset_card_of_nodup h.nodup]
  rfl

theorem tidy_fresh : fresh.Tidy where
  nodup := List.nodup_nil
  bound := fun _ hu => absurd hu List.not_mem_nil
  orphan := fun _ hu => absurd hu List.not_mem_nil

/-! ## The two relations compose -/

namespace Keeps

theorem refl (a : Arena) : a.Keeps a := fun _ hu hc => ⟨hu, hc, rfl⟩

theorem trans {a b c : Arena} (hab : a.Keeps b) (hbc : b.Keeps c) : a.Keeps c := by
  intro u hu hc
  obtain ⟨hu', hc', hp⟩ := hab u hu hc
  obtain ⟨hu'', hc'', hp'⟩ := hbc u hu' hc'
  exact ⟨hu'', hc'', hp'.trans hp⟩

end Keeps

namespace Settles

theorem refl {a : Arena} (h : a.Tidy) : a.Settles a where
  tidy := h
  inUse := fun _ hu => hu
  parent? := fun _ _ => rfl
  captured := fun _ _ hc => hc
  opened := fun _ hu => Or.inl hu

theorem trans {a b c : Arena} (hab : a.Settles b) (hbc : b.Settles c) : a.Settles c where
  tidy := hbc.tidy
  inUse := fun u hu => hbc.inUse u (hab.inUse u hu)
  parent? := fun u hu => (hbc.parent? u (hab.inUse u hu)).trans (hab.parent? u hu)
  captured := fun u hu hc => hbc.captured u (hab.inUse u hu) (hab.captured u hu hc)
  opened := fun u hu => by
    rcases hbc.opened u hu with hb | hc
    · exact (hab.opened u hb).imp_right (hbc.captured u hb)
    · exact Or.inr hc

theorem keeps {a b : Arena} (h : a.Settles b) : a.Keeps b := fun u hu hc =>
  ⟨h.inUse u hu, h.captured u hu hc, h.parent? u hu⟩

/-- **The growth of an arena is its newly opened frames.** -/
theorem live_eq {a b : Arena} (ha : a.Tidy) (h : a.Settles b) :
    b.live = a.live + (b.inUse \ a.inUse).card := by
  rw [ha.live_eq, h.tidy.live_eq, Nat.add_comm]
  exact (Finset.card_sdiff_add_card_eq_card fun u hu => h.inUse u hu).symm

end Settles

/-! ## Changing one frame -/

/-- A part of the frames that an update does not touch. -/
theorem part_update {β : Type} (g : Frame → β) {f : Frame → Frame} (h : ∀ x, g (f x) = g x)
    (a : Arena) (s t : ScopeId) : g ((a.update s f).frame t) = g (a.frame t) := by
  by_cases hst : s = t
  · subst hst
    by_cases hs : s < a.frames.size
    · rw [frame_update_self f hs, h]
    · simp [frame, update, Array.getD, hs]
  · rw [frame_update_of_ne f hst]

@[simp] theorem inUse_update (a : Arena) (s : ScopeId) (f : Frame → Frame) :
    (a.update s f).inUse = a.inUse := by
  rw [inUse, inUse, size_update]
  rfl

/-- An update that leaves parents alone keeps the free list in order. -/
theorem Tidy.update {a : Arena} (h : a.Tidy) (s : ScopeId) {f : Frame → Frame}
    (hf : ∀ x, (f x).parent = x.parent) : (a.update s f).Tidy where
  nodup := h.nodup
  bound := fun u hu => by
    rw [size_update]
    exact h.bound u hu
  orphan := fun u hu => (part_update (·.parent) hf a s u).trans (h.orphan u hu)

/-- An update that leaves parents alone and releases nothing settles. -/
theorem Settles.update {a : Arena} (h : a.Tidy) (s : ScopeId) {f : Frame → Frame}
    (hf : ∀ x, (f x).parent = x.parent) (hc : ∀ x, x.captured → (f x).captured) :
    a.Settles (a.update s f) where
  tidy := h.update s hf
  inUse := fun u hu => by rwa [inUse_update]
  parent? := fun u _ => part_update (·.parent) hf a s u
  captured := fun u _ hu => by
    by_cases hs : s = u ∧ u < a.frames.size
    · obtain ⟨rfl, hs⟩ := hs
      rw [isCaptured, frame_update_self f hs]
      exact hc _ hu
    · by_cases hsu : s = u
      · have hlt : ¬u < a.frames.size := fun hlt => hs ⟨hsu, hlt⟩
        simp [isCaptured, frame, Array.getD, hlt] at hu
      · rwa [isCaptured, frame_update_of_ne f hsu]
  opened := fun u hu => Or.inl (by rwa [inUse_update] at hu)

/-! ## Binding and capturing -/

theorem settles_set {a : Arena} (h : a.Tidy) (s : ScopeId) (name : String) (v : Value) :
    a.Settles (a.set s name v) :=
  Settles.update h s (fun _ => rfl) fun _ hc => hc

theorem settles_setOutward {a : Arena} (h : a.Tidy) (s : ScopeId) (name : String) (v : Value) :
    a.Settles (a.setOutward s name v).2 := by
  rw [setOutward]
  split
  · exact settles_set h _ name v
  · exact settles_set h _ name v

/-- Marks a frame as held. -/
def mark (a : Arena) (s : ScopeId) : Arena :=
  a.update s fun f => { f with captured := true }

/-- Capturing a scope marks the frames of its chain, up to the first that is marked already. -/
theorem capture_eq (a : Arena) (s : ScopeId) :
    a.capture s = ((a.chain s).takeWhile fun t => !(a.frame t).captured).foldl mark a :=
  rfl

theorem size_mark (a : Arena) (s : ScopeId) : (a.mark s).frames.size = a.frames.size :=
  size_update a s _

theorem size_marks (a : Arena) (us : List ScopeId) :
    (us.foldl mark a).frames.size = a.frames.size := by
  induction us generalizing a with
  | nil => rfl
  | cons u us ih => exact (ih (a.mark u)).trans (size_mark a u)

theorem settles_marks {a : Arena} (h : a.Tidy) (us : List ScopeId) :
    a.Settles (us.foldl mark a) := by
  induction us generalizing a with
  | nil => exact Settles.refl h
  | cons u us ih =>
    have hu : a.Settles (a.mark u) := Settles.update h u (fun _ => rfl) fun _ _ => rfl
    exact hu.trans (ih hu.tidy)

theorem settles_capture {a : Arena} (h : a.Tidy) (s : ScopeId) : a.Settles (a.capture s) :=
  settles_marks h _

/-! ## Opening a frame -/

section Child

variable {a : Arena} (p : ScopeId)

/-- **A new frame was not in use.** -/
theorem child_not_mem_inUse (a : Arena) (p : ScopeId) : (a.child p).1 ∉ a.inUse := by
  rw [mem_inUse, child]
  split
  · next s free hfree => simp [hfree]
  · simp

theorem mem_inUse_child (h : a.Tidy) {t : ScopeId} :
    t ∈ (a.child p).2.inUse ↔ t = (a.child p).1 ∨ t ∈ a.inUse := by
  have hn := h.nodup
  have hb := h.bound
  rw [mem_inUse, mem_inUse, child]
  split
  · next s free hfree =>
    rw [hfree] at hn hb ⊢
    have hs : s < a.frames.size := hb s List.mem_cons_self
    have hsf : s ∉ free := (List.nodup_cons.mp hn).1
    simp only [Array.size_modify, List.mem_cons, not_or]
    constructor
    · rintro ⟨hlt, hf⟩
      by_cases hts : t = s
      · exact Or.inl hts
      · exact Or.inr ⟨hlt, hts, hf⟩
    · rintro (rfl | ⟨hlt, -, hf⟩)
      · exact ⟨hs, hsf⟩
      · exact ⟨hlt, hf⟩
  · next hfree =>
    simp only [hfree, Array.size_push, List.not_mem_nil, not_false_eq_true, and_true]
    exact Nat.lt_succ_iff_lt_or_eq.trans or_comm

/-- A new frame is empty and lies below its parent. -/
theorem frame_child_self (h : a.Tidy) :
    (a.child p).2.frame (a.child p).1 = { parent := some p } := by
  have hb := h.bound
  rw [child]
  split
  · next s free hfree =>
    have hs : s < a.frames.size := hb s (by simp [hfree])
    simp [frame, Array.getD, Array.getElem_modify, hs]
  · simp [frame, Array.getD]

theorem frame_child_of_ne {t : ScopeId} (ht : t ≠ (a.child p).1) :
    (a.child p).2.frame t = a.frame t := by
  revert ht
  rw [child]
  split
  · next s free hfree =>
    intro ht
    simp [frame, Array.getD_eq_getD_getElem?, Array.getElem?_modify, Ne.symm ht]
  · intro ht
    simp only [frame, Array.getD_eq_getD_getElem?, Array.getElem?_push]
    rw [if_neg ht]

/-- The slots there are when a frame has been opened. -/
theorem lt_size_child_iff (h : a.Tidy) {t : ScopeId} :
    t < (a.child p).2.frames.size ↔ t = (a.child p).1 ∨ t < a.frames.size := by
  have hb := h.bound
  rw [child]
  split
  · next s free hfree =>
    have hs : s < a.frames.size := hb s (by simp [hfree])
    simp only [Array.size_modify]
    exact ⟨Or.inr, fun ht => ht.elim (fun he => he ▸ hs) id⟩
  · simp only [Array.size_push]
    exact Nat.lt_succ_iff_lt_or_eq.trans or_comm

theorem Tidy.child (h : a.Tidy) : (a.child p).2.Tidy where
  nodup := by
    have hn := h.nodup
    rw [Arena.child]
    split
    · next s free hfree => exact (List.nodup_cons.mp (hfree ▸ hn)).2
    · exact hn
  bound := fun u hu => by
    have hb := h.bound
    revert hu
    rw [Arena.child]
    split
    · next s free hfree =>
      intro hu
      rw [Array.size_modify]
      exact hb u (by rw [hfree]; exact List.mem_cons_of_mem s hu)
    · next hfree => simp [hfree]
  orphan := fun u hu => by
    have hne : u ≠ (a.child p).1 := by
      rintro rfl
      exact (mem_inUse.mp ((mem_inUse_child p h).mpr (Or.inl rfl))).2 hu
    rw [Arena.parent?, frame_child_of_ne p hne]
    refine h.orphan u ?_
    revert hu
    rw [Arena.child]
    split
    · next s free hfree =>
      intro hu
      rw [hfree]
      exact List.mem_cons_of_mem s hu
    · exact id

theorem keeps_child (h : a.Tidy) : a.Keeps (a.child p).2 := by
  intro u hu hc
  have hne : u ≠ (a.child p).1 := fun he => child_not_mem_inUse a p (he ▸ hu)
  refine ⟨(mem_inUse_child p h).mpr (Or.inr hu), ?_, ?_⟩
  · rwa [isCaptured, frame_child_of_ne p hne]
  · rw [parent?, frame_child_of_ne p hne]
    rfl

end Child

/-! ## Closing a frame -/

section Release

variable {a : Arena} {s : ScopeId}

theorem release_of_not_releasable (h : a.isReleasable s = false) : a.release s = a := by
  rw [release, h]
  rfl

theorem frame_release_of_ne {t : ScopeId} (hst : s ≠ t) : (a.release s).frame t = a.frame t := by
  rw [release]
  split
  · simp [frame, Array.getD_eq_getD_getElem?, Array.getElem?_modify, hst]
  · rfl

theorem mem_inUse_release {t : ScopeId} (h : a.isReleasable s) :
    t ∈ (a.release s).inUse ↔ t ≠ s ∧ t ∈ a.inUse := by
  rw [mem_inUse, mem_inUse, release, if_pos h]
  simp only [Array.size_modify, List.mem_cons, not_or]
  exact and_left_comm

theorem parent?_isSome_of_isReleasable (h : a.isReleasable s) : (a.parent? s).isSome := by
  rw [isReleasable, Bool.and_eq_true] at h
  exact h.2

theorem not_isCaptured_of_isReleasable (h : a.isReleasable s) : a.isCaptured s = false := by
  rw [isReleasable, Bool.and_eq_true, Bool.not_eq_true'] at h
  exact h.1

theorem size_release (a : Arena) (s : ScopeId) :
    (a.release s).frames.size = a.frames.size := by
  rw [release]
  split
  · exact Array.size_modify
  · rfl

theorem lt_size_of_isReleasable (h : a.isReleasable s) : s < a.frames.size := by
  have hp := parent?_isSome_of_isReleasable h
  by_contra hs
  simp [parent?, frame, Array.getD, hs] at hp

/-- A frame that was dropped has no parent. -/
theorem parent?_release_self (h : a.isReleasable s) : (a.release s).parent? s = none := by
  simp [release, h, parent?, frame, Array.getD, Array.getElem_modify, lt_size_of_isReleasable h]

theorem Tidy.release (h : a.Tidy) (s : ScopeId) : (a.release s).Tidy := by
  cases hr : a.isReleasable s with
  | false => rwa [release_of_not_releasable hr]
  | true =>
    have hp : (a.parent? s).isSome := parent?_isSome_of_isReleasable hr
    have hfree : (a.release s).free = s :: a.free := by rw [Arena.release, if_pos hr]
    refine ⟨?_, ?_, ?_⟩
    · rw [hfree, List.nodup_cons]
      exact ⟨fun hmem => by simp [h.orphan s hmem] at hp, h.nodup⟩
    · intro u hu
      rw [hfree, List.mem_cons] at hu
      rw [size_release]
      exact hu.elim (fun he => he ▸ lt_size_of_isReleasable hr) (h.bound u)
    · intro u hu
      by_cases hsu : s = u
      · exact hsu ▸ parent?_release_self hr
      · rw [parent?, frame_release_of_ne hsu]
        rw [hfree, List.mem_cons] at hu
        exact h.orphan u (hu.resolve_left (Ne.symm hsu))

theorem keeps_release (a : Arena) (s : ScopeId) : a.Keeps (a.release s) := by
  intro u hu hc
  cases hr : a.isReleasable s with
  | false =>
    rw [release_of_not_releasable hr]
    exact ⟨hu, hc, rfl⟩
  | true =>
    have hsu : s ≠ u := by
      rintro rfl
      rw [not_isCaptured_of_isReleasable hr] at hc
      exact absurd hc Bool.false_ne_true
    refine ⟨(mem_inUse_release hr).mpr ⟨Ne.symm hsu, hu⟩, ?_, ?_⟩
    · rwa [isCaptured, frame_release_of_ne hsu]
    · rw [parent?, frame_release_of_ne hsu]
      rfl

end Release

/-- **A frame that is opened, used in a balanced way and closed again settles.** -/
theorem Settles.of_frame {a c : Arena} {p : ScopeId} (h : a.Tidy) (hc : (a.child p).2.Settles c) :
    a.Settles (c.release (a.child p).1) := by
  have hnew : (a.child p).1 ∉ a.inUse := child_not_mem_inUse a p
  have hne : ∀ u ∈ a.inUse, (a.child p).1 ≠ u := fun u hu he => hnew (he ▸ hu)
  have hold : ∀ u ∈ a.inUse, u ∈ (a.child p).2.inUse := fun u hu =>
    (mem_inUse_child p h).mpr (Or.inr hu)
  have hparent : c.parent? (a.child p).1 = some p := by
    rw [hc.parent? _ ((mem_inUse_child p h).mpr (Or.inl rfl)), Arena.parent?, frame_child_self p h]
  refine ⟨hc.tidy.release _, fun u hu => ?_, fun u hu => ?_, fun u hu hcap => ?_, fun u hu => ?_⟩
  · cases hr : c.isReleasable (a.child p).1 with
    | false =>
      rw [release_of_not_releasable hr]
      exact hc.inUse u (hold u hu)
    | true => exact (mem_inUse_release hr).mpr ⟨(hne u hu).symm, hc.inUse u (hold u hu)⟩
  · have hu' : (c.release (a.child p).1).parent? u = c.parent? u := by
      rw [Arena.parent?, frame_release_of_ne (hne u hu)]
      rfl
    rw [hu', hc.parent? u (hold u hu), Arena.parent?, frame_child_of_ne p (hne u hu).symm]
    rfl
  · rw [isCaptured, frame_release_of_ne (hne u hu)]
    refine hc.captured u (hold u hu) ?_
    rwa [isCaptured, frame_child_of_ne p (hne u hu).symm]
  · -- the frame itself stays only if something captured it: it has a parent
    cases hr : c.isReleasable (a.child p).1 with
    | false =>
      rw [release_of_not_releasable hr] at hu ⊢
      rcases hc.opened u hu with hb | hcap
      · rcases (mem_inUse_child p h).mp hb with rfl | ha
        · right
          have hpar : (c.frame (a.child p).1).parent = some p := hparent
          simpa [isReleasable, isCaptured, hpar] using hr
        · exact Or.inl ha
      · exact Or.inr hcap
    | true =>
      obtain ⟨hus, hu⟩ := (mem_inUse_release hr).mp hu
      rw [isCaptured, frame_release_of_ne hus.symm]
      rcases hc.opened u hu with hb | hcap
      · exact Or.inl (((mem_inUse_child p h).mp hb).resolve_left hus)
      · exact Or.inr hcap

end Arena

end Fexpr
