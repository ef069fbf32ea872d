import Fexpr.Proofs.Arena.Use
import Mathlib.Combinatorics.Pigeonhole
import Mathlib.Logic.Relation

/-!
# Proofs/Arena/Ancestry — scopes, their ancestors, and what capturing holds in place

A scope is **anchored** when it and all its ancestors are in use and captured: nothing that happens
to the arena later moves any of them (`Keeps.anchored`).  Capturing anchors (`anchored_capture`),
although it stops at the first frame that is captured already, because in a **rooted** arena what
lies above a captured frame is captured.

The arena knows ancestors as a list that is cut off after as many steps as there are frames; by the
pigeonhole principle nothing is lost (`mem_chain`).
-/

namespace Fexpr

namespace Arena

/-- **A scope or one that it lies in**, at any distance. -/
def Ancestor (a : Arena) : ScopeId → ScopeId → Prop :=
  Relation.ReflTransGen fun u v => a.parent? u = some v

/-- **A scope and all its ancestors are in use and captured.** -/
def Anchored (a : Arena) (u : ScopeId) : Prop :=
  ∀ v, a.Ancestor u v → v ∈ a.inUse ∧ a.isCaptured v

/-- **An arena in order**: the free list is, and what lies above a frame in use is in use, and is
captured if the frame is. -/
structure Rooted (a : Arena) : Prop where
  tidy : a.Tidy
  parent : ∀ u ∈ a.inUse, ∀ p, a.parent? u = some p → p ∈ a.inUse
  captured : ∀ u ∈ a.inUse, a.isCaptured u → ∀ p, a.parent? u = some p → a.isCaptured p

/-! ## Chains -/

/-- The ancestor that many steps outwards. -/
def nth (a : Arena) : Nat → ScopeId → Option ScopeId
  | 0, u => some u
  | n + 1, u => (a.parent? u).bind (a.nth n)

theorem nth_add (a : Arena) (m n : Nat) (u : ScopeId) :
    a.nth (m + n) u = (a.nth m u).bind (a.nth n) := by
  induction m generalizing u with
  | zero => rw [Nat.zero_add]; rfl
  | succ m ih =>
    rw [Nat.succ_add, nth, nth, Option.bind_assoc]
    exact congrArg _ (funext fun p => ih p)

theorem ancestor_iff {a : Arena} {u v : ScopeId} : a.Ancestor u v ↔ ∃ n, a.nth n u = some v := by
  constructor
  · intro h
    induction h using Relation.ReflTransGen.head_induction_on with
    | refl => exact ⟨0, rfl⟩
    | head hp _ ih =>
      obtain ⟨n, hn⟩ := ih
      exact ⟨n + 1, by rw [nth, hp]; exact hn⟩
  · rintro ⟨n, hn⟩
    induction n generalizing u with
    | zero =>
      cases hn
      exact .refl
    | succ n ih =>
      obtain ⟨p, hp, hn⟩ := Option.bind_eq_some_iff.mp hn
      exact .head hp (ih hn)

theorem mem_chainFrom {a : Arena} {n : Nat} {u v : ScopeId} :
    v ∈ a.chainFrom n u ↔ ∃ k < n, a.nth k u = some v := by
  induction n generalizing u with
  | zero => simp [chainFrom]
  | succ n ih =>
    have hstep : ∀ k, a.nth (k + 1) u = ((a.frame u).parent).bind (a.nth k) := fun _ => rfl
    have htail : v ∈ a.chainFrom (n + 1) u ↔ v = u ∨ ∃ k < n, a.nth (k + 1) u = some v := by
      rw [chainFrom, List.mem_cons]
      refine or_congr Iff.rfl ?_
      simp only [hstep]
      cases (a.frame u).parent with
      | none => simp
      | some p => exact ih
    rw [htail]
    constructor
    · rintro (rfl | ⟨k, hk, hv⟩)
      · exact ⟨0, Nat.succ_pos n, rfl⟩
      · exact ⟨k + 1, Nat.succ_lt_succ hk, hv⟩
    · rintro ⟨k, hk, hv⟩
      cases k with
      | zero => exact Or.inl (Option.some.inj hv).symm
      | succ k => exact Or.inr ⟨k, Nat.lt_of_succ_lt_succ hk, hv⟩

/-- **Every ancestor is fewer steps away than there are frames**: a longer way visits some frame
twice and can be cut short. -/
theorem exists_nth_lt {a : Arena} {u : ScopeId} (hb : ∀ v, a.Ancestor u v → v < a.frames.size)
    {k : Nat} {v : ScopeId} (hv : a.nth k u = some v) :
    ∃ j < a.frames.size, a.nth j u = some v := by
  induction k using Nat.strongRecOn with
  | _ k ih =>
    by_cases hk : k < a.frames.size
    · exact ⟨k, hk, hv⟩
    have hsome : ∀ i ≤ k, ∃ x, a.nth i u = some x := by
      intro i hi
      obtain ⟨d, rfl⟩ := Nat.exists_eq_add_of_le hi
      rw [nth_add] at hv
      obtain ⟨x, hx, -⟩ := Option.bind_eq_some_iff.mp hv
      exact ⟨x, hx⟩
    have hmaps : Set.MapsTo (fun i => (a.nth i u).getD 0)
        (Finset.range (a.frames.size + 1) : Set Nat) (Finset.range a.frames.size) := by
      intro i hi
      have hik : i ≤ k := by
        have := Finset.mem_range.mp hi
        omega
      obtain ⟨x, hx⟩ := hsome i hik
      simp only [hx, Option.getD_some]
      exact Finset.mem_range.mpr (hb x (ancestor_iff.mpr ⟨i, hx⟩))
    obtain ⟨x, hx, y, hy, hxy, heq⟩ := Finset.exists_ne_map_eq_of_card_lt_of_maps_to
      (by rw [Finset.card_range, Finset.card_range]; exact Nat.lt_succ_self _) hmaps
    obtain ⟨i, j, hij, hj, heq⟩ : ∃ i j, i < j ∧ j ≤ k ∧ a.nth i u = a.nth j u := by
      have hxk : x ≤ k := by
        have := Finset.mem_range.mp hx
        omega
      have hyk : y ≤ k := by
        have := Finset.mem_range.mp hy
        omega
      obtain ⟨p, hp⟩ := hsome x hxk
      obtain ⟨q, hq⟩ := hsome y hyk
      simp only [hp, hq, Option.getD_some] at heq
      subst heq
      rcases Nat.lt_or_gt_of_ne hxy with h | h
      · exact ⟨x, y, h, hyk, hp.trans hq.symm⟩
      · exact ⟨y, x, h, hxk, hq.trans hp.symm⟩
    refine ih (i + (k - j)) (by omega) ?_
    rw [nth_add, heq, ← nth_add, Nat.add_sub_cancel' hj, hv]

/-- **The chain of a scope is its ancestors.** -/
theorem mem_chain {a : Arena} {u : ScopeId} (hb : ∀ v, a.Ancestor u v → v < a.frames.size)
    {v : ScopeId} : v ∈ a.chain u ↔ a.Ancestor u v := by
  rw [chain, mem_chainFrom, ancestor_iff]
  constructor
  · rintro ⟨k, -, hk⟩
    exact ⟨k, hk⟩
  · rintro ⟨k, hk⟩
    exact exists_nth_lt hb hk

/-! ## Rooted arenas -/

namespace Rooted

variable {a : Arena} (h : a.Rooted) {u v : ScopeId}

include h

theorem ancestor_mem_inUse (hu : u ∈ a.inUse) (hv : a.Ancestor u v) : v ∈ a.inUse := by
  induction hv with
  | refl => exact hu
  | tail _ hp ih => exact h.parent _ ih _ hp

/-- **What is captured in a rooted arena is anchored.** -/
theorem anchored (hu : u ∈ a.inUse) (hc : a.isCaptured u) : a.Anchored u := by
  intro v hv
  induction hv with
  | refl => exact ⟨hu, hc⟩
  | tail _ hp ih => exact ⟨h.parent _ ih.1 _ hp, h.captured _ ih.1 ih.2 _ hp⟩

theorem mem_chain (hu : u ∈ a.inUse) : v ∈ a.chain u ↔ a.Ancestor u v :=
  Arena.mem_chain fun _ hv => (mem_inUse.mp (h.ancestor_mem_inUse hu hv)).1

end Rooted

theorem Anchored.mem_inUse {a : Arena} {u : ScopeId} (h : a.Anchored u) : u ∈ a.inUse :=
  (h u .refl).1

/-- **An anchored scope stays anchored**, below the same ancestors, whatever is done to the arena
that keeps what is captured. -/
theorem Keeps.anchored {a b : Arena} (hab : a.Keeps b) {u : ScopeId} (h : a.Anchored u) :
    b.Anchored u := by
  have hback : ∀ v, b.Ancestor u v → a.Ancestor u v := by
    intro v hv
    induction hv with
    | refl => exact .refl
    | tail _ hp ih =>
      obtain ⟨hmem, hc⟩ := h _ ih
      exact ih.tail ((hab _ hmem hc).2.2 ▸ hp)
  intro v hv
  obtain ⟨hmem, hc⟩ := h v (hback v hv)
  exact ⟨(hab v hmem hc).1, (hab v hmem hc).2.1⟩

theorem rooted_fresh : fresh.Rooted where
  tidy := tidy_fresh
  parent u _ p hp := by
    cases u <;> cases hp
  captured u _ _ p hp := by
    cases u <;> cases hp

/-! ## Operations -/

/-- Changing bindings alone keeps an arena rooted. -/
theorem Rooted.set {a : Arena} (h : a.Rooted) (s : ScopeId) (name : String) (v : Value) :
    (a.set s name v).Rooted := by
  have hparent : ∀ u, (a.set s name v).parent? u = a.parent? u := fun u => parent?_set a s name v u
  have hcaptured : ∀ u, (a.set s name v).isCaptured u = a.isCaptured u := fun u =>
    part_update (·.captured) (f := fun f => { f with bindings := f.bindings.insert name v })
      (fun _ => rfl) a s u
  have huse : (a.set s name v).inUse = a.inUse := inUse_update a s _
  refine ⟨(settles_set h.tidy s name v).tidy, fun u hu p hp => ?_, fun u hu hc p hp => ?_⟩
  · rw [huse] at hu ⊢
    rw [hparent] at hp
    exact h.parent u hu p hp
  · rw [huse] at hu
    rw [hcaptured] at hc ⊢
    rw [hparent] at hp
    exact h.captured u hu hc p hp

theorem Rooted.setOutward {a : Arena} (h : a.Rooted) (s : ScopeId) (name : String) (v : Value) :
    (a.setOutward s name v).2.Rooted := by
  rw [Arena.setOutward]
  split
  · exact h.set _ name v
  · exact h.set _ name v

/-! ## Capturing -/

section Capture

theorem inUse_marks (a : Arena) (us : List ScopeId) : (us.foldl mark a).inUse = a.inUse := by
  induction us generalizing a with
  | nil => rfl
  | cons u us ih => exact (ih (a.mark u)).trans (inUse_update a u _)

theorem parent?_marks (a : Arena) (us : List ScopeId) (v : ScopeId) :
    (us.foldl mark a).parent? v = a.parent? v := by
  induction us generalizing a with
  | nil => rfl
  | cons u us ih =>
    exact (ih (a.mark u)).trans
      (part_update (·.parent) (f := fun f => { f with captured := true }) (fun _ => rfl) a u v)

theorem isCaptured_mark {a : Arena} {u v : ScopeId} (hv : v < a.frames.size) :
    (a.mark u).isCaptured v ↔ v = u ∨ a.isCaptured v := by
  by_cases huv : u = v
  · subst huv
    rw [isCaptured, mark, frame_update_self _ hv]
    simp
  · rw [isCaptured, mark, frame_update_of_ne _ huv]
    simp [isCaptured, Ne.symm huv]

theorem isCaptured_marks {a : Arena} {us : List ScopeId} {v : ScopeId} (hv : v < a.frames.size) :
    (us.foldl mark a).isCaptured v ↔ v ∈ us ∨ a.isCaptured v := by
  induction us generalizing a with
  | nil => simp
  | cons u us ih =>
    have hsize : v < (a.mark u).frames.size := by rwa [mark, size_update]
    rw [List.foldl_cons, ih hsize, isCaptured_mark hv, List.mem_cons]
    exact or_left_comm.trans or_assoc.symm

/-- A scope of the chain is marked, or lies above one that is captured. -/
theorem mem_takeWhile_or_captured {a : Arena} {n : Nat} {u v : ScopeId}
    (hv : v ∈ a.chainFrom n u) :
    v ∈ (a.chainFrom n u).takeWhile (fun t => !(a.frame t).captured) ∨
      ∃ x, a.Ancestor u x ∧ a.isCaptured x ∧ a.Ancestor x v := by
  induction n generalizing u with
  | zero => exact absurd hv List.not_mem_nil
  | succ n ih =>
    by_cases hc : a.isCaptured u
    · exact Or.inr ⟨u, .refl, hc, ancestor_iff.mpr
        ((mem_chainFrom.mp hv).imp fun _ hk => hk.2)⟩
    · rw [chainFrom] at hv ⊢
      rw [List.takeWhile_cons_of_pos (by simpa [isCaptured] using hc)]
      rcases List.mem_cons.mp hv with rfl | hv
      · exact Or.inl List.mem_cons_self
      · split at hv
        · next p hp =>
          rcases ih hv with hmem | ⟨x, hx, hcx, hxv⟩
          · exact Or.inl (List.mem_cons_of_mem u hmem)
          · exact Or.inr ⟨x, .head hp hx, hcx, hxv⟩
        · exact absurd hv List.not_mem_nil

variable {a : Arena} (h : a.Rooted) {s : ScopeId} (hs : s ∈ a.inUse)

include h hs

/-- **Capturing marks every ancestor**: those it stops before are captured already. -/
theorem isCaptured_capture {v : ScopeId} (hv : a.Ancestor s v) : (a.capture s).isCaptured v := by
  have hmem : v ∈ a.inUse := h.ancestor_mem_inUse hs hv
  rw [capture_eq, isCaptured_marks (mem_inUse.mp hmem).1]
  refine (mem_takeWhile_or_captured ((h.mem_chain hs).mpr hv)).imp_right ?_
  rintro ⟨x, hx, hcx, hxv⟩
  exact (h.anchored (h.ancestor_mem_inUse hs hx) hcx v hxv).2

theorem Rooted.capture : (a.capture s).Rooted := by
  have huse : (a.capture s).inUse = a.inUse := inUse_marks a _
  have hparent : ∀ u, (a.capture s).parent? u = a.parent? u := parent?_marks a _
  refine ⟨(settles_capture h.tidy s).tidy, fun u hu p hp => ?_, fun u hu hc p hp => ?_⟩
  · rw [huse] at hu ⊢
    rw [hparent] at hp
    exact h.parent u hu p hp
  · rw [huse] at hu
    rw [hparent] at hp
    have hpu : p ∈ a.inUse := h.parent u hu p hp
    rw [capture_eq, isCaptured_marks (mem_inUse.mp hu).1] at hc
    rcases hc with hmark | hc
    · -- a marked frame is an ancestor of `s`, and so is what lies above it
      have hsu : a.Ancestor s u := (h.mem_chain hs).mp ((List.takeWhile_subset _) hmark)
      exact isCaptured_capture h hs (hsu.tail hp)
    · exact (settles_capture h.tidy s).captured p hpu (h.captured u hu hc p hp)

/-- **A captured scope is anchored.** -/
theorem anchored_capture : (a.capture s).Anchored s :=
  (Rooted.capture h hs).anchored ((settles_capture h.tidy s).inUse s hs)
    (isCaptured_capture h hs .refl)

end Capture

/-! ## Frames -/

theorem Rooted.child {a : Arena} (h : a.Rooted) {p : ScopeId} (hp : p ∈ a.inUse) :
    (a.child p).2.Rooted := by
  have hframe : ∀ u ∈ a.inUse, (a.child p).2.frame u = a.frame u := fun u hu =>
    frame_child_of_ne p fun he => child_not_mem_inUse a p (he ▸ hu)
  have hself : (a.child p).2.frame (a.child p).1 = { parent := some p } := frame_child_self p h.tidy
  refine ⟨h.tidy.child p, fun u hu q hq => ?_, fun u hu hc q hq => ?_⟩
  · refine (mem_inUse_child p h.tidy).mpr (Or.inr ?_)
    rcases (mem_inUse_child p h.tidy).mp hu with rfl | hu
    · rw [parent?, hself] at hq
      cases hq
      exact hp
    · rw [parent?, hframe u hu] at hq
      exact h.parent u hu q hq
  · rcases (mem_inUse_child p h.tidy).mp hu with rfl | hu
    · rw [isCaptured, hself] at hc
      cases hc
    · rw [parent?, hframe u hu] at hq
      rw [isCaptured, hframe u hu] at hc
      have hqu : q ∈ a.inUse := h.parent u hu q hq
      rw [isCaptured, hframe q hqu]
      exact h.captured u hu hc q hq

/-- **Closing a frame below which nothing in use lies leaves no orphans.** -/
theorem Rooted.release {a : Arena} (h : a.Rooted) {s : ScopeId}
    (hbelow : ∀ u ∈ a.inUse, a.parent? u ≠ some s) : (a.release s).Rooted := by
  cases hr : a.isReleasable s with
  | false => rwa [release_of_not_releasable hr]
  | true =>
    have hframe : ∀ u, u ≠ s → (a.release s).frame u = a.frame u := fun u hu =>
      frame_release_of_ne (Ne.symm hu)
    refine ⟨h.tidy.release s, fun u hu q hq => ?_, fun u hu hcap q hq => ?_⟩
    · obtain ⟨hne, hu⟩ := (mem_inUse_release hr).mp hu
      rw [parent?, hframe u hne] at hq
      have hq' : q ≠ s := fun he => hbelow u hu (he ▸ hq)
      exact (mem_inUse_release hr).mpr ⟨hq', h.parent u hu q hq⟩
    · obtain ⟨hne, hu⟩ := (mem_inUse_release hr).mp hu
      rw [parent?, hframe u hne] at hq
      rw [isCaptured, hframe u hne] at hcap
      have hq' : q ≠ s := fun he => hbelow u hu (he ▸ hq)
      rw [isCaptured, hframe q hq']
      exact h.captured u hu hcap q hq

/-- **A frame that was opened can be closed**: a frame below it that is still in use was captured,
and then it is captured too and stays. -/
theorem Rooted.of_frame {a c : Arena} {p : ScopeId} (h : a.Rooted) (hp : p ∈ a.inUse)
    (hc : c.Rooted) (hac : (a.child p).2.Settles c) : (c.release (a.child p).1).Rooted := by
  cases hr : c.isReleasable (a.child p).1 with
  | false => rwa [release_of_not_releasable hr]
  | true =>
    have hnew : (a.child p).1 ∉ a.inUse := child_not_mem_inUse a p
    have hnot : c.isCaptured (a.child p).1 = false := not_isCaptured_of_isReleasable hr
    refine hc.release fun u hu hpu => ?_
    rcases hac.opened u hu with hold | hcap
    · rw [hac.parent? u hold] at hpu
      rcases (mem_inUse_child p h.tidy).mp hold with rfl | hold
      · rw [parent?, frame_child_self p h.tidy] at hpu
        exact hnew (Option.some.inj hpu ▸ hp)
      · have hne : u ≠ (a.child p).1 := fun he => hnew (he ▸ hold)
        rw [parent?, frame_child_of_ne p hne] at hpu
        exact hnew (h.parent u hold _ hpu)
    · have habove := hc.captured u hu hcap _ hpu
      rw [hnot] at habove
      exact absurd habove Bool.false_ne_true

end Arena

end Fexpr
