import Fexpr.Proofs.Arena.Circle

/-!
# Proofs/Arena/Holding — capturing is for good

Capturing stops at the first frame that is captured already.  For a client that opens and captures
below frames in use only, and closes a frame only when none in use lies below it
(`Request.Orderly`), nothing is missed: the arena stays rooted (`Rooted.run`), so what lies above a
captured frame is captured, and stopping early marks what walking to the root would.

What is captured then stays, under the same parents, whatever any client asks for later
(`Client.captured_for_good`).
-/

namespace Fexpr

namespace Arena

/-- **An orderly request**: frames are opened below, and captured from, frames in use; and one is
closed only when no frame in use lies below it. -/
def Request.Orderly (a : Arena) : Request → Prop
  | .child p => p ∈ a.inUse
  | .capture s => s ∈ a.inUse
  | .release s => ∀ u ∈ a.inUse, a.parent? u ≠ some s
  | .set _ _ _ | .setOutward _ _ _ => True

/-- Every orderly request. -/
def Client.orderly : Client.Kind := Request.Orderly

variable {a : Arena} {s u v : ScopeId} {us : List ScopeId} {q : Request}

/-! ## What orderly requests keep -/

/-- **An orderly request keeps an arena rooted.** -/
theorem Rooted.run (h : a.Rooted) (hq : q.Orderly a) : (q.run a).Rooted := by
  cases q with
  | child p => exact h.child hq
  | capture s => exact Rooted.capture h hq
  | release s => exact h.release hq
  | set s name v => exact h.set s name v
  | setOutward s name v => exact h.setOutward s name v

/-- An orderly request closes no circle: the slot of a new frame is not in use, and what lies above
a frame in use is. -/
theorem Rooted.not_closes (h : a.Rooted) (hq : q.Orderly a) : ¬q.Closes a := by
  cases q with
  | child p => exact fun hp => child_not_mem_inUse a p (h.ancestor_mem_inUse hq hp)
  | capture s | release s | set s name v | setOutward s name v => exact not_false

/-- What is captured has everything above it captured, in use or not: only frames in use have a
parent. -/
theorem Rooted.isCaptured_parent (h : a.Rooted) {p : ScopeId} (hu : a.isCaptured u)
    (hp : a.parent? u = some p) : a.isCaptured p :=
  h.captured u (Lineage.mem_inUse_of_parent h.tidy (lt_size_of_parent hp) hp) hu p hp

/-- The chain of a frame in use ends at the root. -/
theorem Lineage.getLast?_eq_root (hus : a.Lineage s us) (ha : a.InOrder) (h : a.Rooted)
    (hs : s ∈ a.inUse) : us.getLast? = some Arena.root := by
  induction hus with
  | root _ hp => rw [ha.inner _ hs hp]; rfl
  | step _ hp hus ih =>
    rw [List.getLast?_cons_of_ne_nil hus.ne_nil]
    exact ih (h.parent _ hs _ hp)

/-- **Stopping early marks what walking to the end of the chain would.** -/
theorem Rooted.capture_eq_marks (h : a.Rooted) (hs : s ∈ a.inUse) (hus : a.Lineage s us) :
    a.capture s = us.foldl mark a := by
  rw [capture_eq]
  refine marks_congr fun v hv => ⟨fun hmark => ?_, fun hmark => ?_⟩
  · refine hmark.imp_left fun hmem => ?_
    rw [hus.chain_eq] at hmem
    exact (List.takeWhile_subset _) hmem
  · rcases hmark with hmem | hc
    · have hcaptured := isCaptured_capture h hs (hus.ancestor_of_mem hmem)
      rwa [capture_eq, isCaptured_marks hv] at hcaptured
    · exact Or.inr hc

/-! ## What every request keeps -/

/-- **Every request keeps what is captured**, orderly or not. -/
theorem Keeps.run (h : a.Tidy) (q : Request) : a.Keeps (q.run a) := by
  cases q with
  | child p => exact keeps_child p h
  | capture s => exact (settles_capture h s).keeps
  | release s => exact keeps_release a s
  | set s name v => exact (settles_set h s name v).keeps
  | setOutward s name v => exact (settles_setOutward h s name v).keeps

namespace Client

variable {kind : Kind} {x y : Client}

theorem Reaches.keeps (h : x.Reaches kind y) (hx : x.Sound) : x.arena.Keeps y.arena := by
  induction h with
  | refl => exact .refl _
  | tail hxy hstep ih =>
    obtain ⟨q, -, -, -, rfl⟩ := hstep
    exact ih.trans (.run (Reaches.sound hxy hx).inOrder.tidy q)

theorem Reaches.rooted (h : x.Reaches orderly y) (hx : x.arena.Rooted) : y.arena.Rooted := by
  induction h with
  | refl => exact hx
  | tail _ hstep ih =>
    obtain ⟨q, -, -, hkind, rfl⟩ := hstep
    exact ih.run hkind

/-- A client that starts from a rooted arena and asks for nothing but what is orderly closes no
circle. -/
theorem Reaches.noCircle (h : x.Reaches orderly y) (hx : x.arena.Rooted) :
    x.Reaches noCircle y := by
  induction h with
  | refl => exact .refl
  | tail hxy hstep ih =>
    obtain ⟨q, hq, hreturns, hkind, rfl⟩ := hstep
    exact Reaches.ask ih hq hreturns ((Reaches.rooted hxy hx).not_closes hkind)

/-- **Capturing is for good.**  With orderly requests, what lies above a captured frame is captured,
and capturing marks the frames up to the root although it stops early; and once a scope has been
captured, it and everything above it stays in use and captured under the same parents, is released
by nobody and handed out to nobody, whatever is asked for afterwards. -/
theorem captured_for_good (h : fresh.Reaches orderly x) :
    (∀ u p, x.arena.isCaptured u → x.arena.parent? u = some p → x.arena.isCaptured p) ∧
    (∀ s ∈ x.arena.inUse, ∃ us, x.arena.Lineage s us ∧ us.getLast? = some root ∧
      x.arena.capture s = us.foldl mark x.arena) ∧
    ∀ s ∈ x.arena.inUse, ∀ y, (x.ask (.capture s)).Reaches anything y →
      ∀ v, x.arena.Ancestor s v →
        v ∈ y.arena.inUse ∧ y.arena.isCaptured v ∧
        y.arena.parent? v = x.arena.parent? v ∧
        y.arena.isReleasable v = false ∧ ∀ p, (y.arena.child p).1 ≠ v := by
  have hx := h.sound sound_fresh
  have hrooted := h.rooted rooted_fresh
  have hends := (h.noCircle rooted_fresh).chainsEnd sound_fresh chainsEnd_fresh
  refine ⟨fun u p => hrooted.isCaptured_parent, fun s hs => ?_, fun s hs y hy v hv => ?_⟩
  · obtain ⟨us, hus⟩ := hends s (mem_inUse.mp hs).1
    exact ⟨us, hus, hus.getLast?_eq_root hx.inOrder hrooted hs, hrooted.capture_eq_marks hs hus⟩
  · have hcapture := settles_capture hx.inOrder.tidy s
    have hhandle : s ∈ x.handles := (hx.mem_handles s).mpr (mem_inUse.mp hs).1
    have hkeeps := hy.keeps (hx.ask (q := .capture s) hhandle)
    have hmem := hrooted.ancestor_mem_inUse hs hv
    obtain ⟨hmem', hcaptured, hparent⟩ :=
      hkeeps v (hcapture.inUse v hmem) (isCaptured_capture hrooted hs hv)
    refine ⟨hmem', hcaptured, hparent.trans (hcapture.parent? v hmem), ?_, fun p he => ?_⟩
    · exact isReleasable_eq_false_iff.mpr (Or.inl hcaptured)
    · exact child_not_mem_inUse y.arena p (he ▸ hmem')

/-- Three frames below each other, the middle one captured already. -/
theorem captured_halfway_for_good :
    let x := (((fresh.ask (.child root)).ask (.child 1)).ask (.child 2)).ask (.capture 2)
    fresh.Reaches orderly x ∧ 3 ∈ x.arena.inUse ∧ x.arena.isCaptured 2 ∧
      (∀ u p, x.arena.isCaptured u → x.arena.parent? u = some p → x.arena.isCaptured p) ∧
      (∀ s ∈ x.arena.inUse, ∃ us, x.arena.Lineage s us ∧ us.getLast? = some root ∧
        x.arena.capture s = us.foldl mark x.arena) ∧
      ∀ s ∈ x.arena.inUse, ∀ y, (x.ask (.capture s)).Reaches anything y →
        ∀ v, x.arena.Ancestor s v →
          v ∈ y.arena.inUse ∧ y.arena.isCaptured v ∧
          y.arena.parent? v = x.arena.parent? v ∧
          y.arena.isReleasable v = false ∧ ∀ p, (y.arena.child p).1 ≠ v := by
  intro x
  have hfirst : fresh.Reaches orderly (fresh.ask (.child root)) :=
    Reaches.ask .refl (by decide) trivial (by decide : root ∈ fresh.arena.inUse)
  have hsecond : fresh.Reaches orderly ((fresh.ask (.child root)).ask (.child 1)) :=
    hfirst.ask (by decide) trivial (by decide : 1 ∈ (fresh.ask (.child root)).arena.inUse)
  have hthird := hsecond.ask (q := .child 2) (by decide) trivial
    (by decide : 2 ∈ ((fresh.ask (.child root)).ask (.child 1)).arena.inUse)
  have hx : fresh.Reaches orderly x :=
    hthird.ask (q := .capture 2) (by decide) trivial (by decide : 2 ∈
      (((fresh.ask (.child root)).ask (.child 1)).ask (.child 2)).arena.inUse)
  exact ⟨hx, by decide, by decide, captured_for_good hx⟩

end Client

end Arena

end Fexpr
