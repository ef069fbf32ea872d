import Fexpr.Proofs.Arena.Ancestry
import Fexpr.Proofs.Arena.Placement

/-!
# Proofs/Arena/Walk — the walks along parents, step by step

Looking a name up, binding it outwards and capturing go from frame to frame along the parents.  The
arena does so on a chain that is cut off after as many frames as there are; here are the walks
themselves, which end only where they find a reason to.

* `Search` is the walk for a name.  It need not end: it does exactly if some frame on its way binds
  the name or its way does (`exists_search_iff`), and where it ends the arena answers what it found
  (`Search.get?_eq`, `Search.setOutward_eq`).
* `Marking` is the walk of capturing.  It always ends, since it marks what it passes and stops at
  what is marked, and leaves the arena that `capture` does (`marking_iff`).
-/

namespace Fexpr

namespace Arena

/-- **Parents are slots of the arena.** -/
def Bounded (a : Arena) : Prop :=
  ∀ u p, a.parent? u = some p → p < a.frames.size

variable {a b : Arena} {name : String} {s t u v w : ScopeId}

theorem Bounded.lt_of_ancestor (h : a.Bounded) (hs : s < a.frames.size) (hv : a.Ancestor s v) :
    v < a.frames.size := by
  induction hv with
  | refl => exact hs
  | tail _ hp _ => exact h _ _ hp

/-! ## Searching for a name -/

/-- **The walk for a name**, from a scope to the frame where it ends: the nearest that binds the
name, or one without a parent. -/
inductive Search (a : Arena) (name : String) : ScopeId → ScopeId → Prop
  | binder {s : ScopeId} : a.has s name → Search a name s s
  | outermost {s : ScopeId} : a.has s name = false → a.parent? s = none → Search a name s s
  | outwards {s p t : ScopeId} : a.has s name = false → a.parent? s = some p → Search a name p t →
      Search a name s t

theorem has_eq_isSome (a : Arena) (s : ScopeId) (name : String) :
    a.has s name = (a.frame s).bindings[name]?.isSome :=
  Std.ExtTreeMap.contains_eq_isSome_getElem?

theorem chainFrom_of_parent {p : ScopeId} (h : a.parent? s = some p) (n : Nat) :
    a.chainFrom (n + 1) s = s :: a.chainFrom n p := by
  have hp : (a.frame s).parent = some p := h
  rw [chainFrom, hp]

theorem chainFrom_of_outermost (h : a.parent? s = none) (n : Nat) :
    a.chainFrom (n + 1) s = [s] := by
  have hp : (a.frame s).parent = none := h
  rw [chainFrom, hp]

namespace Search

theorem ancestor (h : a.Search name s t) : a.Ancestor s t := by
  induction h with
  | binder _ | outermost _ _ => exact .refl
  | outwards _ hp _ ih => exact .head hp ih

/-- Where a search ends, it has a reason to. -/
theorem has_or_outermost (h : a.Search name s t) : a.has t name ∨ a.parent? t = none := by
  induction h with
  | binder hs => exact Or.inl hs
  | outermost _ hp => exact Or.inr hp
  | outwards _ _ _ ih => exact ih

theorem ne_of_parent {p : ScopeId} (h : a.Search name u t) (hs : a.has s name = false)
    (hp : a.parent? s = some p) : t ≠ s := by
  rintro rfl
  rcases h.has_or_outermost with ht | ht
  · rw [hs] at ht
    cases ht
  · rw [hp] at ht
    cases ht

/-- A search that has gone past a frame ends further on. -/
theorem mem_of_mem_cons {p : ScopeId} {us : List ScopeId} (h : a.Search name p t)
    (hs : a.has s name = false) (hp : a.parent? s = some p) (ht : t ∈ s :: us) : t ∈ us :=
  (List.mem_cons.mp ht).resolve_left (h.ne_of_parent hs hp)

/-- What is found on the part of a chain that a search needs. -/
theorem findSome?_chainFrom (h : a.Search name s t) {n : Nat} (ht : t ∈ a.chainFrom n s) :
    ((a.chainFrom n s).findSome? fun u => (a.frame u).bindings[name]?) =
      (a.frame t).bindings[name]? := by
  induction h generalizing n with
  | @binder s hs =>
    cases n with
    | zero => cases ht
    | succ n =>
      rw [has_eq_isSome, Option.isSome_iff_exists] at hs
      obtain ⟨v, hv⟩ := hs
      rw [chainFrom, List.findSome?_cons, hv]
  | @outermost s hs hp =>
    cases n with
    | zero => cases ht
    | succ n =>
      rw [chainFrom_of_outermost hp, List.findSome?_cons]
      cases (a.frame s).bindings[name]? <;> rfl
  | @outwards s p t hs hp h ih =>
    cases n with
    | zero => cases ht
    | succ n =>
      rw [chainFrom_of_parent hp] at ht ⊢
      rw [has_eq_isSome, Option.isSome_eq_false_iff, Option.isNone_iff_eq_none] at hs
      rw [List.findSome?_cons, hs]
      refine ih (h.mem_of_mem_cons ?_ hp ht)
      rw [has_eq_isSome, hs]
      rfl

/-- The nearest frame that binds the name, on the part of a chain that a search needs. -/
theorem find?_chainFrom (h : a.Search name s t) {n : Nat} (ht : t ∈ a.chainFrom n s) :
    ((a.chainFrom n s).find? fun u => a.has u name) = if a.has t name then some t else none := by
  induction h generalizing n with
  | @binder s hs =>
    cases n with
    | zero => cases ht
    | succ n => rw [chainFrom, List.find?_cons, hs, if_pos rfl]
  | @outermost s hs hp =>
    cases n with
    | zero => cases ht
    | succ n =>
      rw [chainFrom_of_outermost hp, List.find?_cons_of_neg (by simp [hs]), hs]
      rfl
  | @outwards s p t hs hp h ih =>
    cases n with
    | zero => cases ht
    | succ n =>
      rw [chainFrom_of_parent hp] at ht ⊢
      rw [List.find?_cons_of_neg (by simp [hs])]
      exact ih (h.mem_of_mem_cons hs hp ht)

/-- A search that finds no binder ends at the end of the chain. -/
theorem getLastD_chainFrom (h : a.Search name s t) (hnone : a.has t name = false) {n : Nat}
    (ht : t ∈ a.chainFrom n s) (d : ScopeId) : (a.chainFrom n s).getLastD d = t := by
  induction h generalizing n d with
  | @binder s hs =>
    rw [hnone] at hs
    cases hs
  | @outermost s hs hp =>
    cases n with
    | zero => cases ht
    | succ n =>
      rw [chainFrom_of_outermost hp]
      rfl
  | @outwards s p t hs hp h ih =>
    cases n with
    | zero => cases ht
    | succ n =>
      rw [chainFrom_of_parent hp] at ht ⊢
      rw [List.getLastD_cons]
      exact ih hnone (h.mem_of_mem_cons hs hp ht) s

section

variable (ha : a.Bounded) (hs : s < a.frames.size)

include ha hs

/-- A search that ends does so on the chain, although that is cut off. -/
theorem mem_chain (h : a.Search name s t) : t ∈ a.chain s :=
  (Arena.mem_chain fun _ hv => ha.lt_of_ancestor hs hv).mpr h.ancestor

/-- **Looking up answers what the frame binds at which the search ends.** -/
theorem get?_eq (h : a.Search name s t) : a.get? s name = (a.frame t).bindings[name]? :=
  h.findSome?_chainFrom (h.mem_chain ha hs)

/-- **Binding outwards binds in the frame at which the search ends**, and tells whether that has
bound the name before. -/
theorem setOutward_eq (h : a.Search name s t) (v : Value) :
    a.setOutward s name v = (a.has t name, a.set t name v) := by
  have hfind : a.binder? s name = if a.has t name then some t else none :=
    h.find?_chainFrom (h.mem_chain ha hs)
  rw [setOutward, hfind]
  cases ht : a.has t name with
  | true => rfl
  | false =>
    have hlast : Arena.outermost a s = t := h.getLastD_chainFrom ht (h.mem_chain ha hs) s
    simp only [Bool.false_eq_true, if_false, hlast]

end

end Search

theorem exists_search_of_lineage {us : List ScopeId} (h : a.Lineage s us) (name : String) :
    ∃ t, a.Search name s t := by
  induction h with
  | @root u _ hp =>
    cases hu : a.has u name with
    | true => exact ⟨u, .binder hu⟩
    | false => exact ⟨u, .outermost hu hp⟩
  | @step u p us _ hp _ ih =>
    cases hu : a.has u name with
    | true => exact ⟨u, .binder hu⟩
    | false =>
      obtain ⟨t, ht⟩ := ih
      exact ⟨t, .outwards hu hp ht⟩

theorem exists_search_of_ancestor (h : a.Ancestor s v) (hv : a.has v name) :
    ∃ t, a.Search name s t := by
  induction h using Relation.ReflTransGen.head_induction_on with
  | refl => exact ⟨v, .binder hv⟩
  | @head u p hp _ ih =>
    cases hu : a.has u name with
    | true => exact ⟨u, .binder hu⟩
    | false =>
      obtain ⟨t, ht⟩ := ih
      exact ⟨t, .outwards hu hp ht⟩

/-- **When a search ends**: some frame from the scope outwards binds the name, or the chain of the
scope ends. -/
theorem exists_search_iff (ha : a.Bounded) (hs : s < a.frames.size) :
    (∃ t, a.Search name s t) ↔
      (∃ v, a.Ancestor s v ∧ a.has v name) ∨ ∃ us, a.Lineage s us := by
  constructor
  · rintro ⟨t, h⟩
    induction h with
    | @binder s hbinds => exact Or.inl ⟨s, .refl, hbinds⟩
    | outermost _ hp => exact Or.inr ⟨_, .root hs hp⟩
    | outwards _ hp _ ih =>
      rcases ih (ha _ _ hp) with ⟨v, hv, hbinds⟩ | ⟨us, hus⟩
      · exact Or.inl ⟨v, .head hp hv, hbinds⟩
      · exact Or.inr ⟨_, .step hs hp hus⟩
  · rintro (⟨v, hv, hbinds⟩ | ⟨us, hus⟩)
    · exact exists_search_of_ancestor hv hbinds
    · exact exists_search_of_lineage hus name

/-! ## Capturing -/

/-- **The walk of capturing**: it marks what it passes, until it comes to a frame that is marked or
has passed one without a parent. -/
inductive Marking : Arena → ScopeId → Arena → Prop
  | held {a : Arena} {s : ScopeId} : a.isCaptured s → Marking a s a
  | outermost {a : Arena} {s : ScopeId} : a.isCaptured s = false → a.parent? s = none →
      Marking a s (a.mark s)
  | outwards {a b : Arena} {s p : ScopeId} : a.isCaptured s = false → a.parent? s = some p →
      Marking (a.mark s) p b → Marking a s b

theorem parent?_mark (a : Arena) (s u : ScopeId) : (a.mark s).parent? u = a.parent? u :=
  parent?_marks a [s] u

theorem free_marks (a : Arena) (us : List ScopeId) : (us.foldl mark a).free = a.free := by
  induction us generalizing a with
  | nil => rfl
  | cons u us ih => exact ih (a.mark u)

theorem bindings_marks (a : Arena) (us : List ScopeId) (v : ScopeId) :
    ((us.foldl mark a).frame v).bindings = (a.frame v).bindings := by
  induction us generalizing a with
  | nil => rfl
  | cons u us ih =>
    exact (ih (a.mark u)).trans
      (part_update (·.bindings) (f := fun f => { f with captured := true }) (fun _ => rfl) a u v)

/-- **Only which frames are marked counts**, neither the order nor how often. -/
theorem marks_congr {us ws : List ScopeId}
    (h : ∀ v < a.frames.size, (v ∈ us ∨ a.isCaptured v) ↔ (v ∈ ws ∨ a.isCaptured v)) :
    us.foldl mark a = ws.foldl mark a := by
  refine eq_of_frame ?_ ?_ fun v hv => ?_
  · rw [free_marks, free_marks]
  · rw [size_marks, size_marks]
  rw [size_marks] at hv
  have hbindings : ((us.foldl mark a).frame v).bindings = ((ws.foldl mark a).frame v).bindings := by
    rw [bindings_marks, bindings_marks]
  have hparent : ((us.foldl mark a).frame v).parent = ((ws.foldl mark a).frame v).parent :=
    (parent?_marks a us v).trans (parent?_marks a ws v).symm
  have hcaptured : ((us.foldl mark a).frame v).captured = ((ws.foldl mark a).frame v).captured := by
    rw [Bool.eq_iff_iff]
    exact (isCaptured_marks hv).trans ((h v hv).trans (isCaptured_marks hv).symm)
  generalize (us.foldl mark a).frame v = f at *
  generalize (ws.foldl mark a).frame v = g at *
  obtain ⟨_, _, _⟩ := f
  obtain ⟨_, _, _⟩ := g
  cases hbindings
  cases hparent
  cases hcaptured
  rfl

/-- A step outwards from a frame that is not captured. -/
def OpenStep (a : Arena) (u w : ScopeId) : Prop :=
  a.isCaptured u = false ∧ a.parent? u = some w

/-- **The frames that capturing comes to unmarked**: those on the way outwards before the first that
is captured. -/
def Exposed (a : Arena) (s v : ScopeId) : Prop :=
  Relation.ReflTransGen a.OpenStep s v ∧ a.isCaptured v = false

namespace Exposed

theorem ancestor (h : a.Exposed s v) : a.Ancestor s v :=
  Relation.ReflTransGen.mono (fun _ _ hstep => hstep.2) _ _ h.1

theorem head {p : ScopeId} (hs : a.isCaptured s = false) (hp : a.parent? s = some p)
    (h : a.Exposed p v) : a.Exposed s v :=
  ⟨.head ⟨hs, hp⟩ h.1, h.2⟩

theorem nth (h : a.Exposed s v) :
    ∃ k, a.nth k s = some v ∧ ∀ j ≤ k, ∀ u, a.nth j s = some u → a.isCaptured u = false := by
  obtain ⟨hway, hv⟩ := h
  induction hway using Relation.ReflTransGen.head_induction_on with
  | refl =>
    refine ⟨0, rfl, fun j hj u hu => ?_⟩
    obtain rfl := Nat.le_zero.mp hj
    cases hu
    exact hv
  | @head s p hstep _ ih =>
    obtain ⟨k, hk, hopen⟩ := ih
    refine ⟨k + 1, by rw [Arena.nth, hstep.2]; exact hk, fun j hj u hu => ?_⟩
    cases j with
    | zero =>
      cases hu
      exact hstep.1
    | succ j =>
      rw [Arena.nth, hstep.2] at hu
      exact hopen j (Nat.le_of_succ_le_succ hj) u hu

end Exposed

theorem exposed_of_mem_takeWhile {n : Nat}
    (h : v ∈ (a.chainFrom n s).takeWhile fun t => !(a.frame t).captured) : a.Exposed s v := by
  induction n generalizing s with
  | zero => cases h
  | succ n ih =>
    rw [chainFrom, List.takeWhile_cons] at h
    split at h
    · next hs =>
      have hs : a.isCaptured s = false := by simpa [isCaptured] using hs
      rcases List.mem_cons.mp h with rfl | h
      · exact ⟨.refl, hs⟩
      · split at h
        · next p hp => exact (ih h).head hs hp
        · cases h
    · cases h

theorem mem_takeWhile_of_nth {k n : Nat} (hk : a.nth k s = some v) (hkn : k < n)
    (hopen : ∀ j ≤ k, ∀ u, a.nth j s = some u → a.isCaptured u = false) :
    v ∈ (a.chainFrom n s).takeWhile fun t => !(a.frame t).captured := by
  induction n generalizing s k with
  | zero => cases hkn
  | succ n ih =>
    have hs : a.isCaptured s = false := hopen 0 (Nat.zero_le k) s rfl
    rw [chainFrom, List.takeWhile_cons_of_pos (by simpa [isCaptured] using hs)]
    cases k with
    | zero =>
      cases hk
      exact List.mem_cons_self
    | succ k =>
      obtain ⟨p, hp, hk⟩ := Option.bind_eq_some_iff.mp hk
      have hp' : (a.frame s).parent = some p := hp
      rw [hp']
      refine List.mem_cons_of_mem s (ih hk (Nat.lt_of_succ_lt_succ hkn) fun j hj u hu => ?_)
      exact hopen (j + 1) (Nat.succ_le_succ hj) u (by rw [nth, hp]; exact hu)

/-- **What capturing marks are the exposed frames**: none of them is further away than the chain is
long. -/
theorem mem_marked_iff (ha : a.Bounded) (hs : s < a.frames.size) :
    v ∈ (a.chain s).takeWhile (fun t => !(a.frame t).captured) ↔ a.Exposed s v := by
  refine ⟨exposed_of_mem_takeWhile, fun h => ?_⟩
  obtain ⟨k, hk, hopen⟩ := h.nth
  by_cases hlt : k < a.frames.size
  · exact mem_takeWhile_of_nth hk hlt hopen
  · obtain ⟨j, hj, hv⟩ := exists_nth_lt (fun _ hv => ha.lt_of_ancestor hs hv) hk
    exact mem_takeWhile_of_nth hv hj fun i hi u hu => hopen i (by omega) u hu

theorem lt_size_of_parent {p : ScopeId} (h : a.parent? u = some p) : u < a.frames.size := by
  by_contra hu
  simp [parent?, frame, Array.getD, hu] at h

/-- **Past a frame that has just been marked the same is exposed**: a way that leads back to it can
as well begin behind it. -/
theorem exposed_mark_iff {p : ScopeId} (ha : a.Bounded) (hs : a.isCaptured s = false)
    (hp : a.parent? s = some p) : (v = s ∨ (a.mark s).Exposed p v) ↔ a.Exposed s v := by
  have hmark : ∀ u < a.frames.size,
      ((a.mark s).isCaptured u = false ↔ u ≠ s ∧ a.isCaptured u = false) := fun u hu => by
    rw [← Bool.not_eq_true, isCaptured_mark hu, not_or, Bool.not_eq_true]
  constructor
  · rintro (rfl | ⟨hway, hv⟩)
    · exact ⟨.refl, hs⟩
    have hstep : ∀ u w, (a.mark s).OpenStep u w → a.OpenStep u w := fun u w ⟨hu, hw⟩ => by
      rw [parent?_mark] at hw
      exact ⟨((hmark u (lt_size_of_parent hw)).mp hu).2, hw⟩
    have hway' : Relation.ReflTransGen a.OpenStep p v :=
      Relation.ReflTransGen.mono hstep _ _ hway
    have hlt : v < a.frames.size := ha.lt_of_ancestor (ha _ _ hp)
      (Relation.ReflTransGen.mono (fun _ _ h => h.2) _ _ hway')
    exact ⟨.head ⟨hs, hp⟩ hway', ((hmark v hlt).mp hv).2⟩
  · intro h
    have hbehind : v = s ∨ Relation.ReflTransGen (a.mark s).OpenStep p v := by
      obtain ⟨hway, -⟩ := h
      induction hway with
      | refl => exact Or.inl rfl
      | @tail u w _ hw ih =>
        by_cases hus : u = s
        · subst hus
          obtain rfl := Option.some.inj (hp.symm.trans hw.2)
          exact Or.inr .refl
        · refine Or.inr ((ih.resolve_left hus).tail ⟨?_, (parent?_mark a s u).trans hw.2⟩)
          exact (hmark u (lt_size_of_parent hw.2)).mpr ⟨hus, hw.1⟩
    by_cases hvs : v = s
    · exact Or.inl hvs
    have hlt : v < a.frames.size := ha.lt_of_ancestor (lt_size_of_parent hp) h.ancestor
    exact Or.inr ⟨hbehind.resolve_left hvs, (hmark v hlt).mpr ⟨hvs, h.2⟩⟩

namespace Marking

/-- A walk of capturing marks some frames, and these are the exposed ones. -/
theorem exists_marks (h : Marking a s b) (ha : a.Bounded) (hs : s < a.frames.size) :
    ∃ us : List ScopeId, b = us.foldl mark a ∧ ∀ v, v ∈ us ↔ a.Exposed s v := by
  induction h with
  | @held a s hc =>
    refine ⟨[], rfl, fun v => ⟨fun hv => absurd hv List.not_mem_nil, fun ⟨hway, hv⟩ => ?_⟩⟩
    rcases Relation.ReflTransGen.cases_head hway with rfl | ⟨w, hstep, -⟩
    · rw [hv] at hc
      cases hc
    · rw [hstep.1] at hc
      cases hc
  | @outermost a s hc hp =>
    refine ⟨[s], rfl, fun v => ?_⟩
    rw [List.mem_singleton]
    refine ⟨?_, fun ⟨hway, _⟩ => ?_⟩
    · rintro rfl
      exact ⟨.refl, hc⟩
    rcases Relation.ReflTransGen.cases_head hway with rfl | ⟨w, hstep, -⟩
    · rfl
    · cases hp.symm.trans hstep.2
  | @outwards a b s p hc hp _ ih =>
    have hbounded : (a.mark s).Bounded := fun u q hq => by
      rw [size_mark]
      exact ha u q ((parent?_mark a s u).symm.trans hq)
    obtain ⟨us, rfl, hus⟩ := ih hbounded (by rw [size_mark]; exact ha _ _ hp)
    refine ⟨s :: us, rfl, fun v => ?_⟩
    rw [List.mem_cons, hus]
    exact exposed_mark_iff ha hc hp

/-- **Every walk of capturing leaves what `capture` does.** -/
theorem eq_capture (h : Marking a s b) (ha : a.Bounded) (hs : s < a.frames.size) :
    b = a.capture s := by
  obtain ⟨us, rfl, hus⟩ := h.exists_marks ha hs
  rw [capture_eq]
  exact marks_congr fun v _ => by rw [hus, mem_marked_iff ha hs]

end Marking

/-- The frames that are not captured. -/
def uncaptured (a : Arena) : Finset ScopeId :=
  (Finset.range a.frames.size).filter fun u => a.isCaptured u = false

theorem card_uncaptured_mark (hlt : s < a.frames.size) (hs : a.isCaptured s = false) :
    (a.mark s).uncaptured.card < a.uncaptured.card := by
  refine Finset.card_lt_card (Finset.ssubset_iff_of_subset (fun u hu => ?_) |>.mpr ⟨s, ?_, ?_⟩)
  · simp only [uncaptured, Finset.mem_filter, Finset.mem_range, size_mark] at hu ⊢
    refine ⟨hu.1, ?_⟩
    rw [← Bool.not_eq_true, isCaptured_mark hu.1] at hu
    simpa using (not_or.mp hu.2).2
  · simp [uncaptured, hlt, hs]
  · have hmarked : (a.mark s).isCaptured s := (isCaptured_mark hlt).mpr (Or.inl rfl)
    simp [uncaptured, hmarked]

/-- **Capturing always ends**: each frame that it passes is one frame less that is not captured. -/
theorem exists_marking (ha : a.Bounded) (hs : s < a.frames.size) : ∃ b, Marking a s b := by
  induction hn : a.uncaptured.card using Nat.strongRecOn generalizing a s with
  | _ n ih =>
    subst hn
    cases hc : a.isCaptured s with
    | true => exact ⟨a, .held hc⟩
    | false =>
      cases hp : a.parent? s with
      | none => exact ⟨a.mark s, .outermost hc hp⟩
      | some p =>
        have hbounded : (a.mark s).Bounded := fun u q hq => by
          rw [size_mark]
          exact ha u q ((parent?_mark a s u).symm.trans hq)
        obtain ⟨b, hb⟩ := ih _ (card_uncaptured_mark hs hc) hbounded
          (by rw [size_mark]; exact ha _ _ hp) rfl
        exact ⟨b, .outwards hc hp hb⟩

/-- **The walk of capturing ends, in the arena that `capture` leaves.** -/
theorem marking_iff (ha : a.Bounded) (hs : s < a.frames.size) :
    Marking a s b ↔ b = a.capture s := by
  refine ⟨fun h => h.eq_capture ha hs, ?_⟩
  rintro rfl
  obtain ⟨b, hb⟩ := exists_marking ha hs
  rwa [← hb.eq_capture ha hs]

end Arena

end Fexpr
