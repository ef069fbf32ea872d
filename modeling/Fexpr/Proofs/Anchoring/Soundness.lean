import Fexpr.Proofs.Arena.Ancestry
import Fexpr.Proofs.Census

/-!
# Proofs/Anchoring/Soundness — sound states and what becomes of them

A state is **sound** when every value in it mentions existing records only, and every closure and
pending promise holds on to an anchored scope (`State.Sound`).  A **later** state has everything that
is captured in its place (`State.Later`); where a computation returns or fails, the frames in use are
moreover those it found beside captured ones (`State.Leads`).
-/

namespace Fexpr

/-! ## What operations put into frames -/

namespace Arena.Within

variable {N : Census} {a : Arena} (h : a.Within N)

include h

theorem update (u : ScopeId) {f : Frame → Frame}
    (hf : ∀ x, Bindings.Within N x.bindings → Bindings.Within N (f x).bindings) :
    (a.update u f).Within N := fun v =>
  getD_modify_of (P := fun x : Frame => Bindings.Within N x.bindings) u v (h v) hf

theorem set (u : ScopeId) (name : String) {v : Value} (hv : v.Within N) :
    (a.set u name v).Within N :=
  h.update u fun _ hx => Bindings.within_insert hx hv

theorem setOutward (u : ScopeId) (name : String) {v : Value} (hv : v.Within N) :
    (a.setOutward u name v).2.Within N := by
  rw [Arena.setOutward]
  split
  · exact h.set _ name hv
  · exact h.set _ name hv

theorem capture (u : ScopeId) : (a.capture u).Within N := by
  rw [capture_eq]
  generalize (a.chain u).takeWhile _ = us
  induction us generalizing a with
  | nil => exact h
  | cons v us ih => exact ih (h.update v fun _ hx => hx)

theorem child (p : ScopeId) : (a.child p).2.Within N := by
  intro u
  rw [Arena.child]
  split
  · exact getD_modify_of (P := fun x : Frame => Bindings.Within N x.bindings) _ u (h u) fun _ _ =>
      Bindings.within_empty
  · have hu := h u
    simp only [frame, Array.getD_eq_getD_getElem?, Array.getElem?_push] at hu ⊢
    split
    · exact Bindings.within_empty
    · exact hu

theorem release (u : ScopeId) : (a.release u).Within N := by
  rw [Arena.release]
  split
  · exact h.update u fun _ _ => Bindings.within_empty
  · exact h

end Arena.Within

/-! ## Sound states -/

/-- **What a state has**: the records of its store, and its anchored scopes. -/
def State.census (s : State) : Census where
  closure id := id < s.store.closures.size
  object id := id < s.store.objects.size
  dictionary id := id < s.store.dictionaries.size
  promise id := id < s.store.promises.size
  scope u := s.arena.Anchored u
  wellMade := False

/-- **A state whose values mention what it has**, and whose closures and pending promises hold on to
anchored scopes. -/
structure State.Sound (s : State) : Prop where
  rooted : s.arena.Rooted
  arena : s.arena.Within s.census
  store : s.store.Within s.census

/-- **A later state**: what was captured is where it was, and records have only been added. -/
structure State.Later (s t : State) : Prop where
  keeps : s.arena.Keeps t.arena
  closure : ∀ id < s.store.closures.size,
    id < t.store.closures.size ∧ t.store.closure id = s.store.closure id
  objects : s.store.objects.size ≤ t.store.objects.size
  dictionaries : s.store.dictionaries.size ≤ t.store.dictionaries.size
  promises : s.store.promises.size ≤ t.store.promises.size

namespace State.Later

variable {s t u : State}

theorem refl (s : State) : s.Later s :=
  ⟨.refl _, fun _ h => ⟨h, rfl⟩, le_rfl, le_rfl, le_rfl⟩

theorem trans (hst : s.Later t) (htu : t.Later u) : s.Later u where
  keeps := hst.keeps.trans htu.keeps
  closure id h := by
    obtain ⟨ht, he⟩ := hst.closure id h
    obtain ⟨hu, he'⟩ := htu.closure id ht
    exact ⟨hu, he'.trans he⟩
  objects := hst.objects.trans htu.objects
  dictionaries := hst.dictionaries.trans htu.dictionaries
  promises := hst.promises.trans htu.promises

/-- **A later state has more.** -/
theorem census_le (h : s.Later t) : s.census ≤ t.census :=
  ⟨fun id hid => (h.closure id hid).1, fun _ hid => lt_of_lt_of_le hid h.objects,
    fun _ hid => lt_of_lt_of_le hid h.dictionaries, fun _ hid => lt_of_lt_of_le hid h.promises,
    fun _ hu => h.keeps.anchored hu, id⟩

/-- A change of the arena that keeps what is captured. -/
theorem of_keeps {b : Arena} (h : s.arena.Keeps b) : s.Later { s with arena := b } :=
  ⟨h, fun _ hid => ⟨hid, rfl⟩, le_rfl, le_rfl, le_rfl⟩

end State.Later

/-- The store stays sound under another arena that keeps what is captured. -/
theorem State.Sound.store_of_keeps {s : State} (hs : s.Sound) {b : Arena} (h : s.arena.Keeps b) :
    s.store.Within ({ s with arena := b } : State).census := by
  have hle := (State.Later.of_keeps h).census_le
  exact ⟨fun id hid => (hs.store.closure id hid).mono hle,
    fun id hid => (hs.store.object id hid).mono hle,
    fun id hid => (hs.store.dictionary id hid).mono hle,
    fun id hid => (hs.store.promise id hid).mono hle⟩

/-- A new frame below a scope in use leaves a state sound. -/
theorem State.Sound.child {s : State} (hs : s.Sound) {p : ScopeId} (hp : p ∈ s.arena.inUse) :
    ({ s with arena := (s.arena.child p).2 } : State).Sound := by
  have htidy := hs.rooted.tidy
  have hkeeps := Arena.keeps_child p htidy
  exact ⟨hs.rooted.child hp, (hs.arena.mono (State.Later.of_keeps hkeeps).census_le).child p,
    hs.store_of_keeps hkeeps⟩

/-- **What the evaluator does to a sound state**, when it returns or fails. -/
structure State.Leads (s t : State) : Prop where
  sound : t.Sound
  later : s.Later t
  settles : s.arena.Settles t.arena

namespace State.Leads

variable {s t u : State}

theorem refl (h : s.Sound) : s.Leads s := ⟨h, .refl s, .refl h.rooted.tidy⟩

theorem trans (hst : s.Leads t) (htu : t.Leads u) : s.Leads u :=
  ⟨htu.sound, hst.later.trans htu.later, hst.settles.trans htu.settles⟩

/-- A change of neither the arena nor the store. -/
theorem of_same (h : s.Sound) (ha : t.arena = s.arena) (hst : t.store = s.store) : s.Leads t := by
  obtain ⟨a, st, depth, output, log⟩ := t
  cases ha
  cases hst
  exact ⟨⟨h.rooted, h.arena, h.store⟩, ⟨.refl _, fun _ hid => ⟨hid, rfl⟩, le_rfl, le_rfl, le_rfl⟩,
    .refl h.rooted.tidy⟩

/-- A change of the arena. -/
theorem of_arena (h : s.Sound) {b : Arena} (hb : b.Rooted) (hs : s.arena.Settles b)
    (hw : b.Within s.census) : s.Leads { s with arena := b } :=
  ⟨⟨hb, hw.mono (State.Later.of_keeps hs.keeps).census_le, h.store_of_keeps hs.keeps⟩,
    .of_keeps hs.keeps, hs⟩

/-- A change of the store. -/
theorem of_store (h : s.Sound) {st : Store} (hlater : s.Later { s with store := st })
    (hw : st.Within ({ s with store := st } : State).census) : s.Leads { s with store := st } :=
  ⟨⟨h.rooted, h.arena.mono hlater.census_le, hw⟩, hlater, .refl h.rooted.tidy⟩

/-- A change of records that are there already, other than closures. -/
theorem of_sameRecords (h : s.Sound) {st : Store} (hc : st.closures = s.store.closures)
    (ho : st.objects.size = s.store.objects.size)
    (hd : st.dictionaries.size = s.store.dictionaries.size)
    (hp : st.promises.size = s.store.promises.size) (hw : st.Within s.census) :
    s.Leads { s with store := st } := by
  have hcensus : ({ s with store := st } : State).census = s.census := by
    simp only [State.census, hc, ho, hd, hp]
  refine of_store h ⟨.refl _, fun id hid => ?_, ho.ge, hd.ge, hp.ge⟩ (by rwa [hcensus])
  exact ⟨by simpa only [hc] using hid, by simp only [Store.closure, hc]⟩

/-! ### New records -/

theorem lt_size_push {α : Type} (xs : Array α) (x : α) : xs.size < (xs.push x).size := by
  rw [Array.size_push]
  exact Nat.lt_succ_self _

/-- A property of all records of an array and of one that is added. -/
theorem getD_push_of {α : Type} {P : α → Prop} {xs : Array α} {x d : α}
    (hx : P x) (h : ∀ i < xs.size, P (xs.getD i d)) (i : Nat) (hi : i < (xs.push x).size) :
    P ((xs.push x).getD i d) := by
  rw [Array.size_push] at hi
  by_cases hlt : i < xs.size
  · have hi' := h i hlt
    simp only [Array.getD, hlt, dif_pos] at hi'
    simpa [Array.getD, hi, Array.getElem_push, hlt] using hi'
  · obtain rfl : i = xs.size := by omega
    simpa [Array.getD] using hx

variable (h : s.Sound)

include h

theorem addClosure {c : Closure} (hc : c.Within s.census) :
    s.Leads { s with store := (s.store.addClosure c).2 } := by
  have hlater : s.Later { s with store := (s.store.addClosure c).2 } := by
    refine ⟨.refl _, fun id hid => ?_, le_rfl, le_rfl, le_rfl⟩
    change id < (s.store.closures.push c).size ∧ (s.store.closures.push c).getD id default = _
    rw [Array.size_push]
    refine ⟨Nat.lt_succ_of_lt hid, ?_⟩
    simp [Store.closure, Array.getD, hid, Nat.lt_succ_of_lt hid, Array.getElem_push]
  have hle := hlater.census_le
  refine of_store h hlater ⟨?_, ?_, ?_, ?_⟩
  · exact getD_push_of (hc.mono hle) fun id hid => (h.store.closure id hid).mono hle
  · exact fun id hid => (h.store.object id hid).mono hle
  · exact fun id hid => (h.store.dictionary id hid).mono hle
  · exact fun id hid => (h.store.promise id hid).mono hle

theorem addObject {o : Object} (ho : o.Within s.census) :
    s.Leads { s with store := (s.store.addObject o).2 } := by
  have hlater : s.Later { s with store := (s.store.addObject o).2 } := by
    refine ⟨.refl _, fun id hid => ⟨hid, rfl⟩, ?_, le_rfl, le_rfl⟩
    exact (lt_size_push _ _).le
  have hle := hlater.census_le
  refine of_store h hlater ⟨?_, ?_, ?_, ?_⟩
  · exact fun id hid => (h.store.closure id hid).mono hle
  · exact getD_push_of (ho.mono hle) fun id hid => (h.store.object id hid).mono hle
  · exact fun id hid => (h.store.dictionary id hid).mono hle
  · exact fun id hid => (h.store.promise id hid).mono hle

theorem addDictionary {d : Dictionary} (hd : d.Within s.census) :
    s.Leads { s with store := (s.store.addDictionary d).2 } := by
  have hlater : s.Later { s with store := (s.store.addDictionary d).2 } := by
    refine ⟨.refl _, fun id hid => ⟨hid, rfl⟩, le_rfl, ?_, le_rfl⟩
    exact (lt_size_push _ _).le
  have hle := hlater.census_le
  refine of_store h hlater ⟨?_, ?_, ?_, ?_⟩
  · exact fun id hid => (h.store.closure id hid).mono hle
  · exact fun id hid => (h.store.object id hid).mono hle
  · exact getD_push_of (hd.mono hle) fun id hid => (h.store.dictionary id hid).mono hle
  · exact fun id hid => (h.store.promise id hid).mono hle

theorem addPromise {p : Promise} (hp : p.Within s.census) :
    s.Leads { s with store := (s.store.addPromise p).2 } := by
  have hlater : s.Later { s with store := (s.store.addPromise p).2 } := by
    refine ⟨.refl _, fun id hid => ⟨hid, rfl⟩, le_rfl, le_rfl, ?_⟩
    exact (lt_size_push _ _).le
  have hle := hlater.census_le
  refine of_store h hlater ⟨?_, ?_, ?_, ?_⟩
  · exact fun id hid => (h.store.closure id hid).mono hle
  · exact fun id hid => (h.store.object id hid).mono hle
  · exact fun id hid => (h.store.dictionary id hid).mono hle
  · exact getD_push_of (hp.mono hle) fun id hid => (h.store.promise id hid).mono hle

end State.Leads

end Fexpr
