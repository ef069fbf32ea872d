import Fexpr.Proofs.Census

/-!
# Proofs/Promises/Course — what becomes of promises

A promise is pending, then in the course of being forced, and then either forced or pending again.
From the beginning of a computation to its end it only *settles*: it is what it was, or it was
pending and has run to a value (`Store.Settles`).  In the middle of a computation it may also be in
the course of being forced (`Store.Moves`).  Once forced it stays so (`Store.Lasts`).

`may id node u v` says which values `v` the promise `id` of `node` in `u` can have run to.
-/

namespace Fexpr

/-! ## Reading promises -/

namespace Store

variable {st : Store} {id id' : PromiseId} {p : Promise}

theorem promise_eq (st : Store) (id : PromiseId) :
    st.promise id = st.promises[id]?.getD .forcing := by
  rw [promise, Array.getD_eq_getD_getElem?]

theorem size_setPromise (st : Store) (id : PromiseId) (p : Promise) :
    (st.setPromise id p).promises.size = st.promises.size :=
  Array.size_modify

theorem promise_setPromise_self (h : id < st.promises.size) :
    (st.setPromise id p).promise id = p := by
  simp [promise_eq, setPromise, Array.getElem?_modify, Array.getElem?_eq_getElem h]

theorem promise_setPromise_of_ne (h : id' ≠ id) :
    (st.setPromise id p).promise id' = st.promise id' := by
  simp [promise_eq, setPromise, Array.getElem?_modify, h.symm]

theorem promise_addPromise_of_lt (h : id < st.promises.size) :
    (st.addPromise p).2.promise id = st.promise id := by
  simp [promise_eq, addPromise, Array.getElem?_push, Nat.ne_of_lt h]

theorem promise_addPromise_self (st : Store) (p : Promise) :
    (st.addPromise p).2.promise st.promises.size = p := by
  simp [promise_eq, addPromise]

/-- A number that names no promise reads as one in the course of being forced. -/
theorem lt_size_of_promise_ne (h : st.promise id ≠ .forcing) : id < st.promises.size := by
  by_contra hid
  refine h ?_
  rw [promise_eq, Array.getElem?_eq_none (Nat.le_of_not_lt hid)]
  rfl

end Store

/-! ## One promise -/

/-- **What a computation leaves of a promise**: the promise as it was, or the value it has run
to. -/
inductive Promise.Settles (may : Node → ScopeId → Value → Prop) : Promise → Promise → Prop
  | same (p : Promise) : Settles may p p
  | ran {node : Node} {u : ScopeId} {v : Value} : may node u v →
      Settles may (.pending node u) (.forced v)

/-- **What has become of a promise in the middle of a computation**: it may also be in the course of
being forced. -/
inductive Promise.Moves (may : Node → ScopeId → Value → Prop) : Promise → Promise → Prop
  | settles {p q : Promise} : p.Settles may q → Moves may p q
  | marked (node : Node) (u : ScopeId) : Moves may (.pending node u) .forcing

namespace Promise

variable {may : Node → ScopeId → Value → Prop} {p q r : Promise}

theorem Settles.moves (h : p.Settles may q) (h' : q.Moves may r) : p.Moves may r := by
  cases h with
  | same => exact h'
  | ran hv =>
    -- a value that has been run to changes no more
    cases h' with
    | settles h' =>
      cases h' with
      | same => exact .settles (.ran hv)

theorem Settles.trans (h : p.Settles may q) (h' : q.Settles may r) : p.Settles may r := by
  cases h with
  | same => exact h'
  | ran hv =>
    cases h' with
    | same => exact .ran hv

theorem Settles.ne_forcing (h : p.Settles may q) (hp : p ≠ .forcing) : q ≠ .forcing := by
  cases h with
  | same => exact hp
  | ran hv => exact Promise.noConfusion

theorem Settles.eq_of_forcing (h : Promise.forcing.Settles may q) : q = .forcing := by
  cases h with
  | same => rfl

theorem Moves.eq_of_forcing (h : Promise.forcing.Moves may q) : q = .forcing := by
  cases h with
  | settles h => exact h.eq_of_forcing

theorem Moves.eq_of_forced {v : Value} (h : (Promise.forced v).Moves may q) : q = .forced v := by
  cases h with
  | settles h =>
    cases h with
    | same => rfl

end Promise

/-! ## All promises of a store -/

/-- Which values the promise of a node in a scope can have run to. -/
abbrev Yields : Type :=
  PromiseId → Node → ScopeId → Value → Prop

namespace Store

/-- **From the beginning of a computation to its end** old promises settle, and no new one is left
in the course of being forced. -/
structure Settles (may : Yields) (st st' : Store) : Prop where
  size_le : st.promises.size ≤ st'.promises.size
  old : ∀ id < st.promises.size, (st.promise id).Settles (may id) (st'.promise id)
  new : ∀ id < st'.promises.size, st.promises.size ≤ id → st'.promise id ≠ .forcing

/-- **From the beginning of a computation to its middle** old promises move. -/
structure Moves (may : Yields) (st st' : Store) : Prop where
  size_le : st.promises.size ≤ st'.promises.size
  old : ∀ id < st.promises.size, (st.promise id).Moves (may id) (st'.promise id)

/-- **What is forced stays forced**, with the same value. -/
def Lasts (st st' : Store) : Prop :=
  ∀ id v, st.promise id = .forced v → st'.promise id = .forced v

variable {may : Yields} {st st' st'' : Store} {id : PromiseId} {node : Node} {u : ScopeId}
  {v : Value}

theorem Lasts.refl (st : Store) : st.Lasts st := fun _ _ h => h

theorem Lasts.trans (h : st.Lasts st') (h' : st'.Lasts st'') : st.Lasts st'' :=
  fun id v hv => h' id v (h id v hv)

theorem Moves.lasts (h : st.Moves may st') : st.Lasts st' := by
  intro id v hv
  have hid : id < st.promises.size := lt_size_of_promise_ne (by simp [hv])
  have hmoves := h.old id hid
  rw [hv] at hmoves
  exact hmoves.eq_of_forced

theorem Moves.forcing (h : st.Moves may st') (hid : id < st.promises.size)
    (hp : st.promise id = .forcing) : st'.promise id = .forcing := by
  have hmoves := h.old id hid
  rw [hp] at hmoves
  exact hmoves.eq_of_forcing

namespace Settles

theorem moves (h : st.Settles may st') : st.Moves may st' :=
  ⟨h.size_le, fun id hid => .settles (h.old id hid)⟩

theorem of_promises (h : st'.promises = st.promises) : st.Settles may st' := by
  have hp : ∀ id, st'.promise id = st.promise id := fun id => by rw [promise, promise, h]
  refine ⟨Nat.le_of_eq (by rw [h]), fun id _ => ?_, fun id hid hnew => ?_⟩
  · rw [hp]
    exact .same _
  · rw [h] at hid
    exact absurd hid (Nat.not_lt_of_le hnew)

theorem refl (st : Store) : st.Settles may st := of_promises rfl

theorem trans (h : st.Settles may st') (h' : st'.Settles may st'') : st.Settles may st'' := by
  refine ⟨Nat.le_trans h.size_le h'.size_le, fun id hid => ?_, fun id hid hnew => ?_⟩
  · exact (h.old id hid).trans (h'.old id (Nat.lt_of_lt_of_le hid h.size_le))
  · by_cases hmiddle : id < st'.promises.size
    · -- what was left after the first computation is not marked by the second
      exact (h'.old id hmiddle).ne_forcing (h.new id hmiddle hnew)
    · exact h'.new id hid (Nat.le_of_not_lt hmiddle)

theorem trans_moves (h : st.Settles may st') (h' : st'.Moves may st'') : st.Moves may st'' :=
  ⟨Nat.le_trans h.size_le h'.size_le, fun id hid =>
    (h.old id hid).moves (h'.old id (Nat.lt_of_lt_of_le hid h.size_le))⟩

/-- A new promise is pending. -/
theorem addPromise (st : Store) (node : Node) (u : ScopeId) :
    st.Settles may (st.addPromise (.pending node u)).2 := by
  have hsize : (st.addPromise (.pending node u)).2.promises.size = st.promises.size + 1 :=
    Array.size_push ..
  refine ⟨by omega, fun id hid => ?_, fun id hid hnew => ?_⟩
  · rw [promise_addPromise_of_lt hid]
    exact .same _
  · obtain rfl : id = st.promises.size := by omega
    rw [promise_addPromise_self]
    exact Promise.noConfusion

/-! ## A promise that is forced -/

section Force

variable (hp : st.promise id = .pending node u)
  (h : (st.setPromise id .forcing).Settles may st')
include hp h

/-- While a promise is being forced, it stays marked. -/
theorem promise_marked : id < st.promises.size ∧ id < st'.promises.size ∧
    st'.promise id = .forcing := by
  have hid : id < st.promises.size := lt_size_of_promise_ne (by simp [hp])
  have hsize := st.size_setPromise id .forcing
  refine ⟨hid, ?_, ?_⟩
  · exact Nat.lt_of_lt_of_le (hsize ▸ hid) h.size_le
  · exact h.moves.forcing (hsize ▸ hid) (promise_setPromise_self hid)

/-- What becomes of the other promises while one is forced. -/
theorem of_force {q : Promise} (hq : (Promise.pending node u).Settles (may id) q) :
    st.Settles may (st'.setPromise id q) := by
  obtain ⟨hid, hid', -⟩ := promise_marked hp h
  have hsize := st.size_setPromise id .forcing
  have hsize' := st'.size_setPromise id q
  have hle := h.size_le
  refine ⟨by omega, fun i hi => ?_, fun i hi hnew => ?_⟩
  · by_cases hne : i = id
    · rw [hne, promise_setPromise_self hid', hp]
      exact hq
    · have hold := h.old i (by omega)
      rwa [promise_setPromise_of_ne hne] at hold ⊢
  · have hne : i ≠ id := Nat.ne_of_gt (Nat.lt_of_lt_of_le hid hnew)
    rw [promise_setPromise_of_ne hne]
    exact h.new i (by omega) (by omega)

/-- What was forced meanwhile stays so once the promise is set. -/
theorem lasts_setPromise (q : Promise) : st'.Lasts (st'.setPromise id q) := by
  obtain ⟨-, -, hmarked⟩ := promise_marked hp h
  intro i v hv
  have hne : i ≠ id := by
    rintro rfl
    rw [hmarked] at hv
    cases hv
  rw [promise_setPromise_of_ne hne]
  exact hv

end Force

end Settles

/-- Where a promise is in the course of being forced. -/
theorem Moves.of_force (hp : st.promise id = .pending node u)
    (h : (st.setPromise id .forcing).Moves may st') : st.Moves may st' := by
  have hid : id < st.promises.size := lt_size_of_promise_ne (by simp [hp])
  have hsize := st.size_setPromise id .forcing
  refine ⟨hsize ▸ h.size_le, fun i hi => ?_⟩
  by_cases hne : i = id
  · subst hne
    rw [hp, h.forcing (hsize ▸ hid) (promise_setPromise_self hid)]
    exact .marked node u
  · have hold := h.old i (hsize ▸ hi)
    rwa [promise_setPromise_of_ne hne] at hold

end Store

end Fexpr
