import Fexpr.Proofs.Arena.Walk

/-!
# Proofs/Arena/Client — whatever a client asks for, no slot is handed out twice

A client of the arena knows frames by their handles and may use every handle it was ever given,
whether the frame behind it has been released, captured or reused since.  What it may do is one
`Request`; `Client.Reaches` is any number of them, each of a kind that is allowed.

Nothing that a client can ask for brings the arena out of order (`InOrder.run`): the free slots are
exactly those without a parent, but for the root.  So a new frame is none of those in use
(`Client.slots_accounted`).
-/

namespace Fexpr

namespace Arena

/-! ## Requests -/

/-- **What a client can ask an arena for.** -/
inductive Request where
  | child (parent : ScopeId)
  | capture (s : ScopeId)
  | release (s : ScopeId)
  | set (s : ScopeId) (name : String) (v : Value)
  | setOutward (s : ScopeId) (name : String) (v : Value)

namespace Request

/-- The handle that a request names. -/
def handle : Request → ScopeId
  | .child s | .capture s | .release s | .set s _ _ | .setOutward s _ _ => s

/-- **What a request does to the arena.** -/
def run : Request → Arena → Arena
  | .child p, a => (a.child p).2
  | .capture s, a => a.capture s
  | .release s, a => a.release s
  | .set s name v, a => a.set s name v
  | .setOutward s name v, a => (a.setOutward s name v).2

/-- The handles that a request is answered with. -/
def given : Request → Arena → List ScopeId
  | .child p, a => [(a.child p).1]
  | _, _ => []

/-- Whether a request comes back.  Binding outwards may walk for ever where parents lead in a
circle; all other requests come back always. -/
def Returns : Request → Arena → Prop
  | .setOutward s name _, a => ∃ t, a.Search name s t
  | _, _ => True

/-- Whether a request opens a frame. -/
def Opens : Request → Prop
  | .child _ => True
  | _ => False

end Request

/-- **A client of an arena**, with the handles it has been given, the latest first. -/
structure Client where
  arena : Arena
  handles : List ScopeId

namespace Client

/-- The client of a fresh arena: all it knows is the root. -/
def fresh : Client := ⟨.fresh, [root]⟩

/-- The client after a request. -/
def ask (x : Client) (q : Request) : Client :=
  ⟨q.run x.arena, q.given x.arena ++ x.handles⟩

/-- Requests of one kind, in view of the arena. -/
abbrev Kind := Arena → Request → Prop

/-- Every request. -/
def anything : Kind := fun _ _ => True

/-- Every request but for a new frame. -/
def noChild : Kind := fun _ q => ¬q.Opens

/-- **One request of the kind**, by a handle that the client has been given. -/
def Asks (kind : Kind) (x y : Client) : Prop :=
  ∃ q, q.handle ∈ x.handles ∧ q.Returns x.arena ∧ kind x.arena q ∧ y = x.ask q

/-- **Any number of requests of the kind.** -/
def Reaches (kind : Kind) : Client → Client → Prop :=
  Relation.ReflTransGen (Asks kind)

/-- One request more. -/
theorem Reaches.ask {kind : Kind} {x y : Client} (h : x.Reaches kind y) {q : Request}
    (hq : q.handle ∈ y.handles) (hreturns : q.Returns y.arena) (hkind : kind y.arena q) :
    x.Reaches kind (y.ask q) :=
  h.tail ⟨q, hq, hreturns, hkind, rfl⟩

theorem Reaches.mono {kind kind' : Kind} (h : ∀ a q, kind a q → kind' a q) {x y : Client}
    (hxy : x.Reaches kind y) : x.Reaches kind' y :=
  Relation.ReflTransGen.mono (fun _ _ ⟨q, hq, hr, hk, he⟩ => ⟨q, hq, hr, h _ _ hk, he⟩) _ _ hxy

end Client

/-! ## What requests leave alone -/

/-- **The same slots are free and parents are the same**; at most bindings have changed, and more
frames are captured. -/
structure SameShape (a b : Arena) : Prop where
  free : b.free = a.free
  size : b.frames.size = a.frames.size
  parent? : ∀ u, b.parent? u = a.parent? u
  captured : ∀ u, a.isCaptured u → b.isCaptured u

variable {a b : Arena} {s u : ScopeId}

theorem SameShape.inUse (h : a.SameShape b) : b.inUse = a.inUse := by
  rw [Arena.inUse, Arena.inUse, h.free, h.size]

theorem SameShape.tidy (h : a.SameShape b) (ha : a.Tidy) : b.Tidy where
  nodup := h.free ▸ ha.nodup
  bound u hu := by
    rw [h.size]
    exact ha.bound u (h.free ▸ hu)
  orphan u hu := by
    rw [h.parent?]
    exact ha.orphan u (h.free ▸ hu)

theorem sameShape_set (a : Arena) (s : ScopeId) (name : String) (v : Value) :
    a.SameShape (a.set s name v) where
  free := rfl
  size := size_update a s _
  parent? := parent?_set a s name v
  captured u hu := by
    rwa [isCaptured, set, part_update (·.captured)
      (f := fun f => { f with bindings := f.bindings.insert name v }) (fun _ => rfl)]

theorem sameShape_setOutward (a : Arena) (s : ScopeId) (name : String) (v : Value) :
    a.SameShape (a.setOutward s name v).2 := by
  rw [setOutward]
  split
  · exact sameShape_set a _ name v
  · exact sameShape_set a _ name v

theorem sameShape_capture (a : Arena) (s : ScopeId) : a.SameShape (a.capture s) where
  free := free_marks a _
  size := size_marks a _
  parent? := parent?_marks a _
  captured u hu := by
    have hlt : u < a.frames.size := by
      by_contra hlt
      simp [isCaptured, frame, Array.getD, hlt] at hu
    rw [capture_eq]
    exact (isCaptured_marks hlt).mpr (Or.inr hu)

/-! ## Arenas in order -/

/-- **An arena whose free list says the truth**: a slot is in use if it is the root or has a parent,
and only then. -/
structure InOrder (a : Arena) : Prop where
  tidy : a.Tidy
  root_mem : root ∈ a.inUse
  outermost : a.parent? root = none
  inner : ∀ u ∈ a.inUse, a.parent? u = none → u = root
  bounded : a.Bounded

theorem inOrder_fresh : fresh.InOrder where
  tidy := tidy_fresh
  root_mem := by decide
  outermost := rfl
  inner u hu _ := by
    have hlt : u < 1 := (mem_inUse.mp hu).1
    exact Nat.lt_one_iff.mp hlt
  bounded u p hp := by
    cases u <;> cases hp

namespace InOrder

theorem mem_free_iff (h : a.InOrder) :
    s ∈ a.free ↔ s < a.frames.size ∧ s ≠ root ∧ a.parent? s = none := by
  constructor
  · intro hs
    refine ⟨h.tidy.bound s hs, ?_, h.tidy.orphan s hs⟩
    rintro rfl
    exact (mem_inUse.mp h.root_mem).2 hs
  · rintro ⟨hlt, hne, hp⟩
    by_contra hfree
    exact hne (h.inner s (mem_inUse.mpr ⟨hlt, hfree⟩) hp)

theorem mem_inUse_iff (h : a.InOrder) : u ∈ a.inUse ↔ u = root ∨ (a.parent? u).isSome := by
  constructor
  · intro hu
    cases hp : a.parent? u with
    | none => exact Or.inl (h.inner u hu hp)
    | some p => exact Or.inr rfl
  · rintro (rfl | hp)
    · exact h.root_mem
    · obtain ⟨p, hp⟩ := Option.isSome_iff_exists.mp hp
      exact Lineage.mem_inUse_of_parent h.tidy (lt_size_of_parent hp) hp

/-- **One frame is the root and every other has a parent.** -/
theorem live_eq (h : a.InOrder) :
    a.live = 1 + ((Finset.range a.frames.size).filter fun u => (a.parent? u).isSome).card := by
  have huse : a.inUse =
      insert root ((Finset.range a.frames.size).filter fun u => (a.parent? u).isSome) := by
    ext u
    rw [h.mem_inUse_iff, Finset.mem_insert, Finset.mem_filter, Finset.mem_range]
    refine or_congr Iff.rfl ⟨fun hp => ?_, And.right⟩
    obtain ⟨p, hp'⟩ := Option.isSome_iff_exists.mp hp
    exact ⟨lt_size_of_parent hp', hp⟩
  have hroot : root ∉ (Finset.range a.frames.size).filter fun u => (a.parent? u).isSome := by
    simp [h.outermost]
  rw [h.tidy.live_eq, huse, Finset.card_insert_of_notMem hroot, Nat.add_comm]

/-! ### What a request does to an arena in order -/

theorem of_sameShape (h : a.InOrder) (hab : a.SameShape b) : b.InOrder where
  tidy := hab.tidy h.tidy
  root_mem := hab.inUse ▸ h.root_mem
  outermost := (hab.parent? root).trans h.outermost
  inner u hu hp := h.inner u (hab.inUse ▸ hu) ((hab.parent? u).symm.trans hp)
  bounded u p hp := by
    rw [hab.size]
    exact h.bounded u p ((hab.parent? u).symm.trans hp)

/-- **A new frame is none that is in use.** -/
theorem child_ne (h : a.InOrder) (p : ScopeId) :
    (a.child p).1 ≠ root ∧ ∀ u, (a.parent? u).isSome → (a.child p).1 ≠ u := by
  refine ⟨fun he => child_not_mem_inUse a p (he ▸ h.root_mem), fun u hu he => ?_⟩
  exact child_not_mem_inUse a p (he ▸ h.mem_inUse_iff.mpr (Or.inr hu))

theorem child (h : a.InOrder) {p : ScopeId} (hp : p < a.frames.size) :
    (a.child p).2.InOrder where
  tidy := h.tidy.child p
  root_mem := (mem_inUse_child p h.tidy).mpr (Or.inr h.root_mem)
  outermost := by
    rw [parent?, frame_child_of_ne p (h.child_ne p).1.symm]
    exact h.outermost
  inner u hu hpar := by
    rcases (mem_inUse_child p h.tidy).mp hu with rfl | hu
    · rw [parent?, frame_child_self p h.tidy] at hpar
      cases hpar
    · have hne : u ≠ (a.child p).1 := fun he => child_not_mem_inUse a p (he ▸ hu)
      rw [parent?, frame_child_of_ne p hne] at hpar
      exact h.inner u hu hpar
  bounded u q hq := by
    refine (lt_size_child_iff p h.tidy).mpr (Or.inr ?_)
    by_cases hne : u = (a.child p).1
    · rw [hne, parent?, frame_child_self p h.tidy] at hq
      cases hq
      exact hp
    · rw [parent?, frame_child_of_ne p hne] at hq
      exact h.bounded u q hq

theorem release (h : a.InOrder) (s : ScopeId) : (a.release s).InOrder := by
  cases hr : a.isReleasable s with
  | false => rwa [release_of_not_releasable hr]
  | true =>
    have hroot : root ≠ s := by
      rintro rfl
      have hp := parent?_isSome_of_isReleasable hr
      rw [h.outermost] at hp
      cases hp
    have hframe : ∀ u, u ≠ s → (a.release s).frame u = a.frame u := fun u hu =>
      frame_release_of_ne (Ne.symm hu)
    have horphan : (a.release s).parent? s = none := parent?_release_self hr
    refine ⟨h.tidy.release s, (mem_inUse_release hr).mpr ⟨hroot, h.root_mem⟩, ?_,
      fun u hu hp => ?_, fun u p hp => ?_⟩
    · rw [parent?, hframe root hroot]
      exact h.outermost
    · obtain ⟨hne, hu⟩ := (mem_inUse_release hr).mp hu
      rw [parent?, hframe u hne] at hp
      exact h.inner u hu hp
    · rw [size_release]
      by_cases hus : u = s
      · rw [hus, horphan] at hp
        cases hp
      · rw [parent?, hframe u hus] at hp
        exact h.bounded u p hp

/-- **Every request keeps an arena in order.** -/
theorem run (h : a.InOrder) {q : Request} (hq : q.handle < a.frames.size) : (q.run a).InOrder := by
  cases q with
  | child p => exact h.child hq
  | capture s => exact h.of_sameShape (sameShape_capture a s)
  | release s => exact h.release s
  | set s name v => exact h.of_sameShape (sameShape_set a s name v)
  | setOutward s name v => exact h.of_sameShape (sameShape_setOutward a s name v)

end InOrder

/-! ## Releasing twice -/

theorem isReleasable_eq_false_iff :
    a.isReleasable s = false ↔ a.isCaptured s ∨ a.parent? s = none := by
  rw [isReleasable, Bool.and_eq_false_iff, Bool.not_eq_false', Option.isSome_eq_false_iff,
    Option.isNone_iff_eq_none]
  exact Iff.rfl

theorem isReleasable_release_self (a : Arena) (s : ScopeId) :
    (a.release s).isReleasable s = false := by
  cases hr : a.isReleasable s with
  | false => rwa [release_of_not_releasable hr]
  | true => exact isReleasable_eq_false_iff.mpr (Or.inr (parent?_release_self hr))

/-- **Nothing but a new frame makes a slot releasable.** -/
theorem isReleasable_run {q : Request} (hq : ¬q.Opens) (hs : a.isReleasable s = false) :
    (q.run a).isReleasable s = false := by
  have hsame : a.SameShape (q.run a) → (q.run a).isReleasable s = false := fun h => by
    refine isReleasable_eq_false_iff.mpr ((isReleasable_eq_false_iff.mp hs).imp (h.captured s) ?_)
    exact (h.parent? s).trans
  cases q with
  | child p => exact absurd trivial hq
  | capture t => exact hsame (sameShape_capture a t)
  | release t =>
    by_cases hts : t = s
    · exact hts ▸ isReleasable_release_self a t
    · rw [Request.run, isReleasable, frame_release_of_ne hts]
      exact hs
  | set t name v => exact hsame (sameShape_set a t name v)
  | setOutward t name v => exact hsame (sameShape_setOutward a t name v)

/-! ## What a client can bring about -/

namespace Client

variable {kind : Kind} {x y : Client}

/-- **A client keeps its arena in order and knows every slot of it.** -/
structure Sound (x : Client) : Prop where
  inOrder : x.arena.InOrder
  mem_handles : ∀ s, s ∈ x.handles ↔ s < x.arena.frames.size

theorem sound_fresh : fresh.Sound where
  inOrder := inOrder_fresh
  mem_handles _ := List.mem_singleton.trans Nat.lt_one_iff.symm

theorem Sound.ask (h : x.Sound) {q : Request} (hq : q.handle ∈ x.handles) : (x.ask q).Sound where
  inOrder := h.inOrder.run ((h.mem_handles _).mp hq)
  mem_handles s := by
    have hsize : q.given x.arena = [] → (q.run x.arena).frames.size = x.arena.frames.size →
        (s ∈ (x.ask q).handles ↔ s < (q.run x.arena).frames.size) := fun hgiven hsize => by
      rw [Client.ask, hgiven, hsize]
      exact h.mem_handles s
    cases q with
    | child p =>
      change s ∈ (x.arena.child p).1 :: x.handles ↔ _
      rw [List.mem_cons, h.mem_handles]
      exact (lt_size_child_iff p h.inOrder.tidy).symm
    | capture t => exact hsize rfl (sameShape_capture _ t).size
    | release t => exact hsize rfl (size_release _ t)
    | set t name v => exact hsize rfl (sameShape_set _ t name v).size
    | setOutward t name v => exact hsize rfl (sameShape_setOutward _ t name v).size

theorem Reaches.sound (h : x.Reaches kind y) (hx : x.Sound) : y.Sound := by
  induction h with
  | refl => exact hx
  | tail _ hstep ih =>
    obtain ⟨q, hq, -, -, rfl⟩ := hstep
    exact ih.ask hq

theorem Reaches.isReleasable {s : ScopeId} (h : x.Reaches noChild y)
    (hs : x.arena.isReleasable s = false) : y.arena.isReleasable s = false := by
  induction h with
  | refl => exact hs
  | tail _ hstep ih =>
    obtain ⟨q, -, -, hkind, rfl⟩ := hstep
    exact isReleasable_run hkind ih

/-- **No slot in use is ever handed out**, whatever a client asks for, stale handles included: no
slot is free twice, and exactly those are free that have no parent and are not the root.  So a new
frame is empty, not captured, and neither the root nor any that has a parent; a frame is released
once until a new one is opened; and as many frames are live as have a parent, and the root. -/
theorem slots_accounted (h : fresh.Reaches anything x) :
    x.arena.free.Nodup ∧
    (∀ s, s ∈ x.arena.free ↔ s < x.arena.frames.size ∧ s ≠ root ∧ x.arena.parent? s = none) ∧
    (∀ p, (x.arena.child p).2.frame (x.arena.child p).1 = { parent := some p } ∧
      (x.arena.child p).1 ≠ root ∧
      ∀ u, (x.arena.parent? u).isSome → (x.arena.child p).1 ≠ u) ∧
    (∀ s ∈ x.handles, ∀ y, (x.ask (.release s)).Reaches noChild y →
      y.arena.isReleasable s = false) ∧
    x.arena.live = 1 +
      ((Finset.range x.arena.frames.size).filter fun u => (x.arena.parent? u).isSome).card := by
  have hx := (h.sound sound_fresh).inOrder
  refine ⟨hx.tidy.nodup, fun s => hx.mem_free_iff, fun p => ?_, fun s _ y hy => ?_, hx.live_eq⟩
  · exact ⟨frame_child_self p hx.tidy, hx.child_ne p⟩
  · exact hy.isReleasable (isReleasable_release_self x.arena s)

/-- A frame that has been released below one in use, and captured afterwards. -/
theorem captured_after_release_accounted :
    let x := (((fresh.ask (.child root)).ask (.child 1)).ask (.release 1)).ask (.capture 1)
    fresh.Reaches anything x ∧ x.handles = [2, 1, 0] ∧ x.arena.isCaptured 1 ∧
      x.arena.free.Nodup ∧
      (∀ s, s ∈ x.arena.free ↔ s < x.arena.frames.size ∧ s ≠ root ∧ x.arena.parent? s = none) ∧
      (∀ p, (x.arena.child p).2.frame (x.arena.child p).1 = { parent := some p } ∧
        (x.arena.child p).1 ≠ root ∧
        ∀ u, (x.arena.parent? u).isSome → (x.arena.child p).1 ≠ u) ∧
      (∀ s ∈ x.handles, ∀ y, (x.ask (.release s)).Reaches noChild y →
        y.arena.isReleasable s = false) ∧
      x.arena.live = 1 +
        ((Finset.range x.arena.frames.size).filter fun u =>
          (x.arena.parent? u).isSome).card := by
  intro x
  have hchild : fresh.Reaches anything (fresh.ask (.child root)) :=
    Reaches.ask .refl (by decide) trivial trivial
  have hbelow : fresh.Reaches anything ((fresh.ask (.child root)).ask (.child 1)) :=
    hchild.ask (by decide) trivial trivial
  have hx : fresh.Reaches anything x :=
    (hbelow.ask (q := .release 1) (by decide) trivial trivial).ask (by decide) trivial trivial
  exact ⟨hx, by decide, by decide, slots_accounted hx⟩

end Client

end Arena

end Fexpr
