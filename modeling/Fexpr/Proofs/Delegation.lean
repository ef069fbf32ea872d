import Fexpr.Proofs.Evaluation
import Fexpr.Proofs.WellMade

/-!
# Proofs/Delegation — objects delegate lawfully and without cycles

A prototype is older than the objects that extend it, so every chain of prototypes ends and runs into
nothing twice (`Delegates`).  A slot is the own slot of the first object of the chain that has one
(`Unshadowed`), and writing one changes what is found exactly where the search for it comes to the
object that was written (`Written`).
-/

namespace Fexpr

theorem findSome?_congr {α β : Type} {f g : α → Option β} {xs : List α}
    (h : ∀ x ∈ xs, f x = g x) : xs.findSome? f = xs.findSome? g := by
  induction xs with
  | nil => rfl
  | cons x xs ih =>
    rw [List.findSome?_cons, List.findSome?_cons, h x List.mem_cons_self,
      ih fun y hy => h y (List.mem_cons_of_mem x hy)]

namespace Store

/-- An object's own slot. -/
def own? (st : Store) (o : ObjectId) (k : String) : Option Value :=
  (st.object o).slots[k]?

/-- **The object, its prototype and so on**, up to one that has none. -/
inductive Delegates (st : Store) : ObjectId → List ObjectId → Prop
  | last {o : ObjectId} : (st.object o).prototype = none → Delegates st o [o]
  | step {o proto : ObjectId} {os : List ObjectId} : (st.object o).prototype = some proto →
      Delegates st proto os → Delegates st o (o :: os)

/-- **A search for a slot along a chain comes to `p`**: no object before it has one. -/
def Unshadowed (st : Store) (os : List ObjectId) (k : String) (p : ObjectId) : Prop :=
  ∃ before after, os = before ++ p :: after ∧ ∀ q ∈ before, st.own? q k = none

/-- **What writing a slot of `p` does**: it is found wherever a search for it comes to `p`, and all
other slots are as they were. -/
structure Written (st : Store) (p : ObjectId) (k : String) (v : Value) (st' : Store) : Prop where
  size : st'.objects.size = st.objects.size
  chain : ∀ o os, st.Delegates o os → st'.Delegates o os
  found : ∀ o < st.objects.size, ∀ os, st.Delegates o os → st.Unshadowed os k p →
    st'.slot? o k = some v
  other : ∀ o < st.objects.size, ∀ os, st.Delegates o os → ∀ k',
    ¬(k' = k ∧ st.Unshadowed os k p) → st'.slot? o k' = st.slot? o k'

/-- **Objects delegate lawfully.** -/
structure Lawful (st : Store) : Prop where
  chain : ∀ o < st.objects.size, ∃ os, st.Delegates o os ∧ os.Nodup ∧
    ∀ p ∈ os, p < st.objects.size
  slot : ∀ o < st.objects.size, ∀ os, st.Delegates o os → ∀ k,
    (∀ v, st.slot? o k = some v ↔ ∃ p, st.Unshadowed os k p ∧ st.own? p k = some v) ∧
      (st.slot? o k = none ↔ ∀ p ∈ os, st.own? p k = none)
  write : ∀ p < st.objects.size, ∀ k v, st.Written p k v (st.setSlot p k v)

/-! ## Chains -/

variable {st : Store} {o p : ObjectId} {os : List ObjectId} {k k' : String} {v : Value}

section Chains

variable (holder : ∀ id proto, (st.object id).prototype = some proto → proto < id)

include holder

/-- **Every chain ends**, since it goes to older objects only. -/
theorem exists_delegates (o : ObjectId) : ∃ os, st.Delegates o os := by
  induction o using Nat.strong_induction_on with
  | _ o ih =>
    cases hproto : (st.object o).prototype with
    | none => exact ⟨[o], .last hproto⟩
    | some proto =>
      obtain ⟨os, hos⟩ := ih proto (holder o proto hproto)
      exact ⟨o :: os, .step hproto hos⟩

theorem Delegates.le (h : st.Delegates o os) (hp : p ∈ os) : p ≤ o := by
  induction h with
  | last => exact (List.mem_singleton.mp hp).le
  | @step o proto os hproto _ ih =>
    rcases List.mem_cons.mp hp with rfl | hp
    · exact le_rfl
    · exact (ih hp).trans (holder o proto hproto).le

theorem Delegates.nodup (h : st.Delegates o os) : os.Nodup := by
  induction h with
  | last => exact List.nodup_singleton _
  | @step o proto os hproto h ih =>
    refine List.nodup_cons.mpr ⟨fun hmem => ?_, ih⟩
    exact absurd (h.le holder hmem) (Nat.not_le_of_lt (holder o proto hproto))

theorem Delegates.length_le (h : st.Delegates o os) : os.length ≤ o + 1 := by
  induction h with
  | last => exact Nat.succ_le_succ (Nat.zero_le _)
  | @step o proto os hproto _ ih =>
    exact Nat.succ_le_succ (ih.trans (holder o proto hproto))

omit holder in
theorem Delegates.prototypesFrom_eq (h : st.Delegates o os) {n : Nat} (hn : os.length ≤ n) :
    st.prototypesFrom n o = os := by
  induction h generalizing n with
  | last hproto =>
    obtain ⟨n, rfl⟩ := Nat.exists_eq_add_of_le' hn
    simp [prototypesFrom, hproto]
  | step hproto _ ih =>
    obtain ⟨n, rfl⟩ := Nat.exists_eq_add_of_le' (Nat.le_of_add_left_le hn)
    simp only [prototypesFrom, hproto]
    rw [ih (Nat.le_of_succ_le_succ hn)]

/-- **The prototypes that are looked at are all there are.** -/
theorem Delegates.prototypes_eq (h : st.Delegates o os) (ho : o < st.objects.size) :
    st.prototypes o = os :=
  h.prototypesFrom_eq ((h.length_le holder).trans ho)

theorem Delegates.slot?_eq (h : st.Delegates o os) (ho : o < st.objects.size) (k : String) :
    st.slot? o k = os.findSome? fun p => st.own? p k := by
  rw [slot?, h.prototypes_eq holder ho]
  rfl

/-- **A slot is the own slot of the first object of the chain that has one.** -/
theorem Delegates.slot?_eq_some_iff (h : st.Delegates o os) (ho : o < st.objects.size) :
    st.slot? o k = some v ↔ ∃ p, st.Unshadowed os k p ∧ st.own? p k = some v := by
  rw [h.slot?_eq holder ho, List.findSome?_eq_some_iff]
  constructor
  · rintro ⟨before, p, after, hos, hv, hbefore⟩
    exact ⟨p, ⟨before, after, hos, hbefore⟩, hv⟩
  · rintro ⟨p, ⟨before, after, hos, hbefore⟩, hv⟩
    exact ⟨before, p, after, hos, hv, hbefore⟩

theorem Delegates.slot?_eq_none_iff (h : st.Delegates o os) (ho : o < st.objects.size) :
    st.slot? o k = none ↔ ∀ p ∈ os, st.own? p k = none := by
  rw [h.slot?_eq holder ho, List.findSome?_eq_none_iff]

end Chains

/-! ## Writing -/

theorem own?_setSlot (hp : p < st.objects.size) (k : String) (v : Value) (q : ObjectId)
    (k' : String) :
    (st.setSlot p k v).own? q k' = if q = p ∧ k' = k then some v else st.own? q k' := by
  simp only [own?, object, setSlot, getD_modify hp]
  by_cases hq : q = p
  · simp only [hq, if_true, Std.ExtTreeMap.getElem?_insert, Std.LawfulEqCmp.compare_eq_iff_eq,
      true_and, eq_comm (a := k)]
  · simp only [hq, if_false, false_and]

theorem Delegates.setSlot (h : st.Delegates o os) (p : ObjectId) (k : String) (v : Value) :
    (st.setSlot p k v).Delegates o os := by
  induction h with
  | @last o hproto => exact .last ((prototype_setSlot st p k v o).trans hproto)
  | @step o _ _ hproto _ ih => exact .step ((prototype_setSlot st p k v o).trans hproto) ih

theorem written_setSlot (holder : ∀ id proto, (st.object id).prototype = some proto → proto < id)
    (hp : p < st.objects.size) (k : String) (v : Value) :
    st.Written p k v (st.setSlot p k v) := by
  have hsize : (st.setSlot p k v).objects.size = st.objects.size := Array.size_modify
  have holder' : ∀ id proto, ((st.setSlot p k v).object id).prototype = some proto → proto < id :=
    fun id proto hproto => holder id proto (prototype_setSlot st p k v id ▸ hproto)
  -- objects other than `p` have the slots they had
  have hsame : ∀ {qs : List ObjectId}, p ∉ qs → ∀ q ∈ qs, ∀ k',
      (st.setSlot p k v).own? q k' = st.own? q k' := by
    intro qs hqs q hq k'
    rw [own?_setSlot hp, if_neg]
    exact fun hqp => hqs (hqp.1 ▸ hq)
  refine ⟨hsize, fun o os h => h.setSlot p k v, fun o ho os h hfound => ?_,
    fun o ho os h k' hother => ?_⟩
  · rw [(h.setSlot p k v).slot?_eq_some_iff holder' (hsize ▸ ho)]
    obtain ⟨before, after, rfl, hbefore⟩ := hfound
    have hnot : p ∉ before := fun hmem =>
      List.disjoint_of_nodup_append (h.nodup holder) hmem List.mem_cons_self
    refine ⟨p, ⟨before, after, rfl, fun q hq => ?_⟩, ?_⟩
    · rw [hsame hnot q hq, hbefore q hq]
    · rw [own?_setSlot hp, if_pos ⟨rfl, rfl⟩]
  · rw [(h.setSlot p k v).slot?_eq holder' (hsize ▸ ho), h.slot?_eq holder ho]
    by_cases hk : k' = k
    · subst hk
      by_cases hmem : p ∈ os
      · -- the search stops before it comes to `p`
        obtain ⟨before, after, rfl⟩ := List.append_of_mem hmem
        have hnot : p ∉ before := fun hmem =>
          List.disjoint_of_nodup_append (h.nodup holder) hmem List.mem_cons_self
        have hbefore : before.findSome? (fun q => st.own? q k') ≠ none := fun hnone =>
          hother ⟨rfl, before, after, rfl, List.findSome?_eq_none_iff.mp hnone⟩
        rw [List.findSome?_append, List.findSome?_append,
          findSome?_congr fun q hq => hsame hnot q hq k']
        cases hw : before.findSome? (fun q => st.own? q k') with
        | none => exact absurd hw hbefore
        | some w => rfl
      · exact findSome?_congr fun q hq => hsame hmem q hq k'
    · refine findSome?_congr fun q _ => ?_
      rw [own?_setSlot hp, if_neg]
      exact fun hqk => hk hqk.2

/-- **Where prototypes are older, objects delegate lawfully.** -/
theorem lawful (holder : ∀ id proto, (st.object id).prototype = some proto → proto < id) :
    st.Lawful where
  chain o ho := by
    obtain ⟨os, hos⟩ := exists_delegates holder o
    exact ⟨os, hos, hos.nodup holder, fun p hp => (hos.le holder hp).trans_lt ho⟩
  slot _ ho _ hos _ :=
    ⟨fun _ => hos.slot?_eq_some_iff holder ho, hos.slot?_eq_none_iff holder ho⟩
  write _ hp k v := written_setSlot holder hp k v

end Store

/-! ## Reading and writing slots in a run -/

/-- **What reading a slot of an object answers**: its value, with a method bound to the object that
was asked, whichever object of the chain the method is in. -/
def Slot.answer (o : ObjectId) (k : String) (s : State) : Outcome RunError Value :=
  match s.store.slot? o k with
  | some (.method f) =>
    .ok (.boundMethod s.store.nextTag f (.object o)) { s with store := s.store.freshTag.2 }
  | some v => .ok v s
  | none => .error (.misuse "get" (.noSlot k)) s

section

variable {r : Evaluator} {target key value : Node} {scope : ScopeId} {cfg : Config}
  {s t u x : State} {o : ObjectId} {k : String} {v : Value}

theorem Slot.read_object (hkey : Slot.nameOf r "get" key scope cfg t = .ok k u) :
    Slot.read r (.object o) key scope cfg t = Slot.answer o k u := by
  rw [Slot.read, Eval.bind_apply, hkey]
  dsimp only
  rw [Eval.bind_apply, Slot.answer]
  dsimp only [Eval.gets]
  cases u.store.slot? o k with
  | none => rfl
  | some v => cases v <;> rfl

theorem Primitive.get_object (htarget : r.eval target scope cfg s = .ok (.object o) t)
    (hkey : Slot.nameOf r "get" key scope cfg t = .ok k u) :
    Builtin.run r .get (.pair target (.pair key .nil)) scope cfg s = Slot.answer o k u := by
  change (r.eval target scope >>= fun v => Slot.read r v key scope) cfg s = _
  rw [Eval.bind_apply, htarget]
  exact Slot.read_object hkey

theorem Primitive.set_object (htarget : r.eval target scope cfg s = .ok (.object o) t)
    (hkey : Slot.nameOf r "set" key scope cfg t = .ok k u)
    (hvalue : r.eval value scope cfg u = .ok v x) :
    Builtin.run r .set (.pair target (.pair key (.pair value .nil))) scope cfg s =
      .ok v { x with store := x.store.setSlot o k v } := by
  change (r.eval target scope >>= fun v => Slot.write r v key value scope) cfg s = _
  rw [Eval.bind_apply, htarget]
  change (Slot.nameOf r "set" key scope >>= fun _ => _) cfg t = _
  rw [Eval.bind_apply, hkey]
  change (r.eval value scope >>= fun _ => _) cfg u = _
  rw [Eval.bind_apply, hvalue]
  rfl

end

/-- **Objects delegate lawfully**, in every state that programs make: chains of prototypes end and
run into nothing twice, a slot is that of the first object of the chain that has one, and writing a
slot changes what is found where the search comes to the object that was written.  So it is in the
states that reading and writing a slot come to when their arguments have been evaluated, whatever
that has done to the objects. -/
theorem objects_delegate_lawfully {s : State} (hs : Attainable s) :
    s.store.Lawful ∧
      ∀ (fuel : Nat) (cfg : Config) (scope : ScopeId) (target key value : Node) (o : ObjectId)
        (t u : State) (k : String), target.Within s.ledger → key.Within s.ledger →
        value.Within s.ledger →
        (Evaluator.ofFuel fuel).eval target scope cfg s = .ok (.object o) t →
        (Slot.nameOf (.ofFuel fuel) "get" key scope cfg t = .ok k u →
          u.store.Lawful ∧ o < u.store.objects.size ∧
            Builtin.run (.ofFuel fuel) .get (.pair target (.pair key .nil)) scope cfg s =
              Slot.answer o k u) ∧
        (Slot.nameOf (.ofFuel fuel) "set" key scope cfg t = .ok k u →
          ∀ v x, (Evaluator.ofFuel fuel).eval value scope cfg u = .ok v x →
            ∃ y, Builtin.run (.ofFuel fuel) .set (.pair target (.pair key (.pair value .nil))) scope
                cfg s = .ok v y ∧
              o < x.store.objects.size ∧ x.store.Written o k v y.store ∧ y.store.Lawful) := by
  have hwell := hs.wellMade
  refine ⟨Store.lawful hwell.older, fun fuel cfg scope target key value o t u k htarget hkey hvalue
    heval => ?_⟩
  have hagree := Making.agree_ofFuel fuel
  obtain ⟨hst, ho⟩ := Making.Makes.of_ok (hagree.eval s scope htarget) hwell heval
  have hname : ∀ procedure, Slot.nameOf (.ofFuel fuel) procedure key scope cfg t = .ok k u →
      t.Makes u := fun procedure h =>
    (Making.Makes.of_ok (Comparison.nameOf (w := t) hagree (hkey.mono hst.more))
      hst.wellMade h).1
  refine ⟨fun hk => ?_, fun hk v x hv => ?_⟩
  · have htu := hname "get" hk
    exact ⟨Store.lawful htu.wellMade.older, Census.object_mono htu.more ho,
      Primitive.get_object heval hk⟩
  · have htu := hname "set" hk
    have hux := (Making.Makes.of_ok
      (hagree.eval u scope (hvalue.mono (hst.more.trans htu.more))) htu.wellMade hv).1
    have hox : o < x.store.objects.size := Census.object_mono (htu.more.trans hux.more) ho
    refine ⟨_, Primitive.set_object heval hk hv, hox,
      Store.written_setSlot hux.wellMade.older hox k v, ?_⟩
    exact Store.lawful fun id proto hproto =>
      hux.wellMade.older id proto (Store.prototype_setSlot x.store o k v id ▸ hproto)

/-- An object with a method and one that extends it. -/
def State.derived : State :=
  (Program.runUnder (.until (fun _ _ => false) 40)
    "(base = (object a:1 m:(md - @a))) (derived = (extend base b:20))" Arena.root {} .initial).state

/-- The method of the prototype is bound to the object that was asked, and a slot that both have is
written in the one that was asked. -/
theorem derived_delegates_lawfully :
    State.derived.store.prototypes 1 = [1, 0] ∧ State.derived.store.Lawful ∧
      State.derived.store.slot? 1 "m" = some (.method 0) ∧
      Builtin.run (.ofFuel 1) .get (.spine [.identifier "derived", .identifier "m"] .nil) Arena.root
        {} .derived = Slot.answer 1 "m" .derived ∧
      ∃ t, Builtin.run (.ofFuel 1) .set
          (.spine [.identifier "derived", .identifier "a", .numeral 7] .nil) Arena.root {} .derived
            = .ok (.integer 7) t ∧
        State.derived.store.Written 1 "a" (.integer 7) t.store := by
  have hs : Attainable .derived := .run _ 40 _ Arena.root {} .initial
  obtain ⟨hdepth, hchain, hobject, hslot⟩ : State.derived.depth < 512 ∧
      State.derived.store.prototypes 1 = [1, 0] ∧
      (State.derived.arena.get? Arena.root "derived").any (· == .object 1) ∧
      (State.derived.store.slot? 1 "m").any (· == .method 0) := by
    decide +kernel
  have hget : State.derived.arena.get? Arena.root "derived" = some (.object 1) :=
    Value.eq_some_of_any hobject trivial
  have hmethod : State.derived.store.slot? 1 "m" = some (.method 0) :=
    Value.eq_some_of_any hslot trivial
  have htarget : (Evaluator.ofFuel 1).eval (.identifier "derived") Arena.root {} .derived =
      .ok (.object 1) .derived := Evaluator.eval_identifier hdepth hget
  obtain ⟨hlawful, hrun⟩ := objects_delegate_lawfully hs
  obtain ⟨-, -, hread⟩ := (hrun 1 {} Arena.root (.identifier "derived") (.identifier "m") .nil 1
    .derived .derived "m" trivial trivial trivial htarget).1 rfl
  obtain ⟨t, hwrite, -, hwritten, -⟩ := (hrun 1 {} Arena.root (.identifier "derived")
    (.identifier "a") (.numeral 7) 1 .derived .derived "a" trivial trivial trivial htarget).2 rfl _ _
    (Evaluator.eval_numeral hdepth 7)
  exact ⟨hchain, hlawful, hmethod, hread, t, hwrite, hwritten⟩

end Fexpr
