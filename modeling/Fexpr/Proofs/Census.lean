import Fexpr.Eval.Arguments
import Fexpr.Proofs.Dictionary
import Mathlib.Order.Basic

/-!
# Proofs/Census — which numbers a value may mention

A value, a pattern or a node names closures, objects, dictionaries and promises by number, and a
closure or a promise names a scope.  A **census** says which numbers name something, and `Within`
that a thing mentions no others.  A larger census has more of everything within it
(`Value.Within.mono`); in the census of all numbers everything is (`Value.within_all`), so what is
proved for things within a census holds of all things when no census is wanted.

A census may also ask that patterns and dictionaries are **well made**, as those are that a program
makes: patterns in normal form (`Pattern.WellMade`), and the keys of a dictionary unequal.
-/

namespace Fexpr

/-- **A pattern in normal form**, as far as its outermost layer goes: a list pattern has cars and is
flat, and what is asked for a predicate can be called and has no default below it. -/
def Pattern.WellMade : Pattern → Prop
  | .cons cars tail => cars ≠ [] ∧ ∀ more rest, tail ≠ .cons more rest
  | .predicated base predicate =>
    (∀ inner fallback, base ≠ .defaulted inner fallback) ∧ predicate.isCallable
  | _ => True

/-- **Which numbers name something**, one predicate for each kind of number. -/
structure Census where
  closure : ClosureId → Prop
  object : ObjectId → Prop
  dictionary : DictionaryId → Prop
  promise : PromiseId → Prop
  /-- The scopes that a closure or a promise may hold on to. -/
  scope : ScopeId → Prop
  /-- Whether patterns and dictionaries have to be well made. -/
  wellMade : Prop

namespace Census

/-- The census of all numbers, which asks nothing. -/
def all : Census :=
  ⟨fun _ => True, fun _ => True, fun _ => True, fun _ => True, fun _ => True, False⟩

/-- A census grows kind by kind, and may ask for less. -/
instance : Preorder Census where
  le N M := (∀ n, N.closure n → M.closure n) ∧ (∀ n, N.object n → M.object n) ∧
    (∀ n, N.dictionary n → M.dictionary n) ∧ (∀ n, N.promise n → M.promise n) ∧
    (∀ n, N.scope n → M.scope n) ∧ (M.wellMade → N.wellMade)
  le_refl _ := ⟨fun _ => id, fun _ => id, fun _ => id, fun _ => id, fun _ => id, id⟩
  le_trans _ _ _ h k :=
    ⟨fun n hn => k.1 n (h.1 n hn), fun n hn => k.2.1 n (h.2.1 n hn),
      fun n hn => k.2.2.1 n (h.2.2.1 n hn), fun n hn => k.2.2.2.1 n (h.2.2.2.1 n hn),
      fun n hn => k.2.2.2.2.1 n (h.2.2.2.2.1 n hn), fun hm => h.2.2.2.2.2 (k.2.2.2.2.2 hm)⟩

variable {N M : Census}

theorem le_all : N ≤ all :=
  ⟨fun _ _ => trivial, fun _ _ => trivial, fun _ _ => trivial, fun _ _ => trivial,
    fun _ _ => trivial, False.elim⟩

theorem closure_mono (h : N ≤ M) {n : ClosureId} : N.closure n → M.closure n := h.1 n

theorem object_mono (h : N ≤ M) {n : ObjectId} : N.object n → M.object n := h.2.1 n

theorem dictionary_mono (h : N ≤ M) {n : DictionaryId} : N.dictionary n → M.dictionary n :=
  h.2.2.1 n

theorem promise_mono (h : N ≤ M) {n : PromiseId} : N.promise n → M.promise n := h.2.2.2.1 n

theorem scope_mono (h : N ≤ M) {n : ScopeId} : N.scope n → M.scope n := h.2.2.2.2.1 n

theorem wellMade_mono (h : N ≤ M) : M.wellMade → N.wellMade := h.2.2.2.2.2

end Census

/-! ## Values and patterns -/

mutual

/-- **A value mentions only numbers of the census.** -/
def Value.Within (N : Census) : Value → Prop
  | .pair car cdr => car.Within N ∧ cdr.Within N
  | .curried _ callee args => callee.Within N ∧ args.Within N
  | .function c | .method c => N.closure c
  | .boundMethod _ c receiver => N.closure c ∧ receiver.Within N
  | .multiFunction _ alternatives => ∀ c ∈ alternatives, N.closure c
  | .pattern p => p.Within N
  | .object id => N.object id
  | .dictionary id => N.dictionary id
  | .promise id => N.promise id
  | _ => True

/-- **A pattern asks only for values within the census**, and is well made if it has to be. -/
def Pattern.Within (N : Census) : Pattern → Prop
  | .value v => v.Within N
  | .cons cars tail => Pattern.AllWithin N cars ∧ tail.Within N ∧
    (N.wellMade → (Pattern.cons cars tail).WellMade)
  | .predicated base v => base.Within N ∧ v.Within N ∧
    (N.wellMade → (Pattern.predicated base v).WellMade)
  | .defaulted base v => base.Within N ∧ v.Within N
  | .aliased p q => p.Within N ∧ q.Within N
  | _ => True

/-- The patterns of a list, one by one. -/
def Pattern.AllWithin (N : Census) : List Pattern → Prop
  | [] => True
  | p :: ps => p.Within N ∧ Pattern.AllWithin N ps

end

mutual

theorem Value.Within.mono {N M : Census} (h : N ≤ M) : {v : Value} → v.Within N → v.Within M
  | .pair _ _, hv => ⟨hv.1.mono h, hv.2.mono h⟩
  | .curried _ _ _, hv => ⟨hv.1.mono h, hv.2.mono h⟩
  | .function _, hv => Census.closure_mono h hv
  | .method _, hv => Census.closure_mono h hv
  | .boundMethod _ _ _, hv => ⟨Census.closure_mono h hv.1, hv.2.mono h⟩
  | .multiFunction _ _, hv => fun c hc => Census.closure_mono h (hv c hc)
  | .pattern _, hv => Pattern.Within.mono h hv
  | .object _, hv => Census.object_mono h hv
  | .dictionary _, hv => Census.dictionary_mono h hv
  | .promise _, hv => Census.promise_mono h hv
  | .nil, _ | .void, _ | .integer _, _ | .bool _, _ | .symbol _, _ | .builtin _, _ => trivial

theorem Pattern.Within.mono {N M : Census} (h : N ≤ M) : {p : Pattern} → p.Within N → p.Within M
  | .value _, hp => Value.Within.mono h hp
  | .cons _ _, hp => ⟨Pattern.AllWithin.mono h hp.1, hp.2.1.mono h,
    fun hm => hp.2.2 (Census.wellMade_mono h hm)⟩
  | .predicated _ _, hp => ⟨hp.1.mono h, hp.2.1.mono h,
    fun hm => hp.2.2 (Census.wellMade_mono h hm)⟩
  | .defaulted _ _, hp => ⟨hp.1.mono h, hp.2.mono h⟩
  | .aliased _ _, hp => ⟨hp.1.mono h, hp.2.mono h⟩
  | .identifier _, _ | .defaultArguments, _ => trivial

theorem Pattern.AllWithin.mono {N M : Census} (h : N ≤ M) :
    {ps : List Pattern} → Pattern.AllWithin N ps → Pattern.AllWithin M ps
  | [], _ => trivial
  | _ :: _, hps => ⟨hps.1.mono h, Pattern.AllWithin.mono h hps.2⟩

end

mutual

/-- **Every value is within the census of all numbers.** -/
theorem Value.within_all : (v : Value) → v.Within Census.all
  | .pair car cdr => ⟨car.within_all, cdr.within_all⟩
  | .curried _ callee args => ⟨callee.within_all, args.within_all⟩
  | .function _ | .method _ => trivial
  | .boundMethod _ _ receiver => ⟨trivial, receiver.within_all⟩
  | .multiFunction _ _ => fun _ _ => trivial
  | .pattern p => p.within_all
  | .object _ | .dictionary _ | .promise _ => trivial
  | .nil | .void | .integer _ | .bool _ | .symbol _ | .builtin _ => trivial

theorem Pattern.within_all : (p : Pattern) → p.Within Census.all
  | .value v => v.within_all
  | .cons cars tail => ⟨Pattern.allWithin_all cars, tail.within_all, False.elim⟩
  | .predicated base v => ⟨base.within_all, v.within_all, False.elim⟩
  | .defaulted base v => ⟨base.within_all, v.within_all⟩
  | .aliased p q => ⟨p.within_all, q.within_all⟩
  | .identifier _ | .defaultArguments => trivial

theorem Pattern.allWithin_all : (ps : List Pattern) → Pattern.AllWithin Census.all ps
  | [] => trivial
  | p :: ps => ⟨p.within_all, Pattern.allWithin_all ps⟩

end

theorem Pattern.allWithin_append {N : Census} {ps qs : List Pattern}
    (hps : Pattern.AllWithin N ps) (hqs : Pattern.AllWithin N qs) :
    Pattern.AllWithin N (ps ++ qs) := by
  induction ps with
  | nil => exact hqs
  | cons p ps ih => exact ⟨hps.1, ih hps.2⟩

theorem Pattern.within_chain {N : Census} {cars : List Pattern} {tail : Pattern}
    (hcars : Pattern.AllWithin N cars) (htail : tail.Within N) :
    (Pattern.chain cars tail).Within N := by
  rw [Pattern.chain.eq_def]
  split
  · exact htail
  · next more tail hne =>
    refine ⟨Pattern.allWithin_append hcars htail.1, htail.2.1, fun hm => ?_⟩
    exact ⟨fun hnil => hne (List.append_eq_nil_iff.mp hnil).1, (htail.2.2 hm).2⟩
  · next hne hflat => exact ⟨hcars, htail, fun _ => ⟨hne, hflat⟩⟩

section

variable {N : Census}

/-- The elements of a chain are within, and so is its end. -/
theorem Value.Within.elements : {v : Value} → v.Within N →
    (∀ u ∈ v.elements.1, u.Within N) ∧ v.elements.2.Within N
  | .pair _ _, hv => by
    obtain ⟨hcdr, hend⟩ := Value.Within.elements hv.2
    refine ⟨fun u hu => ?_, hend⟩
    rcases List.mem_cons.mp hu with rfl | hu
    · exact hv.1
    · exact hcdr u hu
  | .nil, hv | .void, hv | .integer _, hv | .bool _, hv | .symbol _, hv | .builtin _, hv
  | .curried .., hv | .function _, hv | .method _, hv | .boundMethod .., hv
  | .multiFunction .., hv | .pattern _, hv | .object _, hv | .dictionary _, hv
  | .promise _, hv => ⟨fun _ hu => absurd hu List.not_mem_nil, hv⟩

theorem Value.within_ofList {items : List Value} (h : ∀ u ∈ items, u.Within N) :
    (Value.ofList items).Within N := by
  induction items with
  | nil => exact trivial
  | cons v items ih =>
    exact ⟨h v List.mem_cons_self, ih fun u hu => h u (List.mem_cons_of_mem v hu)⟩

end

/-! ## Nodes -/

/-- **A node carries only values within the census.** -/
def Node.Within (N : Census) : Node → Prop
  | .pair car cdr | .form car cdr => car.Within N ∧ cdr.Within N
  | .value _ v => v.Within N
  | _ => True

namespace Node

variable {N M : Census}

theorem Within.mono (h : N ≤ M) : {node : Node} → node.Within N → node.Within M
  | .pair _ _, hn => ⟨hn.1.mono h, hn.2.mono h⟩
  | .form _ _, hn => ⟨hn.1.mono h, hn.2.mono h⟩
  | .value _ _, hn => Value.Within.mono h hn
  | .nil, _ | .identifier _, _ | .numeral _, _ | .symbol _, _ => trivial

theorem within_all : (node : Node) → node.Within Census.all
  | .pair car cdr => ⟨car.within_all, cdr.within_all⟩
  | .form car cdr => ⟨car.within_all, cdr.within_all⟩
  | .value _ v => v.within_all
  | .nil | .identifier _ | .numeral _ | .symbol _ => trivial

theorem Within.split {node car cdr : Node} (h : node.Within N) (hs : node.split = some (car, cdr)) :
    car.Within N ∧ cdr.Within N := by
  cases node with
  | pair a b => cases hs; exact h
  | form a b => cases hs; exact h
  | _ => cases hs

/-- The elements of a spine are within, and so is its end. -/
theorem Within.elements : {node : Node} → node.Within N →
    (∀ n ∈ node.elements.1, n.Within N) ∧ node.elements.2.Within N
  | .pair _ _, hn => by
    obtain ⟨hcdr, hend⟩ := Within.elements hn.2
    refine ⟨fun n hmem => ?_, hend⟩
    rcases List.mem_cons.mp hmem with rfl | hmem
    · exact hn.1
    · exact hcdr n hmem
  | .nil, hn | .form .., hn | .identifier _, hn | .numeral _, hn | .symbol _, hn
  | .value .., hn => ⟨fun _ hmem => absurd hmem List.not_mem_nil, hn⟩

theorem within_spine {items : List Node} {tail : Node} (h : ∀ n ∈ items, n.Within N)
    (ht : tail.Within N) : (spine items tail).Within N := by
  induction items with
  | nil => exact ht
  | cons n items ih =>
    exact ⟨h n List.mem_cons_self, ih fun m hm => h m (List.mem_cons_of_mem n hm)⟩

theorem within_quoteds {vs : List Value} (h : ∀ v ∈ vs, v.Within N) :
    ∀ n ∈ vs.map quoted, n.Within N := by
  intro n hn
  obtain ⟨v, hv, rfl⟩ := List.mem_map.mp hn
  exact h v hv

theorem within_quote {args : Value} (h : args.Within N) : (quote args).Within N := by
  refine within_spine (within_quoteds h.elements.1) ?_
  have hend := h.elements.2
  split
  · exact trivial
  · exact hend

theorem within_quoteBefore {args : Value} {rest : Node} (h : args.Within N) (hr : rest.Within N) :
    (quoteBefore args rest).Within N := by
  refine within_spine (within_quoteds h.elements.1) ?_
  have hend := h.elements.2
  split
  · exact hr
  · exact hend

/-! ## Arguments -/

theorem Within.argument {arg a : Node} {procedure : String} (h : arg.Within N)
    (ha : arg.argument procedure = .ok a) : a.Within N := by
  rw [Node.argument.eq_def] at ha
  split at ha
  · cases ha
    exact h.1
  · cases ha

theorem Within.twoArguments {arg : Node} {procedure : String} {p : Node × Node} (h : arg.Within N)
    (hp : arg.twoArguments procedure = .ok p) : p.1.Within N ∧ p.2.Within N := by
  rw [Node.twoArguments.eq_def] at hp
  split at hp
  · cases hp
    exact ⟨h.1, h.2.1⟩
  · cases hp

theorem Within.threeArguments {arg : Node} {procedure : String} {p : Node × Node × Node}
    (h : arg.Within N) (hp : arg.threeArguments procedure = .ok p) :
    p.1.Within N ∧ p.2.1.Within N ∧ p.2.2.Within N := by
  rw [Node.threeArguments.eq_def] at hp
  split at hp
  · cases hp
    exact ⟨h.1, h.2.1, h.2.2.1⟩
  · cases hp

end Node

/-! ## Records -/

/-- Names are bound to values within the census. -/
def Bindings.Within (N : Census) (b : Bindings) : Prop :=
  ∀ (name : String) (v : Value), b[name]? = some v → v.Within N

def Closure.Within (N : Census) (c : Closure) : Prop :=
  c.pattern.Within N ∧ (∀ form ∈ c.body, form.Within N) ∧ N.scope c.scope

def Object.Within (N : Census) (o : Object) : Prop :=
  Bindings.Within N o.slots ∧ ∀ proto ∈ o.prototype, N.object proto

def Dictionary.Within (N : Census) (d : Dictionary) : Prop :=
  (∀ entry ∈ d.entries, entry.1.Within N ∧ entry.2.Within N) ∧ Bindings.Within N d.attributes ∧
    (N.wellMade → d.WellMade)

def Promise.Within (N : Census) : Promise → Prop
  | .pending node scope => node.Within N ∧ N.scope scope
  | .forcing => True
  | .forced v => v.Within N

/-- **What the frames hold is within the census.** -/
def Arena.Within (N : Census) (a : Arena) : Prop :=
  ∀ u, Bindings.Within N (a.frame u).bindings

/-- **What the records hold is within the census**, as far as the census counts them. -/
structure Store.Within (N : Census) (st : Store) : Prop where
  closure : ∀ id, N.closure id → (st.closure id).Within N
  object : ∀ id, N.object id → (st.object id).Within N
  dictionary : ∀ id, N.dictionary id → (st.dictionary id).Within N
  promise : ∀ id, N.promise id → (st.promise id).Within N

section

variable {N M : Census}

theorem Bindings.Within.mono (h : N ≤ M) {b : Bindings} (hb : Bindings.Within N b) :
    Bindings.Within M b := fun name v hv => (hb name v hv).mono h

theorem Bindings.within_empty : Bindings.Within N ∅ := fun name v hv => by
  simp at hv

theorem Bindings.within_insert {b : Bindings} {name : String} {v : Value}
    (hb : Bindings.Within N b) (hv : v.Within N) : Bindings.Within N (b.insert name v) := by
  intro name' w hw
  rw [Std.ExtTreeMap.getElem?_insert] at hw
  split at hw
  · cases hw
    exact hv
  · exact hb name' w hw

theorem Closure.Within.mono (h : N ≤ M) {c : Closure} (hc : c.Within N) : c.Within M :=
  ⟨hc.1.mono h, fun form hf => (hc.2.1 form hf).mono h, Census.scope_mono h hc.2.2⟩

theorem Object.Within.mono (h : N ≤ M) {o : Object} (ho : o.Within N) : o.Within M :=
  ⟨ho.1.mono h, fun proto hp => Census.object_mono h (ho.2 proto hp)⟩

theorem Dictionary.Within.mono (h : N ≤ M) {d : Dictionary} (hd : d.Within N) : d.Within M :=
  ⟨fun entry he => ⟨(hd.1 entry he).1.mono h, (hd.1 entry he).2.mono h⟩, hd.2.1.mono h,
    fun hm => hd.2.2 (Census.wellMade_mono h hm)⟩

theorem Promise.Within.mono (h : N ≤ M) {p : Promise} (hp : p.Within N) : p.Within M := by
  cases p with
  | pending node scope => exact ⟨hp.1.mono h, Census.scope_mono h hp.2⟩
  | forcing => exact trivial
  | forced v => exact Value.Within.mono h hp

theorem Dictionary.within_empty : ({} : Dictionary).Within N :=
  ⟨fun _ he => absurd he List.not_mem_nil, Bindings.within_empty, fun _ => wellMade_empty⟩

theorem Dictionary.within_insertEntry {key v : Value} (hk : key.Within N) (hv : v.Within N)
    {entries : List (Value × Value)} (h : ∀ e ∈ entries, e.1.Within N ∧ e.2.Within N) :
    ∀ e ∈ Dictionary.insertEntry key v entries, e.1.Within N ∧ e.2.Within N := by
  induction entries with
  | nil =>
    intro e he
    rw [Dictionary.insertEntry, List.mem_singleton] at he
    exact he ▸ ⟨hk, hv⟩
  | cons e₀ entries ih =>
    obtain ⟨k, w⟩ := e₀
    have hkw := h (k, w) List.mem_cons_self
    have htail : ∀ e ∈ entries, e.1.Within N ∧ e.2.Within N := fun e he =>
      h e (List.mem_cons_of_mem _ he)
    intro e he
    rw [Dictionary.insertEntry] at he
    split at he
    · rcases List.mem_cons.mp he with rfl | he
      · exact ⟨hkw.1, hv⟩
      · exact htail e he
    · rcases List.mem_cons.mp he with rfl | he
      · exact hkw
      · exact ih htail e he

theorem Dictionary.Within.insert {d : Dictionary} {key v : Value} (hd : d.Within N)
    (hk : key.Within N) (hv : v.Within N) : (d.insert key v).Within N :=
  ⟨Dictionary.within_insertEntry hk hv hd.1, hd.2.1, fun hm => (hd.2.2 hm).insert key v⟩

theorem Dictionary.Within.setAttribute {d : Dictionary} {name : String} {v : Value}
    (hd : d.Within N) (hv : v.Within N) : (d.setAttribute name v).Within N :=
  ⟨hd.1, Bindings.within_insert hd.2.1 hv, hd.2.2⟩

theorem Dictionary.Within.get? {d : Dictionary} {key v : Value} (hd : d.Within N)
    (hv : d.get? key = some v) : v.Within N := by
  rw [Dictionary.get?, Option.map_eq_some_iff] at hv
  obtain ⟨entry, he, rfl⟩ := hv
  exact (hd.1 entry (List.mem_of_find?_eq_some he)).2

/-- A slot is found in an object that the census counts, or in one of its prototypes. -/
theorem Store.Within.prototypesFrom {st : Store} (h : st.Within N) (n : Nat) {id : ObjectId}
    (hid : N.object id) : ∀ o ∈ st.prototypesFrom n id, N.object o := by
  induction n generalizing id with
  | zero => exact fun o ho => absurd ho List.not_mem_nil
  | succ n ih =>
    intro o ho
    rcases List.mem_cons.mp ho with rfl | ho
    · exact hid
    · split at ho
      · next proto hproto => exact ih ((h.object id hid).2 proto hproto) o ho
      · exact absurd ho List.not_mem_nil

theorem Store.Within.slot? {st : Store} (h : st.Within N) {id : ObjectId} (hid : N.object id)
    {name : String} {v : Value} (hv : st.slot? id name = some v) : v.Within N := by
  obtain ⟨o, ho, hov⟩ := List.exists_of_findSome?_eq_some hv
  exact (h.object o (h.prototypesFrom _ hid o ho)).1 name v hov

/-- A property of an array's elements that a modification keeps. -/
theorem getD_modify_of {α : Type} {P : α → Prop} {xs : Array α} {d : α} (i j : Nat) {f : α → α}
    (h : P (xs.getD j d)) (hf : ∀ x, P x → P (f x)) : P ((xs.modify i f).getD j d) := by
  by_cases hj : j < xs.size
  · simp only [Array.getD, hj, Array.size_modify, dif_pos, Array.getInternal_eq_getElem] at h ⊢
    rw [Array.getElem_modify]
    split
    · exact hf _ h
    · exact h
  · simpa [Array.getD, hj] using h

namespace Store.Within

variable {st : Store} (h : st.Within N)

include h

theorem setSlot (id : ObjectId) (name : String) {v : Value} (hv : v.Within N) :
    (st.setSlot id name v).Within N where
  closure := h.closure
  object j hj := getD_modify_of id j (h.object j hj) fun _ ho =>
    ⟨Bindings.within_insert ho.1 hv, ho.2⟩
  dictionary := h.dictionary
  promise := h.promise

theorem setEntry (id : DictionaryId) {key v : Value} (hk : key.Within N) (hv : v.Within N) :
    (st.setEntry id key v).Within N where
  closure := h.closure
  object := h.object
  dictionary j hj := getD_modify_of id j (h.dictionary j hj) fun _ hd => hd.insert hk hv
  promise := h.promise

theorem setAttribute (id : DictionaryId) (name : String) {v : Value} (hv : v.Within N) :
    (st.setAttribute id name v).Within N where
  closure := h.closure
  object := h.object
  dictionary j hj := getD_modify_of id j (h.dictionary j hj) fun _ hd => hd.setAttribute hv
  promise := h.promise

theorem setPromise (id : PromiseId) {p : Promise} (hp : p.Within N) :
    (st.setPromise id p).Within N where
  closure := h.closure
  object := h.object
  dictionary := h.dictionary
  promise j hj := getD_modify_of id j (h.promise j hj) fun _ _ => hp

end Store.Within

theorem Arena.Within.mono (h : N ≤ M) {a : Arena} (ha : a.Within N) : a.Within M := fun u =>
  (ha u).mono h

theorem Arena.Within.get? {a : Arena} (h : a.Within N) {u : ScopeId} {name : String} {v : Value}
    (hv : a.get? u name = some v) : v.Within N := by
  obtain ⟨t, _, htv⟩ := List.exists_of_findSome?_eq_some hv
  exact h t name v htv

end

theorem Bindings.within_all (b : Bindings) : Bindings.Within Census.all b := fun _ v _ =>
  v.within_all

theorem Closure.within_all (c : Closure) : c.Within Census.all :=
  ⟨c.pattern.within_all, fun form _ => form.within_all, trivial⟩

theorem Arena.within_all (a : Arena) : a.Within Census.all := fun u =>
  Bindings.within_all (a.frame u).bindings

theorem Store.within_all (st : Store) : st.Within Census.all where
  closure id _ := (st.closure id).within_all
  object id _ := ⟨Bindings.within_all _, fun _ _ => trivial⟩
  dictionary id _ :=
    ⟨fun entry _ => ⟨entry.1.within_all, entry.2.within_all⟩, Bindings.within_all _, False.elim⟩
  promise id _ := by
    cases st.promise id with
    | pending node scope => exact ⟨node.within_all, trivial⟩
    | forcing => exact trivial
    | forced v => exact v.within_all

end Fexpr
