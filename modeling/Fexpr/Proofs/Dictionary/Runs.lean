import Fexpr.Proofs.Dictionary
import Fexpr.Proofs.Evaluation
import Fexpr.Proofs.WellMade

/-!
# Proofs/Dictionary/Runs — every dictionary of a program is a finite map

A dictionary of a program comes from a literal, which puts its items in one by one
(`Slot.entriesOf_eq`), and is changed by `set`, which puts one more in.  What that does is the law of
insertion (`Dictionary.Inserted`), and equality, on which the law rests, gives the same verdict in
every state (`Primitive.eq_apply`).
-/

namespace Fexpr

namespace Dictionary

/-- **What putting `v` under `k` does**: it is found under the keys that equal `k`, all other keys
find what they found before, the keys keep their order with a new one last, and the attributes stay
as they are. -/
structure Inserted (d : Dictionary) (k v : Value) (d' : Dictionary) : Prop where
  lookup : ∀ k', d'.get? k' = if k' == k then some v else d.get? k'
  keys : d'.keys = if d.keys.any (· == k) then d.keys else d.keys ++ [k]
  attributes : d'.attributes = d.attributes

/-- **What putting `v` under an attribute name does.** -/
structure Attributed (d : Dictionary) (name : String) (v : Value) (d' : Dictionary) : Prop where
  lookup : ∀ name' : String, d'.attributes[name']? =
    if name' = name then some v else d.attributes[name']?
  entries : d'.entries = d.entries

theorem inserted (d : Dictionary) (k v : Value) : d.Inserted k v (d.insert k v) :=
  ⟨d.get?_insert k v, d.keys_insert k v, rfl⟩

theorem attributed (d : Dictionary) (name : String) (v : Value) :
    d.Attributed name v (d.setAttribute name v) where
  lookup name' := by
    simp only [setAttribute, Std.ExtTreeMap.getElem?_insert, Std.LawfulEqCmp.compare_eq_iff_eq,
      eq_comm (a := name)]
  entries := rfl

/-- Puts entries in, one after the other. -/
def insertAll (d : Dictionary) (entries : List (Value × Value)) : Dictionary :=
  entries.foldl (fun d entry => d.insert entry.1 entry.2) d

/-- **Of entries with equal keys the last one counts.** -/
theorem get?_insertAll (d : Dictionary) (entries : List (Value × Value)) (k : Value) :
    (d.insertAll entries).get? k =
      ((entries.reverse.find? fun entry => k == entry.1).map (·.2)).or (d.get? k) := by
  induction entries generalizing d with
  | nil => rfl
  | cons entry entries ih =>
    change ((d.insert entry.1 entry.2).insertAll entries).get? k = _
    rw [ih, get?_insert, List.reverse_cons, List.find?_append, List.find?_singleton]
    cases entries.reverse.find? fun entry => k == entry.1 with
    | some found => rfl
    | none =>
      cases k == entry.1 with
      | true => rfl
      | false => rfl

end Dictionary

namespace Store

theorem dictionary_setEntry {st : Store} {id : DictionaryId} (h : id < st.dictionaries.size)
    (k v : Value) (other : DictionaryId) : (st.setEntry id k v).dictionary other =
      if other = id then (st.dictionary other).insert k v else st.dictionary other :=
  getD_modify h _ other

theorem dictionary_setAttribute {st : Store} {id : DictionaryId} (h : id < st.dictionaries.size)
    (name : String) (v : Value) (other : DictionaryId) :
    (st.setAttribute id name v).dictionary other =
      if other = id then (st.dictionary other).setAttribute name v else st.dictionary other :=
  getD_modify h _ other

/-- **One dictionary has changed**, and how. -/
structure Changed (st : Store) (id : DictionaryId) (change : Dictionary → Dictionary → Prop)
    (st' : Store) : Prop where
  changed : change (st.dictionary id) (st'.dictionary id)
  other : ∀ other ≠ id, st'.dictionary other = st.dictionary other

theorem changed_setEntry {st : Store} {id : DictionaryId} (h : id < st.dictionaries.size)
    (k v : Value) : st.Changed id (Dictionary.Inserted · k v) (st.setEntry id k v) where
  changed := by
    rw [dictionary_setEntry h, if_pos rfl]
    exact (st.dictionary id).inserted k v
  other other hother := by rw [dictionary_setEntry h, if_neg hother]

theorem changed_setAttribute {st : Store} {id : DictionaryId} (h : id < st.dictionaries.size)
    (name : String) (v : Value) :
    st.Changed id (Dictionary.Attributed · name v) (st.setAttribute id name v) where
  changed := by
    rw [dictionary_setAttribute h, if_pos rfl]
    exact (st.dictionary id).attributed name v
  other other hother := by rw [dictionary_setAttribute h, if_neg hother]

end Store

/-! ## Equality, literals and writing -/

/-- **Equality gives its verdict in every state**, and leaves the state as it is. -/
theorem Primitive.eq_apply {cfg : Config} {s : State} (h : s.depth < cfg.maxDepth) (n : Nat)
    (scope : ScopeId) (v w : Value) :
    Builtin.run (.ofFuel (n + 1)) .eq (.spine [.quoted v, .quoted w] .nil) scope cfg s =
      .ok (.bool (v == w)) s := by
  change (Primitive.eq _ _ scope) cfg s = _
  rw [Primitive.eq, Eval.bind_apply, Evaluator.evalTwoArguments_apply "eq"
    (Evaluator.eval_quoted h v) (Evaluator.eval_quoted h w)]
  rfl

section

variable (r : Evaluator) (scope : ScopeId)

/-- The entry that an item of a literal evaluates to. -/
def Slot.entryOf (item : Node) : Eval (Value × Value) := do
  match ← r.eval item scope with
  | .pair key v => return (key, v)
  | v => Eval.fail (v.typeMismatch "dictionary" "Pair")

theorem Slot.entriesOf_eq (d : Dictionary) (items : List Node) :
    Slot.entriesOf r scope d items =
      items.mapM (Slot.entryOf r scope) >>= fun entries => pure (d.insertAll entries) := by
  induction items generalizing d with
  | nil => rfl
  | cons item items ih =>
    rw [Slot.entriesOf, List.mapM_cons, bind_assoc, Slot.entryOf, bind_assoc]
    refine bind_congr fun v => ?_
    cases v with
    | pair key v =>
      simp only [pure_bind, bind_assoc, ih]
      rfl
    | _ => rfl

/-- **A literal puts its items in one by one**, in the order in which they are evaluated. -/
theorem Slot.buildDictionary_eq (items : List Node) :
    Builtin.run r .dictionary (.spine items .nil) scope =
      items.mapM (Slot.entryOf r scope) >>= fun entries =>
        Eval.allocate (·.addDictionary (({} : Dictionary).insertAll entries)) >>= fun id =>
          pure (.dictionary id) := by
  change Slot.buildDictionary r (.spine items .nil) scope = _
  rw [Slot.buildDictionary, Node.elements_spine]
  simp only [Node.elements, List.append_nil, Slot.entriesOf_eq, bind_assoc, pure_bind]

end

/-- **What `get` answers for a key of a dictionary**: its value, or that there is none. -/
def Slot.found (id : DictionaryId) (k : Value) (s : State) : Outcome RunError Value :=
  match (s.store.dictionary id).get? k with
  | some v => .ok v s
  | none => .error (.misuse "get" (.noEntry (s.store.text k))) s

section

variable {r : Evaluator} {target key value : Node} {scope : ScopeId} {cfg : Config}
  {s t u x : State} {id : DictionaryId} {name : String} {k v : Value}

theorem Primitive.get_entry (htarget : r.eval target scope cfg s = .ok (.dictionary id) t)
    (hname : ∀ name, key ≠ .identifier name) (hkey : r.eval key scope cfg t = .ok k u) :
    Builtin.run r .get (.spine [target, key] .nil) scope cfg s = Slot.found id k u := by
  change (r.eval target scope >>= fun v => Slot.read r v key scope) cfg s = _
  rw [Eval.bind_apply, htarget]
  have hread : Slot.read r (.dictionary id) key scope = r.eval key scope >>= fun k =>
      Eval.gets (fun s => (s.store.dictionary id).get? k) >>= fun
        | some v => pure v
        | none => Eval.gets (fun s => s.store.text k) >>= fun text =>
            Slot.missing (.noEntry text) := by
    cases key with
    | identifier name => exact absurd rfl (hname name)
    | _ => rfl
  dsimp only
  rw [hread, Eval.bind_apply, hkey]
  dsimp only
  rw [Eval.bind_apply, Slot.found]
  dsimp only [Eval.gets]
  cases (u.store.dictionary id).get? k <;> rfl

theorem Primitive.set_entry (htarget : r.eval target scope cfg s = .ok (.dictionary id) t)
    (hname : ∀ name, key ≠ .identifier name) (hkey : r.eval key scope cfg t = .ok k u)
    (hvalue : r.eval value scope cfg u = .ok v x) :
    Builtin.run r .set (.spine [target, key, value] .nil) scope cfg s =
      .ok v { x with store := x.store.setEntry id k v } := by
  change (r.eval target scope >>= fun v => Slot.write r v key value scope) cfg s = _
  rw [Eval.bind_apply, htarget]
  have hwrite : Slot.write r (.dictionary id) key value scope = r.eval key scope >>= fun k =>
      r.eval value scope >>= fun v => Eval.modifyStore (·.setEntry id k v) >>= fun _ => pure v := by
    cases key with
    | identifier name => exact absurd rfl (hname name)
    | _ => rfl
  dsimp only
  rw [hwrite, Eval.bind_apply, hkey]
  dsimp only
  rw [Eval.bind_apply, hvalue]
  rfl

theorem Primitive.set_attribute (htarget : r.eval target scope cfg s = .ok (.dictionary id) t)
    (hvalue : r.eval value scope cfg t = .ok v x) :
    Builtin.run r .set (.spine [target, .identifier name, value] .nil) scope cfg s =
      .ok v { x with store := x.store.setAttribute id name v } := by
  change (r.eval target scope >>= fun v => Slot.write r v (.identifier name) value scope) cfg s = _
  rw [Eval.bind_apply, htarget]
  change (r.eval value scope >>= fun _ => _) cfg t = _
  rw [Eval.bind_apply, hvalue]
  rfl

end

/-- **Every dictionary is a finite map up to equality.**  Equality is an equivalence, whose verdict
does not depend on the state.  In every state that programs make, the keys of each dictionary are
unequal; a literal and `set` put entries in by the law of insertion, and `get` looks them up. -/
theorem dictionaries_are_finite_maps {s : State} (hs : Attainable s) :
    Equivalence (fun v w : Value => (v == w) = true) ∧
      (∀ (n : Nat) (scope : ScopeId) (cfg : Config) (t : State) (v w : Value),
        t.depth < cfg.maxDepth →
        Builtin.run (.ofFuel (n + 1)) .eq (.spine [.quoted v, .quoted w] .nil) scope cfg t =
          .ok (.bool (v == w)) t) ∧
      (∀ id, (s.store.dictionary id).WellMade) ∧
      (∀ (r : Evaluator) (scope : ScopeId) (items : List Node),
        Builtin.run r .dictionary (.spine items .nil) scope =
          items.mapM (Slot.entryOf r scope) >>= fun entries =>
            Eval.allocate (·.addDictionary (({} : Dictionary).insertAll entries)) >>= fun id =>
              pure (.dictionary id)) ∧
      (∀ (d : Dictionary) (entries : List (Value × Value)) (k v : Value),
        (d.insertAll entries).Inserted k v (d.insertAll (entries ++ [(k, v)]))) ∧
      ∀ (fuel : Nat) (cfg : Config) (scope : ScopeId) (target key value : Node)
        (id : DictionaryId) (t : State), target.Within s.ledger → key.Within s.ledger →
        value.Within s.ledger →
        (Evaluator.ofFuel fuel).eval target scope cfg s = .ok (.dictionary id) t →
        ((∀ name, key ≠ .identifier name) → ∀ k u,
          (Evaluator.ofFuel fuel).eval key scope cfg t = .ok k u →
          Builtin.run (.ofFuel fuel) .get (.spine [target, key] .nil) scope cfg s =
            Slot.found id k u ∧
          ∀ v x, (Evaluator.ofFuel fuel).eval value scope cfg u = .ok v x →
            ∃ y, Builtin.run (.ofFuel fuel) .set (.spine [target, key, value] .nil) scope cfg s =
                .ok v y ∧
              x.store.Changed id (Dictionary.Inserted · k v) y.store) ∧
        ∀ name, key = .identifier name → ∀ v x,
          (Evaluator.ofFuel fuel).eval value scope cfg t = .ok v x →
          ∃ y, Builtin.run (.ofFuel fuel) .set (.spine [target, key, value] .nil) scope cfg s =
              .ok v y ∧
            x.store.Changed id (Dictionary.Attributed · name v) y.store := by
  have hwell := hs.wellMade
  refine ⟨⟨fun _ => BEq.rfl, BEq.symm, BEq.trans⟩, fun n scope cfg t v w h =>
    Primitive.eq_apply h n scope v w, fun id => ?_, Slot.buildDictionary_eq, fun d entries k v => ?_,
    fun fuel cfg scope target key value id t htarget hkey hvalue heval => ?_⟩
  · by_cases hid : id < s.store.dictionaries.size
    · exact (hwell.store.dictionary id hid).2.2 trivial
    · have hempty : s.store.dictionary id = {} := by simp [Store.dictionary, Array.getD, hid]; rfl
      exact hempty ▸ Dictionary.wellMade_empty
  · rw [Dictionary.insertAll, Dictionary.insertAll, List.foldl_append]
    exact (d.insertAll entries).inserted k v
  · have hagree := Making.agree_ofFuel fuel
    obtain ⟨hst, hid⟩ := Making.Makes.of_ok (hagree.eval s scope htarget) hwell heval
    refine ⟨fun hname k u hk => ?_, fun name hname v x hv => ?_⟩
    · have htu := (Making.Makes.of_ok (hagree.eval t scope (hkey.mono hst.more)) hst.wellMade hk).1
      refine ⟨Primitive.get_entry heval hname hk, fun v x hv => ?_⟩
      have hux := (Making.Makes.of_ok (hagree.eval u scope (hvalue.mono (hst.more.trans htu.more)))
        htu.wellMade hv).1
      exact ⟨_, Primitive.set_entry heval hname hk hv,
        Store.changed_setEntry (Census.dictionary_mono (htu.more.trans hux.more) hid) k v⟩
    · subst hname
      have htx := (Making.Makes.of_ok (hagree.eval t scope (hvalue.mono hst.more)) hst.wellMade
        hv).1
      exact ⟨_, Primitive.set_attribute heval hv,
        Store.changed_setAttribute (Census.dictionary_mono htx.more hid) name v⟩

/-- A dictionary from a literal in which a key occurs twice. -/
def State.keyed : State :=
  (Program.runUnder (.until (fun _ _ => false) 40) "(d = (dictionary 5:10 #x:1 5:11))" Arena.root {}
    .initial).state

theorem keyed_is_finite_map :
    (State.keyed.store.dictionary 0).keys.length = 2 ∧ (State.keyed.store.dictionary 0).WellMade ∧
      ∃ t, Builtin.run (.ofFuel 1) .set (.spine [.identifier "d", .numeral 5, .numeral 12] .nil)
          Arena.root {} .keyed = .ok (.integer 12) t ∧
        State.keyed.store.Changed 0 (Dictionary.Inserted · (.integer 5) (.integer 12)) t.store := by
  have hs : Attainable .keyed := .run _ 40 _ Arena.root {} .initial
  obtain ⟨hdepth, hkeys, hd⟩ : State.keyed.depth < 512 ∧
      (State.keyed.store.dictionary 0).keys.length = 2 ∧
      (State.keyed.arena.get? Arena.root "d").any (· == .dictionary 0) := by
    decide +kernel
  have hget : State.keyed.arena.get? Arena.root "d" = some (.dictionary 0) :=
    Value.eq_some_of_any hd trivial
  obtain ⟨-, -, hwell, -, -, hrun⟩ := dictionaries_are_finite_maps hs
  obtain ⟨t, hset, hchanged⟩ := ((hrun 1 {} Arena.root (.identifier "d") (.numeral 5) (.numeral 12)
    0 .keyed trivial trivial trivial (Evaluator.eval_identifier hdepth hget)).1 (fun _ => nofun) _ _
    (Evaluator.eval_numeral hdepth 5)).2 _ _ (Evaluator.eval_numeral hdepth 12)
  exact ⟨hkeys, hwell 0, t, hset, hchanged⟩

end Fexpr
