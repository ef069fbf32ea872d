import Fexpr.Proofs.Literals.Steps

/-!
# Proofs/Literals — how the items of an object are evaluated

An object literal, and an extension of an object, is made item by item from left to right.  Each
item is made into a slot by a few evaluations (`Slot.Making`), and when the object can be made these
are all that happens, in their order, before the object is added to the store
(`object_made_by_steps`).

Every part of an item is evaluated once, but for one: the key of a slot access is read for the name
of the slot and, after the target has been evaluated, again for the lookup.  If it is an identifier
there is nothing to evaluate, and the slot is named by the key that was looked up.  A key that is
computed is computed twice, and need not come to the same both times
(`computed_key_names_another_slot`).
-/

namespace Fexpr

namespace Slot

/-- **How an item becomes a slot.** -/
inductive Making where
  /-- A bare identifier is a slot with its own value. -/
  | bare (name : String) (v : Value)
  /-- A key and a value. -/
  | slot (head : Node) (key : Reading) (name : String) (hname : key.key.name? = some name)
      (value : Node) (v : Value)
  /-- An access: its key is read for the name, and once more for the lookup. -/
  | access (head target : Node) (naming : Reading) (name : String)
      (hname : naming.key.name? = some name) (w : Value) (looking : Reading)
      (hsame : looking.node = naming.node) (v : Value)

namespace Making

/-- The item itself. -/
def item : Making → Node
  | bare name _ => .identifier name
  | slot head key _ _ value _ => .form head (.spine [key.node, value] .nil)
  | access head target naming _ _ _ _ _ _ => .form head (.spine [target, naming.node] .nil)

/-- The name of the slot and its value. -/
def made : Making → String × Value
  | bare name v | slot _ _ name _ _ v | access _ _ _ name _ _ _ _ v => (name, v)

/-- **What happens**, in this order. -/
def steps : Making → List Step
  | bare name v => [.evaluate (.identifier name) v]
  | slot head key _ _ value v =>
    .evaluate head (.builtin .cons) :: (key.steps ++ [.evaluate value v])
  | access head target naming _ _ w looking _ v =>
    .evaluate head (.builtin .get) :: (naming.steps ++ accessSteps target w looking v)

/-- **The expressions that the item consists of**; a key that is an identifier is none. -/
def parts : Making → List Node
  | bare name _ => [.identifier name]
  | slot head key _ _ value _ => head :: (key.parts ++ [value])
  | access head target naming _ _ _ _ _ _ => head :: target :: naming.parts

/-- What an access asks for: the target, the key and what was kept under it. -/
def lookup? : Making → Option (Value × Key × Value)
  | access _ _ _ _ _ w looking _ v => some (w, looking.key, v)
  | _ => none

/-- Whether the item is an access whose key is computed. -/
def ComputesKey : Making → Prop
  | access _ _ (.computed ..) _ _ _ _ _ _ => True
  | _ => False

/-- An access evaluates what its key consists of on both sides of the target. -/
theorem evaluated_access {head target : Node} {naming looking : Reading} {name : String}
    {hname : naming.key.name? = some name} {w v : Value} {hsame : looking.node = naming.node} :
    evaluated (access head target naming name hname w looking hsame v).steps =
      head :: (naming.parts ++ target :: looking.parts) := by
  change head :: evaluated (naming.steps ++ accessSteps target w looking v) = _
  rw [evaluated_append, naming.evaluated_steps, evaluated_accessSteps]

/-- **Every part is evaluated once and the slot is named by the key that was looked up**, unless the
key of an access is computed. -/
theorem coherent (m : Making) (h : ¬m.ComputesKey) :
    evaluated m.steps = m.parts ∧
      ∀ w k v, m.lookup? = some (w, k, v) → k.name? = some m.made.1 ∧ v = m.made.2 := by
  cases m with
  | bare name v => exact ⟨rfl, fun _ _ _ hlookup => by cases hlookup⟩
  | slot head key name hname value v =>
    refine ⟨?_, fun _ _ _ hlookup => by cases hlookup⟩
    change head :: evaluated (key.steps ++ [.evaluate value v]) = _
    rw [evaluated_append, key.evaluated_steps]
    rfl
  | access head target naming name hname w looking hsame v =>
    cases naming with
    | computed node hnode k => exact absurd trivial h
    | literal n =>
      -- an identifier is read in one way
      obtain rfl : looking = .literal n := by
        cases looking with
        | literal n' => rw [Node.identifier.inj hsame]
        | computed node hnode k => exact absurd hsame (hnode n)
      refine ⟨evaluated_access, fun _ _ _ hlookup => ?_⟩
      cases hlookup
      exact ⟨hname, rfl⟩

/-- **A computed key of an access is evaluated twice**: before the target and after it. -/
theorem evaluated_of_computesKey (m : Making) (h : m.ComputesKey) :
    ∃ head target key, m.parts = [head, target, key] ∧
      evaluated m.steps = [head, key, target, key] := by
  cases m with
  | bare | slot => exact h.elim
  | access head target naming name hname w looking hsame v =>
    cases naming with
    | literal n => exact h.elim
    | computed node hnode k =>
      refine ⟨head, target, node, rfl, ?_⟩
      obtain ⟨k', rfl⟩ : ∃ k', looking = .computed node hnode k' := by
        cases looking with
        | literal n' => exact absurd hsame.symm (hnode n')
        | computed node' hnode' k' =>
          obtain rfl : node' = node := hsame
          exact ⟨k', rfl⟩
      exact evaluated_access

end Making

/-! ## One item -/

section

variable {cfg : Config} {scope : ScopeId} {s t : State} {v : Value} {name : String}

/-- A bare identifier. -/
theorem comesTo_ofItem_identifier {n : String} :
    ComesTo (fun r => ofItem r (.identifier n) scope) cfg s (name, v) t ↔
      n = name ∧ ComesTo (fun r => r.eval (.identifier n) scope) cfg s v t := by
  simp only [ofItem, ComesTo.map_iff (steady_eval _ scope), Prod.mk.injEq]
  constructor
  · rintro ⟨w, hw, rfl, rfl⟩
    exact ⟨rfl, hw⟩
  · rintro ⟨rfl, hv⟩
    exact ⟨v, hv, rfl, rfl⟩

/-- What the value of the head of an item makes of it. -/
def ofHead (r : Evaluator) (args : Node) (scope : ScopeId) : Value → Eval (String × Value)
  | .builtin .cons => do
    let (key, value) ← Eval.ofExcept (args.twoArguments "object")
    let name ← nameOf r "object" key scope
    let v ← r.eval value scope
    return (name, v)
  | .builtin .get => do
    let (_, key) ← Eval.ofExcept (args.twoArguments "object")
    let name ← nameOf r "object" key scope
    let v ← r.call (.builtin .get) args scope
    return (name, v)
  | v => Eval.fail (v.typeMismatch "object" "slot")

/-- The head of an item is a `cons` or a `get`, or the item fails. -/
theorem ofHead_or_fails (w : Value) (args : Node) (scope : ScopeId) :
    w = .builtin .cons ∨ w = .builtin .get ∨ ∃ e, ∀ r, ofHead r args scope w = Eval.fail e := by
  cases w with
  | builtin b =>
    cases b with
    | cons => exact Or.inl rfl
    | get => exact Or.inr (Or.inl rfl)
    | _ => exact Or.inr (Or.inr ⟨_, fun _ => rfl⟩)
  | _ => exact Or.inr (Or.inr ⟨_, fun _ => rfl⟩)

theorem ofItem_form (r : Evaluator) (head args : Node) (scope : ScopeId) :
    ofItem r (.form head args) scope = r.eval head scope >>= ofHead r args scope := by
  rw [ofItem]
  congr 1

/-- `key: value`. -/
theorem comesTo_ofHead_cons {args : Node} :
    ComesTo (fun r => ofHead r args scope (.builtin .cons)) cfg s (name, v) t ↔
      ∃ (key : Reading) (value : Node), args = .spine [key.node, value] .nil ∧
        key.key.name? = some name ∧ Leads cfg scope (key.steps ++ [.evaluate value v]) s t := by
  change ComesTo (fun r => Eval.ofExcept (args.twoArguments "object") >>= fun p =>
    nameOf r "object" p.1 scope >>= fun n => r.eval p.2 scope >>= fun w => pure (n, w))
      cfg s (name, v) t ↔ _
  simp only [ComesTo.bind_iff (steady_const _), ComesTo.bind_iff (steady_nameOf _ _ scope),
    ComesTo.map_iff (steady_eval _ scope), comesTo_twoArguments, comesTo_nameOf, comesTo_keyOf,
    leads_append, leads_singleton, Step.Leads, Prod.mk.injEq]
  constructor
  · rintro ⟨⟨_, value⟩, _, ⟨rfl, rfl⟩, _, u, ⟨_, ⟨key, rfl, rfl, hkey⟩, hname⟩, _, hv, rfl, rfl⟩
    exact ⟨key, value, rfl, hname, u, hkey, hv⟩
  · rintro ⟨key, value, rfl, hname, u, hkey, hv⟩
    exact ⟨(key.node, value), s, ⟨rfl, rfl⟩, name, u, ⟨key.key, ⟨key, rfl, rfl, hkey⟩, hname⟩, v, hv,
      rfl, rfl⟩

/-- `target.key`. -/
theorem comesTo_ofHead_get {args : Node} :
    ComesTo (fun r => ofHead r args scope (.builtin .get)) cfg s (name, v) t ↔
      ∃ (target : Node) (naming : Reading) (w : Value) (looking : Reading),
        args = .spine [target, naming.node] .nil ∧ naming.key.name? = some name ∧
        looking.node = naming.node ∧
        Leads cfg scope (naming.steps ++ accessSteps target w looking v) s t := by
  change ComesTo (fun r => Eval.ofExcept (args.twoArguments "object") >>= fun p =>
    nameOf r "object" p.2 scope >>= fun n => r.call (.builtin .get) args scope >>= fun w =>
      pure (n, w)) cfg s (name, v) t ↔ _
  simp only [ComesTo.bind_iff (steady_const _), ComesTo.bind_iff (steady_nameOf _ _ scope),
    ComesTo.map_iff (steady_call _ _ scope), comesTo_twoArguments, comesTo_nameOf, comesTo_keyOf,
    comesTo_access, leads_append, Prod.mk.injEq]
  constructor
  · rintro ⟨⟨target, _⟩, _, ⟨rfl, rfl⟩, _, u, ⟨_, ⟨naming, rfl, rfl, hnaming⟩, hname⟩, _,
      ⟨target', w, looking, hargs, haccess⟩, rfl, rfl⟩
    obtain ⟨rfl, hrest⟩ := Node.pair.inj hargs
    exact ⟨target, naming, w, looking, rfl, hname, (Node.pair.inj hrest).1.symm, u, hnaming,
      haccess⟩
  · rintro ⟨target, naming, w, looking, rfl, hname, hsame, u, hnaming, haccess⟩
    exact ⟨(target, naming.node), s, ⟨rfl, rfl⟩, name, u,
      ⟨naming.key, ⟨naming, rfl, rfl, hnaming⟩, hname⟩, v,
      ⟨target, w, looking, by rw [hsame], haccess⟩, rfl, rfl⟩

theorem steady_ofItem (item : Node) (scope : ScopeId) : Steady fun r => ofItem r item scope :=
  fun _ _ hle => (Comparison.ofItem (w := ()) (Coverage.agree_ofFuel hle).toComparison
    item.within_all).1

/-- **An item becomes a slot by the steps of a making.** -/
theorem comesTo_ofItem {item : Node} :
    ComesTo (fun r => ofItem r item scope) cfg s (name, v) t ↔
      ∃ m : Making, m.item = item ∧ m.made = (name, v) ∧ Leads cfg scope m.steps s t := by
  constructor
  · intro h
    cases item with
    | identifier n =>
      obtain ⟨rfl, hv⟩ := comesTo_ofItem_identifier.mp h
      exact ⟨.bare n v, rfl, rfl, leads_singleton.mpr hv⟩
    | form head args =>
      simp only [ofItem_form, ComesTo.bind_iff (steady_eval head scope)] at h
      obtain ⟨w, u, hhead, h⟩ := h
      rcases ofHead_or_fails w args scope with rfl | rfl | ⟨e, hfails⟩
      · obtain ⟨key, value, rfl, hname, hsteps⟩ := comesTo_ofHead_cons.mp h
        exact ⟨.slot head key name hname value v, rfl, rfl, u, hhead, hsteps⟩
      · obtain ⟨target, naming, w, looking, rfl, hname, hsame, hsteps⟩ := comesTo_ofHead_get.mp h
        exact ⟨.access head target naming name hname w looking hsame v, rfl, rfl, u, hhead, hsteps⟩
      · simp only [hfails] at h
        cases ComesTo.const_iff.mp h
    | _ => cases ComesTo.const_iff.mp h
  · rintro ⟨m, rfl, hmade, hsteps⟩
    cases m with
    | bare n w =>
      cases hmade
      exact comesTo_ofItem_identifier.mpr ⟨rfl, leads_singleton.mp hsteps⟩
    | slot head key n hname value w =>
      cases hmade
      obtain ⟨u, hhead, hsteps⟩ := hsteps
      simp only [Making.item, ofItem_form, ComesTo.bind_iff (steady_eval head scope)]
      exact ⟨_, u, hhead, comesTo_ofHead_cons.mpr ⟨key, value, rfl, hname, hsteps⟩⟩
    | access head target naming n hname w looking hsame x =>
      cases hmade
      obtain ⟨u, hhead, hsteps⟩ := hsteps
      simp only [Making.item, ofItem_form, ComesTo.bind_iff (steady_eval head scope)]
      exact ⟨_, u, hhead, comesTo_ofHead_get.mpr
        ⟨target, naming, w, looking, rfl, hname, hsame, hsteps⟩⟩

end

/-! ## A list of items -/

section

variable {cfg : Config} {scope : ScopeId} {s t : State} {v : Value}

/-- The slots that some makings add, a later one in place of an earlier one with its name. -/
def addAll (slots : Bindings) (ms : List Making) : Bindings :=
  ms.foldl (fun slots m => slots.insert m.made.1 m.made.2) slots

/-- **Items become slots one after the other.** -/
theorem comesTo_ofItems {slots slots' : Bindings} {items : List Node} :
    ComesTo (fun r => ofItems r scope slots items) cfg s slots' t ↔
      ∃ ms : List Making, ms.map Making.item = items ∧
        Leads cfg scope (ms.flatMap Making.steps) s t ∧ addAll slots ms = slots' := by
  induction items generalizing slots s with
  | nil =>
    simp only [ofItems, ComesTo.const_iff]
    constructor
    · intro h
      cases h
      exact ⟨[], rfl, rfl, rfl⟩
    · rintro ⟨ms, hms, hsteps, rfl⟩
      obtain rfl := List.map_eq_nil_iff.mp hms
      cases hsteps
      rfl
  | cons item items ih =>
    simp only [ofItems, ComesTo.bind_iff (steady_ofItem item scope), Prod.exists, comesTo_ofItem, ih]
    constructor
    · rintro ⟨name, w, u, ⟨m, rfl, hmade, hm⟩, ms, rfl, hms, rfl⟩
      refine ⟨m :: ms, rfl, leads_append.mpr ⟨u, hm, hms⟩, ?_⟩
      rw [addAll, List.foldl_cons, hmade, addAll]
    · rintro ⟨ms, hms, hsteps, rfl⟩
      obtain ⟨m, ms, rfl, rfl, rfl⟩ := List.map_eq_cons_iff.mp hms
      obtain ⟨u, hm, hms⟩ := leads_append.mp hsteps
      exact ⟨m.made.1, m.made.2, u, ⟨m, rfl, rfl, hm⟩, ms, rfl, hms, rfl⟩

theorem steady_ofItems (items : List Node) (scope : ScopeId) :
    Steady fun r => ofItems r scope ∅ items := fun _ _ hle =>
  (Comparison.ofItems (w := ()) (Coverage.agree_ofFuel hle).toComparison Bindings.within_empty
    fun item _ => item.within_all).1

/-- **An object is made by the steps of its items**, and is then added to the store. -/
def MadeBySteps (cfg : Config) (scope : ScopeId) (prototype : Option ObjectId) (arg : Node)
    (ms : List Making) (s : State) (v : Value) (t : State) : Prop :=
  arg = .spine (ms.map Making.item) .nil ∧
    ∃ u, Leads cfg scope (ms.flatMap Making.steps) s u ∧
      v = .object (u.store.addObject { slots := addAll ∅ ms, prototype }).1 ∧
      t = { u with store := (u.store.addObject { slots := addAll ∅ ms, prototype }).2 }

theorem comesTo_buildObject {prototype : Option ObjectId} {arg : Node} :
    ComesTo (fun r => buildObject r prototype arg scope) cfg s v t ↔
      ∃ ms, MadeBySteps cfg scope prototype arg ms s v t := by
  by_cases harg : arg.elements.2 = .nil
  · have hbuild : ∀ r, buildObject r prototype arg scope =
        ofItems r scope ∅ arg.elements.1 >>= fun slots =>
          Eval.allocate (·.addObject { slots, prototype }) >>= fun id =>
            pure (.object id) := fun r => by
      rw [buildObject, harg]
    have hspine : ∀ items, arg = .spine items .nil ↔ items = arg.elements.1 := fun items => by
      constructor
      · rintro rfl
        rw [Node.elements_spine]
        exact (List.append_nil items).symm
      · rintro rfl
        rw [← harg, Node.spine_elements]
    simp only [hbuild, ComesTo.bind_iff (steady_ofItems _ scope), comesTo_ofItems,
      ComesTo.const_iff, MadeBySteps, hspine]
    constructor
    · rintro ⟨_, u, ⟨ms, hms, hsteps, rfl⟩, h⟩
      cases h
      exact ⟨ms, hms, u, hsteps, rfl, rfl⟩
    · rintro ⟨ms, hms, u, hsteps, rfl, rfl⟩
      exact ⟨_, u, ⟨ms, hms, hsteps, rfl⟩, rfl⟩
  · have hbuild : ∀ r, buildObject r prototype arg scope =
        Eval.fail (.misuse "object" .improperSlots) := fun r => by
      rw [buildObject]
      split
      · next hnil => exact absurd hnil harg
      · rfl
    simp only [hbuild, ComesTo.const_iff]
    constructor
    · intro h
      cases h
    · rintro ⟨ms, rfl, -⟩
      exact absurd (by rw [Node.elements_spine]; rfl) harg

theorem comesTo_extend {arg : Node} :
    ComesTo (fun r => Primitive.extend r arg scope) cfg s v t ↔
      ∃ prototype items id u, arg.split = some (prototype, items) ∧
        ComesTo (fun r => r.eval prototype scope) cfg s (.object id) u ∧
        ComesTo (fun r => buildObject r (some id) items scope) cfg u v t := by
  cases hsplit : arg.split with
  | none =>
    simp only [Primitive.extend, hsplit, ComesTo.const_iff, Eval.fail, reduceCtorEq, false_and,
      exists_false]
  | some halves =>
    obtain ⟨prototype, items⟩ := halves
    simp only [Primitive.extend, hsplit, ComesTo.bind_iff (steady_eval _ scope),
      Option.some.injEq, Prod.mk.injEq]
    constructor
    · rintro ⟨w, u, hw, h⟩
      cases w with
      | object id => exact ⟨prototype, items, id, u, ⟨rfl, rfl⟩, hw, h⟩
      | _ => cases ComesTo.const_iff.mp h
    · rintro ⟨_, _, id, u, ⟨rfl, rfl⟩, hw, h⟩
      exact ⟨.object id, u, hw, h⟩

end

end Slot

/-- **How objects are made.**  An object form returns exactly if its items are made into slots, and
an extension exactly if its prototype is evaluated to an object before that: what happens is the
steps of the makings, item by item from left to right.  Each part of an item is evaluated once, and
an access makes a slot that is named by the key which it looked up, unless the key of an access is
computed; such a key is evaluated twice, before and after the target. -/
theorem object_made_by_steps (cfg : Config) (scope : ScopeId) (arg : Node) (s t : State)
    (v : Value) :
    (ComesTo (fun r => Builtin.run r .object arg scope) cfg s v t ↔
      ∃ ms, Slot.MadeBySteps cfg scope none arg ms s v t) ∧
    (ComesTo (fun r => Builtin.run r .extend arg scope) cfg s v t ↔
      ∃ prototype items id u ms, arg.split = some (prototype, items) ∧
        ComesTo (fun r => r.eval prototype scope) cfg s (.object id) u ∧
        Slot.MadeBySteps cfg scope (some id) items ms u v t) ∧
    ∀ m : Slot.Making,
      (¬m.ComputesKey → Slot.evaluated m.steps = m.parts ∧
        ∀ w k x, m.lookup? = some (w, k, x) → k.name? = some m.made.1 ∧ x = m.made.2) ∧
      (m.ComputesKey → ∃ head target key, m.parts = [head, target, key] ∧
        Slot.evaluated m.steps = [head, key, target, key]) := by
  refine ⟨Slot.comesTo_buildObject, ?_, fun m => ⟨m.coherent, m.evaluated_of_computesKey⟩⟩
  refine Slot.comesTo_extend.trans ?_
  simp only [Slot.comesTo_buildObject, exists_and_left]

/-- **A computed key names another slot than it looks up**: `(next)` is computed for the name of the
slot and again for the lookup, and comes to `#a` and then to `#b`.  If it were computed once, the
list would be `[1 1]`. -/
theorem computed_key_names_another_slot :
    ∃ v t, Program.runWith 40 ("(def n 0) (def obj \x7ba: 1, b: 2\x7d) " ++
        "(def next (fn - (redef n (add n 1)) (if (eq n 1) #a #b))) " ++
        "(def o \x7b(get obj (next))\x7d) [n o.a]") Arena.root {} .initial = .ok v t ∧
      v == .ofList [.integer 2, .integer 2] :=
  Outcome.exists_of_returns (· == Value.ofList [.integer 2, .integer 2]) (by decide +kernel)

end Fexpr
