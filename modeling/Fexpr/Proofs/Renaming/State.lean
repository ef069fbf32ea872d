import Fexpr.Proofs.Moments
import Fexpr.Proofs.Renaming.Value

/-!
# Proofs/Renaming/State — states with other identities

A `Renaming` finds other identities for the curried values of a state.  It may also leave some out:
then as many more have been given out (`Renaming.ahead`).

The arena never looks at the values it keeps, so its operations commute with any change of them.  The
store does, but only to compare the keys of dictionaries, so its operations commute with a renaming
that keeps distinct identities distinct.
-/

namespace Fexpr

/-- Changing one of the elements after all of them. -/
theorem modify_map {α β : Type} {f : α → β} {g : α → α} {h : β → β}
    (hgh : ∀ a, h (f a) = f (g a)) (xs : Array α) (i : Nat) :
    (xs.map f).modify i h = (xs.modify i g).map f := by
  refine Array.ext_getElem? fun j => ?_
  rw [Array.getElem?_modify, Array.getElem?_map, Array.getElem?_map, Array.getElem?_modify]
  split
  · cases xs[j]? with
    | none => rfl
    | some a => exact congrArg some (hgh a)
  · rfl

/-! ## Arenas -/

def Frame.map (f : Value → Value) (frame : Frame) : Frame :=
  { frame with bindings := frame.bindings.map fun _ v => f v }

/-- **The arena with every value in it changed by `f`.** -/
def Arena.map (f : Value → Value) (a : Arena) : Arena :=
  { a with frames := a.frames.map (·.map f) }

namespace Arena

variable (f : Value → Value) (a : Arena)

theorem map_empty : (∅ : Bindings).map (fun _ v => f v) = ∅ :=
  Std.ExtTreeMap.map_eq_empty_iff.mpr rfl

theorem map_insert (b : Bindings) (name : String) (v : Value) :
    (b.insert name v).map (fun _ v => f v) = (b.map fun _ v => f v).insert name (f v) := by
  refine Std.ExtTreeMap.ext_getElem? fun name' => ?_
  rw [Std.ExtTreeMap.getElem?_map, Std.ExtTreeMap.getElem?_insert, Std.ExtTreeMap.getElem?_insert,
    Std.ExtTreeMap.getElem?_map]
  split <;> rfl

theorem size_map : (a.map f).frames.size = a.frames.size :=
  Array.size_map

theorem frame_map (u : ScopeId) : (a.map f).frame u = (a.frame u).map f := by
  rw [frame, frame, Array.getD_eq_getD_getElem?, Array.getD_eq_getD_getElem?, map,
    Array.getElem?_map]
  cases a.frames[u]? with
  | none => simp only [Option.map_none, Option.getD_none, Frame.map, map_empty]
  | some frame => rfl

/-- A change of one frame that does the same before and after. -/
theorem update_map {g h : Frame → Frame} (hgh : ∀ frame, h (frame.map f) = (g frame).map f)
    (u : ScopeId) : (a.map f).update u h = (a.update u g).map f :=
  congrArg (Arena.mk · a.free) (modify_map hgh a.frames u)

theorem child_map (p : ScopeId) :
    (a.map f).child p = ((a.child p).1, (a.child p).2.map f) := by
  have hopen : Frame.map f { parent := some p } = { parent := some p } := by
    rw [Frame.map, map_empty]
  obtain ⟨frames, free⟩ := a
  cases free with
  | nil => simp only [child, map, Array.size_map, Array.map_push, hopen]
  | cons u free =>
    have hframes : (frames.map (Frame.map f)).modify u (fun _ => { parent := some p }) =
        (frames.modify u fun _ => { parent := some p }).map (Frame.map f) :=
      modify_map (fun _ => hopen.symm) frames u
    exact congrArg (fun frames => (u, Arena.mk frames free)) hframes

theorem chainFrom_map (n : Nat) (u : ScopeId) : (a.map f).chainFrom n u = a.chainFrom n u := by
  induction n generalizing u with
  | zero => rfl
  | succ n ih =>
    have hparent : ((a.map f).frame u).parent = (a.frame u).parent := by
      rw [frame_map]
      rfl
    rw [chainFrom, chainFrom, hparent]
    cases (a.frame u).parent with
    | none => rfl
    | some p => simp only [ih]

theorem chain_map (u : ScopeId) : (a.map f).chain u = a.chain u := by
  rw [chain, chain, size_map, chainFrom_map]

theorem has_map (u : ScopeId) (name : String) : (a.map f).has u name = a.has u name := by
  rw [has, has, frame_map, Frame.map, Std.ExtTreeMap.contains_map]

/-- **A name is looked up where it was.** -/
theorem get?_map (u : ScopeId) (name : String) :
    (a.map f).get? u name = (a.get? u name).map f := by
  rw [get?, get?, chain_map, List.map_findSome?]
  congr 1
  funext v
  rw [frame_map, Frame.map, Std.ExtTreeMap.getElem?_map]
  rfl

theorem set_map (u : ScopeId) (name : String) (v : Value) :
    (a.map f).set u name (f v) = (a.set u name v).map f :=
  a.update_map f (fun frame => by simp only [Frame.map, map_insert]) u

theorem setOutward_map (u : ScopeId) (name : String) (v : Value) :
    ((a.map f).setOutward u name (f v)).2 = (a.setOutward u name v).2.map f := by
  have hbinder : (a.map f).binder? u name = a.binder? u name := by
    rw [binder?, binder?, chain_map]
    congr 1
    funext w
    exact has_map f a w name
  have hlast : (a.map f).outermost u = a.outermost u := by
    rw [outermost, outermost, chain_map]
  rw [setOutward, setOutward, hbinder, hlast]
  cases a.binder? u name with
  | none | some w => exact set_map f a _ name v

theorem capture_map (u : ScopeId) : (a.map f).capture u = (a.capture u).map f := by
  have hcaptured : ∀ w, ((a.map f).frame w).captured = (a.frame w).captured := fun w => by
    rw [frame_map]
    rfl
  rw [capture, capture, chain_map]
  simp only [hcaptured]
  generalize (a.chain u).takeWhile _ = ws
  induction ws generalizing a with
  | nil => rfl
  | cons w ws ih =>
    have hupdate := update_map f a (g := fun frame => { frame with captured := true })
      (h := fun frame => { frame with captured := true }) (fun _ => rfl) w
    rw [List.foldl_cons, List.foldl_cons, hupdate]
    exact ih _ fun w' => by rw [frame_map]; rfl

theorem release_map (u : ScopeId) : (a.map f).release u = (a.release u).map f := by
  have hreleasable : (a.map f).isReleasable u = a.isReleasable u := by
    rw [isReleasable, isReleasable, frame_map]
    rfl
  rw [release, release, hreleasable]
  split
  · have hframes : (a.frames.map (Frame.map f)).modify u
          (fun frame => { frame with bindings := ∅, parent := none }) =
        (a.frames.modify u fun frame => { frame with bindings := ∅, parent := none }).map
          (Frame.map f) :=
      modify_map (fun frame => by simp only [Frame.map, map_empty]) a.frames u
    exact congrArg (Arena.mk · (u :: a.free)) hframes
  · rfl

theorem map_map (g : Value → Value) : (a.map f).map g = a.map (g ∘ f) := by
  simp only [map, Array.map_map, Function.comp_def, Frame.map, Std.ExtTreeMap.map_map]

theorem map_id : a.map id = a := by
  simp only [map, Frame.map, id_eq, Std.ExtTreeMap.map_id, Array.map_id_fun']

end Arena

/-! ## Records -/

def Closure.rename (σ : Nat → Nat) (c : Closure) : Closure :=
  { c with pattern := c.pattern.rename σ, body := c.body.map (Node.rename σ) }

def Object.rename (σ : Nat → Nat) (o : Object) : Object :=
  { o with slots := o.slots.map fun _ v => v.rename σ }

def Dictionary.rename (σ : Nat → Nat) (d : Dictionary) : Dictionary where
  entries := d.entries.map (Prod.map (Value.rename σ) (Value.rename σ))
  attributes := d.attributes.map fun _ v => v.rename σ

def Promise.rename (σ : Nat → Nat) : Promise → Promise
  | .pending node scope => .pending (node.rename σ) scope
  | .forcing => .forcing
  | .forced v => .forced (v.rename σ)

/-- **Other identities for curried values.** -/
structure Renaming where
  tag : Nat → Nat
  /-- How many more identities have been given out. -/
  ahead : Nat

/-- **The store with other identities for the curried values in it.** -/
def Store.rename (ρ : Renaming) (st : Store) : Store where
  closures := st.closures.map (Closure.rename ρ.tag)
  objects := st.objects.map (Object.rename ρ.tag)
  dictionaries := st.dictionaries.map (Dictionary.rename ρ.tag)
  promises := st.promises.map (Promise.rename ρ.tag)
  nextTag := st.nextTag
  nextCurriedTag := st.nextCurriedTag + ρ.ahead

/-- **The state with other identities for the curried values in it.** -/
def State.rename (ρ : Renaming) (s : State) : State :=
  { s with arena := s.arena.map (Value.rename ρ.tag), store := s.store.rename ρ }

namespace Dictionary

variable {σ : Nat → Nat}

/-- **An entry is found under the key that it was under.** -/
theorem get?_rename (hσ : Function.Injective σ) (d : Dictionary) (key : Value) :
    (d.rename σ).get? (key.rename σ) = (d.get? key).map (Value.rename σ) := by
  rw [get?, get?, rename, List.find?_map, Option.map_map, Option.map_map]
  have hkey : (fun entry : Value × Value => entry.1 == key.rename σ) ∘
      Prod.map (Value.rename σ) (Value.rename σ) = fun entry => entry.1 == key := by
    funext entry
    exact Value.beq_rename hσ entry.1 key
  rw [hkey]
  rfl

theorem insert_rename (hσ : Function.Injective σ) (d : Dictionary) (key v : Value) :
    (d.rename σ).insert (key.rename σ) (v.rename σ) = (d.insert key v).rename σ := by
  have hentries : ∀ entries : List (Value × Value),
      insertEntry (key.rename σ) (v.rename σ)
          (entries.map (Prod.map (Value.rename σ) (Value.rename σ))) =
        (insertEntry key v entries).map (Prod.map (Value.rename σ) (Value.rename σ)) := by
    intro entries
    induction entries with
    | nil => rfl
    | cons entry entries ih =>
      simp only [List.map_cons, insertEntry, Prod.map, Value.beq_rename hσ]
      split
      · rfl
      · rw [List.map_cons, ← ih]
        rfl
  simp only [insert, rename, hentries]

theorem setAttribute_rename (d : Dictionary) (name : String) (v : Value) :
    (d.rename σ).setAttribute name (v.rename σ) = (d.setAttribute name v).rename σ := by
  simp only [setAttribute, rename, Arena.map_insert]

end Dictionary

/-! ## Stores -/

namespace Store

variable (ρ : Renaming) (st : Store)

theorem getD_map {α : Type} {f : α → α} {d : α} (hd : f d = d) (xs : Array α) (i : Nat) :
    (xs.map f).getD i d = f (xs.getD i d) := by
  rw [Array.getD_eq_getD_getElem?, Array.getD_eq_getD_getElem?, Array.getElem?_map]
  cases xs[i]? with
  | none => exact hd.symm
  | some a => rfl

theorem closure_rename (id : ClosureId) :
    (st.rename ρ).closure id = (st.closure id).rename ρ.tag :=
  getD_map rfl st.closures id

theorem object_rename (id : ObjectId) : (st.rename ρ).object id = (st.object id).rename ρ.tag :=
  getD_map (congrArg (Object.mk · none) (Arena.map_empty _)) st.objects id

theorem dictionary_rename (id : DictionaryId) :
    (st.rename ρ).dictionary id = (st.dictionary id).rename ρ.tag :=
  getD_map (congrArg (Dictionary.mk []) (Arena.map_empty _)) st.dictionaries id

theorem promise_rename (id : PromiseId) :
    (st.rename ρ).promise id = (st.promise id).rename ρ.tag :=
  getD_map rfl st.promises id

/-! ### Adding records -/

theorem addClosure_rename (c : Closure) : (st.rename ρ).addClosure (c.rename ρ.tag) =
    ((st.addClosure c).1, (st.addClosure c).2.rename ρ) := by
  simp only [addClosure, rename, Array.size_map, Array.map_push]

theorem addObject_rename (o : Object) : (st.rename ρ).addObject (o.rename ρ.tag) =
    ((st.addObject o).1, (st.addObject o).2.rename ρ) := by
  simp only [addObject, rename, Array.size_map, Array.map_push]

theorem addDictionary_rename (d : Dictionary) : (st.rename ρ).addDictionary (d.rename ρ.tag) =
    ((st.addDictionary d).1, (st.addDictionary d).2.rename ρ) := by
  simp only [addDictionary, rename, Array.size_map, Array.map_push]

theorem addPromise_rename (p : Promise) : (st.rename ρ).addPromise (p.rename ρ.tag) =
    ((st.addPromise p).1, (st.addPromise p).2.rename ρ) := by
  simp only [addPromise, rename, Array.size_map, Array.map_push]

/-! ### Slots, entries, attributes and promises -/

theorem slot?_rename (id : ObjectId) (name : String) :
    (st.rename ρ).slot? id name = (st.slot? id name).map (Value.rename ρ.tag) := by
  have hprototypes : ∀ n id, (st.rename ρ).prototypesFrom n id = st.prototypesFrom n id := by
    intro n
    induction n with
    | zero => exact fun _ => rfl
    | succ n ih =>
      intro id
      have hprototype : ((st.rename ρ).object id).prototype = (st.object id).prototype := by
        rw [object_rename]
        rfl
      rw [prototypesFrom, prototypesFrom, hprototype]
      cases (st.object id).prototype with
      | none => rfl
      | some proto => simp only [ih]
  have hsize : (st.rename ρ).objects.size = st.objects.size := Array.size_map
  rw [slot?, slot?, prototypes, prototypes, hsize, hprototypes, List.map_findSome?]
  congr 1
  funext o
  rw [object_rename]
  exact Std.ExtTreeMap.getElem?_map

theorem setSlot_rename (id : ObjectId) (name : String) (v : Value) :
    (st.rename ρ).setSlot id name (v.rename ρ.tag) = (st.setSlot id name v).rename ρ := by
  have hobjects : (st.objects.map (Object.rename ρ.tag)).modify id
        (fun o => { o with slots := o.slots.insert name (v.rename ρ.tag) }) =
      (st.objects.modify id fun o => { o with slots := o.slots.insert name v }).map
        (Object.rename ρ.tag) :=
    modify_map (fun o => by simp only [Object.rename, Arena.map_insert]) st.objects id
  simp only [setSlot, rename, hobjects]

theorem setEntry_rename (hρ : Function.Injective ρ.tag) (id : DictionaryId) (key v : Value) :
    (st.rename ρ).setEntry id (key.rename ρ.tag) (v.rename ρ.tag) =
      (st.setEntry id key v).rename ρ := by
  have hdictionaries : (st.dictionaries.map (Dictionary.rename ρ.tag)).modify id
        (fun d => d.insert (key.rename ρ.tag) (v.rename ρ.tag)) =
      (st.dictionaries.modify id fun d => d.insert key v).map (Dictionary.rename ρ.tag) :=
    modify_map (fun d => d.insert_rename hρ key v) st.dictionaries id
  simp only [setEntry, rename, hdictionaries]

theorem setAttribute_rename (id : DictionaryId) (name : String) (v : Value) :
    (st.rename ρ).setAttribute id name (v.rename ρ.tag) = (st.setAttribute id name v).rename ρ := by
  have hdictionaries : (st.dictionaries.map (Dictionary.rename ρ.tag)).modify id
        (fun d => d.setAttribute name (v.rename ρ.tag)) =
      (st.dictionaries.modify id fun d => d.setAttribute name v).map (Dictionary.rename ρ.tag) :=
    modify_map (fun d => d.setAttribute_rename name v) st.dictionaries id
  simp only [setAttribute, rename, hdictionaries]

theorem setPromise_rename (id : PromiseId) (p : Promise) :
    (st.rename ρ).setPromise id (p.rename ρ.tag) = (st.setPromise id p).rename ρ := by
  have hpromises : (st.promises.map (Promise.rename ρ.tag)).modify id (fun _ => p.rename ρ.tag) =
      (st.promises.modify id fun _ => p).map (Promise.rename ρ.tag) :=
    modify_map (f := Promise.rename ρ.tag) (g := fun _ => p) (fun _ => rfl) st.promises id
  simp only [setPromise, rename, hpromises]

/-! ### Texts -/

/-- **Every value prints as before.** -/
theorem text_rename (v : Value) : (st.rename ρ).text (v.rename ρ.tag) = st.text v := by
  have hrecord : ∀ {write write' : Value → String}, (∀ v, write' (v.rename ρ.tag) = write v) →
      ∀ v, (st.rename ρ).recordText write' (v.rename ρ.tag) = st.recordText write v := by
    intro write write' hwrite v
    cases v with
    | object id =>
      simp only [Value.rename, recordText, object_rename, Object.rename, Std.ExtTreeMap.toList_map,
        List.map_map, Function.comp_def, hwrite]
    | dictionary id =>
      simp only [Value.rename, recordText, dictionary_rename, Dictionary.rename, List.map_map,
        Function.comp_def, Prod.map, hwrite]
    | promise id =>
      simp only [Value.rename, recordText, promise_rename]
      cases st.promise id with
      | forced v => simp only [Promise.rename, hwrite]
      | pending node scope | forcing => rfl
    | _ => rfl
  have hwrite : ∀ n place v,
      (st.rename ρ).write n place (v.rename ρ.tag) = st.write n place v := by
    intro n
    induction n with
    | zero => exact fun place v => Value.write_rename (fun _ => rfl) place v
    | succ n ih => exact fun place v => Value.write_rename (hrecord (ih .inside)) place v
  have hcount : (st.rename ρ).recordCount = st.recordCount := by
    simp only [recordCount, rename, Array.size_map]
  rw [text, text, hcount, hwrite]

end Store

/-! ## Moments and outcomes -/

def Moment.rename (σ : Nat → Nat) : Moment → Moment
  | .evaluating node scope => .evaluating (node.rename σ) scope
  | .calling callee arg scope => .calling (callee.rename σ) (arg.rename σ) scope
  | .answering v => .answering (v.rename σ)
  | .failing e => .failing (e.rename σ)

/-- **The same end, renamed**, where `f` renames what is returned. -/
def Outcome.rename {α β : Type} (ρ : Renaming) (f : α → β) :
    Outcome RunError α → Outcome RunError β
  | .ok a s => .ok (f a) (s.rename ρ)
  | .error e s => .error (e.rename ρ.tag) (s.rename ρ)
  | .stopped m s => .stopped (m.rename ρ.tag) (s.rename ρ)

theorem Outcome.state_rename {α β : Type} (ρ : Renaming) (f : α → β) (o : Outcome RunError α) :
    (o.rename ρ f).state = o.state.rename ρ := by
  cases o <;> rfl

/-! ## One renaming after another -/

namespace Renaming

/-- The renaming that changes nothing. -/
def refl : Renaming := ⟨id, 0⟩

def trans (ρ π : Renaming) : Renaming := ⟨π.tag ∘ ρ.tag, ρ.ahead + π.ahead⟩

end Renaming

section Laws

variable (σ τ : Nat → Nat)

theorem rename_comp_eq : Value.rename τ ∘ Value.rename σ = Value.rename (τ ∘ σ) :=
  funext (Value.rename_comp σ τ)

theorem rename_id_eq : Value.rename id = id := funext Value.rename_id

theorem Closure.rename_comp (c : Closure) : (c.rename σ).rename τ = c.rename (τ ∘ σ) := by
  simp only [rename, Pattern.rename_comp, List.map_map, Function.comp_def, Node.rename_comp]

theorem Closure.rename_id (c : Closure) : c.rename id = c := by
  simp only [rename, Pattern.rename_id, funext Node.rename_id, List.map_id_fun', id_eq]

theorem Object.rename_comp (o : Object) : (o.rename σ).rename τ = o.rename (τ ∘ σ) := by
  simp only [rename, Std.ExtTreeMap.map_map, Value.rename_comp]

theorem Object.rename_id (o : Object) : o.rename id = o := by
  simp only [rename, Value.rename_id, Std.ExtTreeMap.map_id]

theorem Dictionary.rename_comp (d : Dictionary) : (d.rename σ).rename τ = d.rename (τ ∘ σ) := by
  simp only [rename, List.map_map, Prod.map_comp_map, rename_comp_eq, Std.ExtTreeMap.map_map,
    Value.rename_comp]

theorem Dictionary.rename_id (d : Dictionary) : d.rename id = d := by
  simp only [rename, rename_id_eq, Prod.map_id, List.map_id, Std.ExtTreeMap.map_id,
    Value.rename_id]

theorem Promise.rename_comp (p : Promise) : (p.rename σ).rename τ = p.rename (τ ∘ σ) := by
  cases p with
  | pending node scope => exact congrArg (Promise.pending · scope) (node.rename_comp σ τ)
  | forcing => rfl
  | forced v => exact congrArg Promise.forced (v.rename_comp σ τ)

theorem Promise.rename_id (p : Promise) : p.rename id = p := by
  cases p with
  | pending node scope => exact congrArg (Promise.pending · scope) node.rename_id
  | forcing => rfl
  | forced v => exact congrArg Promise.forced v.rename_id

theorem RunError.rename_comp (e : RunError) : (e.rename σ).rename τ = e.rename (τ ∘ σ) := by
  cases e with
  | misuse procedure cause =>
    cases cause with
    | cannotBind node | notAnAlternative node | notASlot node =>
      simp only [rename, Misuse.rename, Node.rename_comp]
    | _ => rfl
  | _ => rfl

theorem RunError.rename_id (e : RunError) : e.rename id = e := by
  cases e with
  | misuse procedure cause =>
    cases cause with
    | cannotBind node | notAnAlternative node | notASlot node =>
      simp only [rename, Misuse.rename, Node.rename_id]
    | _ => rfl
  | _ => rfl

theorem Moment.rename_comp (m : Moment) : (m.rename σ).rename τ = m.rename (τ ∘ σ) := by
  cases m <;> simp only [rename, Node.rename_comp, Value.rename_comp, RunError.rename_comp]

theorem Moment.rename_id (m : Moment) : m.rename id = m := by
  cases m <;> simp only [rename, Node.rename_id, Value.rename_id, RunError.rename_id]

end Laws

theorem Store.rename_trans (ρ π : Renaming) (st : Store) :
    (st.rename ρ).rename π = st.rename (ρ.trans π) := by
  simp only [rename, Renaming.trans, Array.map_map, Function.comp_def, Closure.rename_comp,
    Object.rename_comp, Dictionary.rename_comp, Promise.rename_comp, Nat.add_assoc]

theorem Store.rename_refl (st : Store) : st.rename .refl = st := by
  simp only [rename, Renaming.refl, funext Closure.rename_id, funext Object.rename_id,
    funext Dictionary.rename_id, funext Promise.rename_id, Array.map_id_fun', Nat.add_zero, id_eq]

theorem State.rename_trans (ρ π : Renaming) (s : State) :
    (s.rename ρ).rename π = s.rename (ρ.trans π) := by
  simp only [rename, Arena.map_map, rename_comp_eq, Store.rename_trans]
  rfl

theorem State.rename_refl (s : State) : s.rename .refl = s := by
  have harena : s.arena.map (Value.rename Renaming.refl.tag) = s.arena := by
    rw [Renaming.refl, rename_id_eq, Arena.map_id]
  simp only [rename, harena, Store.rename_refl]

/-- Distinct moments stay distinct. -/
theorem Moment.rename_injective {σ : Nat → Nat} (hσ : Function.Injective σ) :
    Function.Injective (Moment.rename σ) := by
  obtain ⟨τ, hτ⟩ := hσ.hasLeftInverse
  refine Function.LeftInverse.injective (g := Moment.rename τ) fun m => ?_
  rw [Moment.rename_comp, hτ.comp_eq_id, Moment.rename_id]

/-- Distinct states stay distinct. -/
theorem State.rename_injective {σ : Nat → Nat} (hσ : Function.Injective σ) :
    Function.Injective (State.rename ⟨σ, 0⟩) := by
  obtain ⟨τ, hτ⟩ := hσ.hasLeftInverse
  refine Function.LeftInverse.injective (g := State.rename ⟨τ, 0⟩) fun s => ?_
  have hrefl : Renaming.trans ⟨σ, 0⟩ ⟨τ, 0⟩ = .refl := by
    rw [Renaming.trans, hτ.comp_eq_id]
    rfl
  rw [State.rename_trans, hrefl, State.rename_refl]

end Fexpr
