import Fexpr.Proofs.Renaming.Pattern

/-!
# Proofs/Renaming/Primitive — functions and primitives under other identities

Functions, promises, slots and then the primitives, in the order of their definitions.  Giving out
an identity for a curried value (`curry`) is the one place where the renaming has to keep up.
-/

namespace Fexpr

open Renaming

theorem Node.bodyForms_rename (ρ : Renaming) (body : Node) :
    (body.rename ρ.tag).bodyForms = ρ.result (List.map (rename ρ.tag)) body.bodyForms := by
  rw [bodyForms, bodyForms, elements_rename]
  cases body.elements.2 <;> rfl

namespace Evaluator.Equivariant

variable {ρ : Renaming} {r : Evaluator} {scope : ScopeId}

/-! ## Making functions -/

theorem makeClosure (h : r.Equivariant ρ) (pattern body : Node) :
    ρ.Follows id (Closure.make r pattern body scope)
      (Closure.make r (pattern.rename ρ.tag) (body.rename ρ.tag) scope) := by
  refine (build h pattern).bind fun p => ?_
  rw [Node.bodyForms_rename]
  refine (Follows.ofExcept body.bodyForms).bind fun forms => ?_
  refine (Follows.capture scope).bind fun _ => ?_
  exact .allocate (fun st => st.addClosure_rename ρ ⟨p, forms, scope⟩) fun _ => rfl

theorem ofArguments (h : r.Equivariant ρ) (arg : Node) :
    ρ.Follows id (Closure.ofArguments r arg scope)
      (Closure.ofArguments r (arg.rename ρ.tag) scope) := by
  cases arg with
  | pair pattern body | form pattern body => exact makeClosure h pattern body
  | _ => exact .fail

theorem shorthand (ρ : Renaming) (arg : Node) :
    ρ.Follows id (Closure.shorthand arg scope) (Closure.shorthand (arg.rename ρ.tag) scope) := by
  have hbody : ∀ body : List Node, ρ.Follows id
      (do
        Eval.modifyArena (·.capture scope)
        Eval.allocate (·.addClosure { pattern := .defaultArguments, body, scope }))
      (do
        Eval.modifyArena (·.capture scope)
        Eval.allocate (·.addClosure
          { pattern := .defaultArguments, body := body.map (Node.rename ρ.tag), scope })) :=
    fun body => (Follows.capture scope).bind fun _ =>
      .allocate (fun st => st.addClosure_rename ρ ⟨.defaultArguments, body, scope⟩) fun _ => rfl
  cases arg with
  | pair head args | form head args => exact hbody [.form head args]
  | _ => exact hbody []

theorem makeAll (h : r.Equivariant ρ) (alternatives : List Node) :
    ρ.Follows id (Closure.makeAll r scope alternatives)
      (Closure.makeAll r scope (alternatives.map (Node.rename ρ.tag))) := by
  induction alternatives with
  | nil => exact .pure
  | cons alternative alternatives ih =>
    cases alternative with
    | pair pattern body | form pattern body =>
      exact (makeClosure h pattern body).bind fun f => ih.map fun _ => rfl
    | _ => exact .fail

/-! ## Calling functions -/

theorem bindReceiver (ρ : Renaming) (frame : ScopeId) (receiver : Option Value) :
    ρ.Follows id (Closure.bindReceiver frame receiver)
      (Closure.bindReceiver frame (receiver.map (Value.rename ρ.tag))) := by
  cases receiver with
  | none => exact .pure
  | some v => exact .bindName .inward frame "this" v

theorem runForms (h : r.Equivariant ρ) {frame : ScopeId} (latest : Value) (forms : List Node) :
    ρ.Follows (Value.rename ρ.tag) (Closure.runForms r frame latest forms)
      (Closure.runForms r frame (latest.rename ρ.tag) (forms.map (Node.rename ρ.tag))) := by
  induction forms generalizing latest with
  | nil => exact .pure
  | cons form forms ih =>
    exact (h.eval form frame).bind fun v =>
      (Follows.bindName .inward frame "-" v).bind fun _ => ih v

theorem runBody (h : r.Equivariant ρ) {frame : ScopeId} (f : Closure) :
    ρ.Follows (Value.rename ρ.tag) (f.runBody r frame) ((f.rename ρ.tag).runBody r frame) := by
  have hforms : ρ.Follows (Value.rename ρ.tag) (Closure.runForms r frame .void f.body)
      (Closure.runForms r frame .void (f.body.map (Node.rename ρ.tag))) :=
    runForms h .void f.body
  have hbound : ρ.Follows id (Eval.gets fun s => s.arena.has frame "-")
      (Eval.gets fun s => s.arena.has frame "-") := .gets fun s => s.arena.has_map _ frame "-"
  refine hbound.bind fun bound => ?_
  cases bound with
  | true => exact hforms
  | false => exact (Follows.bindName .inward frame "-" .void).bind fun _ => hforms

/-- **A renamed function answers the renamed arguments with the renamed answer.** -/
theorem receive? (h : r.Equivariant ρ) (f : Closure) (target : Value) (receiver : Option Value) :
    ρ.Follows (Option.map (Value.rename ρ.tag)) (f.receive? r target receiver)
      ((f.rename ρ.tag).receive? r (target.rename ρ.tag)
        (receiver.map (Value.rename ρ.tag))) := by
  refine Follows.withFrame (fun frame => (bindReceiver ρ frame receiver).bind fun _ => ?_) f.scope
  refine (matchWith h f.pattern (some target)).bind fun accepted => ?_
  cases accepted with
  | true => exact (runBody h f).map fun _ => rfl
  | false => exact .pure

/-- Looking a function up by its number. -/
theorem readClosure (ρ : Renaming) (id : ClosureId) :
    ρ.Follows (Closure.rename ρ.tag) (Eval.gets fun s => s.store.closure id)
      (Eval.gets fun s => s.store.closure id) :=
  .gets fun s => s.store.closure_rename ρ id

theorem invoke (h : r.Equivariant ρ) (id : ClosureId) (arg : Node) (receiver : Option Value) :
    ρ.Follows (Value.rename ρ.tag)
      (do
        let f ← Eval.gets fun s => s.store.closure id
        f.invoke r arg scope receiver)
      (do
        let f ← Eval.gets fun s => s.store.closure id
        f.invoke r (arg.rename ρ.tag) scope (receiver.map (Value.rename ρ.tag))) := by
  refine (readClosure ρ id).bind fun f => ?_
  rw [Closure.invoke_eq, Closure.invoke_eq, Closure.call?_eq, Closure.call?_eq]
  exact ((h.eval arg scope).bind fun target => receive? h f target receiver).bind
    Follows.orMismatch

theorem alternative (h : r.Equivariant ρ) (args : Node) (id : ClosureId) :
    ρ.Follows (Option.map (Value.rename ρ.tag)) (Closure.alternative r args scope id)
      (Closure.alternative r (args.rename ρ.tag) scope id) := by
  refine (readClosure ρ id).bind fun f => ?_
  rw [Closure.call?_eq, Closure.call?_eq]
  exact (h.eval args scope).bind fun target => receive? h f target none

theorem invokeAny (h : r.Equivariant ρ) (alternatives : List ClosureId) (arg : Node) :
    ρ.Follows (Value.rename ρ.tag) (Closure.invokeAny r alternatives arg scope)
      (Closure.invokeAny r alternatives (arg.rename ρ.tag) scope) := by
  rw [Closure.invokeAny_eq, Closure.invokeAny_eq]
  exact (h.eval arg scope).bind fun args =>
    .choose alternatives fun id => alternative h (.quoted args) id

/-! ## Promises -/

theorem setPromise (ρ : Renaming) (n : PromiseId) (p : Promise) :
    ρ.Follows id (Eval.modifyStore (·.setPromise n p))
      (Eval.modifyStore (·.setPromise n (p.rename ρ.tag))) :=
  .modifyStore (fun st => st.setPromise_rename ρ n p) fun _ => rfl

/-- **A promise is forced alike.** -/
theorem force (h : r.Equivariant ρ) (n : PromiseId) :
    ρ.Follows (Value.rename ρ.tag) (Promise.force r n) (Promise.force r n) := by
  rw [Promise.force_eq]
  have hread : ρ.Follows (Promise.rename ρ.tag) (Eval.gets fun s => s.store.promise n)
      (Eval.gets fun s => s.store.promise n) := .gets fun s => s.store.promise_rename ρ n
  refine hread.bind fun p => ?_
  cases p with
  | forced v => exact .pure
  | forcing => exact .fail
  | pending node u =>
    have htrace : ρ.Follows id (Eval.trace fun _ => "forcing promise of " ++ node.text)
        (Eval.trace fun _ => "forcing promise of " ++ (node.rename ρ.tag).text) :=
      .trace fun _ => by rw [Node.text_rename]
    refine (setPromise ρ n .forcing).bind fun _ => htrace.bind fun _ => ?_
    refine ((h.eval node u).onError (setPromise ρ n (.pending node u))).bind fun v => ?_
    exact (setPromise ρ n (.forced v)).bind fun _ => .pure

theorem forceValue (h : r.Equivariant ρ) (v : Value) :
    ρ.Follows (Value.rename ρ.tag) (Promise.forceValue r v)
      (Promise.forceValue r (v.rename ρ.tag)) := by
  cases v with
  | promise n => exact force h n
  | _ => exact .pure

/-! ## Slots -/

/-- A value of the wrong type. -/
theorem typeMismatch {α β : Type} (ρ : Renaming) (f : α → β) (v : Value)
    (procedure expected : String) :
    ρ.Follows f (Eval.fail (v.typeMismatch procedure expected))
      (Eval.fail ((v.rename ρ.tag).typeMismatch procedure expected)) := by
  rw [Value.typeMismatch_rename]
  exact .fail

theorem nameOf (h : r.Equivariant ρ) {procedure : String} (key : Node) :
    ρ.Follows id (Slot.nameOf r procedure key scope)
      (Slot.nameOf r procedure (key.rename ρ.tag) scope) := by
  cases key with
  | identifier name => exact .pure
  | _ =>
    refine (h.eval _ scope).bind fun v => ?_
    cases v with
    | symbol name => exact .pure
    | _ => exact .fail

theorem bindTo (ρ : Renaming) (receiver v : Value) :
    ρ.Follows (Value.rename ρ.tag) (Slot.bindTo receiver v)
      (Slot.bindTo (receiver.rename ρ.tag) (v.rename ρ.tag)) := by
  cases v with
  | method f => exact Follows.freshTag.map fun _ => rfl
  | _ => exact .pure

/-- What is kept under a name, bound to where it was read from. -/
theorem bound (ρ : Renaming) (receiver : Value) {lookup : State → Option Value} {e : RunError}
    (hlookup : ∀ s, lookup (s.rename ρ) = (lookup s).map (Value.rename ρ.tag))
    (he : e.rename ρ.tag = e) :
    ρ.Follows (Value.rename ρ.tag)
      (do
        match ← Eval.gets lookup with
        | some v => Slot.bindTo receiver v
        | none => Eval.fail e)
      (do
        match ← Eval.gets lookup with
        | some v => Slot.bindTo (receiver.rename ρ.tag) v
        | none => Eval.fail e) := by
  refine (Follows.gets hlookup).bind fun found => ?_
  cases found with
  | some v => exact bindTo ρ receiver v
  | none =>
    have hfail : ρ.Follows (Value.rename ρ.tag) (Eval.fail e : Eval Value)
        (Eval.fail (e.rename ρ.tag)) := .fail
    rw [he] at hfail
    exact hfail

theorem readText (ρ : Renaming) (v : Value) :
    ρ.Follows id (Eval.gets fun s => s.store.text v)
      (Eval.gets fun s => s.store.text (v.rename ρ.tag)) :=
  .gets fun s => s.store.text_rename ρ v

/-- **What is read from a renamed value is the renamed slot or entry.** -/
theorem readSlot (h : r.Equivariant ρ) (target : Value) (key : Node) :
    ρ.Follows (Value.rename ρ.tag) (Slot.read r target key scope)
      (Slot.read r (target.rename ρ.tag) (key.rename ρ.tag) scope) := by
  cases target with
  | object n =>
    exact (nameOf h key).bind fun name =>
      bound ρ (.object n) (fun s => s.store.slot?_rename ρ n name) rfl
  | dictionary n =>
    have hentry : ∀ key : Node, ρ.Follows (Value.rename ρ.tag)
        (do
          let key ← r.eval key scope
          match ← Eval.gets fun s => (s.store.dictionary n).get? key with
          | some v => return v
          | none => Slot.missing (.noEntry (← Eval.gets fun s => s.store.text key)))
        (do
          let key ← r.eval (key.rename ρ.tag) scope
          match ← Eval.gets fun s => (s.store.dictionary n).get? key with
          | some v => return v
          | none => Slot.missing (.noEntry (← Eval.gets fun s => s.store.text key))) := by
      refine fun key => (h.eval key scope).bind fun k => ?_
      have hread : ρ.Follows (Option.map (Value.rename ρ.tag))
          (Eval.gets fun s => (s.store.dictionary n).get? k)
          (Eval.gets fun s => (s.store.dictionary n).get? (k.rename ρ.tag)) := .gets fun s => by
        change ((s.store.rename ρ).dictionary n).get? _ = _
        rw [Store.dictionary_rename, Dictionary.get?_rename h.injective]
      refine hread.bind fun found => ?_
      cases found with
      | some v => exact .pure
      | none => exact (readText ρ k).bind fun _ => .fail
    cases key with
    | identifier name =>
      refine bound ρ (.dictionary n) (fun s => ?_) rfl
      change ((s.store.rename ρ).dictionary n).attributes[name]? = _
      rw [Store.dictionary_rename]
      exact Std.ExtTreeMap.getElem?_map
    | _ => exact hentry _
  | pair car cdr =>
    refine (nameOf h key).bind fun name => ?_
    simp only [id_eq]
    cases name == "car" with
    | true => exact .pure
    | false =>
      cases name == "cdr" with
      | true => exact forceValue h cdr
      | false =>
        cases name == "cdr-slot" with
        | true => exact .pure
        | false => exact .fail
  | _ => exact .fail

theorem writeSlot (h : r.Equivariant ρ) (target : Value) (key value : Node) :
    ρ.Follows (Value.rename ρ.tag) (Slot.write r target key value scope)
      (Slot.write r (target.rename ρ.tag) (key.rename ρ.tag) (value.rename ρ.tag) scope) := by
  cases target with
  | object n =>
    refine (nameOf h key).bind fun name => (h.eval value scope).bind fun v => ?_
    have hset : ρ.Follows id (Eval.modifyStore (·.setSlot n name v))
        (Eval.modifyStore (·.setSlot n name (v.rename ρ.tag))) :=
      .modifyStore (fun st => st.setSlot_rename ρ n name v) fun _ => rfl
    exact hset.bind fun _ => .pure
  | dictionary n =>
    have hentry : ∀ key : Node, ρ.Follows (Value.rename ρ.tag)
        (do
          let key ← r.eval key scope
          let v ← r.eval value scope
          Eval.modifyStore (·.setEntry n key v)
          return v)
        (do
          let key ← r.eval (key.rename ρ.tag) scope
          let v ← r.eval (value.rename ρ.tag) scope
          Eval.modifyStore (·.setEntry n key v)
          return v) := by
      refine fun key => (h.eval key scope).bind fun k => (h.eval value scope).bind fun v => ?_
      have hset : ρ.Follows id (Eval.modifyStore (·.setEntry n k v))
          (Eval.modifyStore (·.setEntry n (k.rename ρ.tag) (v.rename ρ.tag))) :=
        .modifyStore (fun st => st.setEntry_rename ρ h.injective n k v) fun _ => rfl
      exact hset.bind fun _ => .pure
    cases key with
    | identifier name =>
      refine (h.eval value scope).bind fun v => ?_
      have hset : ρ.Follows id (Eval.modifyStore (·.setAttribute n name v))
          (Eval.modifyStore (·.setAttribute n name (v.rename ρ.tag))) :=
        .modifyStore (fun st => st.setAttribute_rename ρ n name v) fun _ => rfl
      exact hset.bind fun _ => .pure
    | _ => exact hentry _
  | _ => exact .fail

/-! ## Objects and dictionaries -/

theorem ofItem (h : r.Equivariant ρ) (item : Node) :
    ρ.Follows (Prod.map id (Value.rename ρ.tag)) (Slot.ofItem r item scope)
      (Slot.ofItem r (item.rename ρ.tag) scope) := by
  cases item with
  | identifier name => exact (h.eval (.identifier name) scope).map fun _ => rfl
  | form head args =>
    refine (h.eval head scope).bind fun v => ?_
    have hother : ∀ v : Value, ρ.Follows (Prod.map id (Value.rename ρ.tag))
        (Eval.fail (v.typeMismatch "object" "slot") : Eval (String × Value))
        (Eval.fail ((v.rename ρ.tag).typeMismatch "object" "slot")) :=
      fun v => typeMismatch ρ _ v "object" "slot"
    cases v with
    | builtin b =>
      cases b with
      | cons =>
        exact (twoArguments ρ args).bind fun p => (nameOf h p.1).bind fun name =>
          (h.eval p.2 scope).map fun _ => rfl
      | get =>
        exact (twoArguments ρ args).bind fun p => (nameOf h p.2).bind fun name =>
          (h.call (.builtin .get) args scope).map fun _ => rfl
      | _ => exact hother _
    | _ => exact hother _
  | _ => exact .fail

theorem ofItems (h : r.Equivariant ρ) (slots : Bindings) (items : List Node) :
    ρ.Follows (Std.ExtTreeMap.map fun _ v => v.rename ρ.tag) (Slot.ofItems r scope slots items)
      (Slot.ofItems r scope (slots.map fun _ v => v.rename ρ.tag)
        (items.map (Node.rename ρ.tag))) := by
  induction items generalizing slots with
  | nil => exact .pure
  | cons item items ih =>
    refine (ofItem h item).bind fun slot => ?_
    have hslots := ih (slots.insert slot.1 slot.2)
    rw [Arena.map_insert] at hslots
    exact hslots

theorem buildObject (h : r.Equivariant ρ) (prototype : Option ObjectId) (arg : Node) :
    ρ.Follows (Value.rename ρ.tag) (Slot.buildObject r prototype arg scope)
      (Slot.buildObject r prototype (arg.rename ρ.tag) scope) := by
  have hslots : ρ.Follows (Std.ExtTreeMap.map fun _ v => v.rename ρ.tag)
      (Slot.ofItems r scope ∅ arg.elements.1)
      (Slot.ofItems r scope ∅ (arg.elements.1.map (Node.rename ρ.tag))) := by
    have hitems := @ofItems _ _ scope h ∅ arg.elements.1
    rwa [Arena.map_empty] at hitems
  rw [Slot.buildObject, Slot.buildObject, Node.elements_rename]
  cases arg.elements.2 with
  | nil =>
    refine hslots.bind fun slots => ?_
    have hnew : ρ.Follows id (Eval.allocate (·.addObject { slots, prototype }))
        (Eval.allocate (·.addObject
          { slots := slots.map fun _ v => v.rename ρ.tag, prototype })) :=
      .allocate (fun st => st.addObject_rename ρ ⟨slots, prototype⟩) fun _ => rfl
    exact hnew.map fun _ => rfl
  | _ => exact .fail

theorem entriesOf (h : r.Equivariant ρ) (dict : Dictionary) (items : List Node) :
    ρ.Follows (Dictionary.rename ρ.tag) (Slot.entriesOf r scope dict items)
      (Slot.entriesOf r scope (dict.rename ρ.tag) (items.map (Node.rename ρ.tag))) := by
  induction items generalizing dict with
  | nil => exact .pure
  | cons item items ih =>
    refine (h.eval item scope).bind fun v => ?_
    cases v with
    | pair key v =>
      have hentries := ih (dict.insert key v)
      rw [← Dictionary.insert_rename h.injective] at hentries
      exact hentries
    | _ => exact .fail

theorem buildDictionary (h : r.Equivariant ρ) (arg : Node) :
    ρ.Follows (Value.rename ρ.tag) (Slot.buildDictionary r arg scope)
      (Slot.buildDictionary r (arg.rename ρ.tag) scope) := by
  have hempty : Dictionary.rename ρ.tag {} = {} := congrArg (Dictionary.mk []) (Arena.map_empty _)
  have hentries : ρ.Follows (Dictionary.rename ρ.tag) (Slot.entriesOf r scope {} arg.elements.1)
      (Slot.entriesOf r scope {} (arg.elements.1.map (Node.rename ρ.tag))) := by
    have hitems := @entriesOf _ _ scope h {} arg.elements.1
    rwa [hempty] at hitems
  rw [Slot.buildDictionary, Slot.buildDictionary, Node.elements_rename]
  cases arg.elements.2 with
  | nil =>
    refine hentries.bind fun dict => ?_
    have hnew : ρ.Follows id (Eval.allocate (·.addDictionary dict))
        (Eval.allocate (·.addDictionary (dict.rename ρ.tag))) :=
      .allocate (fun st => st.addDictionary_rename ρ dict) fun _ => rfl
    exact hnew.map fun _ => rfl
  | _ => exact .fail

/-! ## The primitives -/

section Primitives

variable (arg : Node)

theorem primitive_print (h : r.Equivariant ρ) :
    ρ.Follows (Value.rename ρ.tag) (Primitive.print r arg scope)
      (Primitive.print r (arg.rename ρ.tag) scope) :=
  (evalArgument h arg).bind fun v => (readText ρ v).bind fun text =>
    (Follows.print (text ++ "\n")).bind fun _ => .pure

theorem integerOf (ρ : Renaming) {procedure : String} (v : Value) :
    ρ.Follows id (Primitive.integerOf procedure v)
      (Primitive.integerOf procedure (v.rename ρ.tag)) := by
  cases v with
  | integer n => exact .pure
  | _ => exact .fail

theorem primitive_add (h : r.Equivariant ρ) :
    ρ.Follows (Value.rename ρ.tag) (Primitive.add r arg scope)
      (Primitive.add r (arg.rename ρ.tag) scope) := by
  refine (evalTwoArguments h arg).bind fun p => (integerOf ρ p.1).bind fun m =>
    (integerOf ρ p.2).bind fun n => ?_
  simp only [id_eq]
  cases inIntegerRange (m + n) with
  | true => exact .pure
  | false => exact .fail

theorem primitive_parity (h : r.Equivariant ρ) {procedure : String} {remainder : Int} :
    ρ.Follows (Value.rename ρ.tag) (Primitive.parity r arg scope procedure remainder)
      (Primitive.parity r (arg.rename ρ.tag) scope procedure remainder) :=
  (evalArgument h arg).bind fun v => (integerOf ρ v).map fun _ => rfl

theorem primitive_eq (h : r.Equivariant ρ) :
    ρ.Follows (Value.rename ρ.tag) (Primitive.eq r arg scope)
      (Primitive.eq r (arg.rename ρ.tag) scope) :=
  (evalTwoArguments h arg).map fun p =>
    congrArg Value.bool (Value.beq_rename h.injective p.1 p.2)

theorem primitive_define (h : r.Equivariant ρ) {procedure : String} {binding : Binding} :
    ρ.Follows (Value.rename ρ.tag) (Primitive.define r arg scope procedure binding)
      (Primitive.define r (arg.rename ρ.tag) scope procedure binding) := by
  refine (twoArguments ρ arg).bind fun p => ?_
  obtain ⟨target, value⟩ := p
  cases target with
  | identifier name =>
    exact (h.eval value scope).bind fun v =>
      (Follows.bindName binding scope name v).bind fun _ => .pure
  | _ => exact .fail

theorem primitive_ifElse (h : r.Equivariant ρ) :
    ρ.Follows (Value.rename ρ.tag) (Primitive.ifElse r arg scope)
      (Primitive.ifElse r (arg.rename ρ.tag) scope) := by
  refine (threeArguments ρ arg).bind fun p => (h.eval p.1 scope).bind fun v => ?_
  cases v with
  | bool b =>
    cases b with
    | true => exact h.eval p.2.1 scope
    | false => exact h.eval p.2.2 scope
  | _ => exact .fail

theorem primitive_list (h : r.Equivariant ρ) :
    ρ.Follows (Value.rename ρ.tag) (Primitive.list r arg scope)
      (Primitive.list r (arg.rename ρ.tag) scope) := by
  cases arg with
  | nil | pair _ _ => exact h.eval _ scope
  | _ => exact .fail

theorem primitive_cons (h : r.Equivariant ρ) :
    ρ.Follows (Value.rename ρ.tag) (Primitive.cons r arg scope)
      (Primitive.cons r (arg.rename ρ.tag) scope) :=
  (evalTwoArguments h arg).map fun _ => rfl

theorem halvesOf (ρ : Renaming) {procedure : String} (v : Value) :
    ρ.Follows (Prod.map (Value.rename ρ.tag) (Value.rename ρ.tag))
      (Primitive.halvesOf procedure v) (Primitive.halvesOf procedure (v.rename ρ.tag)) := by
  cases v with
  | pair car cdr => exact .pure
  | _ => exact .fail

theorem primitive_car (h : r.Equivariant ρ) :
    ρ.Follows (Value.rename ρ.tag) (Primitive.car r arg scope)
      (Primitive.car r (arg.rename ρ.tag) scope) :=
  (evalArgument h arg).bind fun v => (halvesOf ρ v).map fun _ => rfl

theorem primitive_cdr (h : r.Equivariant ρ) :
    ρ.Follows (Value.rename ρ.tag) (Primitive.cdr r arg scope)
      (Primitive.cdr r (arg.rename ρ.tag) scope) :=
  (evalArgument h arg).bind fun v => (halvesOf ρ v).bind fun p => forceValue h p.2

theorem primitive_get (h : r.Equivariant ρ) :
    ρ.Follows (Value.rename ρ.tag) (Primitive.get r arg scope)
      (Primitive.get r (arg.rename ρ.tag) scope) :=
  (twoArguments ρ arg).bind fun p => (h.eval p.1 scope).bind fun v => readSlot h v p.2

theorem primitive_set (h : r.Equivariant ρ) :
    ρ.Follows (Value.rename ρ.tag) (Primitive.set r arg scope)
      (Primitive.set r (arg.rename ρ.tag) scope) :=
  (threeArguments ρ arg).bind fun p => (h.eval p.1 scope).bind fun v =>
    writeSlot h v p.2.1 p.2.2

theorem primitive_extend (h : r.Equivariant ρ) :
    ρ.Follows (Value.rename ρ.tag) (Primitive.extend r arg scope)
      (Primitive.extend r (arg.rename ρ.tag) scope) := by
  cases arg with
  | pair prototype items | form prototype items =>
    refine (h.eval prototype scope).bind fun v => ?_
    cases v with
    | object n => exact buildObject h (some n) items
    | _ => exact .fail
  | _ => exact .fail

theorem primitive_multiFunction (h : r.Equivariant ρ) :
    ρ.Follows (Value.rename ρ.tag) (Primitive.multiFunction r arg scope)
      (Primitive.multiFunction r (arg.rename ρ.tag) scope) := by
  rw [Primitive.multiFunction, Primitive.multiFunction, Node.elements_rename]
  cases arg.elements.2 with
  | nil => exact (makeAll h arg.elements.1).bind fun ids => Follows.freshTag.map fun _ => rfl
  | _ => exact .fail

theorem primitive_bind (h : r.Equivariant ρ) :
    ρ.Follows (Value.rename ρ.tag) (Primitive.bind r arg scope)
      (Primitive.bind r (arg.rename ρ.tag) scope) := by
  refine (evalTwoArguments h arg).bind fun p => ?_
  obtain ⟨v, receiver⟩ := p
  cases v with
  | method f => exact Follows.freshTag.map fun _ => rfl
  | _ => exact .fail

theorem primitive_isMatch (h : r.Equivariant ρ) :
    ρ.Follows (Value.rename ρ.tag) (Primitive.isMatch r arg scope)
      (Primitive.isMatch r (arg.rename ρ.tag) scope) := by
  rw [Primitive.isMatch_eq, Primitive.isMatch_eq]
  refine (evalTwoArguments h arg).bind fun p => ?_
  obtain ⟨v, target⟩ := p
  cases v with
  | pattern p =>
    exact (Follows.withFrame (fun frame => matchWith h p (some target)) scope).map fun _ => rfl
  | _ => exact .fail

theorem primitive_call (h : r.Equivariant ρ) :
    ρ.Follows (Value.rename ρ.tag) (Primitive.call r arg scope)
      (Primitive.call r (arg.rename ρ.tag) scope) := by
  cases arg with
  | pair callee args | form callee args =>
    exact (h.eval callee scope).bind fun v => h.call v args scope
  | _ => exact .fail

theorem primitive_apply (h : r.Equivariant ρ) :
    ρ.Follows (Value.rename ρ.tag) (Primitive.apply r arg scope)
      (Primitive.apply r (arg.rename ρ.tag) scope) := by
  refine (evalTwoArguments h arg).bind fun p => ?_
  have hcall := h.call p.1 (Node.quote p.2) scope
  rw [Node.rename_quote] at hcall
  exact hcall

theorem primitive_curry (h : r.Equivariant ρ) :
    ρ.Follows (Value.rename ρ.tag) (Primitive.curry r arg scope)
      (Primitive.curry r (arg.rename ρ.tag) scope) := by
  cases arg with
  | pair callee args | form callee args =>
    exact (h.eval callee scope).bind fun v => (h.eval args scope).bind fun w =>
      Follows.freshCurriedTag.map fun _ => rfl
  | _ => exact .fail

theorem primitive_delay (ρ : Renaming) :
    ρ.Follows (Value.rename ρ.tag) (Primitive.delay arg scope)
      (Primitive.delay (arg.rename ρ.tag) scope) := by
  refine (argument ρ arg).bind fun node => (Follows.capture scope).bind fun _ => ?_
  have hnew : ρ.Follows id (Eval.allocate (·.addPromise (.pending node scope)))
      (Eval.allocate (·.addPromise (.pending (node.rename ρ.tag) scope))) :=
    .allocate (fun st => st.addPromise_rename ρ (.pending node scope)) fun _ => rfl
  exact hnew.map fun _ => rfl

theorem primitive_force (h : r.Equivariant ρ) :
    ρ.Follows (Value.rename ρ.tag) (Primitive.force r arg scope)
      (Primitive.force r (arg.rename ρ.tag) scope) :=
  (evalArgument h arg).bind fun v => forceValue h v

/-- **Every primitive does the same under other identities.** -/
theorem runBuiltin (h : r.Equivariant ρ) (b : Builtin) :
    ρ.Follows (Value.rename ρ.tag) (b.run r arg scope) (b.run r (arg.rename ρ.tag) scope) := by
  cases b with
  | print => exact primitive_print arg h
  | add => exact primitive_add arg h
  | id => exact evalArgument h arg
  | list => exact primitive_list arg h
  | cons => exact primitive_cons arg h
  | car => exact primitive_car arg h
  | cdr => exact primitive_cdr arg h
  | get => exact primitive_get arg h
  | set => exact primitive_set arg h
  | function | method => exact (ofArguments h arg).map fun _ => rfl
  | multiFunction => exact primitive_multiFunction arg h
  | bind => exact primitive_bind arg h
  | functionShorthand => exact (shorthand ρ arg).map fun _ => rfl
  | pattern => exact (buildSole h arg).map fun _ => rfl
  | patternWithPredicate => exact (buildPredicated h arg).map fun _ => rfl
  | patternWithDefault => exact (buildDefaulted h arg).map fun _ => rfl
  | patternAlias => exact (buildAliased h arg).map fun _ => rfl
  | isMatch => exact primitive_isMatch arg h
  | call => exact primitive_call arg h
  | apply => exact primitive_apply arg h
  | curry => exact primitive_curry arg h
  | isEven | isOdd => exact primitive_parity arg h
  | object => exact buildObject h none arg
  | extend => exact primitive_extend arg h
  | dictionary => exact buildDictionary h arg
  | array => exact .fail
  | define | redefine => exact primitive_define arg h
  | ifElse => exact primitive_ifElse arg h
  | eq => exact primitive_eq arg h
  | delay => exact primitive_delay arg ρ
  | force => exact primitive_force arg h

end Primitives

end Evaluator.Equivariant

end Fexpr
