import Fexpr.Eval.Arguments
import Fexpr.Eval.Promise

/-!
# Eval/Slot — reading, writing and building objects and dictionaries

A slot key that is an identifier names itself; any other key is evaluated and must give a symbol. A
dictionary keeps attributes under identifiers and entries under the values of all other keys. A
method that is read from a slot or an attribute is bound to the value it was read from.
-/

namespace Fexpr

namespace Slot

variable (r : Evaluator)

/-- **The slot name that a key spells.** -/
def nameOf (procedure : String) (key : Node) (scope : ScopeId) : Eval String :=
  match key with
  | .identifier name => return name
  | key => do
    match ← r.eval key scope with
    | .symbol name => return name
    | v => Eval.fail (v.typeMismatch procedure "Symbol")

/-- **Binds a method to the value it was read from**; other values stay as they are. -/
def bindTo (receiver : Value) : Value → Eval Value
  | .method f => do
    let tag ← Eval.allocate (·.freshTag)
    return .boundMethod tag f receiver
  | v => return v

/-- A failed reading. -/
def missing (cause : Misuse) : Eval Value :=
  Eval.fail (.misuse "get" cause)

/-! ## Reading and writing -/

/-- **Reads what `target` keeps under a key.** A pair has its two halves for slots; its cdr is
forced, except under the name `cdr-slot`. -/
def read (target : Value) (key : Node) (scope : ScopeId) : Eval Value :=
  match target with
  | .object id => do
    let name ← nameOf r "get" key scope
    match ← Eval.gets fun s => s.store.slot? id name with
    | some v => bindTo target v
    | none => missing (.noSlot name)
  | .dictionary id =>
    match key with
    | .identifier name => do
      match ← Eval.gets fun s => (s.store.dictionary id).attributes[name]? with
      | some v => bindTo target v
      | none => missing (.noAttribute name)
    | key => do
      let key ← r.eval key scope
      match ← Eval.gets fun s => (s.store.dictionary id).get? key with
      | some v => return v
      | none => missing (.noEntry (← Eval.gets fun s => s.store.text key))
  | .pair car cdr => do
    let name ← nameOf r "get" key scope
    if name == "car" then return car
    else if name == "cdr" then Promise.forceValue r cdr
    else if name == "cdr-slot" then return cdr
    else missing (.noPairSlot name)
  | v => Eval.fail (v.typeMismatch "get" "Object")

/-- **Writes under a key of `target`** the value of a node, and answers it. -/
def write (target : Value) (key value : Node) (scope : ScopeId) : Eval Value :=
  match target with
  | .object id => do
    let name ← nameOf r "set" key scope
    let v ← r.eval value scope
    Eval.modifyStore (·.setSlot id name v)
    return v
  | .dictionary id =>
    match key with
    | .identifier name => do
      let v ← r.eval value scope
      Eval.modifyStore (·.setAttribute id name v)
      return v
    | key => do
      let key ← r.eval key scope
      let v ← r.eval value scope
      Eval.modifyStore (·.setEntry id key v)
      return v
  | v => Eval.fail (v.typeMismatch "set" "Object")

/-! ## Building -/

/-- **The name and value of one item of an object.** `key: value` is a slot, an access `a.b` a slot
named after its key with the value that was looked up, and a bare identifier a slot with its own
value. -/
def ofItem (item : Node) (scope : ScopeId) : Eval (String × Value) :=
  match item with
  | .form head args => do
    match ← r.eval head scope with
    | .builtin .cons => do
      let (key, value) ← Eval.ofExcept (args.twoArguments "object")
      let name ← nameOf r "object" key scope
      let v ← r.eval value scope
      return (name, v)
    | .builtin .get => do
      let (_, key) ← Eval.ofExcept (args.twoArguments "object")
      let name ← nameOf r "object" key scope
      let v ← r.call (.builtin .get) args scope
      return (name, v)
    | v => Eval.fail (v.typeMismatch "object" "slot")
  | .identifier name => do
    let v ← r.eval item scope
    return (name, v)
  | _ => Eval.fail (.misuse "object" (.notASlot item))

/-- Adds the slots of a list of items, from left to right. -/
def ofItems (scope : ScopeId) : Bindings → List Node → Eval Bindings
  | slots, [] => return slots
  | slots, item :: items => do
    let (name, v) ← ofItem r item scope
    ofItems scope (slots.insert name v) items

/-- **Makes an object** from the items of an argument list. -/
def buildObject (prototype : Option ObjectId) (arg : Node) (scope : ScopeId) : Eval Value :=
  match arg.elements.2 with
  | .nil => do
    let slots ← ofItems r scope ∅ arg.elements.1
    return .object (← Eval.allocate (·.addObject { slots, prototype }))
  | _ => Eval.fail (.misuse "object" .improperSlots)

/-- Adds the entries of a list of items, each of which must evaluate to a pair. -/
def entriesOf (scope : ScopeId) : Dictionary → List Node → Eval Dictionary
  | dict, [] => return dict
  | dict, item :: items => do
    match ← r.eval item scope with
    | .pair key v => entriesOf scope (dict.insert key v) items
    | v => Eval.fail (v.typeMismatch "dictionary" "Pair")

/-- **Makes a dictionary** from the items of an argument list. -/
def buildDictionary (arg : Node) (scope : ScopeId) : Eval Value :=
  match arg.elements.2 with
  | .nil => do
    let dict ← entriesOf r scope {} arg.elements.1
    return .dictionary (← Eval.allocate (·.addDictionary dict))
  | _ => Eval.fail (.misuse "dictionary" .improperEntries)

end Slot

end Fexpr
