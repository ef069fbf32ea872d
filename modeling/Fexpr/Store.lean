import Fexpr.Arena
import Fexpr.Node

/-!
# Store — closures, objects, dictionaries and promises

The records behind the values that have an identity. Records are only ever added; a number that
names none reads as an empty record.
-/

namespace Fexpr

/-- **A user-defined function**: a pattern over the evaluated argument list, a body, and the scope
it closes over. -/
structure Closure where
  pattern : Pattern
  body : List Node
  scope : ScopeId

instance : Inhabited Closure := ⟨⟨.defaultArguments, [], Arena.root⟩⟩

/-- **Named slots**, falling back to a prototype for the slots they lack. -/
structure Object where
  slots : Bindings := ∅
  prototype : Option ObjectId := none

instance : Inhabited Object := ⟨{}⟩

/-- **Entries under arbitrary keys**, in the order of their first insertion, and attributes under
names. -/
structure Dictionary where
  entries : List (Value × Value) := []
  attributes : Bindings := ∅

instance : Inhabited Dictionary := ⟨{}⟩

namespace Dictionary

/-- The entry under a key equal to `key`. -/
def get? (d : Dictionary) (key : Value) : Option Value :=
  (d.entries.find? fun entry => entry.1 == key).map (·.2)

/-- Replaces the value under an equal key in place, or adds an entry at the end. -/
def insertEntry (key v : Value) : List (Value × Value) → List (Value × Value)
  | [] => [(key, v)]
  | (k, w) :: entries =>
    if k == key then (k, v) :: entries else (k, w) :: insertEntry key v entries

/-- **Puts a value under a key.** -/
def insert (d : Dictionary) (key v : Value) : Dictionary :=
  { d with entries := insertEntry key v d.entries }

/-- Puts a value under an attribute name. -/
def setAttribute (d : Dictionary) (name : String) (v : Value) : Dictionary :=
  { d with attributes := d.attributes.insert name v }

end Dictionary

/-- **A delayed computation**, run at most once to a value. -/
inductive Promise where
  | pending (node : Node) (scope : ScopeId)
  | forcing
  | forced (v : Value)
  deriving Inhabited

/-- **All records of a program**, and the next identities of values that carry their own. -/
structure Store where
  closures : Array Closure := #[]
  objects : Array Object := #[]
  dictionaries : Array Dictionary := #[]
  promises : Array Promise := #[]
  /-- The next identity of a bound method or multi-function. -/
  nextTag : Nat := 0
  /-- The next identity of a curried value. -/
  nextCurriedTag : Nat := 0

namespace Store

def closure (st : Store) (id : ClosureId) : Closure :=
  st.closures.getD id default

def object (st : Store) (id : ObjectId) : Object :=
  st.objects.getD id default

def dictionary (st : Store) (id : DictionaryId) : Dictionary :=
  st.dictionaries.getD id default

def promise (st : Store) (id : PromiseId) : Promise :=
  st.promises.getD id .forcing

/-! ## Adding records -/

def addClosure (st : Store) (c : Closure) : ClosureId × Store :=
  (st.closures.size, { st with closures := st.closures.push c })

def addObject (st : Store) (o : Object) : ObjectId × Store :=
  (st.objects.size, { st with objects := st.objects.push o })

def addDictionary (st : Store) (d : Dictionary) : DictionaryId × Store :=
  (st.dictionaries.size, { st with dictionaries := st.dictionaries.push d })

def addPromise (st : Store) (p : Promise) : PromiseId × Store :=
  (st.promises.size, { st with promises := st.promises.push p })

def freshTag (st : Store) : Nat × Store :=
  (st.nextTag, { st with nextTag := st.nextTag + 1 })

def freshCurriedTag (st : Store) : Nat × Store :=
  (st.nextCurriedTag, { st with nextCurriedTag := st.nextCurriedTag + 1 })

/-! ## Slots -/

/-- The object and its prototypes, at most `n` of them. -/
def prototypesFrom (st : Store) : Nat → ObjectId → List ObjectId
  | 0, _ => []
  | n + 1, id =>
    id :: match (st.object id).prototype with
      | some proto => st.prototypesFrom n proto
      | none => []

/-- **The object, its prototype and so on.** -/
def prototypes (st : Store) (id : ObjectId) : List ObjectId :=
  st.prototypesFrom st.objects.size id

/-- **Looks a slot up**, in the object and then along its prototypes. -/
def slot? (st : Store) (id : ObjectId) (name : String) : Option Value :=
  (st.prototypes id).findSome? fun o => (st.object o).slots[name]?

/-- Writes an object's own slot. -/
def setSlot (st : Store) (id : ObjectId) (name : String) (v : Value) : Store :=
  { st with objects := st.objects.modify id fun o => { o with slots := o.slots.insert name v } }

/-! ## Entries, attributes and promises -/

/-- Puts a value under a key of a dictionary. -/
def setEntry (st : Store) (id : DictionaryId) (key v : Value) : Store :=
  { st with dictionaries := st.dictionaries.modify id fun d => d.insert key v }

/-- Puts a value under an attribute name of a dictionary. -/
def setAttribute (st : Store) (id : DictionaryId) (name : String) (v : Value) : Store :=
  { st with dictionaries := st.dictionaries.modify id fun d => d.setAttribute name v }

/-- Moves a promise to another stage. -/
def setPromise (st : Store) (id : PromiseId) (p : Promise) : Store :=
  { st with promises := st.promises.modify id fun _ => p }

end Store

end Fexpr
