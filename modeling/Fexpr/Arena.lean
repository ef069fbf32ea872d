import Fexpr.Value
import Std.Data.ExtTreeMap

/-!
# Arena — the scopes of a running program

Every frame of bindings lives in one arena and refers to its parent by number. A frame that nothing
captured is released after use: its slot goes to the free list, and the next `child` takes the slot
released last. A number stays meaningful after a release, it then denotes the empty slot or the
frame that moved in.

What an operation sees from a scope is its `chain`: the scope, its parent and so on outwards.
-/

namespace Fexpr

/-- What names are bound to. -/
abbrev Bindings := Std.ExtTreeMap String Value

/-- **One lexical frame**: its own bindings and the frame it was opened in. -/
structure Frame where
  bindings : Bindings := ∅
  parent : Option ScopeId := none
  /-- A closure or promise holds on to this frame or to one below it. -/
  captured : Bool := false

instance : Inhabited Frame := ⟨{}⟩

/-- **All frames of a program**, and the slots that are free for reuse, the latest release first. -/
structure Arena where
  frames : Array Frame
  free : List ScopeId

namespace Arena

/-- The outermost scope. -/
def root : ScopeId := 0

/-- An arena that holds nothing but an empty outermost frame. -/
def fresh : Arena := ⟨#[{}], []⟩

/-- The frame in a slot. -/
def frame (a : Arena) (s : ScopeId) : Frame :=
  a.frames.getD s {}

/-- The arena with the frame of one scope changed. -/
def update (a : Arena) (s : ScopeId) (f : Frame → Frame) : Arena :=
  { a with frames := a.frames.modify s f }

/-- How many frames are in use. -/
def live (a : Arena) : Nat :=
  a.frames.size - a.free.length

/-- **Opens an empty frame below `parent`.** -/
def child (a : Arena) (parent : ScopeId) : ScopeId × Arena :=
  match a.free with
  | s :: free => (s, { frames := a.frames.modify s fun _ => { parent := some parent }, free })
  | [] => (a.frames.size, { a with frames := a.frames.push { parent := some parent } })

/-- The scope and its ancestors, at most `n` of them. -/
def chainFrom (a : Arena) : Nat → ScopeId → List ScopeId
  | 0, _ => []
  | n + 1, s =>
    s :: match (a.frame s).parent with
      | some p => a.chainFrom n p
      | none => []

/-- **The scope, its parent and so on outwards.** No more scopes are looked at than there are
frames, so a chain that runs into itself still visits each of its frames. -/
def chain (a : Arena) (s : ScopeId) : List ScopeId :=
  a.chainFrom a.frames.size s

/-- Whether the frame itself binds `name`. -/
def has (a : Arena) (s : ScopeId) (name : String) : Bool :=
  (a.frame s).bindings.contains name

/-- **Looks a name up**, from the scope outwards. -/
def get? (a : Arena) (s : ScopeId) (name : String) : Option Value :=
  (a.chain s).findSome? fun t => (a.frame t).bindings[name]?

/-- **Binds a name in the frame itself.** -/
def set (a : Arena) (s : ScopeId) (name : String) (v : Value) : Arena :=
  a.update s fun f => { f with bindings := f.bindings.insert name v }

/-- The nearest scope that binds `name`. -/
def binder? (a : Arena) (s : ScopeId) (name : String) : Option ScopeId :=
  (a.chain s).find? fun t => a.has t name

/-- The end of a scope's chain. -/
def outermost (a : Arena) (s : ScopeId) : ScopeId :=
  (a.chain s).getLastD s

/-- **Overwrites the nearest binding of a name**, or binds it at the end of the chain when there is
none; also tells whether there was one. -/
def setOutward (a : Arena) (s : ScopeId) (name : String) (v : Value) : Bool × Arena :=
  match a.binder? s name with
  | some t => (true, a.set t name v)
  | none => (false, a.set (a.outermost s) name v)

/-- **Marks a scope and its ancestors as held for good**, up to the first that is marked already. -/
def capture (a : Arena) (s : ScopeId) : Arena :=
  ((a.chain s).takeWhile fun t => !(a.frame t).captured).foldl
    (fun a t => a.update t fun f => { f with captured := true }) a

/-- Whether a frame may be dropped: nothing holds it and it is not an outermost or free one. -/
def isReleasable (a : Arena) (s : ScopeId) : Bool :=
  !(a.frame s).captured && (a.frame s).parent.isSome

/-- **Drops a frame that nothing captured** and frees its slot. Other scopes stay. -/
def release (a : Arena) (s : ScopeId) : Arena :=
  if a.isReleasable s then
    { frames := a.frames.modify s fun f => { f with bindings := ∅, parent := none }
      free := s :: a.free }
  else a

/-- The parent of a scope. -/
def parent? (a : Arena) (s : ScopeId) : Option ScopeId :=
  (a.frame s).parent

/-- The names that the frame itself binds, sorted. -/
def names (a : Arena) (s : ScopeId) : List String :=
  (a.frame s).bindings.keys

/-! ## What a change of one frame leaves alone -/

theorem size_update (a : Arena) (s : ScopeId) (f : Frame → Frame) :
    (a.update s f).frames.size = a.frames.size :=
  Array.size_modify

theorem frame_update_self {a : Arena} {s : ScopeId} (f : Frame → Frame) (h : s < a.frames.size) :
    (a.update s f).frame s = f (a.frame s) := by
  simp [frame, update, Array.getD, Array.getElem_modify, h]

theorem frame_update_of_ne {a : Arena} {s t : ScopeId} (f : Frame → Frame) (h : s ≠ t) :
    (a.update s f).frame t = a.frame t := by
  simp [frame, update, Array.getD_eq_getD_getElem?, Array.getElem?_modify, h]

/-- **Binding a name moves no frame.** -/
theorem parent?_set (a : Arena) (s : ScopeId) (name : String) (v : Value) (t : ScopeId) :
    (a.set s name v).parent? t = a.parent? t := by
  simp only [parent?, set, frame, update, Array.getD_eq_getD_getElem?, Array.getElem?_modify]
  split
  · cases a.frames[t]? <;> rfl
  · rfl

theorem chainFrom_set (a : Arena) (s : ScopeId) (name : String) (v : Value) (n : Nat)
    (t : ScopeId) : (a.set s name v).chainFrom n t = a.chainFrom n t := by
  induction n generalizing t with
  | zero => rfl
  | succ n ih =>
    have h : ((a.set s name v).frame t).parent = (a.frame t).parent := parent?_set a s name v t
    simp only [chainFrom, h]
    cases (a.frame t).parent with
    | none => rfl
    | some p => simp only [ih]

/-- **Binding a name keeps every chain.** -/
theorem chain_set (a : Arena) (s : ScopeId) (name : String) (v : Value) (t : ScopeId) :
    (a.set s name v).chain t = a.chain t := by
  rw [chain, chain, ← chainFrom_set a s name v]
  exact congrArg (fun n => (a.set s name v).chainFrom n t) (size_update a s _)

end Arena

end Fexpr
