import Fexpr.Proofs.Calling.Ends

/-!
# Proofs/Literals/Steps — what happens in a slot access, step by step

A computation that returns has taken the steps it is put together of, one after the other
(`ComesTo.bind_iff`).  For a slot access these are: the key is read, which takes an evaluation
unless it is an identifier (`Slot.keyOf`), and the target is asked for it (`Slot.find`).

`Slot.Takes` tells of a list of steps that they lead from one state to another; nothing happens
beside them.
-/

namespace Fexpr

variable {α β : Type}

/-! ## Computations that return -/

theorem steady_eval (node : Node) (scope : ScopeId) : Steady fun r => r.eval node scope :=
  fun _ _ hle => (Coverage.agree_ofFuel hle).eval node scope

/-- What does not evaluate anything needs no fuel. -/
theorem steady_const (x : Eval α) : Steady fun _ => x := fun _ _ _ cfg s _ =>
  ⟨by
    change Coverage.anywhere.Admits cfg (x cfg s)
    cases x cfg s <;> exact trivial, Or.inr (Or.inl rfl)⟩

namespace ComesTo

variable {x : Evaluator → Eval α} {cfg : Config} {s t : State} {a : α}

theorem iff_endsAs : ComesTo x cfg s a t ↔ EndsAs x cfg s (.ok a t) :=
  ⟨fun h => ⟨rfl, h⟩, fun h => h.2⟩

theorem const_iff {x : Eval α} : ComesTo (fun _ => x) cfg s a t ↔ x cfg s = .ok a t :=
  ⟨fun ⟨n, hn⟩ => hn n le_rfl, fun h => ⟨0, fun _ _ => h⟩⟩

/-- **A sequence returns by its steps.** -/
theorem bind_iff (hx : Steady x) {f : Evaluator → α → Eval β} {b : β} {u : State} :
    ComesTo (fun r => x r >>= f r) cfg s b u ↔
      ∃ a t, ComesTo x cfg s a t ∧ ComesTo (fun r => f r a) cfg t b u := by
  refine ⟨fun h => ?_, fun ⟨a, t, ha, hb⟩ => ha.bind hb⟩
  rcases (iff_endsAs.mp h).of_bind hx with ⟨a, t, ha, hb⟩ | ⟨e, t, -, hfails⟩
  · exact ⟨a, t, iff_endsAs.mpr ha, iff_endsAs.mpr hb⟩
  · cases hfails

/-- A step whose result is only wrapped up. -/
theorem map_iff (hx : Steady x) {f : α → β} {b : β} {u : State} :
    ComesTo (fun r => x r >>= fun a => pure (f a)) cfg s b u ↔
      ∃ a, ComesTo x cfg s a u ∧ f a = b := by
  rw [bind_iff hx]
  constructor
  · rintro ⟨a, t, ha, hb⟩
    cases const_iff.mp hb
    exact ⟨a, ha, rfl⟩
  · rintro ⟨a, ha, rfl⟩
    exact ⟨a, u, ha, const_iff.mpr rfl⟩

/-- **A call returns what it does with the value.** -/
theorem call_iff {callee v : Value} {arg : Node} {scope : ScopeId} :
    ComesTo (fun r => r.call callee arg scope) cfg s v t ↔
      ComesTo (fun r => callValue r callee arg scope) cfg s v t := by
  constructor
  · rintro ⟨n, hn⟩
    exact ⟨n, fun fuel hle => hn (fuel + 1) (Nat.le_succ_of_le hle)⟩
  · rintro ⟨n, hn⟩
    have hcall : (Evaluator.ofFuel (n + 1)).call callee arg scope cfg s = .ok v t := hn n le_rfl
    exact call hcall

end ComesTo

namespace Slot

/-! ## Keys -/

/-- **A key as a lookup takes it**: a name that stands for itself, or a value. -/
inductive Key where
  | literal (name : String)
  | value (v : Value)

/-- The slot that a key names. -/
def Key.name? : Key → Option String
  | .literal name | .value (.symbol name) => some name
  | .value _ => none

/-- The name of a slot, in the procedure that asks for it. -/
def Key.spell (procedure : String) : Key → Eval String
  | .literal name | .value (.symbol name) => return name
  | .value v => Eval.fail (v.typeMismatch procedure "Symbol")

/-- **Reads a key**: an identifier stands for itself, anything else is evaluated. -/
def keyOf (r : Evaluator) (key : Node) (scope : ScopeId) : Eval Key :=
  match key with
  | .identifier name => return .literal name
  | key => do return .value (← r.eval key scope)

/-- **Asks `target` for what it keeps under a key** that has been read. -/
def find (r : Evaluator) (target : Value) (key : Key) : Eval Value :=
  match target with
  | .object id => do
    let name ← key.spell "get"
    match ← Eval.gets fun s => s.store.slot? id name with
    | some v => bindTo target v
    | none => missing (.noSlot name)
  | .dictionary id =>
    match key with
    | .literal name => do
      match ← Eval.gets fun s => (s.store.dictionary id).attributes[name]? with
      | some v => bindTo target v
      | none => missing (.noAttribute name)
    | .value key => do
      match ← Eval.gets fun s => (s.store.dictionary id).get? key with
      | some v => return v
      | none => missing (.noEntry (← Eval.gets fun s => s.store.text key))
  | .pair car cdr => do
    let name ← key.spell "get"
    if name == "car" then return car
    else if name == "cdr" then Promise.forceValue r cdr
    else if name == "cdr-slot" then return cdr
    else missing (.noPairSlot name)
  | v => Eval.fail (v.typeMismatch "get" "Object")

theorem Key.spell_eq_ok {k : Key} {procedure name : String} {cfg : Config} {s t : State} :
    k.spell procedure cfg s = .ok name t ↔ k.name? = some name ∧ t = s := by
  have hok {n : String} : (pure n : Eval String) cfg s = .ok name t ↔ some n = some name ∧ t = s := by
    change Outcome.ok n s = .ok name t ↔ _
    rw [Outcome.ok.injEq, Option.some.injEq, eq_comm (a := s)]
  cases k with
  | literal n => exact hok
  | value v =>
    cases v with
    | symbol n => exact hok
    | _ => simp [spell, name?, Eval.fail]

theorem nameOf_eq (r : Evaluator) (procedure : String) (key : Node) (scope : ScopeId) :
    nameOf r procedure key scope = keyOf r key scope >>= Key.spell procedure := by
  cases key with
  | identifier name => rfl
  | _ =>
    simp only [nameOf, keyOf, bind_assoc, pure_bind]
    congr 1
    funext v
    cases v <;> rfl

/-- **An access reads its key and asks the target for it**; what has no slots fails either way. -/
theorem read_eq_or_fails (target : Value) (key : Node) (scope : ScopeId) :
    (∀ r, read r target key scope = keyOf r key scope >>= find r target) ∨
      ∃ e, ∀ r, read r target key scope = Eval.fail e ∧ ∀ k, find r target k = Eval.fail e := by
  cases target with
  | object id =>
    refine Or.inl fun r => ?_
    simp only [read, nameOf_eq, bind_assoc]
    rfl
  | dictionary id =>
    refine Or.inl fun r => ?_
    cases key with
    | identifier name => rfl
    | _ =>
      simp only [read, keyOf, bind_assoc, pure_bind]
      rfl
  | pair car cdr =>
    refine Or.inl fun r => ?_
    simp only [read, nameOf_eq, bind_assoc]
    rfl
  | _ => exact Or.inr ⟨_, fun _ => ⟨rfl, fun _ => rfl⟩⟩

theorem steady_keyOf (key : Node) (scope : ScopeId) : Steady fun r => keyOf r key scope := by
  cases key with
  | identifier name => exact steady_const _
  | _ => exact (steady_eval _ scope).bind fun _ => steady_const _

section

variable {cfg : Config} {scope : ScopeId} {s t : State} {v target : Value} {key : Node}

theorem comesTo_nameOf {procedure name : String} :
    ComesTo (fun r => nameOf r procedure key scope) cfg s name t ↔
      ∃ k, ComesTo (fun r => keyOf r key scope) cfg s k t ∧ k.name? = some name := by
  simp only [nameOf_eq]
  rw [ComesTo.bind_iff (steady_keyOf key scope)]
  constructor
  · rintro ⟨k, u, hk, hname⟩
    obtain ⟨hspelt, rfl⟩ := Key.spell_eq_ok.mp (ComesTo.const_iff.mp hname)
    exact ⟨k, hk, hspelt⟩
  · rintro ⟨k, hk, hname⟩
    exact ⟨k, t, hk, ComesTo.const_iff.mpr (Key.spell_eq_ok.mpr ⟨hname, rfl⟩)⟩

theorem comesTo_read :
    ComesTo (fun r => read r target key scope) cfg s v t ↔
      ∃ k u, ComesTo (fun r => keyOf r key scope) cfg s k u ∧
        ComesTo (fun r => find r target k) cfg u v t := by
  rcases read_eq_or_fails target key scope with h | ⟨e, h⟩
  · simp only [h]
    exact ComesTo.bind_iff (steady_keyOf key scope)
  · simp only [(h _).1, (h _).2, ComesTo.const_iff, Eval.fail, reduceCtorEq, and_false,
      exists_false]

end

theorem steady_nameOf (procedure : String) (key : Node) (scope : ScopeId) :
    Steady fun r => nameOf r procedure key scope := by
  simp only [nameOf_eq]
  exact (steady_keyOf key scope).bind fun _ => steady_const _

/-! ## Steps -/

/-- **A step of making an object.** -/
inductive Step where
  /-- An expression is evaluated. -/
  | evaluate (node : Node) (v : Value)
  /-- A slot access is announced in the log. -/
  | announce (args : Node)
  /-- A value is asked for what it keeps under a key. -/
  | look (target : Value) (key : Key) (v : Value)

/-- **A step leads from one state to another.** -/
def Step.Leads (cfg : Config) (scope : ScopeId) (s t : State) : Step → Prop
  | evaluate node v => ComesTo (fun r => r.eval node scope) cfg s v t
  | announce args =>
    Eval.trace (fun st => "calling " ++ st.text (.builtin .get) ++ " with " ++ args.text) cfg s =
      .ok () t
  | look target key v => ComesTo (fun r => find r target key) cfg s v t

/-- **Steps lead from one state to another**, one after the other. -/
def Leads (cfg : Config) (scope : ScopeId) : List Step → State → State → Prop
  | [], s, t => s = t
  | step :: steps, s, t => ∃ u, step.Leads cfg scope s u ∧ Leads cfg scope steps u t

/-- The expressions that are evaluated on the way. -/
def evaluated (steps : List Step) : List Node :=
  steps.filterMap fun
    | .evaluate node _ => some node
    | _ => none

/-- **How a key is read.** -/
inductive Reading where
  | literal (name : String)
  | computed (node : Node) (h : ∀ name, node ≠ .identifier name) (v : Value)

namespace Reading

def node : Reading → Node
  | literal name => .identifier name
  | computed node _ _ => node

def key : Reading → Key
  | literal name => .literal name
  | computed _ _ v => .value v

/-- The expressions that the key consists of. -/
def parts : Reading → List Node
  | literal _ => []
  | computed node _ _ => [node]

def steps : Reading → List Step
  | literal _ => []
  | computed node _ v => [.evaluate node v]

end Reading

section

variable {cfg : Config} {scope : ScopeId} {s t : State} {v target : Value} {step : Step}
  {steps more : List Step}

theorem leads_singleton : Leads cfg scope [step] s t ↔ step.Leads cfg scope s t :=
  ⟨fun ⟨_, h, he⟩ => he ▸ h, fun h => ⟨t, h, rfl⟩⟩

theorem leads_append :
    Leads cfg scope (steps ++ more) s t ↔
      ∃ u, Leads cfg scope steps s u ∧ Leads cfg scope more u t := by
  induction steps generalizing s with
  | nil =>
    constructor
    · exact fun h => ⟨s, rfl, h⟩
    · rintro ⟨u, rfl, h⟩
      exact h
  | cons step steps ih =>
    simp only [List.cons_append, Leads, ih]
    constructor
    · rintro ⟨u, hstep, w, hsteps, hmore⟩
      exact ⟨w, ⟨u, hstep, hsteps⟩, hmore⟩
    · rintro ⟨w, ⟨u, hstep, hsteps⟩, hmore⟩
      exact ⟨u, hstep, w, hsteps, hmore⟩

theorem evaluated_append : evaluated (steps ++ more) = evaluated steps ++ evaluated more :=
  List.filterMap_append

theorem Reading.evaluated_steps (key : Reading) : evaluated key.steps = key.parts := by
  cases key <;> rfl

/-- **A key is read by the steps of a reading.** -/
theorem comesTo_keyOf {node : Node} {k : Key} :
    ComesTo (fun r => keyOf r node scope) cfg s k t ↔
      ∃ key : Reading, key.node = node ∧ key.key = k ∧ Leads cfg scope key.steps s t := by
  have hcomputed (h : ∀ name, node ≠ .identifier name) :
      ∀ r, keyOf r node scope = do return .value (← r.eval node scope) := fun r => by
    cases node with
    | identifier name => exact absurd rfl (h name)
    | _ => rfl
  constructor
  · intro hk
    by_cases hname : ∃ name, node = .identifier name
    · obtain ⟨name, rfl⟩ := hname
      cases ComesTo.const_iff.mp hk
      exact ⟨.literal name, rfl, rfl, rfl⟩
    · have h := not_exists.mp hname
      simp only [hcomputed h] at hk
      obtain ⟨v, hv, rfl⟩ := (ComesTo.map_iff (steady_eval node scope)).mp hk
      exact ⟨.computed node h v, rfl, rfl, leads_singleton.mpr hv⟩
  · rintro ⟨key, rfl, rfl, hsteps⟩
    cases key with
    | literal name =>
      cases hsteps
      exact ComesTo.const_iff.mpr rfl
    | computed node h v =>
      simp only [Reading.node] at hcomputed ⊢
      simp only [hcomputed h]
      exact (ComesTo.map_iff (steady_eval node scope)).mpr ⟨v, leads_singleton.mp hsteps, rfl⟩

/-! ## A slot access -/

/-- **The steps of a slot access**: the target is evaluated, then the key is read, then the target is
asked for it. -/
def accessSteps (target : Node) (w : Value) (key : Reading) (v : Value) : List Step :=
  .announce (.spine [target, key.node] .nil) :: .evaluate target w ::
    (key.steps ++ [.look w key.key v])

theorem evaluated_accessSteps (target : Node) (w : Value) (key : Reading) (v : Value) :
    evaluated (accessSteps target w key v) = target :: key.parts := by
  change target :: evaluated (key.steps ++ [.look w key.key v]) = _
  rw [evaluated_append, key.evaluated_steps]
  exact congrArg (target :: ·) (List.append_nil _)

theorem comesTo_twoArguments {args : Node} {procedure : String} {p : Node × Node} :
    ComesTo (fun _ => Eval.ofExcept (args.twoArguments procedure)) cfg s p t ↔
      args = .spine [p.1, p.2] .nil ∧ s = t := by
  rw [ComesTo.const_iff]
  constructor
  · intro h
    rw [Node.twoArguments.eq_def] at h
    split at h
    · cases h
      exact ⟨rfl, rfl⟩
    · cases h
  · rintro ⟨rfl, rfl⟩
    rfl

/-- **An access returns by its steps.** -/
theorem comesTo_access {args : Node} :
    ComesTo (fun r => r.call (.builtin .get) args scope) cfg s v t ↔
      ∃ (target : Node) (w : Value) (key : Reading), args = .spine [target, key.node] .nil ∧
        Leads cfg scope (accessSteps target w key v) s t := by
  rw [ComesTo.call_iff]
  change ComesTo (fun r => Eval.trace _ >>= fun _ => Eval.ofExcept (args.twoArguments "get") >>=
    fun p => r.eval p.1 scope >>= fun w => read r w p.2 scope) cfg s v t ↔ _
  simp only [ComesTo.bind_iff (steady_const _), ComesTo.bind_iff (steady_eval _ scope),
    comesTo_twoArguments, comesTo_read, comesTo_keyOf, accessSteps, Leads, leads_append]
  constructor
  · rintro ⟨_, u, htrace, ⟨target, _⟩, _, ⟨rfl, rfl⟩, w, u₁, htarget, _, u₂, ⟨key, rfl, rfl, hkey⟩,
      hlook⟩
    exact ⟨target, w, key, rfl, u, ComesTo.const_iff.mp htrace, u₁, htarget, u₂, hkey, t, hlook,
      rfl⟩
  · rintro ⟨target, w, key, rfl, u, htrace, u₁, htarget, u₂, hkey, _, hlook, rfl⟩
    exact ⟨(), u, ComesTo.const_iff.mpr htrace, (target, key.node), u, ⟨rfl, rfl⟩, w, u₁, htarget,
      key.key, u₂, ⟨key, rfl, rfl, hkey⟩, hlook⟩

end

end Slot

end Fexpr
