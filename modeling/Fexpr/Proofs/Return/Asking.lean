import Fexpr.Proofs.Comparison.Plain
import Fexpr.Proofs.Return.Layers
import Mathlib.Data.Prod.Lex

/-!
# Proofs/Return/Asking — which calls a call makes itself

    curried f args  ──▸  f          outer : inner  ──▸  inner, outer
    pattern p       ──▸  the predicates of p
    function        ──▸  the predicates of its pattern, which mention older functions only
    a primitive     ──▸  whatever stands in front of arguments that are further inside

`Asks` says which calls a call makes itself, other than those that evaluations make: nothing that is
called does anything else with other calls (`callValue_calling`), but for the primitives `call` and
`apply`, which hand on whatever they are given.  What is asked for weighs less (`Asks.lighter`).
-/

namespace Fexpr

/-! ## What is still to be evaluated -/

/-- **How much of a node has no value yet.** -/
def Node.toDo : Node → Nat
  | .nil | .value .. => 0
  | .identifier _ | .numeral _ | .symbol _ => 1
  | .pair car cdr => car.toDo + cdr.toDo
  | .form car cdr => car.toDo + cdr.toDo + 1

/-- The first of several arguments, if it has its value. -/
def Node.leading : Node → Option Value
  | .pair (.value _ v) (.pair _ _) => some v
  | _ => none

namespace Node

theorem toDo_of_split {node car cdr : Node} (h : node.split = some (car, cdr)) :
    car.toDo ≤ node.toDo ∧ cdr.toDo ≤ node.toDo := by
  cases node with
  | pair a b | form a b =>
    cases h
    rw [toDo]
    omega
  | _ => cases h

theorem toDo_of_mem_elements {node item : Node} (h : item ∈ node.elements.1) :
    item.toDo ≤ node.toDo := by
  fun_induction elements node with
  | case1 car cdr ih =>
    rw [toDo]
    rcases List.mem_cons.mp h with rfl | hmem
    · omega
    · have := ih hmem
      omega
  | case2 node _ => cases h

theorem toDo_spine_quoted (vs : List Value) (tail : Node) :
    (spine (vs.map quoted) tail).toDo = tail.toDo := by
  induction vs with
  | nil => rfl
  | cons v vs ih =>
    change 0 + (spine (vs.map quoted) tail).toDo = _
    rw [Nat.zero_add, ih]

/-- Arguments that are put in front have their values. -/
theorem toDo_quoteBefore_le (args : Value) (rest : Node) :
    (quoteBefore args rest).toDo ≤ rest.toDo := by
  rw [quoteBefore, toDo_spine_quoted]
  split
  · exact Nat.le_refl _
  · exact Nat.zero_le _

/-- What leads the arguments after others were put in front of them. -/
theorem leading_quoteBefore {args v : Value} {rest : Node}
    (h : (quoteBefore args rest).leading = some v) :
    (∃ tail, args = .pair v tail) ∨ rest.leading = some v := by
  cases args with
  | pair car cdr =>
    left
    change (Node.pair (quoted car) (quoteBefore cdr rest)).leading = some v at h
    generalize quoteBefore cdr rest = others at h
    cases others with
    | pair => cases h; exact ⟨cdr, rfl⟩
    | _ => cases h
  | nil => exact Or.inr h
  | _ => cases h

end Node

/-! ## Predicates -/

mutual

/-- **The predicates that a pattern asks.** -/
def Pattern.predicates : Pattern → List Value
  | .cons cars tail => Pattern.predicatesOf cars ++ tail.predicates
  | .predicated base predicate => predicate :: base.predicates
  | .defaulted base _ => base.predicates
  | .aliased first second => first.predicates ++ second.predicates
  | .identifier _ | .value _ | .defaultArguments => []

/-- The predicates that car patterns ask. -/
def Pattern.predicatesOf : List Pattern → List Value
  | [] => []
  | p :: ps => p.predicates ++ Pattern.predicatesOf ps

end

mutual

theorem Pattern.sizeOf_predicate : (p : Pattern) → ∀ v ∈ p.predicates, sizeOf v < sizeOf p
  | .cons cars tail, v, hv => by
    rw [Pattern.cons.sizeOf_spec]
    rcases List.mem_append.mp hv with hv | hv
    · have := Pattern.sizeOf_predicateOf cars v hv
      omega
    · have := tail.sizeOf_predicate v hv
      omega
  | .predicated base predicate, v, hv => by
    rw [Pattern.predicated.sizeOf_spec]
    rcases List.mem_cons.mp hv with rfl | hv
    · omega
    · have := base.sizeOf_predicate v hv
      omega
  | .defaulted base _, v, hv => by
    rw [Pattern.defaulted.sizeOf_spec]
    have := base.sizeOf_predicate v hv
    omega
  | .aliased first second, v, hv => by
    rw [Pattern.aliased.sizeOf_spec]
    rcases List.mem_append.mp hv with hv | hv
    · have := first.sizeOf_predicate v hv
      omega
    · have := second.sizeOf_predicate v hv
      omega
  | .identifier _, _, hv | .value _, _, hv | .defaultArguments, _, hv =>
    absurd hv List.not_mem_nil

theorem Pattern.sizeOf_predicateOf : (ps : List Pattern) → ∀ v ∈ Pattern.predicatesOf ps,
    sizeOf v < sizeOf ps
  | [], _, hv => absurd hv List.not_mem_nil
  | p :: ps, v, hv => by
    rw [List.cons.sizeOf_spec]
    rcases List.mem_append.mp hv with hv | hv
    · have := p.sizeOf_predicate v hv
      omega
    · have := Pattern.sizeOf_predicateOf ps v hv
      omega

end

mutual

theorem Pattern.Within.predicate {N : Census} : {p : Pattern} → p.Within N →
    ∀ v ∈ p.predicates, v.Within N
  | .cons cars tail, hp, v, hv => by
    rcases List.mem_append.mp hv with hv | hv
    · exact Pattern.AllWithin.predicate hp.1 v hv
    · exact Pattern.Within.predicate hp.2.1 v hv
  | .predicated base predicate, hp, v, hv => by
    rcases List.mem_cons.mp hv with rfl | hv
    · exact hp.2.1
    · exact Pattern.Within.predicate hp.1 v hv
  | .defaulted base _, hp, v, hv => Pattern.Within.predicate (p := base) hp.1 v hv
  | .aliased first second, hp, v, hv => by
    rcases List.mem_append.mp hv with hv | hv
    · exact Pattern.Within.predicate hp.1 v hv
    · exact Pattern.Within.predicate hp.2 v hv
  | .identifier _, _, _, hv | .value _, _, _, hv | .defaultArguments, _, _, hv =>
    absurd hv List.not_mem_nil

theorem Pattern.AllWithin.predicate {N : Census} : {ps : List Pattern} → Pattern.AllWithin N ps →
    ∀ v ∈ Pattern.predicatesOf ps, v.Within N
  | [], _, _, hv => absurd hv List.not_mem_nil
  | p :: ps, hps, v, hv => by
    rcases List.mem_append.mp hv with hv | hv
    · exact Pattern.Within.predicate hps.1 v hv
    · exact Pattern.AllWithin.predicate hps.2 v hv

end

/-! ## Calling otherwise -/

/-- The evaluator that calls by `call`. -/
def Evaluator.calling (r : Evaluator) (call : Value → Node → ScopeId → Eval Value) : Evaluator :=
  { r with call }

/-- **Predicates are asked alike**, each about one value. -/
def Evaluator.AsksAlike (r : Evaluator) (call : Value → Node → ScopeId → Eval Value)
    (predicates : List Value) : Prop :=
  ∀ v ∈ predicates, ∀ u, call v (.quote (.ofList [u])) = r.call v (.quote (.ofList [u]))

section Calling

variable {r : Evaluator} {call : Value → Node → ScopeId → Eval Value} {scope : ScopeId}

section Matching

variable {binding : Binding}

mutual

/-- **A match calls nothing but the predicates of its pattern**, each with one value. -/
theorem Pattern.matchWith_calling : (p : Pattern) → r.AsksAlike call p.predicates →
    ∀ target, p.matchWith (r.calling call) binding scope target = p.matchWith r binding scope target
  | .cons cars tail, h, target =>
    Pattern.matchCars_calling cars (fun v hv => h v (List.mem_append_left _ hv)) target fun rest =>
      tail.matchWith_calling (fun v hv => h v (List.mem_append_right _ hv)) rest
  | .predicated base predicate, h, target => by
    cases target with
    | none => rfl
    | some v =>
      rw [matchWith, matchWith,
        base.matchWith_calling fun u hu => h u (List.mem_cons_of_mem predicate hu)]
      refine bind_congr fun accepted => ?_
      cases accepted with
      | false => rfl
      | true =>
        change call predicate _ scope >>= _ = r.call predicate _ scope >>= _
        rw [h predicate List.mem_cons_self]
  | .defaulted base fallback, h, target => by
    cases target with
    | none => exact base.matchWith_calling h (some fallback)
    | some v => rw [matchWith, matchWith, base.matchWith_calling h, base.matchWith_calling h]
  | .aliased first second, h, target => by
    rw [matchWith, matchWith,
      first.matchWith_calling fun v hv => h v (List.mem_append_left _ hv),
      second.matchWith_calling fun v hv => h v (List.mem_append_right _ hv)]
  | .identifier _, _, _ | .value _, _, _ | .defaultArguments, _, _ => rfl

theorem Pattern.matchCars_calling : (ps : List Pattern) →
    r.AsksAlike call (Pattern.predicatesOf ps) →
    ∀ target {k k' : Option Value → Eval Bool}, (∀ rest, k rest = k' rest) →
    Pattern.matchCars (r.calling call) binding scope ps target k =
      Pattern.matchCars r binding scope ps target k'
  | [], _, target, _, _, hk => hk target
  | p :: ps, h, target, k, k', hk => by
    have hcar : ∀ car rest : Option Value,
        (do if ← p.matchWith (r.calling call) binding scope car then
              Pattern.matchCars (r.calling call) binding scope ps rest k
            else return false) =
        (do if ← p.matchWith r binding scope car then
              Pattern.matchCars r binding scope ps rest k'
            else return false) := fun car rest => by
      rw [p.matchWith_calling fun v hv => h v (List.mem_append_left _ hv),
        Pattern.matchCars_calling ps (fun v hv => h v (List.mem_append_right _ hv)) rest hk]
    match target with
    | none => exact hcar none none
    | some .nil => exact hcar none (some .nil)
    | some (.pair car cdr) => exact hcar (some car) (some cdr)
    | some .void | some (.integer _) | some (.bool _) | some (.symbol _) | some (.builtin _)
    | some (.curried ..) | some (.function _) | some (.method _) | some (.boundMethod ..)
    | some (.multiFunction ..) | some (.pattern _) | some (.object _) | some (.dictionary _)
    | some (.promise _) => rfl

end

end Matching

theorem callPattern_calling {p : Pattern} (h : r.AsksAlike call p.predicates) (arg : Node) :
    callPattern (r.calling call) p arg scope = callPattern r p arg scope := by
  refine bind_congr fun target => ?_
  rw [p.matchWith_calling h]

/-! ### Functions -/

namespace Closure

variable {f : Closure}

/-- The forms of a body are evaluated. -/
theorem runForms_calling (frame : ScopeId) (latest : Value) (forms : List Node) :
    runForms (r.calling call) frame latest forms = runForms r frame latest forms := by
  induction forms generalizing latest with
  | nil => rfl
  | cons form forms ih => exact bind_congr fun v => bind_congr fun _ => ih v

theorem runBody_calling (frame : ScopeId) :
    f.runBody (r.calling call) frame = f.runBody r frame := by
  rw [runBody, runBody]
  exact bind_congr fun bound => by rw [runForms_calling]

variable (h : r.AsksAlike call f.pattern.predicates)

include h

/-- **A function calls nothing but the predicates of its pattern** itself; its body is evaluated. -/
theorem call?_calling (arg : Node) (receiver : Option Value) :
    f.call? (r.calling call) arg scope receiver = f.call? r arg scope receiver := by
  refine bind_congr fun target => congrArg _ (funext fun frame => bind_congr fun _ => ?_)
  rw [f.pattern.matchWith_calling h, runBody_calling]

theorem invoke_calling (arg : Node) (receiver : Option Value) :
    f.invoke (r.calling call) arg scope receiver = f.invoke r arg scope receiver := by
  rw [invoke_eq, invoke_eq, call?_calling h]

end Closure

/-! ### Patterns and functions that are made -/

section Making

variable {n : Nat}

/-- `call` does what `r` does with arguments in which less than `n` is to be done. -/
def Evaluator.CallsBelow (r : Evaluator) (call : Value → Node → ScopeId → Eval Value) (n : Nat) :
    Prop :=
  ∀ callee arg, arg.toDo < n → call callee arg = r.call callee arg

mutual

/-- **Building a pattern calls heads with arguments that are further inside**, and nothing else. -/
theorem Pattern.build_calling (h : r.CallsBelow call n) : (node : Node) → node.toDo ≤ n →
    Pattern.build (r.calling call) scope node = Pattern.build r scope node
  | .pair car cdr, hn => by
    rw [Node.toDo] at hn
    rw [build, build, Pattern.build_calling h car (by omega),
      Pattern.build_calling h cdr (by omega)]
  | .form head args, hn => by
    rw [Node.toDo] at hn
    rw [build, build]
    refine bind_congr fun v => ?_
    split
    · exact Pattern.buildCons_calling h args (by omega)
    · exact Pattern.buildList_calling h args (by omega)
    · exact Pattern.buildSole_calling h args (by omega)
    · exact Pattern.buildPredicated_calling h args (by omega)
    · exact Pattern.buildDefaulted_calling h args (by omega)
    · exact Pattern.buildAliased_calling h args (by omega)
    · change call _ args scope >>= _ = r.call _ args scope >>= _
      rw [h _ args (by omega)]
  | .value label v, _ => by cases v <;> rfl
  | .nil, _ | .identifier _, _ | .numeral _, _ | .symbol _, _ => rfl

theorem Pattern.buildCons_calling (h : r.CallsBelow call n) (args : Node) (hn : args.toDo ≤ n) :
    Pattern.buildCons (r.calling call) scope args = Pattern.buildCons r scope args := by
  rw [buildCons.eq_def, buildCons.eq_def]
  split
  · next a b =>
    simp only [Node.toDo] at hn
    rw [Pattern.build_calling h a (by omega), Pattern.build_calling h b (by omega)]
  · rfl

theorem Pattern.buildList_calling (h : r.CallsBelow call n) (args : Node) (hn : args.toDo ≤ n) :
    Pattern.buildList (r.calling call) scope args = Pattern.buildList r scope args := by
  rw [buildList.eq_def, buildList.eq_def]
  split
  · rfl
  · next car cdr =>
    rw [Node.toDo] at hn
    rw [Pattern.build_calling h car (by omega), Pattern.build_calling h cdr (by omega)]
  · rfl

theorem Pattern.buildSole_calling (h : r.CallsBelow call n) (args : Node) (hn : args.toDo ≤ n) :
    Pattern.buildSole (r.calling call) scope args = Pattern.buildSole r scope args := by
  rw [buildSole.eq_def, buildSole.eq_def]
  split
  · rfl
  · next a =>
    simp only [Node.toDo] at hn
    rw [Pattern.build_calling h a (by omega)]
  · rfl

theorem Pattern.buildPredicated_calling (h : r.CallsBelow call n) (args : Node)
    (hn : args.toDo ≤ n) :
    Pattern.buildPredicated (r.calling call) scope args = Pattern.buildPredicated r scope args := by
  rw [buildPredicated.eq_def, buildPredicated.eq_def]
  split
  · next a predicate =>
    simp only [Node.toDo] at hn
    rw [Pattern.build_calling h a (by omega)]
    rfl
  · rfl

theorem Pattern.buildDefaulted_calling (h : r.CallsBelow call n) (args : Node)
    (hn : args.toDo ≤ n) :
    Pattern.buildDefaulted (r.calling call) scope args = Pattern.buildDefaulted r scope args := by
  rw [buildDefaulted.eq_def, buildDefaulted.eq_def]
  split
  · next a fallback =>
    simp only [Node.toDo] at hn
    rw [Pattern.build_calling h a (by omega)]
    rfl
  · rfl

theorem Pattern.buildAliased_calling (h : r.CallsBelow call n) (args : Node) (hn : args.toDo ≤ n) :
    Pattern.buildAliased (r.calling call) scope args = Pattern.buildAliased r scope args := by
  rw [buildAliased.eq_def, buildAliased.eq_def]
  split
  · next a b =>
    simp only [Node.toDo] at hn
    rw [Pattern.build_calling h a (by omega), Pattern.build_calling h b (by omega)]
  · rfl

end

variable (h : r.CallsBelow call n)

include h

namespace Closure

theorem make_calling {pattern : Node} (hn : pattern.toDo ≤ n) (body : Node) :
    make (r.calling call) pattern body scope = make r pattern body scope := by
  rw [make, make, Pattern.build_calling h pattern hn]

theorem ofArguments_calling {arg : Node} (hn : arg.toDo ≤ n) :
    ofArguments (r.calling call) arg scope = ofArguments r arg scope := by
  rw [ofArguments, ofArguments]
  cases hsplit : arg.split with
  | none => rfl
  | some p => exact make_calling h ((Node.toDo_of_split hsplit).1.trans hn) p.2

theorem makeAll_calling {alternatives : List Node} (hn : ∀ a ∈ alternatives, a.toDo ≤ n) :
    makeAll (r.calling call) scope alternatives = makeAll r scope alternatives := by
  induction alternatives with
  | nil => rfl
  | cons alternative alternatives ih =>
    obtain ⟨hfirst, hn⟩ := List.forall_mem_cons.mp hn
    rw [makeAll, makeAll, ih hn]
    cases hsplit : alternative.split with
    | none => rfl
    | some p =>
      dsimp only
      rw [make_calling h ((Node.toDo_of_split hsplit).1.trans hfirst)]

end Closure

/-! ### Objects -/

namespace Slot

/-- **Only an access among the items of an object calls anything**: it looks its slot up. -/
theorem ofItem_calling {item : Node} (hn : item.toDo ≤ n) :
    ofItem (r.calling call) item scope = ofItem r item scope := by
  cases item with
  | form head args =>
    rw [Node.toDo] at hn
    rw [ofItem, ofItem]
    refine bind_congr fun v => ?_
    split
    · rfl
    · refine bind_congr fun p => bind_congr fun name => ?_
      change call _ args scope >>= _ = r.call _ args scope >>= _
      rw [h _ args (by omega)]
    · rfl
  | _ => rfl

theorem ofItems_calling {items : List Node} (hn : ∀ item ∈ items, item.toDo ≤ n)
    (slots : Bindings) :
    ofItems (r.calling call) scope slots items = ofItems r scope slots items := by
  induction items generalizing slots with
  | nil => rfl
  | cons item items ih =>
    obtain ⟨hfirst, hn⟩ := List.forall_mem_cons.mp hn
    rw [ofItems, ofItems, ofItem_calling h hfirst]
    exact bind_congr fun p => ih hn _

theorem buildObject_calling {arg : Node} (hn : arg.toDo ≤ n) (prototype : Option ObjectId) :
    buildObject (r.calling call) prototype arg scope = buildObject r prototype arg scope := by
  rw [buildObject, buildObject,
    ofItems_calling h fun item hmem => (Node.toDo_of_mem_elements hmem).trans hn]

end Slot

end Making

/-- The entries of a dictionary are evaluated. -/
theorem Slot.entriesOf_calling (dict : Dictionary) (items : List Node) :
    Slot.entriesOf (r.calling call) scope dict items = Slot.entriesOf r scope dict items := by
  induction items generalizing dict with
  | nil => rfl
  | cons item items ih =>
    rw [Slot.entriesOf, Slot.entriesOf]
    refine bind_congr fun v => ?_
    split
    · exact ih _
    · rfl

/-! ## What is asked for -/

/-- The functions that a call of the value may enter. -/
def Value.functions : Value → List ClosureId
  | .function id | .boundMethod _ id _ => [id]
  | .multiFunction _ alternatives => alternatives
  | _ => []

/-- **The calls that a call makes itself**: a call of `callee` with `arg` asks for one of `callee'`
with `arg'`. -/
inductive Asks : Value → Node → Value → Node → Prop
  | curried (tag : Nat) (f args : Value) (arg : Node) :
      Asks (.curried tag f args) arg f (.quoteBefore args arg)
  | inner (outer inner : Value) (arg : Node) : Asks (.pair outer inner) arg inner arg
  | outer (outer inner v : Value) (arg : Node) :
      Asks (.pair outer inner) arg outer (.quote (.ofList [v]))
  | pattern {p : Pattern} {predicate : Value} (v : Value) (arg : Node) :
      predicate ∈ p.predicates → Asks (.pattern p) arg predicate (.quote (.ofList [v]))
  | function {callee : Value} {id : ClosureId} {predicate : Value} (v : Value) (arg : Node) :
      id ∈ callee.functions → predicate.Within (.older id) →
      Asks callee arg predicate (.quote (.ofList [v]))
  /-- `match?` asks the predicates of the pattern it is given. -/
  | isMatch {p : Pattern} {predicate : Value} (label : String) (v : Value) (target : Node) :
      predicate ∈ p.predicates →
      Asks (.builtin .isMatch) (.pair (.value label (.pattern p)) (.pair target .nil)) predicate
        (.quote (.ofList [v]))
  /-- A primitive may call anything with arguments that are further inside its own. -/
  | further (b : Builtin) {arg args : Node} (callee : Value) :
      args.toDo < arg.toDo → Asks (.builtin b) arg callee args

/-- **The primitives that call whatever they are given.** -/
def Value.HandsOn (v : Value) : Prop :=
  v = .builtin .call ∨ v = .builtin .apply

/-- What has its value already evaluates to a pattern only if it is one. -/
def Evaluator.KeepsPatterns (r : Evaluator) : Prop :=
  ∀ node scope p, node.toDo = 0 → Returns (r.eval node scope) (.pattern p) →
    ∃ label, node = .value label (.pattern p)

theorem bind_congr_of_returns {α β : Type} {x : Eval α} {f g : α → Eval β}
    (h : ∀ a, Returns x a → f a = g a) : x >>= f = x >>= g := by
  funext cfg s
  rw [Eval.bind_apply, Eval.bind_apply]
  cases hx : x cfg s with
  | ok a t => exact congrFun (congrFun (h a ⟨cfg, s, t, hx⟩) cfg) t
  | error e t | stopped m t => rfl

/-- What `match?` finds for a pattern is the value of its first argument. -/
theorem exists_of_returns_two {procedure : String} {arg : Node} {v w : Value}
    (h : Returns (r.evalTwoArguments procedure arg scope) (v, w)) :
    ∃ a b, arg = .pair a (.pair b .nil) ∧ Returns (r.eval a scope) v := by
  obtain ⟨cfg, s, t, hx⟩ := h
  obtain ⟨⟨a, b⟩, s₁, harg, hx⟩ := Eval.bind_eq_ok hx
  obtain ⟨v', s₂, hv, hx⟩ := Eval.bind_eq_ok hx
  obtain ⟨w', s₃, hw, hx⟩ := Eval.bind_eq_ok hx
  cases hx
  refine ⟨a, b, ?_, cfg, s₁, s₂, hv⟩
  rw [Node.twoArguments.eq_def] at harg
  split at harg
  · cases harg
    rfl
  · cases harg

section Asking

variable {b : Builtin} {arg : Node}
  (h : ∀ callee' arg', Asks (.builtin b) arg callee' arg' → call callee' arg' = r.call callee' arg')

include h

theorem Primitive.isMatch_calling (hb : b = .isMatch) (hr : r.KeepsPatterns) :
    Primitive.isMatch (r.calling call) arg scope = Primitive.isMatch r arg scope := by
  subst hb
  refine bind_congr_of_returns fun (v, target) hreturns => ?_
  obtain ⟨a, b, rfl, ha⟩ := exists_of_returns_two hreturns
  cases v with
  | pattern p =>
    have hpredicates : r.AsksAlike call p.predicates := by
      intro predicate hpredicate u
      rcases Nat.eq_zero_or_pos a.toDo with hnothing | hmore
      · obtain ⟨label, rfl⟩ := hr a scope p hnothing ha
        exact h _ _ (.isMatch label u b hpredicate)
      · refine h _ _ (.further _ _ ?_)
        simp only [Node.toDo]
        exact Nat.lt_add_right _ hmore
    dsimp only
    refine bind_congr fun frame => ?_
    rw [p.matchWith_calling hpredicates]
  | _ => rfl

/-- **A primitive that hands nothing on calls only what it asks for.** -/
theorem Builtin.run_calling (hb : ¬(Value.builtin b).HandsOn) (hr : r.KeepsPatterns) :
    b.run (r.calling call) arg scope = b.run r arg scope := by
  have hbelow : r.CallsBelow call arg.toDo := fun callee' _ hless =>
    h _ _ (.further b callee' hless)
  cases b with
  | function | method => simp only [Builtin.run, Closure.ofArguments_calling hbelow le_rfl]
  | multiFunction =>
    simp only [Builtin.run, Primitive.multiFunction,
      Closure.makeAll_calling hbelow fun _ => Node.toDo_of_mem_elements]
  | pattern => simp only [Builtin.run, Pattern.buildSole_calling hbelow arg le_rfl]
  | patternWithPredicate =>
    simp only [Builtin.run, Pattern.buildPredicated_calling hbelow arg le_rfl]
  | patternWithDefault => simp only [Builtin.run, Pattern.buildDefaulted_calling hbelow arg le_rfl]
  | patternAlias => simp only [Builtin.run, Pattern.buildAliased_calling hbelow arg le_rfl]
  | object => exact Slot.buildObject_calling hbelow le_rfl none
  | extend =>
    change Primitive.extend _ arg scope = Primitive.extend _ arg scope
    rw [Primitive.extend, Primitive.extend]
    cases hsplit : arg.split with
    | none => rfl
    | some p =>
      refine bind_congr fun v => ?_
      split
      · exact Slot.buildObject_calling hbelow (Node.toDo_of_split hsplit).2 _
      · rfl
  | dictionary => simp only [Builtin.run, Slot.buildDictionary, Slot.entriesOf_calling]
  | isMatch => exact Primitive.isMatch_calling h rfl hr
  | call => exact absurd (Or.inl rfl) hb
  | apply => exact absurd (Or.inr rfl) hb
  | _ => rfl

end Asking

end Calling

/-! ## What a call weighs -/

/-- **A call that mentions no functions but the first `n`**, so far as it matters for what it
asks. -/
structure Aged (n : Nat) (callee : Value) (arg : Node) : Prop where
  callee : callee.Within (.older n)
  leading : ∀ v, arg.leading = some v → v.Within (.older n)

theorem Aged.of_within {s : State} {callee : Value} {arg : Node} (hc : callee.Within s.census)
    (ha : arg.Within s.census) : Aged s.store.closures.size callee arg := by
  refine ⟨hc.mono s.census_le_older, fun v hv => ?_⟩
  rw [Node.leading.eq_def] at hv
  split at hv
  · cases hv
    exact Value.Within.mono s.census_le_older ha.1
  · cases hv

/-- **The weight of a call**: how much of its arguments has no value yet, then how young the
functions are that it mentions, then how large the callee is and what leads the arguments. -/
noncomputable def weight (n : Nat) (callee : Value) (arg : Node) : Nat ×ₗ Nat ×ₗ Nat :=
  toLex (arg.toDo, toLex (n, sizeOf callee + arg.leading.elim 0 sizeOf))

section Weight

variable {n n' : Nat} {callee callee' : Value} {arg arg' : Node}

theorem weight_lt_of_toDo (h : arg'.toDo < arg.toDo) :
    weight n' callee' arg' < weight n callee arg :=
  Prod.Lex.toLex_lt_toLex.mpr (Or.inl h)

theorem weight_lt_of_age (h : arg'.toDo ≤ arg.toDo) (hn : n' < n) :
    weight n' callee' arg' < weight n callee arg := by
  rcases Nat.lt_or_eq_of_le h with hless | heq
  · exact weight_lt_of_toDo hless
  · exact Prod.Lex.toLex_lt_toLex.mpr (Or.inr ⟨heq, Prod.Lex.toLex_lt_toLex.mpr (Or.inl hn)⟩)

theorem weight_lt_of_size (h : arg'.toDo ≤ arg.toDo)
    (hsize : sizeOf callee' + arg'.leading.elim 0 sizeOf <
      sizeOf callee + arg.leading.elim 0 sizeOf) :
    weight n callee' arg' < weight n callee arg := by
  rcases Nat.lt_or_eq_of_le h with hless | heq
  · exact weight_lt_of_toDo hless
  · exact Prod.Lex.toLex_lt_toLex.mpr
      (Or.inr ⟨heq, Prod.Lex.toLex_lt_toLex.mpr (Or.inr ⟨rfl, hsize⟩)⟩)

/-- The functions that a value may enter are among those it mentions. -/
theorem Value.Within.functions {N : Census} {id : ClosureId} (h : callee.Within N)
    (hid : id ∈ callee.functions) : N.closure id := by
  cases callee with
  | function f => exact List.mem_singleton.mp hid ▸ h
  | boundMethod tag f receiver => exact List.mem_singleton.mp hid ▸ h.1
  | multiFunction tag ids => exact h id hid
  | _ => cases hid

/-- **What a call asks for weighs less**, either for its arguments, whatever it mentions, or with
functions that are no younger. -/
theorem Asks.lighter (h : Asks callee arg callee' arg') (hn : Aged n callee arg) :
    arg'.toDo < arg.toDo ∨ ∃ n', Aged n' callee' arg' ∧
      weight n' callee' arg' < weight n callee arg := by
  have hone : ∀ v : Value, (Node.quote (.ofList [v])).toDo = 0 := fun _ => rfl
  have haged : ∀ {n v} u, v.Within (.older n) → Aged n v (.quote (.ofList [u])) := fun u hv =>
    ⟨hv, fun w hw => by cases hw⟩
  cases h with
  | curried tag f args =>
    refine Or.inr ⟨n, ⟨hn.callee.1, fun v hv => ?_⟩,
      weight_lt_of_size (Node.toDo_quoteBefore_le args arg) ?_⟩
    · rcases Node.leading_quoteBefore hv with ⟨tail, rfl⟩ | hv
      · exact hn.callee.2.1
      · exact hn.leading v hv
    · rw [Value.curried.sizeOf_spec]
      cases hv : (Node.quoteBefore args arg).leading with
      | none =>
        change sizeOf callee' + 0 < _
        omega
      | some v =>
        change sizeOf callee' + sizeOf v < _
        rcases Node.leading_quoteBefore hv with ⟨tail, rfl⟩ | hv
        · rw [Value.pair.sizeOf_spec]
          omega
        · rw [hv]
          change _ < _ + sizeOf v
          omega
  | inner outer inner =>
    refine Or.inr ⟨n, ⟨hn.callee.2, hn.leading⟩, weight_lt_of_size le_rfl ?_⟩
    rw [Value.pair.sizeOf_spec]
    omega
  | outer outer inner v =>
    refine Or.inr ⟨n, haged v hn.callee.1, weight_lt_of_size (Nat.zero_le _) ?_⟩
    rw [Value.pair.sizeOf_spec]
    change sizeOf callee' + 0 < _
    omega
  | pattern v arg hpredicate =>
    refine Or.inr ⟨n, haged v (Pattern.Within.predicate hn.callee _ hpredicate),
      weight_lt_of_size (Nat.zero_le _) ?_⟩
    have := Pattern.sizeOf_predicate _ _ hpredicate
    rw [Value.pattern.sizeOf_spec]
    change sizeOf callee' + 0 < _
    omega
  | function v arg hid hpredicate =>
    exact Or.inr ⟨_, haged v hpredicate, weight_lt_of_age (Nat.zero_le _) (hn.callee.functions hid)⟩
  | isMatch label v target hpredicate =>
    have hp := hn.leading _ rfl
    refine Or.inr ⟨n, haged v (Pattern.Within.predicate hp _ hpredicate),
      weight_lt_of_size (Nat.zero_le _) ?_⟩
    have := Pattern.sizeOf_predicate _ _ hpredicate
    change sizeOf callee' + 0 < _ + sizeOf (Value.pattern _)
    rw [Value.pattern.sizeOf_spec]
    omega
  | further b callee hless => exact Or.inl hless

end Weight

end Fexpr
