import Fexpr.Proofs.Evaluation
import Fexpr.Proofs.Reader.Rests
import Fexpr.Proofs.WellMade

/-!
# Proofs/Matching/NormalForm — every pattern is in normal form, however it is spelled

Building a pattern keeps everything within the ledger, so whatever is inside the pattern is well made
(`Pattern.Within.wellMade_inside`).  The three spellings of a list pattern read as chains of conses
(`Item.expand_colons`) and as a list (`Bracket.construct_bracketed`).  Building them evaluates the
same nodes in the same order, and they differ only in the heads that are evaluated in between: a
chain of conses is built as the spine of its elements is, whenever its heads are `cons` without more
ado (`build_consed`).
-/

namespace Fexpr

/-! ## Everything inside a pattern -/

mutual

/-- **All patterns inside a value.** -/
def Value.inside : Value → List Pattern
  | .pair car cdr => car.inside ++ cdr.inside
  | .curried _ callee args => callee.inside ++ args.inside
  | .boundMethod _ _ receiver => receiver.inside
  | .pattern p => p.inside
  | _ => []

/-- **A pattern and all patterns inside it**, also those inside the values that it asks for. -/
def Pattern.inside : Pattern → List Pattern
  | .value v => .value v :: v.inside
  | .cons cars tail => .cons cars tail :: (Pattern.insideAll cars ++ tail.inside)
  | .predicated base predicate => .predicated base predicate :: (base.inside ++ predicate.inside)
  | .defaulted base fallback => .defaulted base fallback :: (base.inside ++ fallback.inside)
  | .aliased first second => .aliased first second :: (first.inside ++ second.inside)
  | p => [p]

/-- All patterns inside some patterns. -/
def Pattern.insideAll : List Pattern → List Pattern
  | [] => []
  | p :: ps => p.inside ++ Pattern.insideAll ps

end

mutual

/-- **Whatever is inside a value within a census that asks for it is well made.** -/
theorem Value.Within.wellMade_inside {N : Census} (hN : N.wellMade) : (v : Value) → v.Within N →
    ∀ q ∈ v.inside, q.WellMade
  | .pair car cdr, h => by
    rw [Value.inside]
    exact List.forall_mem_append.mpr
      ⟨Value.Within.wellMade_inside hN car h.1, Value.Within.wellMade_inside hN cdr h.2⟩
  | .curried _ callee args, h => by
    rw [Value.inside]
    exact List.forall_mem_append.mpr
      ⟨Value.Within.wellMade_inside hN callee h.1, Value.Within.wellMade_inside hN args h.2⟩
  | .boundMethod _ _ receiver, h => by
    rw [Value.inside]
    exact Value.Within.wellMade_inside hN receiver h.2
  | .pattern p, h => by
    rw [Value.inside]
    exact Pattern.Within.wellMade_inside hN p h
  | .nil, _ | .void, _ | .integer _, _ | .bool _, _ | .symbol _, _ | .builtin _, _
  | .function _, _ | .method _, _ | .multiFunction .., _ | .object _, _ | .dictionary _, _
  | .promise _, _ => by simp [Value.inside]

theorem Pattern.Within.wellMade_inside {N : Census} (hN : N.wellMade) : (p : Pattern) →
    p.Within N → ∀ q ∈ p.inside, q.WellMade
  | .value v, h => by
    rw [Pattern.inside]
    exact List.forall_mem_cons.mpr ⟨trivial, Value.Within.wellMade_inside hN v h⟩
  | .cons cars tail, h => by
    rw [Pattern.inside]
    exact List.forall_mem_cons.mpr ⟨h.2.2 hN, List.forall_mem_append.mpr
      ⟨Pattern.AllWithin.wellMade_inside hN cars h.1, Pattern.Within.wellMade_inside hN tail h.2.1⟩⟩
  | .predicated base predicate, h => by
    rw [Pattern.inside]
    exact List.forall_mem_cons.mpr ⟨h.2.2 hN, List.forall_mem_append.mpr
      ⟨Pattern.Within.wellMade_inside hN base h.1, Value.Within.wellMade_inside hN predicate h.2.1⟩⟩
  | .defaulted base fallback, h => by
    rw [Pattern.inside]
    exact List.forall_mem_cons.mpr ⟨trivial, List.forall_mem_append.mpr
      ⟨Pattern.Within.wellMade_inside hN base h.1, Value.Within.wellMade_inside hN fallback h.2⟩⟩
  | .aliased first second, h => by
    rw [Pattern.inside]
    exact List.forall_mem_cons.mpr ⟨trivial, List.forall_mem_append.mpr
      ⟨Pattern.Within.wellMade_inside hN first h.1, Pattern.Within.wellMade_inside hN second h.2⟩⟩
  | .identifier _, _ | .defaultArguments, _ => by simp [Pattern.inside, Pattern.WellMade]

theorem Pattern.AllWithin.wellMade_inside {N : Census} (hN : N.wellMade) : (ps : List Pattern) →
    Pattern.AllWithin N ps → ∀ q ∈ Pattern.insideAll ps, q.WellMade
  | [], _ => by simp [Pattern.insideAll]
  | p :: ps, h => by
    rw [Pattern.insideAll]
    exact List.forall_mem_append.mpr
      ⟨Pattern.Within.wellMade_inside hN p h.1, Pattern.AllWithin.wellMade_inside hN ps h.2⟩

end

/-! ## Spellings of list patterns -/

namespace Node

/-- **`(head x1 ... (head xn tail))`**, as a chain of conses is spelled. -/
def consed (head : Node) (items : List Node) (tail : Node) : Node :=
  items.foldr (fun item rest => .call head [item, rest]) tail

/-- **`[x1 ... xn | tail]`.** -/
def bracketed (items : List Node) (tail : Node) : Node :=
  .form (.value "_list" (.builtin .list)) (spine items tail)

end Node

namespace Item

/-- **The items of `x1:...:xn:tail`.** -/
def colons (items : List Node) (tail : Node) : List Item :=
  items.foldr (fun item rest => .node item :: .binary .cons :: rest) [.node tail]

theorem phrase_colons (items : List Node) (tail : Node) :
    Phrase .cell (colons items tail) (.consed BinaryOperator.cons.head items tail) := by
  induction items with
  | nil => exact .loosen rfl (.loosen rfl (.operand ⟨[], tail⟩))
  | cons item items ih =>
    exact .right rfl rfl (by simp [Tier.adds]) (.loosen rfl (.operand ⟨[], item⟩)) ih

theorem exists_chain_colons (items : List Node) (tail : Node) :
    ∃ first more, (Segment.chain first more).items = colons items tail := by
  induction items with
  | nil => exact ⟨⟨[], tail⟩, [], rfl⟩
  | cons item items ih =>
    obtain ⟨first, more, hitems⟩ := ih
    exact ⟨⟨[], item⟩, (.cons, first) :: more,
      congrArg (fun rest => Item.node item :: .binary .cons :: rest) hitems⟩

/-- **Colons spell a chain of conses.** -/
theorem expand_colons (items : List Node) (tail : Node) :
    expand (colons items tail) = .ok [.node (.consed BinaryOperator.cons.head items tail)] := by
  obtain ⟨first, more, hitems⟩ := exists_chain_colons items tail
  have hstands : (Segment.chain first more).StandsFor
      (.node (.consed BinaryOperator.cons.head items tail)) := by
    refine .chain ?_
    rw [hitems]
    exact .loosen rfl (.loosen rfl (phrase_colons items tail))
  have hexpand := expand_of_forall₂ (.cons hstands .nil)
  rwa [List.flatMap_singleton, hitems] at hexpand

end Item

/-- **Brackets spell the list of their items.** -/
theorem Bracket.construct_bracketed (item : Node) (items : List Node) (tail : Node) :
    Bracket.list.construct ((item :: items).map .node ++ [.rest, .node tail]) =
      .ok (.bracketed (item :: items) tail) := by
  have hspine := (Item.IsSpine.dotted item items tail).toSpine_eq
  rw [Bracket.construct, List.map_cons, List.cons_append, List.isEmpty_cons, Bool.false_and]
  change (Item.toSpine ((item :: items).map .node ++ [.rest, .node tail]) >>= fun args =>
    pure (Node.form _ args)) = _
  rw [hspine]
  rfl

namespace Pattern

variable {n : Nat} {scope : ScopeId} {cfg : Config} {s : State}

/-- Building a pattern leaks nothing. -/
theorem balanced_build (fuel : Nat) (scope : ScopeId) (node : Node) :
    Balance.Balanced (build (.ofFuel fuel) scope node) := by
  have hrel : Balance.comparison.toComparison.Rel () scope (build (.ofFuel fuel) scope node)
      (build (.ofFuel fuel) scope node) Pattern.Within :=
    Comparison.build (Balance.agree_ofFuel fuel).toComparison node node.within_all
  exact hrel.1

/-- **The name `cons` is bound to its builtin wherever it is looked up** while the patterns of some
nodes are built from a state on. -/
def ConsBound (r : Evaluator) (scope : ScopeId) (cfg : Config) : List Node → State → Prop
  | [], _ => True
  | item :: items, s => s.arena.get? scope "cons" = some (.builtin .cons) ∧
      ∀ p t, build r scope item cfg s = .ok p t → ConsBound r scope cfg items t

/-- **A head evaluates to `cons` without more ado**, wherever it does while the patterns of some
nodes are built. -/
def Heads (r : Evaluator) (scope : ScopeId) (cfg : Config) (head : Node) : List Node → State → Prop
  | [], _ => True
  | item :: items, s => r.eval head scope cfg s = .ok (.builtin .cons) s ∧
      ∀ p t, build r scope item cfg s = .ok p t → Heads r scope cfg head items t

/-- **A chain of conses is built as the spine of its elements is.** -/
theorem build_consed {r : Evaluator} {head : Node} {items : List Node} (tail : Node)
    (h : Heads r scope cfg head items s) :
    build r scope (Node.consed head items tail) cfg s = build r scope (.spine items tail) cfg s := by
  induction items generalizing s with
  | nil => rfl
  | cons item items ih =>
    obtain ⟨hhead, hrest⟩ := h
    have hconsed : build r scope (Node.consed head (item :: items) tail) cfg s =
        (build r scope item >>= fun first => build r scope (Node.consed head items tail) >>=
          fun rest => pure (chain [first] rest)) cfg s := by
      change build r scope (.form head (.spine [item, Node.consed head items tail] .nil)) cfg s = _
      rw [build, Eval.bind_apply, hhead]
      rfl
    have hspine : build r scope (.spine (item :: items) tail) cfg s =
        (build r scope item >>= fun first => build r scope (.spine items tail) >>=
          fun rest => pure (chain [first] rest)) cfg s := rfl
    rw [hconsed, hspine, Eval.bind_apply, Eval.bind_apply]
    cases hitem : build r scope item cfg s with
    | ok first t =>
      dsimp only
      rw [Eval.bind_apply, Eval.bind_apply, ih (hrest first t hitem)]
    | error e t => rfl
    | stopped m t => rfl

section

variable (hs : s.arena.Tidy) (hdepth : s.depth < cfg.maxDepth)

include hdepth

/-- **A list in brackets is built as the spine of its elements is.** -/
theorem build_bracketed (item : Node) (items : List Node) (tail : Node) :
    build (.ofFuel (n + 1)) scope (.bracketed (item :: items) tail) cfg s =
      build (.ofFuel (n + 1)) scope (.spine (item :: items) tail) cfg s := by
  rw [Node.bracketed, build, Eval.bind_apply, Evaluator.eval_value hdepth]
  rfl

/-- **`(pattern p)` is built as `p` is.** -/
theorem build_sole (node : Node) (h : s.arena.get? scope "pattern" = some (.builtin .pattern)) :
    build (.ofFuel (n + 1)) scope (.call (.identifier "pattern") [node]) cfg s =
      build (.ofFuel (n + 1)) scope node cfg s := by
  rw [Node.call, build, Eval.bind_apply, Evaluator.eval_identifier hdepth h]
  rfl

include hs

/-- An operator's head is the same everywhere. -/
theorem heads_value (label : String) (items : List Node) :
    Heads (.ofFuel (n + 1)) scope cfg (.value label (.builtin .cons)) items s := by
  induction items generalizing s with
  | nil => exact trivial
  | cons item items ih =>
    refine ⟨Evaluator.eval_value hdepth label _, fun p t hp => ?_⟩
    have hbalanced := balanced_build (n + 1) scope item cfg s hs
    rw [hp] at hbalanced
    exact ih (State.Balanced.tidy hbalanced) (hbalanced.depth ▸ hdepth)

theorem ConsBound.heads {items : List Node} (h : ConsBound (.ofFuel (n + 1)) scope cfg items s) :
    Heads (.ofFuel (n + 1)) scope cfg (.identifier "cons") items s := by
  induction items generalizing s with
  | nil => exact trivial
  | cons item items ih =>
    refine ⟨Evaluator.eval_identifier hdepth h.1, fun p t hp => ?_⟩
    have hbalanced := balanced_build (n + 1) scope item cfg s hs
    rw [hp] at hbalanced
    exact ih (State.Balanced.tidy hbalanced) (hbalanced.depth ▸ hdepth) (h.2 p t hp)

end

/-- At the limit no head is evaluated. -/
theorem build_form_of_le (h : cfg.maxDepth ≤ s.depth) (head args : Node) :
    build (.ofFuel (n + 1)) scope (.form head args) cfg s =
      .error (.recursionLimit cfg.maxDepth) s := by
  rw [build, Eval.bind_apply, Evaluator.eval_of_le h]

/-- **Every pattern is in normal form, whatever syntax built it.**  In every state that programs
make, whatever is inside the values of the frames and the patterns of the functions is well made, and
so is whatever is inside a value that is evaluated or a pattern that is built there.  The spellings
`x1:...:xn:t`, `(cons x1 ... (cons xn t))` and `[x1 ... xn | t]` come to the same end in the same
state, and `(pattern p)` to that of `p`. -/
theorem built_in_normal_form {s : State} (hs : Attainable s) (fuel : Nat) (cfg : Config)
    (scope : ScopeId) :
    (∀ u (name : String) v, (s.arena.frame u).bindings[name]? = some v →
        ∀ q ∈ v.inside, q.WellMade) ∧
      (∀ id, ∀ q ∈ (s.store.closure id).pattern.inside, q.WellMade) ∧
      (∀ node : Node, node.Within s.ledger → ∀ v t,
        (Evaluator.ofFuel fuel).eval node scope cfg s = .ok v t → ∀ q ∈ v.inside, q.WellMade) ∧
      (∀ node : Node, node.Within s.ledger → ∀ built ∈
          [build (.ofFuel fuel) scope node, buildSole (.ofFuel fuel) scope node,
            buildPredicated (.ofFuel fuel) scope node, buildDefaulted (.ofFuel fuel) scope node,
            buildAliased (.ofFuel fuel) scope node],
        ∀ p t, built cfg s = .ok p t → ∀ q ∈ p.inside, q.WellMade) ∧
      (∀ (x : Node) (xs : List Node) (tail : Node),
        Item.expand (Item.colons (x :: xs) tail) =
            .ok [.node (.consed BinaryOperator.cons.head (x :: xs) tail)] ∧
          Bracket.list.construct ((x :: xs).map .node ++ [.rest, .node tail]) =
            .ok (.bracketed (x :: xs) tail) ∧
          build (.ofFuel (fuel + 1)) scope (.consed BinaryOperator.cons.head (x :: xs) tail) cfg s =
            build (.ofFuel (fuel + 1)) scope (.bracketed (x :: xs) tail) cfg s ∧
          (ConsBound (.ofFuel (fuel + 1)) scope cfg (x :: xs) s →
            build (.ofFuel (fuel + 1)) scope (.consed (.identifier "cons") (x :: xs) tail) cfg s =
              build (.ofFuel (fuel + 1)) scope (.bracketed (x :: xs) tail) cfg s)) ∧
      (s.depth < cfg.maxDepth → s.arena.get? scope "pattern" = some (.builtin .pattern) →
        ∀ node : Node, build (.ofFuel (fuel + 1)) scope (.call (.identifier "pattern") [node]) cfg s =
          build (.ofFuel (fuel + 1)) scope node cfg s) := by
  have hwell := hs.wellMade
  have hagree := Making.agree_ofFuel fuel
  refine ⟨fun u name v hv => ?_, fun id => ?_, fun node hnode v t hv => ?_,
    fun node hnode built hbuilt p t hp => ?_, fun x xs tail => ?_,
    fun hdepth hname node => build_sole hdepth node hname⟩
  · exact Value.Within.wellMade_inside trivial v (hwell.arena u name v hv)
  · exact Pattern.Within.wellMade_inside trivial _ (hwell.store.closure id trivial).1
  · exact Value.Within.wellMade_inside (N := t.ledger) trivial v
      (Making.Makes.of_ok (hagree.eval s scope hnode) hwell hv).2
  · have hmakes : Making.comparison.Rel s scope built built Pattern.Within := by
      simp only [List.mem_cons, List.not_mem_nil, or_false] at hbuilt
      rcases hbuilt with rfl | rfl | rfl | rfl | rfl
      · exact Comparison.build hagree node hnode
      · exact Comparison.buildSole hagree node hnode
      · exact Comparison.buildPredicated hagree node hnode
      · exact Comparison.buildDefaulted hagree node hnode
      · exact Comparison.buildAliased hagree node hnode
    exact Pattern.Within.wellMade_inside (N := t.ledger) trivial p
      (Making.Makes.of_ok hmakes hwell hp).2
  · refine ⟨Item.expand_colons _ tail, Bracket.construct_bracketed x xs tail, ?_⟩
    rcases Nat.lt_or_ge s.depth cfg.maxDepth with hdepth | hlimit
    · rw [build_bracketed hdepth]
      exact ⟨build_consed tail (heads_value hs.tidy hdepth _ _),
        fun hbound => build_consed tail (hbound.heads hs.tidy hdepth)⟩
    · -- the first head is the limit of all of them
      rw [Node.bracketed, build_form_of_le hlimit]
      exact ⟨build_form_of_le hlimit _ _, fun _ => build_form_of_le hlimit _ _⟩

/-- `a:b:c`, `(cons a (cons b c))` and `[a b | c]`, in a fresh state. -/
theorem listOfTwo_in_normal_form :
    let elements : List Node := [.identifier "a", .identifier "b"]
    let p : Pattern := .cons [.identifier "a", .identifier "b"] (.identifier "c")
    (∀ q ∈ p.inside, q.WellMade) ∧
      build (.ofFuel 1) Arena.root (.bracketed elements (.identifier "c")) {} .initial =
        .ok p .initial ∧
      build (.ofFuel 1) Arena.root (.consed BinaryOperator.cons.head elements (.identifier "c")) {}
        .initial = .ok p .initial ∧
      build (.ofFuel 1) Arena.root (.consed (.identifier "cons") elements (.identifier "c")) {}
        .initial = .ok p .initial ∧
      build (.ofFuel 1) Arena.root
        (.call (.identifier "pattern") [.bracketed elements (.identifier "c")]) {} .initial =
          .ok p .initial := by
  intro elements p
  have hdepth : State.initial.depth < 512 := by decide
  have hbuiltin : ∀ (name : String) (b : Builtin),
      (State.initial.arena.get? Arena.root name).any (· == .builtin b) →
      State.initial.arena.get? Arena.root name = some (.builtin b) := fun _ _ h =>
    Value.eq_some_of_any h trivial
  have hcons := hbuiltin "cons" .cons (by decide +kernel)
  have hbound : ConsBound (.ofFuel 1) Arena.root {} elements .initial := by
    refine ⟨hcons, fun p t hp => ?_⟩
    cases hp
    exact ⟨hcons, fun _ _ _ => trivial⟩
  have hlist : build (.ofFuel 1) Arena.root (.bracketed elements (.identifier "c")) {} .initial =
      .ok p .initial := build_bracketed hdepth _ _ _
  obtain ⟨-, -, -, -, hspelled, hsole⟩ := built_in_normal_form .initial 0 {} Arena.root
  obtain ⟨-, -, hcolons, hnested⟩ := hspelled (.identifier "a") [.identifier "b"] (.identifier "c")
  obtain ⟨-, -, -, hinside, -, -⟩ := built_in_normal_form .initial 1 {} Arena.root
  refine ⟨?_, hlist, hcolons.trans hlist, (hnested hbound).trans hlist, ?_⟩
  · exact hinside (.bracketed elements (.identifier "c")) ⟨trivial, trivial, trivial, trivial⟩ _
      List.mem_cons_self p .initial hlist
  · exact (hsole hdepth (hbuiltin "pattern" .pattern (by decide +kernel)) _).trans hlist

end Pattern

end Fexpr
