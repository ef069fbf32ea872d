import Fexpr.Proofs.Renaming

/-!
# Proofs/Renaming/Pattern — patterns and functions under other identities

An evaluator is **equivariant** under a renaming when evaluating and calling with it follow
themselves.  Then so do all the computations that are written against it: here argument lists,
matching and building patterns, making and calling functions.  There is one lemma for each function
of the evaluator, under the name of the function.
-/

namespace Fexpr

/-- **An evaluator to which identities are nothing but identities.** -/
structure Evaluator.Equivariant (ρ : Renaming) (r : Evaluator) : Prop where
  injective : Function.Injective ρ.tag
  eval : ∀ node scope, ρ.Follows (Value.rename ρ.tag) (r.eval node scope)
    (r.eval (node.rename ρ.tag) scope)
  call : ∀ callee arg scope, ρ.Follows (Value.rename ρ.tag) (r.call callee arg scope)
    (r.call (callee.rename ρ.tag) (arg.rename ρ.tag) scope)

variable {ρ : Renaming} {r : Evaluator} {scope : ScopeId}

open Renaming

/-! ## Argument lists -/

namespace Node

theorem result_argumentError {α β : Type} (ρ : Renaming) (f : α → β) (arg : Node)
    (procedure : String) (n : Nat) :
    Except.error ((arg.rename ρ.tag).argumentError procedure n) =
      ρ.result f (.error (arg.argumentError procedure n)) :=
  congrArg Except.error (arg.argumentError_rename ρ.tag n)

theorem argument_rename (ρ : Renaming) (arg : Node) (procedure : String) :
    (arg.rename ρ.tag).argument procedure =
      ρ.result (rename ρ.tag) (arg.argument procedure) := by
  have herror := result_argumentError ρ (rename ρ.tag) arg procedure 1
  cases arg with
  | pair a rest =>
    cases rest with
    | nil => rfl
    | _ => exact herror
  | _ => exact herror

theorem twoArguments_rename (ρ : Renaming) (arg : Node) (procedure : String) :
    (arg.rename ρ.tag).twoArguments procedure =
      ρ.result (Prod.map (rename ρ.tag) (rename ρ.tag)) (arg.twoArguments procedure) := by
  have herror := result_argumentError ρ (Prod.map (rename ρ.tag) (rename ρ.tag)) arg procedure 2
  cases arg with
  | pair a rest =>
    cases rest with
    | pair b rest =>
      cases rest with
      | nil => rfl
      | _ => exact herror
    | _ => exact herror
  | _ => exact herror

theorem threeArguments_rename (ρ : Renaming) (arg : Node) (procedure : String) :
    (arg.rename ρ.tag).threeArguments procedure =
      ρ.result (Prod.map (rename ρ.tag) (Prod.map (rename ρ.tag) (rename ρ.tag)))
        (arg.threeArguments procedure) := by
  have herror := result_argumentError ρ
    (Prod.map (rename ρ.tag) (Prod.map (rename ρ.tag) (rename ρ.tag))) arg procedure 3
  cases arg with
  | pair a rest =>
    cases rest with
    | pair b rest =>
      cases rest with
      | pair c rest =>
        cases rest with
        | nil => rfl
        | _ => exact herror
      | _ => exact herror
    | _ => exact herror
  | _ => exact herror

end Node

namespace Evaluator.Equivariant

section Arguments

variable {arg : Node} {procedure : String}

theorem argument (ρ : Renaming) (arg : Node) :
    ρ.Follows (Node.rename ρ.tag) (Eval.ofExcept (arg.argument procedure))
      (Eval.ofExcept ((arg.rename ρ.tag).argument procedure)) := by
  rw [Node.argument_rename]
  exact .ofExcept _

theorem twoArguments (ρ : Renaming) (arg : Node) :
    ρ.Follows (Prod.map (Node.rename ρ.tag) (Node.rename ρ.tag))
      (Eval.ofExcept (arg.twoArguments procedure))
      (Eval.ofExcept ((arg.rename ρ.tag).twoArguments procedure)) := by
  rw [Node.twoArguments_rename]
  exact .ofExcept _

theorem threeArguments (ρ : Renaming) (arg : Node) :
    ρ.Follows (Prod.map (Node.rename ρ.tag) (Prod.map (Node.rename ρ.tag) (Node.rename ρ.tag)))
      (Eval.ofExcept (arg.threeArguments procedure))
      (Eval.ofExcept ((arg.rename ρ.tag).threeArguments procedure)) := by
  rw [Node.threeArguments_rename]
  exact .ofExcept _

theorem argumentError {α β : Type} (ρ : Renaming) (f : α → β) (arg : Node) (procedure : String)
    (n : Nat) :
    ρ.Follows f (Eval.fail (arg.argumentError procedure n))
      (Eval.fail ((arg.rename ρ.tag).argumentError procedure n)) := by
  rw [Node.argumentError_rename]
  exact .fail

theorem evalArgument (h : r.Equivariant ρ) (arg : Node) :
    ρ.Follows (Value.rename ρ.tag) (r.evalArgument procedure arg scope)
      (r.evalArgument procedure (arg.rename ρ.tag) scope) :=
  (argument ρ arg).bind fun a => h.eval a scope

theorem evalTwoArguments (h : r.Equivariant ρ) (arg : Node) :
    ρ.Follows (Prod.map (Value.rename ρ.tag) (Value.rename ρ.tag))
      (r.evalTwoArguments procedure arg scope)
      (r.evalTwoArguments procedure (arg.rename ρ.tag) scope) :=
  (twoArguments ρ arg).bind fun p => (h.eval p.1 scope).bind fun _ =>
    (h.eval p.2 scope).map fun _ => rfl

end Arguments

/-! ## Matching -/

section Matching

variable {binding : Binding}

theorem bindPositions (ρ : Renaming) (n : Nat) (vs : List Value) :
    ρ.Follows id (Pattern.bindPositions binding scope n vs)
      (Pattern.bindPositions binding scope n (vs.map (Value.rename ρ.tag))) := by
  induction vs generalizing n with
  | nil => exact .pure
  | cons v vs ih => exact (Follows.bindName binding scope _ v).bind fun _ => ih (n + 1)

theorem bindArguments (ρ : Renaming) (args : Value) :
    ρ.Follows id (Pattern.bindArguments binding scope args)
      (Pattern.bindArguments binding scope (args.rename ρ.tag)) := by
  rw [Pattern.bindArguments, Pattern.bindArguments, Value.elements_rename]
  refine (bindPositions ρ 0 args.elements.1).bind fun _ => ?_
  have hwhole : ρ.Follows id (binding.bind scope "arguments" args)
      (binding.bind scope "arguments" (args.rename ρ.tag)) := .bindName binding scope _ args
  cases args.elements.1 with
  | nil => exact hwhole
  | cons first rest => exact (Follows.bindName binding scope "-" first).bind fun _ => hwhole

/-- What follows if a first match succeeds. -/
theorem guarded {x y x' y' : Eval Bool} (hx : ρ.Follows id x x') (hy : ρ.Follows id y y') :
    ρ.Follows id (do if ← x then y else return false) (do if ← x' then y' else return false) :=
  hx.bind fun accepted => by
    cases accepted with
    | true => exact hy
    | false => exact .pure

mutual

/-- **A renamed pattern accepts what the pattern accepts.** -/
theorem matchWith (h : r.Equivariant ρ) : (p : Pattern) → ∀ target : Option Value,
    ρ.Follows id (p.matchWith r binding scope target)
      ((p.rename ρ.tag).matchWith r binding scope (target.map (Value.rename ρ.tag)))
  | .identifier name, target => by
    cases target with
    | none => exact .pure
    | some v => exact (Follows.bindName binding scope name v).bind fun _ => .pure
  | .value expected, target => by
    cases target with
    | none => exact .pure
    | some v =>
      change ρ.Follows id (pure (v == expected))
        (pure (v.rename ρ.tag == expected.rename ρ.tag))
      rw [Value.beq_rename h.injective]
      exact .pure
  | .cons cars tail, target => matchCars h cars target fun rest => matchWith h tail rest
  | .predicated base predicate, target => by
    cases target with
    | none => exact .pure
    | some v =>
      refine guarded (matchWith h base (some v)) ?_
      have hcall := h.call predicate (Node.quote (.ofList [v])) scope
      rw [Node.rename_quote, Value.rename_ofList] at hcall
      exact hcall.map fun answer => Value.beq_rename h.injective answer (.bool true)
  | .defaulted base fallback, target => by
    cases target with
    | none => exact matchWith h base (some fallback)
    | some v =>
      refine (matchWith h base (some v)).bind fun accepted => ?_
      cases accepted with
      | true => exact .pure
      | false => exact matchWith h base (some fallback)
  | .aliased first second, target =>
    guarded (matchWith h first target) (matchWith h second target)
  | .defaultArguments, target => by
    have htarget : (target.map (Value.rename ρ.tag)).getD .nil =
        (target.getD .nil).rename ρ.tag := by
      cases target <;> rfl
    change ρ.Follows id _ (Pattern.bindArguments binding scope
      ((target.map (Value.rename ρ.tag)).getD .nil) >>= fun _ => pure true)
    rw [htarget]
    exact (bindArguments ρ _).bind fun _ => .pure

theorem matchCars (h : r.Equivariant ρ) : (ps : List Pattern) → ∀ (target : Option Value)
    {k k' : Option Value → Eval Bool},
    (∀ rest, ρ.Follows id (k rest) (k' (rest.map (Value.rename ρ.tag)))) →
    ρ.Follows id (Pattern.matchCars r binding scope ps target k)
      (Pattern.matchCars r binding scope (Pattern.renameAll ρ.tag ps)
        (target.map (Value.rename ρ.tag)) k')
  | [], target, k, k', hk => hk target
  | p :: ps, target, k, k', hk => by
    match target with
    | none => exact guarded (matchWith h p none) (matchCars h ps none hk)
    | some .nil => exact guarded (matchWith h p none) (matchCars h ps (some .nil) hk)
    | some (.pair car cdr) =>
      exact guarded (matchWith h p (some car)) (matchCars h ps (some cdr) hk)
    | some .void | some (.integer _) | some (.bool _) | some (.symbol _) | some (.builtin _)
    | some (.curried ..) | some (.function _) | some (.method _) | some (.boundMethod ..)
    | some (.multiFunction ..) | some (.pattern _) | some (.object _) | some (.dictionary _)
    | some (.promise _) => exact .pure

end

end Matching

/-! ## Building -/

section Building

theorem restrict {base : Pattern} {x y : Eval Value} (hx : ρ.Follows (Value.rename ρ.tag) x y) :
    ρ.Follows (Pattern.rename ρ.tag) (base.restrict x) ((base.rename ρ.tag).restrict y) := by
  -- without a default of its own, any base is treated alike
  have hplain : ∀ base : Pattern, ρ.Follows (Pattern.rename ρ.tag)
      (do
        let predicate ← x
        if predicate.isCallable then
          return .predicated base predicate
        else
          Eval.fail (predicate.typeMismatch "pattern-with-predicate" "callable"))
      (do
        let predicate ← y
        if predicate.isCallable then
          return .predicated (base.rename ρ.tag) predicate
        else
          Eval.fail (predicate.typeMismatch "pattern-with-predicate" "callable")) := by
    refine fun base => hx.bind fun v => ?_
    rw [Value.isCallable_rename, Value.typeMismatch_rename]
    split
    · exact .pure
    · exact .fail
  cases base with
  | defaulted base fallback => exact .fail
  | _ => exact hplain _

/-- The first car of a chain and what comes behind it. -/
theorem chained {x y x' y' : Eval Pattern} (hx : ρ.Follows (Pattern.rename ρ.tag) x x')
    (hy : ρ.Follows (Pattern.rename ρ.tag) y y') :
    ρ.Follows (Pattern.rename ρ.tag) (do let p ← x; let q ← y; return .chain [p] q)
      (do let p ← x'; let q ← y'; return .chain [p] q) :=
  hx.bind fun p => hy.map fun q => (Pattern.rename_chain_single ρ.tag p q).symm

mutual

/-- **A renamed node builds the renamed pattern.** -/
theorem build (h : r.Equivariant ρ) : (node : Node) →
    ρ.Follows (Pattern.rename ρ.tag) (Pattern.build r scope node)
      (Pattern.build r scope (node.rename ρ.tag))
  | .identifier name => .pure
  | .nil => .pure
  | .numeral n => (h.eval (.numeral n) scope).map fun _ => rfl
  | .symbol name => (h.eval (.symbol name) scope).map fun _ => rfl
  | .pair car cdr => chained (build h car) (build h cdr)
  | .value label v => by
    have hother : ρ.Follows (Pattern.rename ρ.tag)
        (do return .value (← r.eval (.value label v) scope))
        (do return .value (← r.eval (.value label (v.rename ρ.tag)) scope)) :=
      (h.eval (.value label v) scope).map fun _ => rfl
    cases v with
    | pattern p => exact .pure
    | _ => exact hother
  | .form head args => by
    refine (h.eval head scope).bind fun v => ?_
    have hother : ∀ v : Value, ρ.Follows (Pattern.rename ρ.tag)
        (do return .value (← r.call v args scope))
        (do return .value (← r.call (v.rename ρ.tag) (args.rename ρ.tag) scope)) :=
      fun v => (h.call v args scope).map fun _ => rfl
    cases v with
    | builtin b =>
      cases b with
      | cons => exact buildCons h args
      | list => exact buildList h args
      | pattern => exact buildSole h args
      | patternWithPredicate => exact buildPredicated h args
      | patternWithDefault => exact buildDefaulted h args
      | patternAlias => exact buildAliased h args
      | _ => exact hother _
    | _ => exact hother _

theorem buildCons (h : r.Equivariant ρ) (args : Node) :
    ρ.Follows (Pattern.rename ρ.tag) (Pattern.buildCons r scope args)
      (Pattern.buildCons r scope (args.rename ρ.tag)) := by
  have herror := argumentError ρ (Pattern.rename ρ.tag) args "cons" 2
  cases args with
  | pair a rest =>
    cases rest with
    | pair b rest =>
      cases rest with
      | nil => exact chained (build h a) (build h b)
      | _ => exact herror
    | _ => exact herror
  | _ => exact herror

theorem buildList (h : r.Equivariant ρ) (args : Node) :
    ρ.Follows (Pattern.rename ρ.tag) (Pattern.buildList r scope args)
      (Pattern.buildList r scope (args.rename ρ.tag)) := by
  cases args with
  | nil => exact .pure
  | pair car cdr => exact chained (build h car) (build h cdr)
  | _ => exact .fail

theorem buildSole (h : r.Equivariant ρ) (args : Node) :
    ρ.Follows (Pattern.rename ρ.tag) (Pattern.buildSole r scope args)
      (Pattern.buildSole r scope (args.rename ρ.tag)) := by
  have herror := argumentError ρ (Pattern.rename ρ.tag) args "pattern" 1
  cases args with
  | nil => exact .pure
  | pair a rest =>
    cases rest with
    | nil => exact build h a
    | _ => exact herror
  | _ => exact herror

theorem buildPredicated (h : r.Equivariant ρ) (args : Node) :
    ρ.Follows (Pattern.rename ρ.tag) (Pattern.buildPredicated r scope args)
      (Pattern.buildPredicated r scope (args.rename ρ.tag)) := by
  have herror := argumentError ρ (Pattern.rename ρ.tag) args "pattern-with-predicate" 2
  cases args with
  | pair a rest =>
    cases rest with
    | pair b rest =>
      cases rest with
      | nil => exact (build h a).bind fun _ => restrict (h.eval b scope)
      | _ => exact herror
    | _ => exact herror
  | _ => exact herror

theorem buildDefaulted (h : r.Equivariant ρ) (args : Node) :
    ρ.Follows (Pattern.rename ρ.tag) (Pattern.buildDefaulted r scope args)
      (Pattern.buildDefaulted r scope (args.rename ρ.tag)) := by
  have herror := argumentError ρ (Pattern.rename ρ.tag) args "pattern-with-default" 2
  cases args with
  | pair a rest =>
    cases rest with
    | pair b rest =>
      cases rest with
      | nil =>
        exact (build h a).bind fun _ => (h.eval b scope).map fun _ => rfl
      | _ => exact herror
    | _ => exact herror
  | _ => exact herror

theorem buildAliased (h : r.Equivariant ρ) (args : Node) :
    ρ.Follows (Pattern.rename ρ.tag) (Pattern.buildAliased r scope args)
      (Pattern.buildAliased r scope (args.rename ρ.tag)) := by
  have herror := argumentError ρ (Pattern.rename ρ.tag) args "pattern-alias" 2
  cases args with
  | pair a rest =>
    cases rest with
    | pair b rest =>
      cases rest with
      | nil => exact (build h a).bind fun _ => (build h b).map fun _ => rfl
      | _ => exact herror
    | _ => exact herror
  | _ => exact herror

end

end Building

end Evaluator.Equivariant

end Fexpr
