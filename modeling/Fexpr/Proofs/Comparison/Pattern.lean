import Fexpr.Proofs.Comparison

/-!
# Proofs/Comparison/Pattern — related evaluators match and build patterns alike

The induction of `matchWith` is on the pattern and that of `build` on the node, as their own
recursions are.  A match calls predicates in the scope it binds in, so the scope of the comparison
is that one.
-/

namespace Fexpr

/-- Both halves of a pair of values. -/
def PairWithin (N : Census) (p : Value × Value) : Prop :=
  p.1.Within N ∧ p.2.Within N

theorem optionWithin_some {N : Census} {v : Value} : OptionWithin N (some v) ↔ v.Within N := by
  simp [OptionWithin]

theorem optionWithin_none {N : Census} : OptionWithin N none := fun _ hv => absurd hv (by simp)

open Congruence (andThen ofExcept)

namespace Comparison

variable {C : Comparison} {r r' : Evaluator} {scope : ScopeId}

section Arguments

variable {w : C.World} {arg : Node} {procedure : String}

theorem evalArgument (h : C.Agree r r') (ha : arg.Within (C.census w)) :
    C.Rel w scope (r.evalArgument procedure arg scope) (r'.evalArgument procedure arg scope)
      Value.Within :=
  C.bind (ofExcept (Φ := Node.Within) fun _ he => ha.argument he) fun w' _ _ hn =>
    h.eval w' scope hn

theorem evalTwoArguments (h : C.Agree r r') (ha : arg.Within (C.census w)) :
    C.Rel w scope (r.evalTwoArguments procedure arg scope) (r'.evalTwoArguments procedure arg scope)
      PairWithin := by
  refine C.bind (ofExcept (Φ := fun N p => p.1.Within N ∧ p.2.Within N) fun p hp =>
    ha.twoArguments hp) fun w₁ p _ hp => ?_
  obtain ⟨a, b⟩ := p
  refine C.bind (h.eval w₁ scope hp.1) fun w₂ v h₁₂ hv => ?_
  refine C.bind (h.eval w₂ scope (hp.2.mono h₁₂)) fun w₃ u h₂₃ hu => ?_
  exact C.pure ⟨hv.mono h₂₃, hu⟩

end Arguments

/-! ## Matching -/

section Matching

variable {binding : Binding}

theorem bindPositions {w : C.World} {n : Nat} {vs : List Value}
    (hvs : ∀ v ∈ vs, v.Within (C.census w)) :
    C.Rel w scope (Pattern.bindPositions binding scope n vs)
      (Pattern.bindPositions binding scope n vs) Anything := by
  induction vs generalizing w n with
  | nil => exact C.pure trivial
  | cons v vs ih =>
    refine andThen (C.elementary (.bind _ _ _ (hvs v List.mem_cons_self))) fun w' _ hle => ?_
    exact ih fun u hu => (hvs u (List.mem_cons_of_mem v hu)).mono hle

theorem bindArguments {w : C.World} {args : Value} (ha : args.Within (C.census w)) :
    C.Rel w scope (Pattern.bindArguments binding scope args)
      (Pattern.bindArguments binding scope args) Anything := by
  refine andThen (bindPositions ha.elements.1) fun w₁ _ h₁ => ?_
  have hfirst := (ha.mono h₁).elements.1
  have hwhole : ∀ w₂ : C.World, C.census w₁ ≤ C.census w₂ →
      C.Rel w₂ scope (binding.bind scope "arguments" args) (binding.bind scope "arguments" args)
        Anything := fun w₂ h₂ => C.elementary (.bind _ _ _ ((ha.mono h₁).mono h₂))
  cases helements : args.elements.1 with
  | nil => exact hwhole w₁ le_rfl
  | cons first rest =>
    rw [helements] at hfirst
    refine andThen (C.elementary (.bind _ _ _ (hfirst first List.mem_cons_self))) fun w₂ _ h₂ => ?_
    exact hwhole w₂ h₂

/-- What is related and wanted only if a first match succeeds. -/
theorem guarded {w : C.World} {x y x' y' : Eval Bool} (hx : C.Rel w scope x x' Anything)
    (hy : ∀ w', C.census w ≤ C.census w' → C.Rel w' scope y y' Anything) :
    C.Rel w scope (do if ← x then y else return false) (do if ← x' then y' else return false)
      Anything := by
  refine andThen hx fun w' accepted hle => ?_
  cases accepted with
  | true => exact hy w' hle
  | false => exact C.pure trivial

mutual

/-- **Related evaluators match a pattern alike.** -/
theorem matchWith (h : C.Agree r r') : (p : Pattern) → ∀ {w : C.World} {target : Option Value},
    p.Within (C.census w) → OptionWithin (C.census w) target →
    C.Rel w scope (p.matchWith r binding scope target) (p.matchWith r' binding scope target)
      Anything
  | .identifier name, w, target, hp, ht => by
    cases target with
    | none => exact C.pure trivial
    | some v =>
      refine andThen (C.elementary (.bind _ _ _ (optionWithin_some.mp ht))) fun _ _ _ => ?_
      exact C.pure trivial
  | .value expected, w, target, hp, ht => C.pure trivial
  | .cons cars tail, w, target, hp, ht =>
    matchCars h cars hp.1 ht fun w' rest hle hrest => matchWith h tail (hp.2.1.mono hle) hrest
  | .predicated base predicate, w, target, hp, ht => by
    cases target with
    | none => exact C.pure trivial
    | some v =>
      refine guarded (matchWith h base hp.1 ht) fun w' hle => ?_
      have hargs : (Value.ofList [v]).Within (C.census w') :=
        Value.within_ofList fun u hu => by
          rw [List.mem_singleton] at hu
          exact hu ▸ (optionWithin_some.mp ht).mono hle
      exact C.map (h.call w' scope (hp.2.1.mono hle) (Node.within_quote hargs)) fun _ _ _ => trivial
  | .defaulted base fallback, w, target, hp, ht => by
    have hfallback : ∀ w' : C.World, C.census w ≤ C.census w' →
        OptionWithin (C.census w') (some fallback) := fun w' hle =>
      optionWithin_some.mpr (hp.2.mono hle)
    cases target with
    | none => exact matchWith h base hp.1 (hfallback w le_rfl)
    | some v =>
      refine andThen (matchWith h base hp.1 ht) fun w' accepted hle => ?_
      cases accepted with
      | true => exact C.pure trivial
      | false => exact matchWith h base (hp.1.mono hle) (hfallback w' hle)
  | .aliased first second, w, target, hp, ht =>
    guarded (matchWith h first hp.1 ht) fun w' hle =>
      matchWith h second (hp.2.mono hle) fun v hv => (ht v hv).mono hle
  | .defaultArguments, w, target, hp, ht => by
    have ha : (target.getD .nil).Within (C.census w) := by
      cases target with
      | none => exact trivial
      | some v => exact optionWithin_some.mp ht
    exact andThen (bindArguments ha) fun _ _ _ => C.pure trivial

theorem matchCars (h : C.Agree r r') : (ps : List Pattern) → ∀ {w : C.World}
    {target : Option Value} {k k' : Option Value → Eval Bool},
    Pattern.AllWithin (C.census w) ps → OptionWithin (C.census w) target →
    (∀ w' rest, C.census w ≤ C.census w' → OptionWithin (C.census w') rest →
      C.Rel w' scope (k rest) (k' rest) Anything) →
    C.Rel w scope (Pattern.matchCars r binding scope ps target k)
      (Pattern.matchCars r' binding scope ps target k') Anything
  | [], w, target, k, k', _, ht, hk => hk w target le_rfl ht
  | p :: ps, w, target, k, k', hps, ht, hk => by
    -- one car matched against `car`, and the other ones against what is left
    have hcar : ∀ car rest : Option Value, OptionWithin (C.census w) car →
        OptionWithin (C.census w) rest →
        C.Rel w scope
          (do if ← p.matchWith r binding scope car then
                Pattern.matchCars r binding scope ps rest k
              else return false)
          (do if ← p.matchWith r' binding scope car then
                Pattern.matchCars r' binding scope ps rest k'
              else return false) Anything := fun car rest hcar hrest =>
      guarded (matchWith h p hps.1 hcar) fun w' hle =>
        matchCars h ps (hps.2.mono hle) (fun v hv => (hrest v hv).mono hle)
          fun w'' rest hle' => hk w'' rest (hle.trans hle')
    match target with
    | none => exact hcar none none ht ht
    | some .nil => exact hcar none (some .nil) optionWithin_none ht
    | some (.pair car cdr) =>
      have hpair := optionWithin_some.mp ht
      exact hcar (some car) (some cdr) (optionWithin_some.mpr hpair.1)
        (optionWithin_some.mpr hpair.2)
    | some .void | some (.integer _) | some (.bool _) | some (.symbol _) | some (.builtin _)
    | some (.curried ..) | some (.function _) | some (.method _) | some (.boundMethod ..)
    | some (.multiFunction ..) | some (.pattern _) | some (.object _) | some (.dictionary _)
    | some (.promise _) => exact C.pure trivial

end

end Matching

/-! ## Building -/

section Building

theorem restrict {w : C.World} {base : Pattern} {x x' : Eval Value}
    (hb : base.Within (C.census w)) (hx : C.Rel w scope x x' Value.Within) :
    C.Rel w scope (base.restrict x) (base.restrict x') Pattern.Within := by
  -- without a default of its own, any base is treated alike
  have hplain : (∀ inner fallback, base ≠ .defaulted inner fallback) → C.Rel w scope
      (do
        let predicate ← x
        if predicate.isCallable then
          return .predicated base predicate
        else
          Eval.fail (predicate.typeMismatch "pattern-with-predicate" "callable"))
      (do
        let predicate ← x'
        if predicate.isCallable then
          return .predicated base predicate
        else
          Eval.fail (predicate.typeMismatch "pattern-with-predicate" "callable"))
      Pattern.Within := by
    refine fun hbase => C.bind hx fun w' v hle hv => ?_
    cases hcallable : v.isCallable with
    | true => exact C.pure ⟨hb.mono hle, hv, fun _ => ⟨hbase, hcallable⟩⟩
    | false => exact C.fail
  cases base with
  | defaulted base fallback => exact C.fail
  | _ => exact hplain (by simp)

/-- Two patterns that are built one after the other. -/
theorem buildBoth {w : C.World} {x x' y y' : Eval Pattern} {f : Pattern → Pattern → Pattern}
    (hx : C.Rel w scope x x' Pattern.Within)
    (hy : ∀ w', C.census w ≤ C.census w' → C.Rel w' scope y y' Pattern.Within)
    (hf : ∀ N p q, p.Within N → q.Within N → (f p q).Within N) :
    C.Rel w scope (do let p ← x; let q ← y; return f p q)
      (do let p ← x'; let q ← y'; return f p q) Pattern.Within :=
  C.bind hx fun w₁ _ h₁ hp => C.bind (hy w₁ h₁) fun _ _ h₂ hq =>
    C.pure (hf _ _ _ (hp.mono h₂) hq)

theorem within_chain_single (N : Census) (p q : Pattern) (hp : p.Within N) (hq : q.Within N) :
    (Pattern.chain [p] q).Within N :=
  Pattern.within_chain ⟨hp, trivial⟩ hq

mutual

/-- **Related evaluators build the same patterns.** -/
theorem build (h : C.Agree r r') : (node : Node) → ∀ {w : C.World}, node.Within (C.census w) →
    C.Rel w scope (Pattern.build r scope node) (Pattern.build r' scope node) Pattern.Within
  | .identifier name, w, _ => C.pure trivial
  | .nil, w, _ => C.pure trivial
  | .numeral n, w, hn => C.map (h.eval w scope hn) fun _ _ hv => hv
  | .symbol name, w, hn => C.map (h.eval w scope hn) fun _ _ hv => hv
  | .pair car cdr, w, hn =>
    buildBoth (build h car hn.1) (fun _ hle => build h cdr (hn.2.mono hle)) within_chain_single
  | .value label v, w, hn => by
    have hother : C.Rel w scope (do return Pattern.value (← r.eval (.value label v) scope))
        (do return Pattern.value (← r'.eval (.value label v) scope)) Pattern.Within :=
      C.map (h.eval w scope hn) fun _ _ hv => hv
    cases v with
    | pattern p => exact C.pure hn
    | _ => exact hother
  | .form head args, w, hn => by
    refine C.bind (h.eval w scope hn.1) fun w' v hle hv => ?_
    have hargs := hn.2.mono hle
    split
    · exact buildCons h args hargs
    · exact buildList h args hargs
    · exact buildSole h args hargs
    · exact buildPredicated h args hargs
    · exact buildDefaulted h args hargs
    · exact buildAliased h args hargs
    · exact C.map (h.call w' scope hv hargs) fun _ _ hv => hv

theorem buildCons (h : C.Agree r r') (args : Node) {w : C.World} (ha : args.Within (C.census w)) :
    C.Rel w scope (Pattern.buildCons r scope args) (Pattern.buildCons r' scope args)
      Pattern.Within := by
  rw [Pattern.buildCons.eq_def, Pattern.buildCons.eq_def]
  split
  · next a b =>
    exact buildBoth (build h a ha.1) (fun _ hle => build h b (ha.2.1.mono hle)) within_chain_single
  · exact C.fail

theorem buildList (h : C.Agree r r') (args : Node) {w : C.World} (ha : args.Within (C.census w)) :
    C.Rel w scope (Pattern.buildList r scope args) (Pattern.buildList r' scope args)
      Pattern.Within := by
  rw [Pattern.buildList.eq_def, Pattern.buildList.eq_def]
  split
  · exact C.pure trivial
  · next car cdr =>
    exact buildBoth (build h car ha.1) (fun _ hle => build h cdr (ha.2.mono hle))
      within_chain_single
  · exact C.fail

theorem buildSole (h : C.Agree r r') (args : Node) {w : C.World} (ha : args.Within (C.census w)) :
    C.Rel w scope (Pattern.buildSole r scope args) (Pattern.buildSole r' scope args)
      Pattern.Within := by
  rw [Pattern.buildSole.eq_def, Pattern.buildSole.eq_def]
  split
  · exact C.pure trivial
  · next a => exact build h a ha.1
  · exact C.fail

theorem buildPredicated (h : C.Agree r r') (args : Node) {w : C.World}
    (ha : args.Within (C.census w)) :
    C.Rel w scope (Pattern.buildPredicated r scope args) (Pattern.buildPredicated r' scope args)
      Pattern.Within := by
  rw [Pattern.buildPredicated.eq_def, Pattern.buildPredicated.eq_def]
  split
  · next a predicate =>
    refine C.bind (build h a ha.1) fun w' base hle hb => ?_
    exact restrict hb (h.eval w' scope (ha.2.1.mono hle))
  · exact C.fail

theorem buildDefaulted (h : C.Agree r r') (args : Node) {w : C.World}
    (ha : args.Within (C.census w)) :
    C.Rel w scope (Pattern.buildDefaulted r scope args) (Pattern.buildDefaulted r' scope args)
      Pattern.Within := by
  rw [Pattern.buildDefaulted.eq_def, Pattern.buildDefaulted.eq_def]
  split
  · next a fallback =>
    refine C.bind (build h a ha.1) fun w₁ base h₁ hb => ?_
    refine C.bind (h.eval w₁ scope (ha.2.1.mono h₁)) fun w₂ v h₂ hv => ?_
    exact C.pure ⟨hb.mono h₂, hv⟩
  · exact C.fail

theorem buildAliased (h : C.Agree r r') (args : Node) {w : C.World}
    (ha : args.Within (C.census w)) :
    C.Rel w scope (Pattern.buildAliased r scope args) (Pattern.buildAliased r' scope args)
      Pattern.Within := by
  rw [Pattern.buildAliased.eq_def, Pattern.buildAliased.eq_def]
  split
  · next a b =>
    exact buildBoth (build h a ha.1) (fun _ hle => build h b (ha.2.1.mono hle))
      fun _ _ _ hp hq => ⟨hp, hq⟩
  · exact C.fail

end

end Building

end Comparison

end Fexpr
