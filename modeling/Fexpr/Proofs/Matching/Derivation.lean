import Fexpr.Proofs.Matching.Chain
import Fexpr.Proofs.Matching.Rebinding

/-!
# Proofs/Matching/Derivation — a successful match is an accepted derivation

`Pattern.derive` is what a pattern means: from a target it derives a row of bindings, or nothing.
It has no state, and asks a predicate for nothing but a verdict on a value.

A match works on the state, and what a rejected attempt has bound on its way stays bound.
`matchWith_derives`: as long as predicates answer (`PredicatesAnswer`), the match accepts exactly if
there is a derivation, and what it then leaves behind is the bindings of the derivation and nothing
else.  The reason is that a derivation binds *every* name of its pattern, so whatever an attempt on
the same pattern has bound before is overwritten.
-/

namespace Fexpr

namespace Pattern

/-! ## The parts of a pattern -/

mutual

/-- **A pattern and all patterns inside it.** -/
def parts : Pattern → List Pattern
  | .identifier name => [.identifier name]
  | .value v => [.value v]
  | .cons cars tail => .cons cars tail :: (partsAll cars ++ tail.parts)
  | .predicated base predicate => .predicated base predicate :: base.parts
  | .defaulted base fallback => .defaulted base fallback :: base.parts
  | .aliased first second => .aliased first second :: (first.parts ++ second.parts)
  | .defaultArguments => [.defaultArguments]

/-- All parts of some patterns. -/
def partsAll : List Pattern → List Pattern
  | [] => []
  | p :: ps => p.parts ++ partsAll ps

end

/-- **The pattern binds the name.** -/
def Binds (p : Pattern) (name : String) : Prop :=
  .identifier name ∈ p.parts

/-- **No part takes its arguments by position**, as the pattern of a function without one does. -/
def Plain (p : Pattern) : Prop :=
  .defaultArguments ∉ p.parts

/-! ## Derivations -/

/-- Two rows of bindings, one after the other. -/
def both (xs ys : Option Row) : Option Row := do
  return (← xs) ++ (← ys)

/-- **The rule for one cell**, from what the patterns of its car and its cdr derive. -/
def deriveCell (car cdr : Option Value → Option Row) :
    Option Value → Option Row
  | some (.pair first rest) => both (car (some first)) (cdr (some rest))
  | some .nil => both (car none) (cdr (some .nil))
  | none => both (car none) (cdr none)
  | some _ => none

section Derive

variable (verdict : Value → Value → Bool)

mutual

/-- **What a pattern derives from a target**, with `none` for the missing target: the bindings of
the target's parts in the order of the pattern.  A list pattern is its cells, one inside the
other. -/
def derive : Pattern → Option Value → Option Row
  | .identifier name, target => target.map fun v => [(name, v)]
  | .value expected, target => if target.any (· == expected) then some [] else none
  | .cons cars tail, target => deriveCars cars (fun rest => tail.derive rest) target
  | .predicated base predicate, target =>
    match target with
    | some v => (base.derive (some v)).filter fun _ => verdict predicate v
    | none => none
  | .defaulted base fallback, target =>
    match target with
    | some v => (base.derive (some v)).or (base.derive (some fallback))
    | none => base.derive (some fallback)
  | .aliased first second, target => both (first.derive target) (second.derive target)
  | .defaultArguments, _ => none

/-- What the cells of a list pattern derive, from what its tail derives. -/
def deriveCars : List Pattern → (Option Value → Option Row) → Option Value → Option Row
  | [], tail => tail
  | p :: ps, tail => deriveCell (fun target => p.derive target) (deriveCars ps tail)

end

end Derive

/-- **The predicates of a pattern answer**: asked about any value, in whatever state bindings of the
pattern's names have led to, they return, with an answer that depends on the value only, and leave
alone what is in use. -/
def PredicatesAnswer (verdict : Value → Value → Bool) (p : Pattern) (binding : Binding)
    (scope : ScopeId) (cfg : Config) (s : State) : Prop :=
  ∀ base predicate, .predicated base predicate ∈ p.parts →
    ∀ (v : Value) (bs : Row) (t : State),
      (∀ name ∈ bs.names, p.Binds name) → s.Rebound binding scope bs t →
      ∃ fuel answer u,
        (Evaluator.ofFuel fuel).call predicate (Node.quote (.ofList [v])) scope cfg t =
          .ok answer u ∧
        (answer == .bool true) = verdict predicate v ∧ t.Undisturbed u

/-! ## Matches that conform to a derivation -/

section Conforms

variable (p₀ : Pattern) (binding : Binding) (scope : ScopeId) (cfg : Config) (s : State)

/-- **A match that does what a derivation says**, in the middle of a match of the pattern `p₀` that
began in `s`: it accepts if there is a derivation, adds its bindings, and these are of all names of
the match.  When it rejects, it has added bindings of such names at most. -/
structure Conforms (names : String → Prop) (x : Evaluator → Option Value → Eval Bool)
    (d : Option Value → Option Row) : Prop where
  sub : ∀ name, names name → p₀.Binds name
  binds : ∀ target bs, d target = some bs → ∀ name, name ∈ bs.names ↔ names name
  run : ∀ (before : Row) (t : State) (target : Option Value),
    (∀ name ∈ before.names, p₀.Binds name) → s.Rebound binding scope before t →
    ∃ u, ComesTo (fun r => x r target) cfg t (d target).isSome u ∧
      ∃ bs, (d target = some bs ∨ d target = none ∧ ∀ name ∈ bs.names, names name) ∧
        s.Rebound binding scope (before ++ bs) u

variable {p₀ binding scope cfg s} {place : String → ScopeId}
  {names carNames cdrNames : String → Prop} {x y : Evaluator → Option Value → Eval Bool}
  {d e : Option Value → Option Row} {verdict : Value → Value → Bool}

namespace Conforms

theorem of_eq {names' : String → Prop} {x' : Evaluator → Option Value → Eval Bool}
    {d' : Option Value → Option Row} (h : Conforms p₀ binding scope cfg s names x d)
    (hnames : ∀ name, names' name ↔ names name)
    (hx : ∀ r target, x' r target = x r target) (hd : ∀ target, d' target = d target) :
    Conforms p₀ binding scope cfg s names' x' d' := by
  obtain rfl : names' = names := funext fun name => propext (hnames name)
  obtain rfl : x' = x := funext fun r => funext (hx r)
  obtain rfl : d' = d := funext hd
  exact h

/-- A derivation binds names of the whole pattern only. -/
theorem binds_sub (h : Conforms p₀ binding scope cfg s names x d) {target : Option Value} {bs : Row}
    (hd : d target = some bs) : ∀ name ∈ bs.names, p₀.Binds name := fun name hname =>
  h.sub name ((h.binds target bs hd name).mp hname)

/-- A match that only compares. -/
theorem test (accepts : Option Value → Bool) : Conforms p₀ binding scope cfg s (fun _ => False)
    (fun _ target => pure (accepts target)) (fun target => if accepts target then some [] else none)
    where
  sub _ h := h.elim
  binds target bs h name := by
    split at h
    · obtain rfl := Option.some.inj h
      simp
    · cases h
  run before t target _ ht := by
    refine ⟨t, ?_, [], ?_, by simpa using ht⟩
    · cases accepts target <;> exact .pure _ cfg t
    · cases accepts target <;> simp

/-- Two rows of bindings of the names of two matches. -/
theorem mem_both {target target' : Option Value} {bs : Row}
    (hx : Conforms p₀ binding scope cfg s carNames x d)
    (hy : Conforms p₀ binding scope cfg s cdrNames y e)
    (h : both (d target) (e target') = some bs) (name : String) :
    name ∈ bs.names ↔ carNames name ∨ cdrNames name := by
  cases hd : d target with
  | none => simp [both, hd] at h
  | some xs =>
    cases he : e target' with
    | none => simp [both, hd, he] at h
    | some ys =>
      obtain rfl : xs ++ ys = bs := by simpa [both, hd, he] using h
      rw [Row.names_append, List.mem_append, hx.binds target xs hd, hy.binds target' ys he]

/-- **One match and then, if it accepts, another.** -/
theorem run_both (hx : Conforms p₀ binding scope cfg s carNames x d)
    (hy : Conforms p₀ binding scope cfg s cdrNames y e) {before : Row} {t : State}
    (target target' : Option Value) (hbefore : ∀ name ∈ before.names, p₀.Binds name)
    (ht : s.Rebound binding scope before t) :
    ∃ u, ComesTo (fun r => do if ← x r target then y r target' else return false) cfg t
        (both (d target) (e target')).isSome u ∧
      ∃ bs, (both (d target) (e target') = some bs ∨ both (d target) (e target') = none ∧
          ∀ name ∈ bs.names, carNames name ∨ cdrNames name) ∧
        s.Rebound binding scope (before ++ bs) u := by
  obtain ⟨u, hcomes, xs, hxs, hu⟩ := hx.run before t target hbefore ht
  rcases hxs with hd | ⟨hd, hxs⟩
  · obtain ⟨w, hcomes', ys, hys, hw⟩ := hy.run (before ++ xs) u target'
      (Row.forall_names_append hbefore (hx.binds_sub hd)) hu
    rw [List.append_assoc] at hw
    rw [hd] at hcomes
    refine ⟨w, hcomes.guarded_true ?_, xs ++ ys, ?_, hw⟩
    · cases he : e target' <;> simpa [both, hd, he] using hcomes'
    · rcases hys with he | ⟨he, hys⟩
      · exact .inl (by simp [both, hd, he])
      · exact .inr ⟨by simp [both, hd, he], Row.forall_names_append
          (fun name h => .inl ((hx.binds target xs hd name).mp h)) fun name h => .inr (hys name h)⟩
  · rw [hd] at hcomes
    refine ⟨u, ?_, xs, .inr ⟨by simp [both, hd], fun name h => .inl (hxs name h)⟩, hu⟩
    simpa [both, hd] using hcomes.guarded_false

/-- Two matches of the same target. -/
theorem aliased (hx : Conforms p₀ binding scope cfg s carNames x d)
    (hy : Conforms p₀ binding scope cfg s cdrNames y e) :
    Conforms p₀ binding scope cfg s (fun name => carNames name ∨ cdrNames name)
      (fun r target => do if ← x r target then y r target else return false)
      (fun target => both (d target) (e target)) where
  sub name h := h.elim (hx.sub name) (hy.sub name)
  binds _ _ h := mem_both hx hy h
  run _ _ target := hx.run_both hy target target

/-- A target has a car and a cdr, possibly missing ones, or is no cell at all. -/
theorem cell_cases (target : Option Value) :
    (∃ first rest,
      (∀ car cdr, matchCell car cdr target = do if ← car first then cdr rest else return false) ∧
      ∀ car cdr, deriveCell car cdr target = both (car first) (cdr rest)) ∨
    ((∀ car cdr, matchCell car cdr target = return false) ∧
      ∀ car cdr, deriveCell car cdr target = none) := by
  rcases target with _ | v
  · exact .inl ⟨none, none, fun _ _ => rfl, fun _ _ => rfl⟩
  cases v with
  | nil => exact .inl ⟨none, some .nil, fun _ _ => rfl, fun _ _ => rfl⟩
  | pair first rest => exact .inl ⟨some first, some rest, fun _ _ => rfl, fun _ _ => rfl⟩
  | _ => exact .inr ⟨fun _ _ => rfl, fun _ _ => rfl⟩

/-- **The rule for one cell conforms** if the patterns of its car and its cdr do. -/
theorem cell (hx : Conforms p₀ binding scope cfg s carNames x d)
    (hy : Conforms p₀ binding scope cfg s cdrNames y e) :
    Conforms p₀ binding scope cfg s (fun name => carNames name ∨ cdrNames name)
      (fun r => matchCell (x r) (y r)) (deriveCell d e) where
  sub name h := h.elim (hx.sub name) (hy.sub name)
  binds target bs h := by
    rcases cell_cases target with ⟨first, rest, -, hderive⟩ | ⟨-, hderive⟩
    · rw [hderive] at h
      exact mem_both hx hy h
    · rw [hderive] at h
      cases h
  run before t target hbefore ht := by
    rcases cell_cases target with ⟨first, rest, hmatch, hderive⟩ | ⟨hmatch, hderive⟩
    · simp only [hmatch, hderive]
      exact hx.run_both hy first rest hbefore ht
    · simp only [hmatch, hderive]
      exact ⟨t, .pure false cfg t, [], .inr ⟨trivial, by simp⟩, by simpa using ht⟩

/-- **A predicate is asked after the base has matched**, whose bindings stay either way. -/
theorem predicated {base : Pattern} {predicate : Value}
    (hanswer : p₀.PredicatesAnswer verdict binding scope cfg s)
    (hmem : .predicated base predicate ∈ p₀.parts)
    (hx : Conforms p₀ binding scope cfg s names x d) :
    Conforms p₀ binding scope cfg s names
      (fun r target =>
        match target with
        | some v => do
          if ← x r target then
            let answer ← r.call predicate (Node.quote (.ofList [v])) scope
            return answer == .bool true
          else return false
        | none => return false)
      (fun target =>
        match target with
        | some v => (d (some v)).filter fun _ => verdict predicate v
        | none => none) where
  sub := hx.sub
  binds target bs h := by
    rcases target with _ | v
    · cases h
    · exact hx.binds (some v) bs (Option.eq_some_of_filter_eq_some h)
  run before t target hbefore ht := by
    rcases target with _ | v
    · exact ⟨t, .pure false cfg t, [], .inr ⟨rfl, by simp⟩, by simpa using ht⟩
    obtain ⟨u, hcomes, bs, hbs, hu⟩ := hx.run before t (some v) hbefore ht
    rcases hbs with hd | ⟨hd, hbs⟩
    · rw [hd] at hcomes
      obtain ⟨fuel, answer, w, hcall, hverdict, hw⟩ := hanswer base predicate hmem v
        (before ++ bs) u (Row.forall_names_append hbefore (hx.binds_sub hd)) hu
      have hsome : ((d (some v)).filter fun _ => verdict predicate v).isSome =
          (answer == .bool true) := by
        rw [hd, hverdict]
        cases verdict predicate v <;> rfl
      refine ⟨w, ?_, bs, ?_, hu.call (.inl ⟨_, hcall⟩) hw⟩
      · rw [hsome]
        exact hcomes.guarded_true ((ComesTo.call hcall).bind (.pure _ cfg w))
      · cases hv : verdict predicate v with
        | true => exact .inl (by simp [hd, hv])
        | false => exact .inr ⟨by simp [hv], fun name => (hx.binds _ bs hd name).mp⟩
    · rw [hd] at hcomes
      refine ⟨u, ?_, bs, .inr ⟨by simp [hd], hbs⟩, hu⟩
      simpa [hd] using hcomes.guarded_false

/-- **An attempt on the target and, if it is rejected, one on the default**, which overwrites all
that the first one has bound. -/
theorem defaulted (fallback : Value) (hplace : Arena.Places binding scope s.arena place)
    (hx : Conforms p₀ binding scope cfg s names x d) :
    Conforms p₀ binding scope cfg s names
      (fun r target =>
        match target with
        | some v => do if ← x r (some v) then return true else x r (some fallback)
        | none => x r (some fallback))
      (fun target =>
        match target with
        | some v => (d (some v)).or (d (some fallback))
        | none => d (some fallback)) where
  sub := hx.sub
  binds target bs h := by
    rcases target with _ | v
    · exact hx.binds (some fallback) bs h
    · rcases Option.or_eq_some_iff.mp h with h | ⟨-, h⟩
      · exact hx.binds (some v) bs h
      · exact hx.binds (some fallback) bs h
  run before t target hbefore ht := by
    rcases target with _ | v
    · exact hx.run before t (some fallback) hbefore ht
    obtain ⟨u, hcomes, xs, hxs, hu⟩ := hx.run before t (some v) hbefore ht
    rcases hxs with hd | ⟨hd, hxs⟩
    · rw [hd] at hcomes
      refine ⟨u, ?_, xs, .inl (by simp [hd]), hu⟩
      simp only [hd, Option.some_or]
      exact hcomes.bind (.pure true cfg u)
    · rw [hd] at hcomes
      obtain ⟨w, hcomes', ys, hys, hw⟩ := hx.run (before ++ xs) u (some fallback)
        (Row.forall_names_append hbefore fun name h => hx.sub name (hxs name h)) hu
      simp only [hd, Option.none_or]
      have hagain := hcomes.bind (f := fun r accepted =>
        if accepted then return true else x r (some fallback)) hcomes'
      rcases hys with he | ⟨he, hys⟩
      · -- the second attempt binds all the names that the first one may have bound
        exact ⟨w, hagain, ys, .inl he, hw.congr hplace (Arena.latest_overwritten
          (fun name h => (hx.binds _ ys he name).mpr (hxs name h)) before)⟩
      · exact ⟨w, hagain, xs ++ ys, .inr ⟨he, Row.forall_names_append hxs hys⟩,
          List.append_assoc before xs ys ▸ hw⟩

/-- A name is bound to whatever there is. -/
theorem identifier (name : String) (hs : s.arena.Tidy)
    (hplace : Arena.Places binding scope s.arena place) (hname : p₀.Binds name) :
    Conforms p₀ binding scope cfg s (fun other => other = name)
      (fun _ target =>
        match target with
        | some v => do
          binding.bind scope name v
          return true
        | none => return false)
      (fun target => target.map fun v => [(name, v)]) where
  sub _ h := h ▸ hname
  binds target bs h other := by
    obtain ⟨v, -, rfl⟩ := Option.map_eq_some_iff.mp h
    simp
  run before t target _ ht := by
    rcases target with _ | v
    · exact ⟨t, .pure false cfg t, [], .inr ⟨rfl, by simp⟩, by simpa using ht⟩
    · refine ⟨_, ⟨0, fun _ _ => ?_⟩, [(name, v)], .inl rfl, ht.put hs hplace name v⟩
      simp only [binding.bind_eq]
      rfl

end Conforms

end Conforms

/-! ## Every pattern conforms -/

section Patterns

variable (p₀ : Pattern) (binding : Binding) (scope : ScopeId) (cfg : Config) (s : State)
  (place : String → ScopeId) (verdict : Value → Value → Bool)

/-- **What a match of `p₀` starts from.** -/
structure Starts : Prop where
  plain : p₀.Plain
  tidy : s.arena.Tidy
  places : Arena.Places binding scope s.arena place
  answer : p₀.PredicatesAnswer verdict binding scope cfg s

variable {p₀ binding scope cfg s place verdict}

mutual

/-- **A pattern conforms to its derivation.** -/
theorem conforms (h : Starts p₀ binding scope cfg s place verdict) : (p : Pattern) →
    p.parts ⊆ p₀.parts → Conforms p₀ binding scope cfg s p.Binds
      (fun r => p.matchWith r binding scope) (fun target => p.derive verdict target)
  | .identifier name, hp =>
    (Conforms.identifier name h.tidy h.places (hp (by simp [parts]))).of_eq
      (fun other => by simp [Binds, parts])
      (fun r target => by cases target <;> simp only [matchWith])
      fun target => by rw [derive]
  | .value expected, hp =>
    (Conforms.test fun target => target.any (· == expected)).of_eq
      (fun name => by simp [Binds, parts]) (fun r target => by rw [matchWith])
      fun target => by rw [derive]
  | .cons cars tail, hp => by
    rw [parts, List.cons_subset, List.append_subset] at hp
    refine (conformsCars h cars hp.2.1 (conforms h tail hp.2.2)).of_eq (fun name => ?_)
      (fun r target => by rw [matchWith]) fun target => by rw [derive]
    simp [Binds, parts]
  | .predicated base predicate, hp => by
    rw [parts, List.cons_subset] at hp
    exact ((conforms h base hp.2).predicated h.answer hp.1).of_eq
      (fun name => by simp [Binds, parts])
      (fun r target => by cases target <;> simp only [matchWith])
      fun target => by cases target <;> simp only [derive]
  | .defaulted base fallback, hp => by
    rw [parts, List.cons_subset] at hp
    exact ((conforms h base hp.2).defaulted fallback h.places).of_eq
      (fun name => by simp [Binds, parts])
      (fun r target => by cases target <;> simp only [matchWith])
      fun target => by cases target <;> simp only [derive]
  | .aliased first second, hp => by
    rw [parts, List.cons_subset, List.append_subset] at hp
    exact ((conforms h first hp.2.1).aliased (conforms h second hp.2.2)).of_eq
      (fun name => by simp [Binds, parts]) (fun r target => by rw [matchWith])
      fun target => by rw [derive]
  | .defaultArguments, hp => absurd (hp (by simp [parts])) h.plain

/-- The cells of a list pattern conform to what they derive. -/
theorem conformsCars (h : Starts p₀ binding scope cfg s place verdict) : (ps : List Pattern) →
    partsAll ps ⊆ p₀.parts → {names : String → Prop} →
    {x : Evaluator → Option Value → Eval Bool} → {d : Option Value → Option Row} →
    Conforms p₀ binding scope cfg s names x d →
    Conforms p₀ binding scope cfg s (fun name => .identifier name ∈ partsAll ps ∨ names name)
      (fun r target => matchCars r binding scope ps target (x r)) (deriveCars verdict ps d)
  | [], _, _, _, _, htail =>
    htail.of_eq (fun name => by simp [partsAll]) (fun r target => by rw [matchCars])
      fun target => by rw [deriveCars]
  | p :: ps, hps, _, _, _, htail => by
    rw [partsAll, List.append_subset] at hps
    refine ((conforms h p hps.1).cell (conformsCars h ps hps.2 htail)).of_eq (fun name => ?_)
      (fun r target => matchCars_cons ..) fun target => by rw [deriveCars]
    simp [Binds, partsAll, or_assoc]

end

end Patterns

/-- **A match accepts exactly what its pattern derives, and a successful match leaves the bindings
of the derivation and nothing else**: whatever a rejected attempt has bound is overwritten.  A match
that rejects has bound names of the pattern only, so in either case all other names are bound as
before.  The free list is in order in every state that a host can bring about (`Reachable.tidy`). -/
theorem matchWith_derives (verdict : Value → Value → Bool) {p : Pattern} (hplain : p.Plain)
    {binding : Binding} {scope : ScopeId} {cfg : Config} {s : State} (hs : s.arena.Tidy)
    (hscope : ∃ us, s.arena.Lineage scope us)
    (hanswer : p.PredicatesAnswer verdict binding scope cfg s) (target : Option Value) :
    ∃ n t, (∀ fuel, n ≤ fuel → p.matchWith (.ofFuel fuel) binding scope target cfg s =
        .ok (p.derive verdict target).isSome t) ∧
      (match p.derive verdict target with
        | some bs => s.Rebound binding scope bs t
        | none => ∃ lost, (∀ name ∈ lost.names, p.Binds name) ∧
            s.Rebound binding scope lost t) ∧
      ∀ u ∈ s.arena.inUse, ∀ name, ¬ p.Binds name →
        (t.arena.frame u).bindings[name]? = (s.arena.frame u).bindings[name]? := by
  obtain ⟨us, hus⟩ := hscope
  obtain ⟨place, hplace⟩ := Arena.exists_places binding hus
  have hconforms := conforms ⟨hplain, hs, hplace, hanswer⟩ p (List.Subset.refl _)
  obtain ⟨t, ⟨n, hn⟩, bs, hbs, ht⟩ := hconforms.run [] s target (by simp) (.refl binding scope hs)
  have hnames : ∀ name ∈ bs.names, p.Binds name :=
    hbs.elim (fun hderive => hconforms.binds_sub hderive) fun hrejected => hrejected.2
  refine ⟨n, t, hn, ?_, fun u hu name hname => ?_⟩
  · rcases hbs with hderive | ⟨hderive, -⟩
    · rw [hderive]
      exact ht
    · rw [hderive]
      exact ⟨bs, hnames, ht⟩
  · exact ht.bindings_eq hplace hu fun hmem => hname (hnames name hmem)

/-- `[x y::id] = (3 true)`: a list of two, the second of which must be `true`. -/
def pairOrDefault : Pattern :=
  .defaulted (.cons [.identifier "x", .predicated (.identifier "y") (.builtin .id)] (.value .nil))
    (.ofList [.integer 3, .bool true])

/-- The primitive `id` answers with what it is asked about. -/
theorem call_id {t : State} (ht : t.depth < 512) (v : Value) (scope : ScopeId) :
    (Evaluator.ofFuel 2).call (.builtin .id) (Node.quote (.ofList [v])) scope {} t = .ok v t := by
  change Eval.deeper (evalNode (Evaluator.ofFuel 0) (Node.quoted v) scope) {} t = _
  rw [Eval.deeper, if_neg (Nat.not_le_of_lt ht)]
  rfl

/-- Matched against `(1 2)`, the first attempt binds both names and is rejected by the predicate;
what stays are the bindings of the default. -/
theorem pairOrDefault_derives :
    ∃ n t, (∀ fuel, n ≤ fuel → pairOrDefault.matchWith (.ofFuel fuel) .outward Arena.root
        (some (.ofList [.integer 1, .integer 2])) {} .initial = .ok true t) ∧
      State.initial.Rebound .outward Arena.root [("x", .integer 3), ("y", .bool true)] t := by
  have hlineage : State.initial.arena.Lineage Arena.root [Arena.root] :=
    State.arena_initial_of (P := fun a => a.Lineage Arena.root [Arena.root])
      (.root (by decide) rfl) fun _ _ _ _ ha => ha.set
  have hanswer : pairOrDefault.PredicatesAnswer (fun _ v => v == .bool true) .outward Arena.root {}
      .initial := by
    intro base predicate hmem v bs t _ ht
    obtain ⟨-, rfl⟩ : base = .identifier "y" ∧ predicate = .builtin .id := by
      simpa [pairOrDefault, parts, partsAll] using hmem
    have hdepth : t.depth = 0 := ht.depth
    have hlimit : t.depth < 512 := by omega
    exact ⟨2, v, t, call_id hlimit v Arena.root, rfl, .refl t⟩
  obtain ⟨n, t, hn, ht, -⟩ := matchWith_derives (fun _ v => v == .bool true)
    (p := pairOrDefault) (by simp [Plain, pairOrDefault, parts, partsAll]) Reachable.initial.tidy
    ⟨_, hlineage⟩ hanswer (some (.ofList [.integer 1, .integer 2]))
  exact ⟨n, t, hn, ht⟩

end Pattern

end Fexpr
