import Fexpr.Value

/-!
# Value/Equality — the language's own equality

Pairs and patterns compare by structure, the atoms by content, and everything with an identity by
that identity. Values of different types are never equal, not even `nil` and `false`.

`Value.same` says what equality is, `Value.decideSame` finds it out. A list that shares its parts
can be exponentially larger than the cells that hold it, so the search does not look into two
references to one cell: `Value.same_refl` is why it need not.
-/

namespace Fexpr

mutual

/-- **The equality the language observes.** -/
def Value.same : Value → Value → Bool
  | .nil, .nil => true
  | .void, .void => true
  | .integer m, .integer n => m == n
  | .bool a, .bool b => a == b
  | .symbol a, .symbol b => a == b
  | .pair car cdr, .pair car' cdr' => car.same car' && cdr.same cdr'
  | .builtin a, .builtin b => a == b
  | .curried tag _ _, .curried tag' _ _ => tag == tag'
  | .function f, .function g => f == g
  | .method f, .method g => f == g
  | .boundMethod tag _ _, .boundMethod tag' _ _ => tag == tag'
  | .multiFunction tag _, .multiFunction tag' _ => tag == tag'
  | .pattern p, .pattern q => p.same q
  | .object a, .object b => a == b
  | .dictionary a, .dictionary b => a == b
  | .promise a, .promise b => a == b
  | _, _ => false

/-- Two patterns are equal when they have the same shape and carry equal names and values. -/
def Pattern.same : Pattern → Pattern → Bool
  | .identifier a, .identifier b => a == b
  | .value v, .value w => v.same w
  | .cons cars tail, .cons cars' tail' => Pattern.allSame cars cars' && tail.same tail'
  | .predicated base v, .predicated base' w => base.same base' && v.same w
  | .defaulted base v, .defaulted base' w => base.same base' && v.same w
  | .aliased p q, .aliased p' q' => p.same p' && q.same q'
  | .defaultArguments, .defaultArguments => true
  | _, _ => false

/-- Equality of pattern lists, element by element. -/
def Pattern.allSame : List Pattern → List Pattern → Bool
  | [], [] => true
  | p :: ps, q :: qs => p.same q && Pattern.allSame ps qs
  | _, _ => false

end

mutual

/-- A value equals itself. -/
theorem Value.same_refl : (v : Value) → v.same v = true
  | .nil | .void => rfl
  | .integer _ | .bool _ | .symbol _ | .builtin _ => beq_self_eq_true _
  | .curried .. | .function _ | .method _ | .boundMethod .. | .multiFunction .. | .object _
  | .dictionary _ | .promise _ => beq_self_eq_true _
  | .pair car cdr => Bool.and_eq_true_iff.2 ⟨car.same_refl, cdr.same_refl⟩
  | .pattern p => p.same_refl

/-- A pattern equals itself. -/
theorem Pattern.same_refl : (p : Pattern) → p.same p = true
  | .identifier _ => beq_self_eq_true _
  | .value v => v.same_refl
  | .cons cars tail => Bool.and_eq_true_iff.2 ⟨Pattern.allSame_refl cars, tail.same_refl⟩
  | .predicated base v => Bool.and_eq_true_iff.2 ⟨base.same_refl, v.same_refl⟩
  | .defaulted base v => Bool.and_eq_true_iff.2 ⟨base.same_refl, v.same_refl⟩
  | .aliased p q => Bool.and_eq_true_iff.2 ⟨p.same_refl, q.same_refl⟩
  | .defaultArguments => rfl

/-- A list of patterns equals itself. -/
theorem Pattern.allSame_refl : (ps : List Pattern) → Pattern.allSame ps ps = true
  | [] => rfl
  | p :: ps => Bool.and_eq_true_iff.2 ⟨p.same_refl, Pattern.allSame_refl ps⟩

end

theorem Value.eq_function_of_same {v : Value} {f : ClosureId} (h : v.same (.function f)) :
    v = .function f := by
  cases v with
  | function g => rw [eq_of_beq h]
  | _ => cases h

theorem Value.eq_builtin_of_same {v : Value} {b : Builtin} (h : v.same (.builtin b)) :
    v = .builtin b := by
  cases v with
  | builtin b' => rw [eq_of_beq h]
  | _ => cases h

/-! ## Finding it out -/

/-- **A truth value that is known to be `b`**, however it was found. -/
abbrev Verdict (b : Bool) := { found : Bool // found = b }

namespace Verdict

/-- Both of two verdicts; the second is sought only if the first is `true`. -/
@[inline] def and {a b : Bool} (first : Verdict a) (second : Unit → Verdict b) :
    Verdict (a && b) :=
  ⟨first.1 && (second ()).1, by rw [first.2, (second ()).2]⟩

/-- A verdict that is `true` whenever `x` and `y` are equal: it need not be sought when they are
one and the same cell. -/
@[inline] def unlessShared {α : Type} {b : Bool} (x y : α) (refl : x = y → b = true)
    (seek : Unit → Verdict b) : Verdict b :=
  ⟨withPtrEq x y (fun _ => (seek ()).1) fun h => (seek ()).2.trans (refl h), (seek ()).2⟩

end Verdict

mutual

/-- **Decides equality of values**, without looking into shared cells. -/
def Value.decideSame : (v w : Value) → Verdict (v.same w)
  | .pair car cdr, .pair car' cdr' =>
    Verdict.unlessShared (Value.pair car cdr) (.pair car' cdr')
      (fun h => h ▸ Value.same_refl (.pair car cdr))
      fun _ => (car.decideSame car').and fun _ => cdr.decideSame cdr'
  | .pattern p, .pattern q => p.decideSame q
  | v, w => ⟨v.same w, rfl⟩

/-- Decides equality of patterns. -/
def Pattern.decideSame : (p q : Pattern) → Verdict (p.same q)
  | .value v, .value w => v.decideSame w
  | .cons cars tail, .cons cars' tail' =>
    (Pattern.decideAllSame cars cars').and fun _ => tail.decideSame tail'
  | .predicated base v, .predicated base' w => (base.decideSame base').and fun _ => v.decideSame w
  | .defaulted base v, .defaulted base' w => (base.decideSame base').and fun _ => v.decideSame w
  | .aliased p q, .aliased p' q' => (p.decideSame p').and fun _ => q.decideSame q'
  | p, q => ⟨p.same q, rfl⟩

/-- Decides equality of pattern lists. -/
def Pattern.decideAllSame : (ps qs : List Pattern) → Verdict (Pattern.allSame ps qs)
  | p :: ps, q :: qs => (p.decideSame q).and fun _ => Pattern.decideAllSame ps qs
  | ps, qs => ⟨Pattern.allSame ps qs, rfl⟩

end

instance : BEq Value := ⟨fun v w => (v.decideSame w).1⟩
instance : BEq Pattern := ⟨fun p q => (p.decideSame q).1⟩

theorem Value.beq_eq_same (v w : Value) : (v == w) = v.same w :=
  (v.decideSame w).2

theorem Pattern.beq_eq_same (p q : Pattern) : (p == q) = p.same q :=
  (p.decideSame q).2

end Fexpr
