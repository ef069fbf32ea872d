import Fexpr.Value.Equality

/-!
# Proofs/Equality — the language's equality is an equivalence

Equality looks at pairs, patterns and atoms, and at nothing but the identity of everything else.
`Value.face` is a value with all that left out which equality does not look at: two values are equal
exactly if their faces are (`Value.same_iff`).  So equality is an equivalence, and what a state keeps
behind an identity has no part in it.
-/

namespace Fexpr

mutual

/-- **What equality sees of a value.** -/
def Value.face : Value → Value
  | .pair car cdr => .pair car.face cdr.face
  | .curried tag _ _ => .curried tag .nil .nil
  | .boundMethod tag _ _ => .boundMethod tag 0 .nil
  | .multiFunction tag _ => .multiFunction tag []
  | .pattern p => .pattern p.face
  | v => v

/-- What equality sees of a pattern. -/
def Pattern.face : Pattern → Pattern
  | .value v => .value v.face
  | .cons cars tail => .cons (Pattern.faces cars) tail.face
  | .predicated base predicate => .predicated base.face predicate.face
  | .defaulted base fallback => .defaulted base.face fallback.face
  | .aliased first second => .aliased first.face second.face
  | p => p

/-- The faces of a list of patterns. -/
def Pattern.faces : List Pattern → List Pattern
  | [] => []
  | p :: ps => p.face :: Pattern.faces ps

end

mutual

/-- **Values are equal exactly if they have the same face.** -/
theorem Value.same_iff : (v w : Value) → (v.same w = true ↔ v.face = w.face)
  | .pair car cdr, w => by
    cases w <;> simp [Value.same, Value.face, car.same_iff, cdr.same_iff]
  | .pattern p, w => by cases w <;> simp [Value.same, Value.face, p.same_iff]
  | .nil, w | .void, w | .integer _, w | .bool _, w | .symbol _, w | .builtin _, w
  | .curried .., w | .function _, w | .method _, w | .boundMethod .., w | .multiFunction .., w
  | .object _, w | .dictionary _, w | .promise _, w => by
    cases w <;> simp [Value.same, Value.face]

theorem Pattern.same_iff : (p q : Pattern) → (p.same q = true ↔ p.face = q.face)
  | .value v, q => by cases q <;> simp [Pattern.same, Pattern.face, v.same_iff]
  | .cons cars tail, q => by
    cases q <;> simp [Pattern.same, Pattern.face, Pattern.allSame_iff cars, tail.same_iff]
  | .predicated base v, q | .defaulted base v, q => by
    cases q <;> simp [Pattern.same, Pattern.face, base.same_iff, v.same_iff]
  | .aliased first second, q => by
    cases q <;> simp [Pattern.same, Pattern.face, first.same_iff, second.same_iff]
  | .identifier _, q | .defaultArguments, q => by cases q <;> simp [Pattern.same, Pattern.face]

theorem Pattern.allSame_iff : (ps qs : List Pattern) →
    (Pattern.allSame ps qs = true ↔ Pattern.faces ps = Pattern.faces qs)
  | [], qs => by cases qs <;> simp [Pattern.allSame, Pattern.faces]
  | p :: ps, qs => by
    cases qs <;> simp [Pattern.allSame, Pattern.faces, p.same_iff, Pattern.allSame_iff ps]

end

theorem Value.beq_iff (v w : Value) : v == w ↔ v.face = w.face := by
  rw [Value.beq_eq_same, Value.same_iff]

/-- **A value that equality sees all of.** -/
def Value.IsPlain : Value → Prop
  | .pair .. | .curried .. | .boundMethod .. | .multiFunction .. | .pattern _ => False
  | _ => True

variable {v w : Value}

theorem Value.IsPlain.face_eq (hw : w.IsPlain) : w.face = w := by
  cases w with
  | pair | curried | boundMethod | multiFunction | pattern => exact hw.elim
  | _ => rfl

/-- **Only a plain value itself equals it.** -/
theorem Value.eq_of_beq_plain (h : v == w) (hw : w.IsPlain) : v = w := by
  rw [Value.beq_iff, hw.face_eq] at h
  cases v with
  | pair | curried | boundMethod | multiFunction | pattern => subst h; exact hw.elim
  | _ => exact h

theorem Value.eq_some_of_any {found : Option Value} (h : found.any (· == w)) (hw : w.IsPlain) :
    found = some w := by
  obtain ⟨v, rfl, hv⟩ := (Option.any_eq_true _ _).mp h
  exact congrArg some (Value.eq_of_beq_plain hv hw)

/-- **Equality of values is reflexive, symmetric and transitive.** -/
instance : EquivBEq Value where
  rfl := (Value.beq_iff _ _).mpr rfl
  symm h := (Value.beq_iff _ _).mpr ((Value.beq_iff _ _).mp h).symm
  trans h h' := (Value.beq_iff _ _).mpr (((Value.beq_iff _ _).mp h).trans ((Value.beq_iff _ _).mp h'))

end Fexpr
