import Fexpr.Eval.Matching

/-!
# Proofs/Matching/Chain — a flat list pattern is its conses one inside the other

Car patterns and a tail are kept in one flat pattern, and a loop goes through the target.
`matchWith_chain_cons` takes one car off: what is left is the rule for a single cell (`matchCell`),
with the same answer, the same error and the same state, whatever the patterns do on their way.
-/

namespace Fexpr

namespace Pattern

variable (r : Evaluator) (binding : Binding) (scope : ScopeId)

/-- **The rule for one cell**, from what the patterns of its car and its cdr do: a pair hands them
its parts, `nil` and the missing target have a missing car and are their own cdr, and nothing else
is accepted. -/
def matchCell (car cdr : Option Value → Eval Bool) : Option Value → Eval Bool
  | some (.pair first rest) => do
    if ← car (some first) then cdr (some rest) else return false
  | some .nil => do
    if ← car none then cdr (some .nil) else return false
  | none => do
    if ← car none then cdr none else return false
  | some _ => return false

/-- Whatever comes after a car is reached through its cell. -/
theorem matchCars_cons (p : Pattern) (ps : List Pattern) (target : Option Value)
    (andThen : Option Value → Eval Bool) :
    matchCars r binding scope (p :: ps) target andThen =
      matchCell (p.matchWith r binding scope)
        (fun rest => matchCars r binding scope ps rest andThen) target := by
  rcases target with _ | v
  · rw [matchCars, matchCell]
  · cases v <;> simp only [matchCars, matchCell]

theorem matchCars_nil (target : Option Value) (andThen : Option Value → Eval Bool) :
    matchCars r binding scope [] target andThen = andThen target := by
  rw [matchCars]

/-- Cars in two parts: the second part goes on where the first one stops. -/
theorem matchCars_append (ps qs : List Pattern) (target : Option Value)
    (andThen : Option Value → Eval Bool) :
    matchCars r binding scope (ps ++ qs) target andThen =
      matchCars r binding scope ps target fun rest =>
        matchCars r binding scope qs rest andThen := by
  induction ps generalizing target with
  | nil => rw [matchCars_nil, List.nil_append]
  | cons p ps ih =>
    simp only [List.cons_append, matchCars_cons, ih]

theorem matchWith_cons (cars : List Pattern) (tail : Pattern) (target : Option Value) :
    (Pattern.cons cars tail).matchWith r binding scope target =
      matchCars r binding scope cars target (tail.matchWith r binding scope) := by
  rw [matchWith]

/-- Merging a chain into the tail changes nothing: the cars are matched in turn, then the tail is
matched against what they leave. -/
theorem matchWith_chain (cars : List Pattern) (tail : Pattern) (target : Option Value) :
    (chain cars tail).matchWith r binding scope target =
      matchCars r binding scope cars target (tail.matchWith r binding scope) := by
  unfold chain
  split
  · rw [matchCars_nil]
  · next more tail' _ =>
    rw [matchWith_cons, matchCars_append]
    simp only [← matchWith_cons]
  · rw [matchWith_cons]

/-- **A flat list pattern matches as its first car consed onto the rest.** -/
theorem matchWith_chain_cons (c : Pattern) (cs : List Pattern) (tail : Pattern)
    (target : Option Value) :
    (chain (c :: cs) tail).matchWith r binding scope target =
      matchCell (c.matchWith r binding scope) ((chain cs tail).matchWith r binding scope)
        target := by
  rw [matchWith_chain, matchCars_cons]
  simp only [← matchWith_chain]

end Pattern

end Fexpr
