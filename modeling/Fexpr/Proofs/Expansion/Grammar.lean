import Fexpr.Item.Expansion
import Mathlib.Data.List.Forall2
import Mathlib.Data.List.Induction

/-!
# Proofs/Expansion/Grammar — what the items of a level spell

    clause   ::=  alias    |  clause :: alias  |  clause = alias
    alias    ::=  cell     |  alias / cell
    cell     ::=  access   |  access : cell
    access   ::=  operand  |  access . operand
    operand  ::=  node     |  ~ operand        |  @ operand

`Phrase` is this grammar together with the tree that a phrase stands for.  It compares no operators:
one binds as tightly as the tier that adds it, and groups to the side on which the tier refers to
itself.

A level is made of **segments**: rest markers, and chains of operands with one infix operator
between any two.  Every chain is a clause (`Segment.exists_standsFor`).
-/

namespace Fexpr

namespace Item

/-! ## Operands -/

/-- **A node with prefixed operators in front of it**, the outermost first. -/
structure Operand where
  operators : List UnaryOperator
  node : Node

namespace Operand

def items (x : Operand) : List Item :=
  x.operators.map .unary ++ [.node x.node]

/-- **The tree of an operand**: `~x` is `(id x)`, `@x` is `(get this x)`, and what stands further
left is applied later. -/
def tree (x : Operand) : Node :=
  x.operators.foldr (fun
    | .id, n => .call UnaryOperator.id.head [n]
    | .ofThis, n => .call BinaryOperator.get.head [.identifier "this", n]) x.node

end Operand

/-! ## Tiers -/

/-- **The tiers of the grammar**, from the tightest to the loosest. -/
inductive Tier where
  | operand | access | cell | alias | clause

namespace Tier

/-- The next tighter tier. -/
def tighter? : Tier → Option Tier
  | .operand => none
  | .access => some .operand
  | .cell => some .access
  | .alias => some .cell
  | .clause => some .alias

/-- **The infix operators that a tier adds** to those of the tighter ones. -/
def adds : Tier → List BinaryOperator
  | .operand => []
  | .access => [.get]
  | .cell => [.cons]
  | .alias => [.alias]
  | .clause => [.predicate, .fallback]

/-- **The side to which the operators of a tier group.** -/
def side : Tier → Associativity
  | .cell => .right
  | _ => .left

/-- **The infix operators that occur in the phrases of a tier.** -/
def operators : Tier → List BinaryOperator
  | .operand => []
  | .access => [.get]
  | .cell => [.get, .cons]
  | .alias => [.get, .cons, .alias]
  | .clause => [.get, .cons, .alias, .predicate, .fallback]

/-- What occurs in a tier, it adds or it has from the tighter one. -/
theorem mem_operators {tier tighter : Tier} (ht : tier.tighter? = some tighter)
    (op : BinaryOperator) : op ∈ tier.operators ↔ op ∈ tighter.operators ∨ op ∈ tier.adds := by
  cases tier <;> cases ht <;> cases op <;> decide

theorem mem_operators_clause (op : BinaryOperator) : op ∈ Tier.clause.operators := by
  cases op <;> decide

end Tier

/-! ## Phrases -/

/-- **The grammar of operators**: the items are a phrase of the tier, which stands for the tree. -/
inductive Phrase : Tier → List Item → Node → Prop
  /-- Operands are the tightest phrases. -/
  | operand (x : Operand) : Phrase .operand x.items x.tree
  /-- A phrase is one of the looser tiers too. -/
  | loosen {tier tighter : Tier} {xs : List Item} {n : Node} :
      tier.tighter? = some tighter → Phrase tighter xs n → Phrase tier xs n
  /-- Where operators group to the left, the left part is of the same tier. -/
  | left {tier tighter : Tier} {op : BinaryOperator} {xs ys : List Item} {l r : Node} :
      tier.tighter? = some tighter → tier.side = .left → op ∈ tier.adds →
      Phrase tier xs l → Phrase tighter ys r →
      Phrase tier (xs ++ .binary op :: ys) (op.apply l r)
  /-- Where operators group to the right, the right part is of the same tier. -/
  | right {tier tighter : Tier} {op : BinaryOperator} {xs ys : List Item} {l r : Node} :
      tier.tighter? = some tighter → tier.side = .right → op ∈ tier.adds →
      Phrase tighter xs l → Phrase tier ys r →
      Phrase tier (xs ++ .binary op :: ys) (op.apply l r)

namespace Phrase

variable {tier : Tier} {xs : List Item} {n : Node} {op : BinaryOperator}

/-- An operand is a phrase of every tier. -/
theorem exists_of_operand (x : Operand) : ∀ tier, ∃ n, Phrase tier x.items n
  | .operand => ⟨_, .operand x⟩
  | .access => ⟨_, .loosen rfl (.operand x)⟩
  | .cell => ⟨_, .loosen rfl (.loosen rfl (.operand x))⟩
  | .alias => ⟨_, .loosen rfl (.loosen rfl (.loosen rfl (.operand x)))⟩
  | .clause => ⟨_, .loosen rfl (.loosen rfl (.loosen rfl (.loosen rfl (.operand x))))⟩

/-- **A phrase goes on with any operator of its tier**, which ends up at the place along the right
edge of the phrase where its own tier begins. -/
theorem exists_extend (h : Phrase tier xs n) (hop : op ∈ tier.operators) (x : Operand) :
    ∃ m, Phrase tier (xs ++ .binary op :: x.items) m := by
  induction h with
  | operand y => simp [Tier.operators] at hop
  | @loosen tier tighter xs n ht h ih =>
    rcases (Tier.mem_operators ht op).1 hop with hop | hadd
    · obtain ⟨m, hm⟩ := ih hop
      exact ⟨m, .loosen ht hm⟩
    cases hside : tier.side with
    | left =>
      obtain ⟨m, hm⟩ := exists_of_operand x tighter
      exact ⟨_, .left ht hside hadd (.loosen ht h) hm⟩
    | right =>
      obtain ⟨m, hm⟩ := exists_of_operand x tier
      exact ⟨_, .right ht hside hadd h hm⟩
  | @left tier tighter o xs ys l r ht hside ho hl hr _ ih =>
    rcases (Tier.mem_operators ht op).1 hop with hop | hadd
    · obtain ⟨m, hm⟩ := ih hop
      simpa using ⟨_, .left ht hside ho hl hm⟩
    · obtain ⟨m, hm⟩ := exists_of_operand x tighter
      exact ⟨_, .left ht hside hadd (.left ht hside ho hl hr) hm⟩
  | @right tier tighter o xs ys l r ht hside ho hl hr _ ih =>
    obtain ⟨m, hm⟩ := ih hop
    simpa using ⟨_, .right ht hside ho hl hm⟩

end Phrase

/-! ## Segments -/

/-- **What a level is made of**: a rest marker, or a first operand and then infix operators, each
with the operand behind it. -/
inductive Segment where
  | rest
  | chain (first : Operand) (more : List (BinaryOperator × Operand))

/-- A chain without its first operand. -/
def chainRest (more : List (BinaryOperator × Operand)) : List Item :=
  more.flatMap fun (op, x) => .binary op :: x.items

namespace Segment

def items : Segment → List Item
  | .rest => [.rest]
  | .chain first more => first.items ++ chainRest more

/-- **The one item that a segment is rewritten to**: the rest marker itself, or the tree of the
chain. -/
inductive StandsFor : Segment → Item → Prop
  | rest : StandsFor .rest .rest
  | chain {first : Operand} {more : List (BinaryOperator × Operand)} {n : Node} :
      Phrase .clause (Segment.chain first more).items n →
      StandsFor (.chain first more) (.node n)

/-- An operand by itself stands for its own tree. -/
theorem StandsFor.operand (x : Operand) : StandsFor (.chain x []) (.node x.tree) := by
  refine .chain ?_
  rw [items, chainRest, List.flatMap_nil, List.append_nil]
  exact .loosen rfl (.loosen rfl (.loosen rfl (.loosen rfl (.operand x))))

/-- **Every segment spells something.** -/
theorem exists_standsFor : ∀ segment : Segment, ∃ item, segment.StandsFor item
  | .rest => ⟨_, .rest⟩
  | .chain first more => by
    suffices ∃ n, Phrase .clause (Segment.chain first more).items n from
      this.elim fun n h => ⟨_, .chain h⟩
    induction more using List.reverseRecOn with
    | nil => simpa [items, chainRest] using Phrase.exists_of_operand first .clause
    | append_singleton more x ih =>
      obtain ⟨n, h⟩ := ih
      simpa [items, chainRest] using h.exists_extend (Tier.mem_operators_clause x.1) x.2

end Segment

end Item

end Fexpr
