import Fexpr.Proofs.Expansion.Precedence

/-!
# Proofs/Expansion/Level — what is asked of the items of a level

Two demands meet here.  A level is made of segments if its prefixed operators stand on operands
(`Attached`) and its infix operators between operands (`Between`).  What the expansion asks for is
less: operands for the prefixed operators, and a **supply** of nodes for the infix ones
(`Supplied`), wherever these stand.

All demands are about what stands behind an item, so each has a rule for one more item in front.
The first pass asks for the prefixed operators' operands and nothing else, and leaves the supply of
the infix operators as it was (`SameSupply`).
-/

namespace Fexpr

namespace Item

/-! ## Demands on a level -/

/-- **Nodes less infix operators**, counted up to the next rest marker. -/
def surplus : List Item → Int
  | [] | .rest :: _ => 0
  | .node _ :: items => surplus items + 1
  | .binary _ :: items => surplus items - 1
  | .unary _ :: items => surplus items

/-- The items start with an operand. -/
def OperandFirst (items : List Item) : Prop :=
  ∃ (x : Operand) (after : List Item), items = x.items ++ after

/-- The items start with an infix operator. -/
def OperatorFirst (items : List Item) : Prop :=
  ∃ op after, items = .binary op :: after

/-- **Every run of prefixed operators ends in a node.** -/
def Attached (items : List Item) : Prop :=
  ∀ op after, .unary op :: after <:+ items → OperandFirst after

/-- **Operands never run out further right**: behind a node there are at least as many nodes as
infix operators, and no rest marker stands where an operator looks for its left operand. -/
@[mk_iff]
structure Fed (items : List Item) : Prop where
  node : ∀ n after, .node n :: after <:+ items → 0 ≤ surplus after
  rest : ∀ op after, ¬ .rest :: .binary op :: after <:+ items

/-- **The level supplies its infix operators.** -/
@[mk_iff]
structure Supplied (items : List Item) : Prop extends Fed items where
  start : OperatorFirst items → 0 < surplus items

/-- Infix operators come behind a node and in front of an operand. -/
structure Flanked (items : List Item) : Prop where
  left : ∀ item op after, item :: .binary op :: after <:+ items → ∃ n, item = .node n
  right : ∀ op after, .binary op :: after <:+ items → OperandFirst after

/-- **Every infix operator stands between its operands**, the first one too. -/
structure Between (items : List Item) : Prop extends Flanked items where
  start : ¬ OperatorFirst items

section Cons

variable {item : Item} {items : List Item}

theorem not_operatorFirst_nil : ¬ OperatorFirst [] := by simp [OperatorFirst]

theorem operatorFirst_cons : OperatorFirst (item :: items) ↔ ∃ op, item = .binary op := by
  simp [OperatorFirst]

theorem not_operandFirst_nil : ¬ OperandFirst [] := by
  rintro ⟨x, after, h⟩
  simp [Operand.items] at h

theorem operandFirst_node (n : Node) : OperandFirst (.node n :: items) :=
  ⟨⟨[], n⟩, items, rfl⟩

theorem operandFirst_unary {op : UnaryOperator} :
    OperandFirst (.unary op :: items) ↔ OperandFirst items := by
  constructor
  · rintro ⟨⟨_ | ⟨o, operators⟩, n⟩, after, h⟩
    · simp [Operand.items] at h
    · exact ⟨⟨operators, n⟩, after, by simpa [Operand.items] using (List.cons.inj h).2⟩
  · rintro ⟨⟨operators, n⟩, after, rfl⟩
    exact ⟨⟨op :: operators, n⟩, after, by simp [Operand.items]⟩

theorem not_operandFirst_rest : ¬ OperandFirst (.rest :: items) := by
  rintro ⟨⟨_ | ⟨o, operators⟩, n⟩, after, h⟩ <;> simp [Operand.items] at h

theorem not_operandFirst_binary {op : BinaryOperator} : ¬ OperandFirst (.binary op :: items) := by
  rintro ⟨⟨_ | ⟨o, operators⟩, n⟩, after, h⟩ <;> simp [Operand.items] at h

theorem OperandFirst.not_operatorFirst (h : OperandFirst items) : ¬ OperatorFirst items := by
  rintro ⟨op, after, rfl⟩
  exact not_operandFirst_binary h

theorem attached_cons :
    Attached (item :: items) ↔ Attached items ∧ ∀ op, item = .unary op → OperandFirst items := by
  simp only [Attached, List.suffix_cons_iff]
  grind

theorem fed_nil : Fed [] := ⟨by simp, by simp⟩

theorem fed_cons : Fed (item :: items) ↔ Fed items ∧ (∀ n, item = .node n → 0 ≤ surplus items) ∧
    (item = .rest → ¬ OperatorFirst items) := by
  simp only [fed_iff, OperatorFirst, List.suffix_cons_iff]
  grind

theorem flanked_nil : Flanked [] := ⟨by simp, by simp⟩

theorem flanked_cons : Flanked (item :: items) ↔ Flanked items ∧
    (OperatorFirst items → ∃ n, item = .node n) ∧
    (∀ op, item = .binary op → OperandFirst items) := by
  constructor
  · intro h
    refine ⟨⟨fun i op after ha => h.left i op after (ha.trans (List.suffix_cons ..)),
      fun op after ha => h.right op after (ha.trans (List.suffix_cons ..))⟩, ?_, ?_⟩
    · rintro ⟨op, after, rfl⟩
      exact h.left item op after List.suffix_rfl
    · rintro op rfl
      exact h.right op items List.suffix_rfl
  · rintro ⟨h, hleft, hright⟩
    refine ⟨fun i op after ha => ?_, fun op after ha => ?_⟩
    · rcases List.suffix_cons_iff.1 ha with heq | ha
      · obtain ⟨rfl, rfl⟩ := List.cons.inj heq
        exact hleft ⟨op, after, rfl⟩
      · exact h.left i op after ha
    · rcases List.suffix_cons_iff.1 ha with heq | ha
      · obtain ⟨rfl, rfl⟩ := List.cons.inj heq
        exact hright op rfl
      · exact h.right op after ha

end Cons

/-! ## The first pass -/

/-- What a mapped pass returns is the image of what the pass returns. -/
theorem map_eq_ok {α β : Type} {f : α → β} {pass : Except SyntaxError α} {out : β} :
    f <$> pass = .ok out ↔ ∃ a, pass = .ok a ∧ f a = out := by
  cases pass with
  | error e => exact ⟨nofun, fun ⟨_, h, _⟩ => nomatch h⟩
  | ok a => simp

/-- **The first pass goes through** if every waiting operator finds its node. -/
theorem expandUnaryFrom_ok_iff (pending : List UnaryOperator) (items : List Item) :
    (∃ out, expandUnaryFrom pending items = .ok out) ↔
      Attached items ∧ (pending ≠ [] → OperandFirst items) := by
  induction items generalizing pending with
  | nil => cases pending <;> simp [expandUnaryFrom, Attached, not_operandFirst_nil]
  | cons item items ih =>
    have hgo : ∀ f : List Item → List Item,
        (∃ out, f <$> expandUnary items = .ok out) ↔ Attached items := fun f => by
      simpa [map_eq_ok, expandUnary] using ih []
    cases item with
    | unary op =>
      rw [expandUnaryFrom, ih, attached_cons, operandFirst_unary]
      constructor
      · rintro ⟨hattached, hfirst⟩
        have hfirst : OperandFirst items := hfirst (by simp)
        exact ⟨⟨hattached, fun _ _ => hfirst⟩, fun _ => hfirst⟩
      · rintro ⟨⟨hattached, hfirst⟩, -⟩
        exact ⟨hattached, fun _ => hfirst op rfl⟩
    | node n =>
      rw [expandUnaryFrom_node, hgo, attached_cons]
      simp [operandFirst_node]
    | rest =>
      rw [attached_cons]
      cases pending with
      | nil => exact (hgo (.rest :: ·)).trans (by simp)
      | cons => simp [expandUnaryFrom, not_operandFirst_rest]
    | binary op =>
      rw [attached_cons]
      cases pending with
      | nil => exact (hgo (.binary op :: ·)).trans (by simp)
      | cons => simp [expandUnaryFrom, not_operandFirst_binary]

/-- **What the first pass keeps of a level.** -/
structure SameSupply (items out : List Item) : Prop where
  surplus : surplus items = surplus out
  fed : Fed items ↔ Fed out
  operatorFirst : OperatorFirst items ↔ OperatorFirst out

namespace SameSupply

variable {items out : List Item}

theorem node (h : SameSupply items out) (n m : Node) :
    SameSupply (.node n :: items) (.node m :: out) where
  surplus := by simp [Item.surplus, h.surplus]
  fed := by simp [fed_cons, h.fed, h.surplus]
  operatorFirst := by simp [operatorFirst_cons]

theorem rest (h : SameSupply items out) : SameSupply (.rest :: items) (.rest :: out) where
  surplus := rfl
  fed := by simp [fed_cons, h.fed, h.operatorFirst]
  operatorFirst := by simp [operatorFirst_cons]

theorem binary (h : SameSupply items out) (op : BinaryOperator) :
    SameSupply (.binary op :: items) (.binary op :: out) where
  surplus := by simp [Item.surplus, h.surplus]
  fed := by simp [fed_cons, h.fed]
  operatorFirst := by simp [operatorFirst_cons]

theorem supplied (h : SameSupply items out) : Supplied items ↔ Supplied out := by
  simp only [supplied_iff, h.fed, h.operatorFirst, h.surplus]

/-- Left out in front of an operand, a prefixed operator leaves no trace. -/
theorem unary (h : SameSupply items out) (hitems : OperandFirst items) (op : UnaryOperator) :
    SameSupply (.unary op :: items) out where
  surplus := h.surplus
  fed := by simp [fed_cons, h.fed]
  operatorFirst := by simp [operatorFirst_cons, ← h.operatorFirst, hitems.not_operatorFirst]

end SameSupply

/-- The first pass removes the prefixed operators and keeps the supply of the others. -/
theorem sameSupply_of_expandUnaryFrom {pending : List UnaryOperator} {items out : List Item}
    (h : expandUnaryFrom pending items = .ok out) :
    SameSupply items out ∧ ∀ op, .unary op ∉ out := by
  induction items generalizing pending out with
  | nil =>
    cases pending with
    | nil =>
      obtain rfl : [] = out := by simpa [expandUnaryFrom] using h
      exact ⟨⟨rfl, .rfl, .rfl⟩, by simp⟩
    | cons => simp [expandUnaryFrom] at h
  | cons item items ih =>
    cases item with
    | unary op =>
      have hrest : expandUnaryFrom (op :: pending) items = .ok out := h
      have hfirst : OperandFirst items :=
        ((expandUnaryFrom_ok_iff (op :: pending) items).1 ⟨out, hrest⟩).2 (by simp)
      obtain ⟨hsame, hout⟩ := ih hrest
      exact ⟨hsame.unary hfirst op, hout⟩
    | node n =>
      obtain ⟨out', hout', rfl⟩ := map_eq_ok.1 h
      obtain ⟨hsame, hunary⟩ := ih hout'
      exact ⟨hsame.node .., by simpa using hunary⟩
    | rest =>
      cases pending with
      | nil =>
        obtain ⟨out', hout', rfl⟩ := map_eq_ok.1 h
        obtain ⟨hsame, hunary⟩ := ih hout'
        exact ⟨hsame.rest, by simpa using hunary⟩
      | cons => simp [expandUnaryFrom] at h
    | binary op =>
      cases pending with
      | nil =>
        obtain ⟨out', hout', rfl⟩ := map_eq_ok.1 h
        obtain ⟨hsame, hunary⟩ := ih hout'
        exact ⟨hsame.binary op, by simpa using hunary⟩
      | cons => simp [expandUnaryFrom] at h

/-! ## Levels made of segments -/

section Segments

variable {items : List Item} {segments : List Segment}

theorem items_chain (first : Operand) (more : List (BinaryOperator × Operand)) :
    (Segment.chain first more).items = first.items ++ chainRest more := rfl

/-- A level of segments that starts with an operand starts with a chain. -/
theorem exists_chain_of_operandFirst (h : OperandFirst (segments.flatMap Segment.items)) :
    ∃ first more segments', segments = Segment.chain first more :: segments' := by
  match segments with
  | [] => exact absurd h not_operandFirst_nil
  | .rest :: segments => exact absurd h not_operandFirst_rest
  | .chain first more :: segments => exact ⟨first, more, segments, rfl⟩

theorem not_operatorFirst_flatMap (segments : List Segment) :
    ¬ OperatorFirst (segments.flatMap Segment.items) := by
  match segments with
  | [] => exact not_operatorFirst_nil
  | .rest :: segments => simp [Segment.items, operatorFirst_cons]
  | .chain first more :: segments =>
    rw [List.flatMap_cons, items_chain, List.append_assoc]
    exact OperandFirst.not_operatorFirst ⟨first, _, rfl⟩

/-- Without an operator in front there is nothing left of a chain. -/
theorem eq_nil_of_not_operatorFirst {more : List (BinaryOperator × Operand)}
    (h : ¬ OperatorFirst (chainRest more ++ items)) : more = [] := by
  match more with
  | [] => rfl
  | (op, x) :: more => exact absurd ⟨op, _, rfl⟩ h

/-- **Levels whose operators stand between operands are made of segments**, but for what is left of
a chain in front. -/
theorem exists_segments (hattached : Attached items) (hflanked : Flanked items) :
    ∃ more segments, items = chainRest more ++ List.flatMap Segment.items segments := by
  induction items with
  | nil => exact ⟨[], [], rfl⟩
  | cons item items ih =>
    obtain ⟨hattached, hunary⟩ := attached_cons.1 hattached
    obtain ⟨hflanked, hleft, hright⟩ := flanked_cons.1 hflanked
    obtain ⟨more, segments, rfl⟩ := ih hattached hflanked
    match item with
    | .node n =>
      refine ⟨[], .chain ⟨[], n⟩ more :: segments, ?_⟩
      simp [chainRest, Segment.items, Operand.items]
    | .rest =>
      -- a marker does not go on with a chain
      obtain rfl := eq_nil_of_not_operatorFirst fun h => by simpa using hleft h
      exact ⟨[], .rest :: segments, rfl⟩
    | .unary op =>
      obtain rfl := eq_nil_of_not_operatorFirst (hunary op rfl).not_operatorFirst
      obtain ⟨first, more, segments, rfl⟩ := exists_chain_of_operandFirst (hunary op rfl)
      refine ⟨[], .chain ⟨op :: first.operators, first.node⟩ more :: segments, ?_⟩
      simp [chainRest, Segment.items, Operand.items]
    | .binary op =>
      obtain rfl := eq_nil_of_not_operatorFirst (hright op rfl).not_operatorFirst
      obtain ⟨first, more, segments, rfl⟩ := exists_chain_of_operandFirst (hright op rfl)
      refine ⟨(op, first) :: more, segments, ?_⟩
      simp [chainRest, Segment.items, Operand.items]

/-- An operand takes its place in front of what is flanked already. -/
theorem Flanked.operand (h : Flanked items) (x : Operand) : Flanked (x.items ++ items) := by
  obtain ⟨operators, n⟩ := x
  induction operators with
  | nil => exact flanked_cons.2 ⟨h, fun _ => ⟨n, rfl⟩, by simp⟩
  | cons op operators ih =>
    refine flanked_cons.2 ⟨ih, fun hfirst => ?_, by simp⟩
    exact absurd hfirst (OperandFirst.not_operatorFirst ⟨⟨operators, n⟩, items, rfl⟩)

theorem Flanked.chainRest (h : Flanked items) (more : List (BinaryOperator × Operand)) :
    Flanked (chainRest more ++ items) := by
  induction more with
  | nil => exact h
  | cons opx more ih =>
    obtain ⟨op, x⟩ := opx
    have hx : OperandFirst (x.items ++ (Item.chainRest more ++ items)) := ⟨x, _, rfl⟩
    rw [show Item.chainRest ((op, x) :: more) ++ items =
      .binary op :: (x.items ++ (Item.chainRest more ++ items)) by simp [Item.chainRest]]
    exact flanked_cons.2 ⟨ih.operand x, fun h => absurd h hx.not_operatorFirst, fun _ _ => hx⟩

theorem flanked_flatMap :
    ∀ segments : List Segment, Flanked (segments.flatMap Segment.items)
  | [] => flanked_nil
  | .rest :: segments => flanked_cons.2 ⟨flanked_flatMap segments,
      fun h => absurd h (not_operatorFirst_flatMap segments), by simp⟩
  | .chain first more :: segments => by
    rw [List.flatMap_cons, items_chain, List.append_assoc]
    exact ((flanked_flatMap segments).chainRest more).operand first

end Segments

end Item

end Fexpr
