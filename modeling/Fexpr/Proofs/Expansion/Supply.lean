import Fexpr.Proofs.Expansion.Level

/-!
# Proofs/Expansion/Supply — which levels expand

The second pass keeps all finished items on one stack, and an infix operator takes the two on top.
So an operator that lacks an operand of its own is content with one further right, and the pass asks
for a supply, not for an order: `expand_ok_iff` says which levels expand, and that these are the
levels made of segments as soon as every infix operator stands between its operands.

The height of the stack over the last rest marker decides.  Against the operators that still wait it
is the **surplus** of the level: nodes less infix operators.  A yard either `Fits` its surplus or is
`Doomed`: then no item in front of it saves the level any more.
-/

namespace Fexpr

namespace Item

/-! ## The height of the stack of finished items -/

/-- What one item of the queue does to a stack with `h` nodes above its last rest marker. -/
def heightStep : Item → Nat → Option Nat
  | .node _, h => some (h + 1)
  | .binary _, h + 2 => some (h + 1)
  | .binary _, _ => none
  | _, _ => some 0

/-- **How many nodes a queue, the latest item first, leaves above the last rest marker**, if it runs
through. -/
def height (queue : List Item) : Option Nat :=
  queue.foldr (fun item h => h.bind (heightStep item)) (some 0)

/-- The nodes above the last rest marker. -/
def leadingNodes : List Item → Nat
  | .node _ :: items => leadingNodes items + 1
  | _ => 0

theorem runPolish_operand {item : Item} (hitem : ∀ op, item ≠ .binary op)
    (results queue : List Item) :
    runPolish results (item :: queue) = runPolish (item :: results) queue := by
  cases item <;> first | rfl | exact absurd rfl (hitem _)

theorem runPolish_append (results p q : List Item) :
    runPolish results (p ++ q) = runPolish results p >>= fun results => runPolish results q := by
  induction p generalizing results with
  | nil => rfl
  | cons item p ih =>
    cases item with
    | binary op =>
      simp only [List.cons_append, runPolish]
      split
      · exact ih _
      all_goals rfl
    | _ => simpa only [List.cons_append, runPolish] using ih _

/-- One item of the queue succeeds on a stack that is high enough. -/
theorem leadingNodes_runPolish (results : List Item) (item : Item) :
    (runPolish results [item]).toOption.map leadingNodes =
      heightStep item (leadingNodes results) := by
  cases item with
  | binary op =>
    rcases results with _ | ⟨_ | _ | _ | _, _ | ⟨_ | _ | _ | _, results⟩⟩ <;> rfl
  | _ => rfl

/-- **The height decides whether a queue runs through.** -/
theorem height_eq (queue : List Item) :
    (runPolish [] queue.reverse).toOption.map leadingNodes = height queue := by
  induction queue with
  | nil => rfl
  | cons item queue ih =>
    rw [List.reverse_cons, runPolish_append]
    change _ = (height queue).bind (heightStep item)
    rw [← ih]
    cases runPolish [] queue.reverse with
    | error e => rfl
    | ok results => exact leadingNodes_runPolish results item

theorem runPolish_ok_iff (queue : List Item) :
    (∃ out, runPolish [] queue.reverse = .ok out) ↔ ∃ h, height queue = some h := by
  rw [← height_eq]
  cases runPolish [] queue.reverse <;> simp [Except.toOption]

section Height

variable {queue : List Item} {h : Nat}

theorem height_node (hq : height queue = some h) (n : Node) :
    height (.node n :: queue) = some (h + 1) := by
  change (height queue).bind _ = _
  rw [hq]
  rfl

theorem height_rest (hq : height queue = some h) : height (.rest :: queue) = some 0 := by
  change (height queue).bind _ = _
  rw [hq]
  rfl

/-- What failed has failed. -/
theorem height_append_of_none (hq : height queue = none) (items : List Item) :
    height (items ++ queue) = none := by
  induction items with
  | nil => exact hq
  | cons item items ih =>
    change (height (items ++ queue)).bind _ = none
    rw [ih]
    rfl

/-- Operators that are moved to the output take one node each, and the last of them leaves one. -/
theorem height_operators (hq : height queue = some h) (ops : List BinaryOperator) :
    height ((ops.map Item.binary).reverse ++ queue) =
      if ops.length < h ∨ ops = [] then some (h - ops.length) else none := by
  induction ops generalizing queue h with
  | nil => simpa using hq
  | cons op ops ih =>
    have hmove : (List.map Item.binary (op :: ops)).reverse ++ queue =
        (ops.map Item.binary).reverse ++ (.binary op :: queue) := by simp
    have hstep : height (.binary op :: queue) = heightStep (.binary op) h := by
      change (height queue).bind _ = _
      rw [hq]
      rfl
    rw [hmove]
    match h with
    | 0 | 1 => rw [height_append_of_none hstep]; simp
    | h + 2 =>
      rw [ih hstep]
      cases ops <;> simp

/-- An operand adds at most one node. -/
theorem exists_of_height_cons {item : Item} (hitem : ∀ op, item ≠ .binary op)
    (hq : height (item :: queue) = some h) : ∃ h₀, height queue = some h₀ ∧ h ≤ h₀ + 1 := by
  change (height queue).bind _ = _ at hq
  obtain ⟨h₀, h₀eq, hstep⟩ := Option.bind_eq_some_iff.1 hq
  refine ⟨h₀, h₀eq, ?_⟩
  match item with
  | .node n => exact (Option.some.inj hstep) ▸ Nat.le_refl _
  | .binary op => exact absurd rfl (hitem op)
  | .rest | .unary op => exact (Option.some.inj hstep) ▸ Nat.zero_le _

end Height

namespace Yard

/-! ## Yards that fit their surplus -/

/-- **The yard is as high as its surplus asks for**: the nodes above the last rest marker, less the
operators that wait for them. -/
structure Fits (y : Yard) (n : Int) : Prop where
  height : ∃ h : Nat, height y.queue = some h ∧ h - y.stack.length = n
  waiting : y.afterOperator = true → y.stack ≠ []
  supplied : y.afterOperator = false → y.stack = [] ∨ 1 ≤ n

/-- **The level is lost**: a queue has failed, or more operators wait than the stack can satisfy. -/
def Doomed (y : Yard) : Prop :=
  ∀ h, height y.queue = some h → y.stack ≠ [] ∧
    h + (if y.afterOperator then 1 else 0) ≤ y.stack.length

variable {y : Yard} {n : Int}

theorem drain_eq (op : BinaryOperator) (queue : List Item) (stack : List BinaryOperator) :
    ∃ done left, stack = done ++ left ∧
      drain op queue stack = ((done.map Item.binary).reverse ++ queue, left) := by
  induction stack generalizing queue with
  | nil => exact ⟨[], [], rfl, rfl⟩
  | cons stacked stack ih =>
    rw [drain]
    split
    · obtain ⟨done, left, rfl, h⟩ := ih (.binary stacked :: queue)
      exact ⟨stacked :: done, left, rfl, by simp [h]⟩
    · exact ⟨[], stacked :: stack, rfl, rfl⟩

/-- Moving operators keeps the difference of nodes and waiting operators, as long as the nodes
suffice. -/
theorem push_binary (y : Yard) (op : BinaryOperator) : ∃ done left,
    y.stack = done ++ left ∧
      y.push (.binary op) = ⟨(done.map Item.binary).reverse ++ y.queue, op :: left, true⟩ := by
  obtain ⟨done, left, hstack, hdrain⟩ := drain_eq op y.queue y.stack
  exact ⟨done, left, hstack, by simp only [push, hdrain]⟩

/-- An operand finds the yard as it is behind an operator, and emptied otherwise. -/
theorem push_operand (y : Yard) {item : Item} (h : ∀ op, item ≠ .binary op) :
    y.push item = ⟨item :: y.ready.queue, y.ready.stack, false⟩ := by
  cases item <;> first | rfl | exact absurd rfl (h _)

theorem height_flush {h : Nat} (hy : Item.height y.queue = some h) :
    Item.height y.flush.queue =
      if y.stack.length < h ∨ y.stack = [] then some (h - y.stack.length) else none := by
  rw [flush_queue, height_operators hy]

/-- A yard that fits is ready for an operand: behind an operator it waits, and otherwise the
operators that are left find their operands. -/
theorem Fits.ready (hy : y.Fits n) (hn : y.afterOperator = true → 0 ≤ n) :
    ∃ h : Nat, Item.height y.ready.queue = some h ∧ h - y.ready.stack.length = n ∧ 0 ≤ n := by
  obtain ⟨h, hh, hsum⟩ := hy.height
  cases hafter : y.afterOperator with
  | true =>
    rw [ready_of_afterOperator hafter]
    exact ⟨h, hh, hsum, hn hafter⟩
  | false =>
    rw [ready_of_not_afterOperator hafter, height_flush hh]
    rcases hy.supplied hafter with hstack | hn
    · refine ⟨h, by simp [hstack], ?_, ?_⟩
      · simpa [hstack, flush] using hsum
      · simp [hstack] at hsum
        omega
    · refine ⟨h - y.stack.length, if_pos (.inl (by omega)), ?_, by omega⟩
      simp only [flush, List.length_nil]
      omega

theorem Fits.node (hy : y.Fits n) (hn : y.afterOperator = true → 0 ≤ n) (m : Node) :
    (y.push (.node m)).Fits (n + 1) := by
  obtain ⟨h, hh, hsum, hn⟩ := hy.ready hn
  rw [push_operand y (by simp)]
  refine ⟨⟨h + 1, height_node hh m, ?_⟩, by simp, fun _ => .inr ?_⟩
  · change ((h + 1 : Nat) : Int) - y.ready.stack.length = _
    omega
  · omega

theorem Fits.rest (hy : y.Fits n) (hafter : y.afterOperator = false) :
    (y.push .rest).Fits 0 := by
  obtain ⟨h, hh, -, -⟩ := hy.ready (by simp [hafter])
  rw [push_operand y (by simp)]
  rw [ready_of_not_afterOperator hafter] at hh ⊢
  exact ⟨⟨0, height_rest hh, by simp [flush]⟩, by simp, fun _ => .inl rfl⟩

theorem Fits.binary (hy : y.Fits n) (hn : 1 ≤ n) (op : BinaryOperator) :
    (y.push (.binary op)).Fits (n - 1) := by
  obtain ⟨h, hh, hsum⟩ := hy.height
  obtain ⟨done, left, hstack, hpush⟩ := y.push_binary op
  rw [hpush]
  have hlen : y.stack.length = done.length + left.length := by simp [hstack]
  refine ⟨⟨h - done.length, ?_, ?_⟩, by simp, by simp⟩
  · rw [height_operators hh, if_pos (.inl (by omega))]
  · simp only [List.length_cons]
    omega

/-- A yard that is high enough for its waiting operators only is lost with one more of them. -/
theorem doomed_push_binary (hy : ∀ h, Item.height y.queue = some h → h ≤ y.stack.length)
    (op : BinaryOperator) : (y.push (.binary op)).Doomed := by
  obtain ⟨done, left, hstack, hpush⟩ := y.push_binary op
  rw [hpush]
  intro h hh
  refine ⟨by simp, ?_⟩
  have hlen : y.stack.length = done.length + left.length := by simp [hstack]
  cases h₀eq : Item.height y.queue with
  | none => simp [height_append_of_none h₀eq] at hh
  | some h₀ =>
    have hle := hy h₀ h₀eq
    rw [height_operators h₀eq] at hh
    split at hh
    · obtain rfl : h₀ - done.length = h := Option.some.inj hh
      simp only [if_true, List.length_cons]
      omega
    · cases hh

theorem Fits.doomed_binary (hy : y.Fits n) (hn : n ≤ 0) (op : BinaryOperator) :
    (y.push (.binary op)).Doomed := by
  obtain ⟨h, hh, hsum⟩ := hy.height
  refine doomed_push_binary (fun h' hh' => ?_) op
  obtain rfl : h = h' := Option.some.inj (hh.symm.trans hh')
  omega

/-- An operator that meets a rest marker on its left is lost. -/
theorem Fits.doomed_rest (hy : y.Fits n) (hafter : y.afterOperator = true) :
    (y.push .rest).Doomed := by
  obtain ⟨h, hh, -⟩ := hy.height
  rw [push_operand y (by simp), ready_of_afterOperator hafter]
  intro h' hh'
  obtain rfl : 0 = h' := Option.some.inj ((height_rest hh).symm.trans hh')
  exact ⟨hy.waiting hafter, by simp⟩

theorem Doomed.flush (hy : y.Doomed) : Item.height y.flush.queue = none := by
  cases hh : Item.height y.queue with
  | none =>
    rw [flush_queue]
    exact height_append_of_none hh _
  | some h =>
    obtain ⟨hstack, hle⟩ := hy h hh
    rw [height_flush hh, if_neg]
    simp only [hstack, or_false]
    omega

/-- **What is lost stays lost.** -/
theorem Doomed.push (hy : y.Doomed) (item : Item) : (y.push item).Doomed := by
  by_cases hitem : ∀ op, item ≠ .binary op
  · rw [push_operand y hitem]
    intro h hh
    obtain ⟨h₀, h₀eq, hle⟩ := exists_of_height_cons hitem hh
    cases hafter : y.afterOperator with
    | true =>
      rw [ready_of_afterOperator hafter] at h₀eq ⊢
      obtain ⟨hstack, hle₀⟩ := hy h₀ h₀eq
      refine ⟨hstack, ?_⟩
      simp only [hafter, if_true] at hle₀
      simp only [Bool.false_eq_true, if_false]
      omega
    | false =>
      rw [ready_of_not_afterOperator hafter, hy.flush] at h₀eq
      cases h₀eq
  · obtain ⟨op, rfl⟩ : ∃ op, item = .binary op := by simpa using hitem
    refine doomed_push_binary (fun h hh => ?_) op
    exact Nat.le_trans (Nat.le_add_right ..) (hy h hh).2

end Yard

/-! ## Levels without prefixed operators -/

/-- **The level can still be saved** by what stands in front of it. -/
def Alive (items : List Item) : Prop :=
  Fed items ∧ (OperatorFirst items → 0 ≤ surplus items)

section Alive

variable {items : List Item}

theorem alive_nil : Alive [] := ⟨fed_nil, fun _ => Int.le_refl 0⟩

theorem alive_node {n : Node} : Alive (.node n :: items) ↔ Alive items ∧ 0 ≤ surplus items := by
  simp only [Alive, fed_cons, operatorFirst_cons]
  grind

theorem alive_rest : Alive (.rest :: items) ↔ Alive items ∧ ¬ OperatorFirst items := by
  simp only [Alive, fed_cons, operatorFirst_cons]
  grind

theorem alive_binary {op : BinaryOperator} :
    Alive (.binary op :: items) ↔ Alive items ∧ 1 ≤ surplus items := by
  simp only [Alive, fed_cons, operatorFirst_cons, surplus]
  grind

end Alive

/-- **Scanning a level** leaves a yard that fits the surplus of the level, or a lost one if the
level is past saving. -/
theorem scan_fits_or_doomed {items : List Item} (hunary : ∀ op, .unary op ∉ items) :
    ((Yard.empty.scan items).afterOperator = true ↔ OperatorFirst items) ∧
    (Alive items → (Yard.empty.scan items).Fits (surplus items)) ∧
    (¬ Alive items → (Yard.empty.scan items).Doomed) := by
  induction items with
  | nil =>
    refine ⟨by simp [Yard.scan, Yard.empty, not_operatorFirst_nil], fun _ => ?_,
      fun h => absurd alive_nil h⟩
    exact ⟨⟨0, rfl, rfl⟩, by simp [Yard.scan, Yard.empty], fun _ => .inl rfl⟩
  | cons item items ih =>
    obtain ⟨hafter, hfits, hdoomed⟩ := ih fun op h => hunary op (by simp [h])
    change ((((Yard.empty.scan items).push item).afterOperator = true) ↔ _) ∧
      (_ → ((Yard.empty.scan items).push item).Fits _) ∧
      (_ → ((Yard.empty.scan items).push item).Doomed)
    generalize Yard.empty.scan items = y at *
    -- a level past saving stays so
    have hpast : ¬ Alive items → (y.push item).Doomed := fun h => (hdoomed h).push item
    match item with
    | .unary op => exact absurd (by simp) (hunary op)
    | .node n =>
      refine ⟨by simp [y.push_operand, operatorFirst_cons], fun h => ?_, fun h => ?_⟩
      · exact (hfits (alive_node.1 h).1).node (fun _ => (alive_node.1 h).2) n
      · by_cases halive : Alive items
        · obtain ⟨-, -, -, hn⟩ := (hfits halive).ready fun ha => halive.2 (hafter.1 ha)
          exact absurd (alive_node.2 ⟨halive, hn⟩) h
        · exact hpast halive
    | .rest =>
      refine ⟨by simp [y.push_operand, operatorFirst_cons], fun h => ?_, fun h => ?_⟩
      · have hfirst : y.afterOperator = false := by
          rw [← Bool.not_eq_true, hafter]
          exact (alive_rest.1 h).2
        exact (hfits (alive_rest.1 h).1).rest hfirst
      · by_cases halive : Alive items
        · have hfirst : OperatorFirst items := by
            by_contra hfirst
            exact h (alive_rest.2 ⟨halive, hfirst⟩)
          exact (hfits halive).doomed_rest (hafter.2 hfirst)
        · exact hpast halive
    | .binary op =>
      refine ⟨by simp [Yard.push, operatorFirst_cons], fun h => ?_, fun h => ?_⟩
      · exact (hfits (alive_binary.1 h).1).binary (alive_binary.1 h).2 op
      · by_cases halive : Alive items
        · refine (hfits halive).doomed_binary ?_ op
          by_contra hn
          exact h (alive_binary.2 ⟨halive, by omega⟩)
        · exact hpast halive

/-- **The second pass goes through** if and only if the level supplies its operators. -/
theorem expandBinary_ok_iff {items : List Item} (hunary : ∀ op, .unary op ∉ items) :
    (∃ out, expandBinary items = .ok out) ↔ Supplied items := by
  change (∃ out, runPolish [] (Yard.empty.scan items).flush.queue.reverse = .ok out) ↔ _
  rw [runPolish_ok_iff]
  obtain ⟨hafter, hfits, hdoomed⟩ := scan_fits_or_doomed hunary
  generalize Yard.empty.scan items = y at *
  by_cases halive : Alive items
  · obtain ⟨h, hh, hsum⟩ := (hfits halive).height
    rw [Yard.height_flush hh]
    constructor
    · intro hok
      refine ⟨halive.1, fun hfirst => ?_⟩
      -- an operator waits, so the flush moves at least one
      have hstack := (hfits halive).waiting (hafter.2 hfirst)
      have hlt : y.stack.length < h := by
        by_contra hlt
        simp [hlt, hstack] at hok
      omega
    · intro hsupplied
      rw [if_pos]
      · exact ⟨_, rfl⟩
      cases hfirst : y.afterOperator with
      | true =>
        have := hsupplied.start (hafter.1 hfirst)
        exact .inl (by omega)
      | false =>
        rcases (hfits halive).supplied hfirst with hstack | hn
        · exact .inr hstack
        · exact .inl (by omega)
  · rw [(hdoomed halive).flush]
    simp only [reduceCtorEq, exists_false, false_iff]
    intro hsupplied
    exact halive ⟨hsupplied.toFed, fun hfirst => Int.le_of_lt (hsupplied.start hfirst)⟩

/-! ## Levels -/

/-- The levels that both passes go through. -/
theorem exists_expand_iff (items : List Item) :
    (∃ out, expand items = .ok out) ↔ Attached items ∧ Supplied items := by
  have hfirst := expandUnaryFrom_ok_iff [] items
  simp only [ne_eq, not_true_eq_false, false_implies, and_true] at hfirst
  rw [expand, ← hfirst]
  change (∃ out, (expandUnaryFrom [] items >>= expandBinary) = _) ↔ _
  cases hpass : expandUnaryFrom [] items with
  | error e => simp [bind, Except.bind]
  | ok bare =>
    obtain ⟨hsame, hunary⟩ := sameSupply_of_expandUnaryFrom hpass
    rw [hsame.supplied, ← expandBinary_ok_iff hunary]
    simp [bind, Except.bind]

/-- **Which levels expand**: those with every prefixed operator on an operand and enough nodes for
the infix operators. They are the levels made of segments, and beyond them only such levels in which
an infix operator stands elsewhere than between two operands. -/
theorem expand_ok_iff (items : List Item) :
    ((∃ out, expand items = .ok out) ↔ Attached items ∧ Supplied items) ∧
    ((∃ segments : List Segment, items = segments.flatMap Segment.items) ↔
      (∃ out, expand items = .ok out) ∧ Between items) := by
  refine ⟨exists_expand_iff items, ?_, ?_⟩
  · rintro ⟨segments, rfl⟩
    obtain ⟨out, hout⟩ := exists_forall₂_standsFor segments
    exact ⟨⟨out, expand_of_forall₂ hout⟩, flanked_flatMap segments,
      not_operatorFirst_flatMap segments⟩
  · rintro ⟨hok, hbetween⟩
    obtain ⟨more, segments, rfl⟩ :=
      exists_segments ((exists_expand_iff items).1 hok).1 hbetween.toFlanked
    obtain rfl := eq_nil_of_not_operatorFirst hbetween.start
    exact ⟨segments, rfl⟩

/-- `: a b` is no level of segments, and expands: the operator takes the two operands behind it. -/
theorem expand_operator_in_front :
    expand [.binary .cons, .node (.identifier "a"), .node (.identifier "b")] =
        .ok [.node (BinaryOperator.cons.apply (.identifier "a") (.identifier "b"))] ∧
      ¬ ∃ segments : List Segment,
        [.binary .cons, .node (.identifier "a"), .node (.identifier "b")] =
          segments.flatMap Segment.items := by
  refine ⟨rfl, ?_⟩
  rintro ⟨segments, h⟩
  exact not_operatorFirst_flatMap segments (h ▸ ⟨_, _, rfl⟩)

end Item

end Fexpr
