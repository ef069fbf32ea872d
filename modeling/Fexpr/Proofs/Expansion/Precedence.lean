import Fexpr.Proofs.Expansion.Grammar

/-!
# Proofs/Expansion/Precedence — well-formed levels expand to what they spell

`expand_eq_ok_iff`: a level made of segments expands, to one item a segment, and that item is the
one that the grammar gives.

The second pass goes over a level from its end.  What it does to a phrase depends on what follows
only through the operator on top of the stack: as long as that operator keeps waiting, the phrase
adds to the output and leaves operators of its own tier on the stack, and together these two compute
its tree (`Scans`).
-/

namespace Fexpr

namespace Item

/-! ## The table of precedences and the tiers -/

namespace Tier

variable {tier tighter : Tier} {op o : BinaryOperator}

/-- An operator takes its operands after those of the tighter tiers. -/
theorem yieldsTo_tighter (ht : tier.tighter? = some tighter) (hop : op ∈ tier.adds)
    (ho : o ∈ tighter.operators) : op.yieldsTo o = true ∧ o.yieldsTo op = false := by
  cases tier <;> cases ht <;> cases op <;> cases o <;> revert hop ho <;> decide

/-- Of two operators of one tier, the further left waits where the tier groups to the right. -/
theorem yieldsTo_self (hop : op ∈ tier.adds) (ho : o ∈ tier.adds) :
    op.yieldsTo o = decide (tier.side = .right) := by
  cases tier <;> cases op <;> cases o <;> revert hop ho <;> decide

theorem operators_subset (ht : tier.tighter? = some tighter) :
    tighter.operators ⊆ tier.operators :=
  fun o ho => (mem_operators ht o).2 (.inl ho)

end Tier

/-! ## The first pass -/

section

variable (pending : List UnaryOperator) (n : Node) (op : BinaryOperator) (items : List Item)

theorem expandUnaryFrom_node : expandUnaryFrom pending (.node n :: items) =
    (.node (applyPending pending n) :: ·) <$> expandUnary items := rfl

theorem expandUnary_rest : expandUnary (.rest :: items) = (.rest :: ·) <$> expandUnary items := rfl

theorem expandUnary_binary :
    expandUnary (.binary op :: items) = (.binary op :: ·) <$> expandUnary items := rfl

end

/-- **The first pass rewrites `items` to `bare`**, whatever follows. -/
def Strips (items bare : List Item) : Prop :=
  ∀ rest, expandUnary (items ++ rest) = (bare ++ ·) <$> expandUnary rest

namespace Strips

variable {xs ys bx bys : List Item}

theorem nil : Strips [] [] := fun rest => by simp

theorem append (hx : Strips xs bx) (hy : Strips ys bys) : Strips (xs ++ ys) (bx ++ bys) := by
  intro rest
  rw [List.append_assoc, hx, hy, ← comp_map]
  exact congrArg (· <$> _) (funext fun out => (List.append_assoc _ _ _).symm)

theorem binary (op : BinaryOperator) : Strips [.binary op] [.binary op] := expandUnary_binary op

theorem rest : Strips [.rest] [.rest] := expandUnary_rest

/-- Prefixed operators join those that wait already, and all of them apply to the node. -/
theorem expandUnaryFrom_operand (pending operators : List UnaryOperator) (n : Node)
    (rest : List Item) :
    expandUnaryFrom pending (operators.map .unary ++ .node n :: rest) =
      (.node (applyPending (operators.reverse ++ pending) n) :: ·) <$> expandUnary rest := by
  induction operators generalizing pending with
  | nil => exact expandUnaryFrom_node pending n rest
  | cons op operators ih => simpa [expandUnaryFrom] using ih (op :: pending)

theorem operand (x : Operand) : Strips x.items [.node x.tree] := by
  intro rest
  have htree : applyPending x.operators.reverse x.node = x.tree := by
    rw [applyPending, List.foldl_reverse, Operand.tree]
    congr 1
    funext op n
    cases op <;> rfl
  simpa [expandUnary, Operand.items, htree] using expandUnaryFrom_operand [] x.operators x.node rest

/-- What is stripped up to the end is the outcome of the first pass. -/
theorem expandUnary_eq (h : Strips xs bx) : expandUnary xs = .ok bx := by
  simpa [expandUnary, expandUnaryFrom] using h []

end Strips

/-! ## The second pass -/

namespace Yard

variable {y : Yard} {op : BinaryOperator} {queue : List Item} {stack inner : List BinaryOperator}

/-- The yard as the next operand finds it: emptied, unless an operator waits for the operand. -/
def ready (y : Yard) : Yard :=
  if y.afterOperator then y else y.flush

/-- Scans items from their end. -/
def scan (y : Yard) (items : List Item) : Yard :=
  items.foldr (fun item y => y.push item) y

theorem scan_append (y : Yard) (xs ys : List Item) : y.scan (xs ++ ys) = (y.scan ys).scan xs :=
  List.foldr_append

theorem scan_node (y : Yard) (n : Node) :
    y.scan [.node n] = ⟨.node n :: y.ready.queue, y.ready.stack, false⟩ := rfl

theorem scan_rest (y : Yard) :
    y.scan [.rest] = ⟨.rest :: y.ready.queue, y.ready.stack, false⟩ := rfl

theorem ready_of_afterOperator (h : y.afterOperator = true) : y.ready = y := if_pos h

theorem ready_of_not_afterOperator (h : y.afterOperator = false) : y.ready = y.flush :=
  if_neg (by simp [h])

theorem foldl_binary (stack : List BinaryOperator) (queue : List Item) :
    stack.foldl (fun q op => .binary op :: q) queue =
      (stack.map Item.binary).reverse ++ queue := by
  induction stack generalizing queue with
  | nil => rfl
  | cons op stack ih => simp [ih]

theorem flush_queue (y : Yard) :
    y.flush.queue = (y.stack.map Item.binary).reverse ++ y.queue :=
  foldl_binary ..

/-- An operator moves exactly those on top that it waits for. -/
theorem drain_append (hinner : ∀ o ∈ inner, op.yieldsTo o = true)
    (hstack : ∀ top ∈ stack.head?, op.yieldsTo top = false) :
    drain op queue (inner ++ stack) = ((inner.map Item.binary).reverse ++ queue, stack) := by
  induction inner generalizing queue with
  | nil =>
    cases stack with
    | nil => rfl
    | cons top stack => simp [drain, hstack top rfl]
  | cons o inner ih =>
    have ho : op.yieldsTo o = true := hinner o (by simp)
    have hrest : ∀ o ∈ inner, op.yieldsTo o = true := fun o ho => hinner o (by simp [ho])
    simp [drain, ho, ih hrest]

end Yard

/-- **Scanning the phrase computes `n`**, as long as no operator of the tier moves the one on top of
the stack: it emits items and leaves operators of the tier, which run to the node `n`. -/
def Scans (tier : Tier) (items : List Item) (n : Node) : Prop :=
  ∀ y : Yard, (∀ op ∈ tier.operators, ∀ top ∈ y.ready.stack.head?, op.yieldsTo top = false) →
    ∃ emitted inner, inner ⊆ tier.operators ∧
      y.scan items = ⟨emitted ++ y.ready.queue, inner ++ y.ready.stack, false⟩ ∧
      ∀ results queue, runPolish results (emitted.reverse ++ (inner.map .binary ++ queue)) =
        runPolish (.node n :: results) queue

namespace Scans

variable {tier tighter leftTier rightTier : Tier} {xs ys : List Item} {l r n : Node}
  {op : BinaryOperator}

theorem node (n : Node) : Scans .operand [.node n] n :=
  fun y _ => ⟨[.node n], [], by simp, y.scan_node n, fun _ _ => rfl⟩

theorem loosen (ht : tier.tighter? = some tighter) (h : Scans tighter xs n) : Scans tier xs n := by
  intro y hy
  have hsub := Tier.operators_subset ht
  obtain ⟨emitted, inner, hinner, hscan, hrun⟩ := h y fun o ho => hy o (hsub ho)
  exact ⟨emitted, inner, fun o ho => hsub (hinner ho), hscan, hrun⟩

/-- **An operator joins two phrases** if it takes its operands after those of the right one and
before, or together with, those of the left one. -/
theorem join (hop : op ∈ tier.operators) (hl : leftTier.operators ⊆ tier.operators)
    (hleft : ∀ o ∈ leftTier.operators, o.yieldsTo op = false)
    (hr : rightTier.operators ⊆ tier.operators)
    (hright : ∀ o ∈ rightTier.operators, op.yieldsTo o = true)
    (hx : Scans leftTier xs l) (hy : Scans rightTier ys r) :
    Scans tier (xs ++ .binary op :: ys) (op.apply l r) := by
  intro y hfree
  obtain ⟨er, ir, hir, hscanr, hrunr⟩ := hy y fun o ho => hfree o (hr ho)
  -- the operator moves what the right phrase left, and waits on top for the left phrase
  have hpush : (y.scan ys).push (.binary op) =
      ⟨(ir.map Item.binary).reverse ++ (er ++ y.ready.queue), op :: y.ready.stack, true⟩ := by
    rw [hscanr]
    simp only [Yard.push]
    rw [Yard.drain_append (fun o ho => hright o (hir ho)) (hfree op hop)]
  obtain ⟨el, il, hil, hscanl, hrunl⟩ := hx ((y.scan ys).push (.binary op)) fun o ho top htop => by
    rw [hpush, Yard.ready_of_afterOperator rfl] at htop
    obtain rfl : top = op := by simpa [eq_comm] using htop
    exact hleft o ho
  refine ⟨el ++ ((ir.map Item.binary).reverse ++ er), il ++ [op], ?_, ?_, fun results queue => ?_⟩
  · intro o ho
    rcases List.mem_append.1 ho with ho | ho
    · exact hl (hil ho)
    · rwa [List.mem_singleton.1 ho]
  · rw [show xs ++ .binary op :: ys = xs ++ ([.binary op] ++ ys) from rfl, Yard.scan_append,
      Yard.scan_append]
    change ((y.scan ys).push (.binary op)).scan xs = _
    rw [hscanl, hpush, Yard.ready_of_afterOperator rfl]
    simp
  · calc runPolish results ((el ++ ((ir.map Item.binary).reverse ++ er)).reverse ++
            ((il ++ [op]).map .binary ++ queue))
        = runPolish results (er.reverse ++ (ir.map Item.binary ++
            (el.reverse ++ (il.map .binary ++ (.binary op :: queue))))) := by simp
      _ = runPolish (.node l :: .node r :: results) (.binary op :: queue) := by
        rw [hrunr, hrunl]
      _ = runPolish (.node (op.apply l r) :: results) queue := by rw [runPolish]

end Scans

/-! ## Phrases -/

/-- **Both passes over a phrase**: the first leaves a bare one, which the second turns into the
tree. -/
theorem Phrase.scans {tier : Tier} {items : List Item} {n : Node} (h : Phrase tier items n) :
    ∃ bare, Strips items bare ∧ Scans tier bare n := by
  induction h with
  | operand x => exact ⟨_, .operand x, .node _⟩
  | loosen ht _ ih =>
    obtain ⟨bare, hstrip, hscan⟩ := ih
    exact ⟨bare, hstrip, hscan.loosen ht⟩
  | @left tier tighter op xs ys l r ht hside hop _ _ ihl ihr =>
    obtain ⟨bl, hsl, hl⟩ := ihl
    obtain ⟨br, hsr, hr⟩ := ihr
    have hsub := Tier.operators_subset ht
    refine ⟨bl ++ .binary op :: br, hsl.append ((Strips.binary op).append hsr), ?_⟩
    refine .join ((Tier.mem_operators ht op).2 (.inr hop)) (fun _ ho => ho) (fun o ho => ?_) hsub
      (fun o ho => (Tier.yieldsTo_tighter ht hop ho).1) hl hr
    rcases (Tier.mem_operators ht o).1 ho with ho | ho
    · exact (Tier.yieldsTo_tighter ht hop ho).2
    · simp [Tier.yieldsTo_self ho hop, hside]
  | @right tier tighter op xs ys l r ht hside hop _ _ ihl ihr =>
    obtain ⟨bl, hsl, hl⟩ := ihl
    obtain ⟨br, hsr, hr⟩ := ihr
    have hsub := Tier.operators_subset ht
    refine ⟨bl ++ .binary op :: br, hsl.append ((Strips.binary op).append hsr), ?_⟩
    refine .join ((Tier.mem_operators ht op).2 (.inr hop)) hsub
      (fun o ho => (Tier.yieldsTo_tighter ht hop ho).2) (fun _ ho => ho) (fun o ho => ?_) hl hr
    rcases (Tier.mem_operators ht o).1 ho with ho | ho
    · exact (Tier.yieldsTo_tighter ht hop ho).1
    · simp [Tier.yieldsTo_self hop ho, hside]

/-! ## Levels -/

/-- One more segment in front of a level that is scanned already adds its item to the results. -/
theorem Segment.StandsFor.scans {segment : Segment} {item : Item} (h : segment.StandsFor item) :
    ∃ bare, Strips segment.items bare ∧ ∀ y : Yard, y.afterOperator = false →
      (y.scan bare).afterOperator = false ∧ ∃ emitted,
        (y.scan bare).flush.queue.reverse = y.flush.queue.reverse ++ emitted ∧
        ∀ results queue, runPolish results (emitted ++ queue) =
          runPolish (item :: results) queue := by
  cases h with
  | rest =>
    refine ⟨_, .rest, fun y hy => ⟨rfl, [.rest], ?_, fun _ _ => rfl⟩⟩
    rw [Yard.scan_rest, Yard.ready_of_not_afterOperator hy]
    simp [Yard.flush]
  | chain hphrase =>
    obtain ⟨bare, hstrip, hscan⟩ := hphrase.scans
    refine ⟨bare, hstrip, fun y hy => ?_⟩
    have hready := Yard.ready_of_not_afterOperator hy
    obtain ⟨emitted, inner, -, heq, hrun⟩ := hscan y (by simp [hready, Yard.flush])
    refine ⟨by rw [heq], emitted.reverse ++ inner.map .binary, ?_, fun results queue => ?_⟩
    · rw [heq, hready, Yard.flush_queue]
      simp [Yard.flush]
    · rw [List.append_assoc, hrun]

/-- The two passes over a level of segments. -/
theorem scans_of_forall₂ {segments : List Segment} {out : List Item}
    (h : List.Forall₂ Segment.StandsFor segments out) :
    ∃ bare, Strips (segments.flatMap Segment.items) bare ∧
      (Yard.empty.scan bare).afterOperator = false ∧
      ∀ queue, runPolish [] ((Yard.empty.scan bare).flush.queue.reverse ++ queue) =
        runPolish out queue := by
  induction h with
  | nil => exact ⟨[], .nil, rfl, fun _ => rfl⟩
  | cons hseg _ ih =>
    obtain ⟨bs, hstrips, hafter, hrun⟩ := ih
    obtain ⟨b, hstrip, hb⟩ := hseg.scans
    obtain ⟨hafter', emitted, hqueue, hemitted⟩ := hb _ hafter
    refine ⟨b ++ bs, hstrip.append hstrips, ?_, fun queue => ?_⟩
    · rw [Yard.scan_append, hafter']
    · rw [Yard.scan_append, hqueue, List.append_assoc, hrun, hemitted]

/-- A level of segments expands to what they stand for. -/
theorem expand_of_forall₂ {segments : List Segment} {out : List Item}
    (h : List.Forall₂ Segment.StandsFor segments out) :
    expand (segments.flatMap Segment.items) = .ok out := by
  obtain ⟨bare, hstrip, -, hrun⟩ := scans_of_forall₂ h
  calc expand (segments.flatMap Segment.items)
      = runPolish [] (Yard.empty.scan bare).flush.queue.reverse := by
        rw [expand, hstrip.expandUnary_eq]; rfl
    _ = .ok out := by simpa [runPolish] using hrun []

/-- An item that is no operator. -/
def IsBare : Item → Prop
  | .node _ | .rest => True
  | .unary _ | .binary _ => False

/-- **A level without operators stays as it is.** -/
theorem expand_of_bare {items : List Item} (h : ∀ item ∈ items, item.IsBare) :
    expand items = .ok items := by
  obtain ⟨segments, hitems, hstands⟩ : ∃ segments : List Segment,
      segments.flatMap Segment.items = items ∧ List.Forall₂ Segment.StandsFor segments items := by
    induction items with
    | nil => exact ⟨[], rfl, .nil⟩
    | cons item items ih =>
      obtain ⟨hitem, hitems⟩ := List.forall_mem_cons.mp h
      obtain ⟨segments, hsegments, hstands⟩ := ih hitems
      cases item with
      | rest => exact ⟨.rest :: segments, congrArg (Item.rest :: ·) hsegments, .cons .rest hstands⟩
      | node n =>
        exact ⟨.chain ⟨[], n⟩ [] :: segments, congrArg (Item.node n :: ·) hsegments,
          .cons (.operand ⟨[], n⟩) hstands⟩
      | unary op | binary op => exact hitem.elim
  rw [← hitems]
  exact hitems ▸ expand_of_forall₂ hstands

/-- Every list of segments stands for something. -/
theorem exists_forall₂_standsFor :
    ∀ segments : List Segment, ∃ out, List.Forall₂ Segment.StandsFor segments out
  | [] => ⟨[], .nil⟩
  | segment :: segments =>
    let ⟨item, hitem⟩ := segment.exists_standsFor
    let ⟨out, hout⟩ := exists_forall₂_standsFor segments
    ⟨item :: out, .cons hitem hout⟩

/-- **Every level of segments expands, to one item a segment, in order**: the rest marker, or the
tree that the grammar gives to the chain. -/
theorem expand_eq_ok_iff (segments : List Segment) :
    (∃ out, expand (segments.flatMap Segment.items) = .ok out) ∧
      ∀ out, expand (segments.flatMap Segment.items) = .ok out ↔
        List.Forall₂ Segment.StandsFor segments out := by
  obtain ⟨out, hout⟩ := exists_forall₂_standsFor segments
  have hexpand := expand_of_forall₂ hout
  refine ⟨⟨out, hexpand⟩, fun out' => ⟨fun h => ?_, expand_of_forall₂⟩⟩
  obtain rfl : out = out' := Except.ok.inj (hexpand.symm.trans h)
  exact hout

end Item

end Fexpr
