import Fexpr.Node.Text
import Fexpr.Proofs.Expansion.Supply
import Fexpr.Proofs.Reader.Closure
import Fexpr.Proofs.Reader.Tokens

/-!
# Proofs/Reader/Lines — reading line by line

Two texts that read, on lines of their own, read together as what they read as apart
(`read_append_line`), unless the second begins with an infix operator: such a text reads by itself
if it goes on with nodes enough, but behind another text its operator takes the node in front
instead (`operator_line_reads_otherwise`).

The seam lies at the end of a level for the first text and at the start for the second.  A line
break ends every token, both passes work from one side to the other, and a yard that ends in an
operand is emptied by the next one.
-/

namespace Fexpr

namespace Item

variable {xs ys bare out out' : List Item}

/-! ## The first pass -/

/-- The first pass goes on behind a level as if it began there. -/
theorem expandUnaryFrom_append {pending : List UnaryOperator}
    (h : expandUnaryFrom pending xs = .ok bare) (ys : List Item) :
    expandUnaryFrom pending (xs ++ ys) = (bare ++ ·) <$> expandUnary ys := by
  induction xs generalizing pending bare with
  | nil =>
    cases pending with
    | nil =>
      cases h
      simp [expandUnary]
    | cons op pending => cases h
  | cons item xs ih =>
    -- an item that stays is followed by what the pass makes of the others
    have hstays : ∀ item, (fun out => item :: out) <$> expandUnary xs = .ok bare →
        (fun out => item :: out) <$> expandUnary (xs ++ ys) = (bare ++ ·) <$> expandUnary ys := by
      intro item h
      obtain ⟨rest, hrest, rfl⟩ := map_eq_ok.mp h
      rw [expandUnary, ih hrest, ← comp_map]
      rfl
    cases item with
    | unary op =>
      have hrest : expandUnaryFrom (op :: pending) xs = .ok bare := h
      exact ih hrest
    | node n => exact hstays _ h
    | rest | binary op =>
      cases pending with
      | nil => exact hstays _ h
      | cons op pending => cases h

/-! ## The second pass -/

/-- **A queue runs alike on a deeper stack**, whose rest it does not touch. -/
theorem runPolish_frame {results queue : List Item} (h : runPolish results queue = .ok out)
    (base : List Item) : runPolish (results ++ base) queue = .ok (out ++ base) := by
  induction queue generalizing results with
  | nil =>
    cases h
    rfl
  | cons item queue ih =>
    by_cases hitem : ∀ op, item ≠ .binary op
    · rw [runPolish_operand hitem] at h ⊢
      exact ih h
    · obtain ⟨op, rfl⟩ : ∃ op, item = .binary op := by simpa using hitem
      rw [runPolish.eq_def] at h
      dsimp only at h
      split at h
      · next left right results => exact ih h
      · cases h
      · cases h
      · cases h

namespace Yard

/-- The yard over an output that is there already. -/
def onto (y : Yard) (queue : List Item) : Yard :=
  { y with queue := y.queue ++ queue }

theorem drain_onto (op : BinaryOperator) (queue base : List Item) (stack : List BinaryOperator) :
    drain op (queue ++ base) stack = ((drain op queue stack).1 ++ base, (drain op queue stack).2) := by
  induction stack generalizing queue with
  | nil => rfl
  | cons stacked stack ih =>
    rw [drain, drain]
    split
    · exact ih (.binary stacked :: queue)
    · rfl

theorem flush_onto (y : Yard) (base : List Item) : (y.onto base).flush = y.flush.onto base := by
  simp [onto, flush]

theorem ready_onto (y : Yard) (base : List Item) : (y.onto base).ready = y.ready.onto base := by
  rw [ready, ready, apply_ite (onto · base), ← flush_onto]
  rfl

/-- No item looks at the output. -/
theorem push_onto (y : Yard) (base : List Item) (item : Item) :
    (y.onto base).push item = (y.push item).onto base := by
  by_cases hitem : ∀ op, item ≠ .binary op
  · rw [push_operand _ hitem, push_operand _ hitem, ready_onto]
    rfl
  · obtain ⟨op, rfl⟩ : ∃ op, item = .binary op := by simpa using hitem
    simp only [push, onto, drain_onto]

theorem scan_onto (y : Yard) (base items : List Item) :
    (y.onto base).scan items = (y.scan items).onto base := by
  induction items with
  | nil => rfl
  | cons item items ih =>
    change ((y.onto base).scan items).push item = ((y.scan items).push item).onto base
    rw [ih, push_onto]

end Yard

/-- What ends in an operator does not expand. -/
theorem not_expandBinary_of_last (items : List Item) (op : BinaryOperator) :
    expandBinary (items ++ [.binary op]) ≠ .ok out := by
  have hdoomed : (Yard.empty.scan (items ++ [.binary op])).Doomed := by
    rw [Yard.scan_append]
    induction items with
    | nil =>
      refine Yard.doomed_push_binary (fun h hh => ?_) op
      obtain rfl : 0 = h := Option.some.inj hh
      exact Nat.zero_le _
    | cons item items ih => exact ih.push item
  intro h
  obtain ⟨height, hheight⟩ := (runPolish_ok_iff _).mp ⟨out, h⟩
  exact absurd (hdoomed.flush.symm.trans hheight) nofun

/-- **Operands begin afresh**: in front of a yard that no operator was scanned into last, an operand
and what stands before it are scanned as if nothing followed. -/
theorem toPolish_append {item : Item} (hitem : ∀ op, item ≠ .binary op) (zs : List Item)
    (hys : (Yard.empty.scan ys).afterOperator = false) :
    toPolish (zs ++ [item] ++ ys) = toPolish ys ++ toPolish (zs ++ [item]) := by
  have hpush : (Yard.empty.scan ys).push item =
      (Yard.empty.push item).onto (Yard.empty.scan ys).flush.queue := by
    rw [Yard.push_operand _ hitem, Yard.push_operand _ hitem,
      Yard.ready_of_not_afterOperator hys]
    rfl
  change (Yard.empty.scan (zs ++ [item] ++ ys)).flush.queue.reverse =
    (Yard.empty.scan ys).flush.queue.reverse ++ (Yard.empty.scan (zs ++ [item])).flush.queue.reverse
  rw [Yard.scan_append, Yard.scan_append, Yard.scan_append, ← List.reverse_append]
  change (((Yard.empty.scan ys).push item).scan zs).flush.queue.reverse = _
  rw [hpush, Yard.scan_onto, Yard.flush_onto]
  rfl

/-- **The second pass goes on behind a level as if it began there**, unless it begins with an
operator. -/
theorem expandBinary_append (hunary : ∀ op, .unary op ∉ ys) (hstart : xs = [] ∨ ¬OperatorFirst ys)
    (hx : expandBinary xs = .ok out) (hy : expandBinary ys = .ok out') :
    expandBinary (xs ++ ys) = .ok (out ++ out') := by
  rcases List.eq_nil_or_concat' xs with rfl | ⟨zs, item, rfl⟩
  · cases hx
    exact hy
  have hitem : ∀ op, item ≠ .binary op := by
    rintro op rfl
    exact not_expandBinary_of_last zs op hx
  have hys : (Yard.empty.scan ys).afterOperator = false := by
    rw [Bool.eq_false_iff, ne_eq, (scan_fits_or_doomed hunary).1]
    exact hstart.resolve_left (by simp)
  rw [expandBinary, toPolish_append hitem zs hys, runPolish_append]
  change (expandBinary ys >>= _) = _
  rw [hy]
  exact runPolish_frame hx out'

/-- **Levels expand side by side**, unless the second begins with an operator. -/
theorem expand_append (hstart : xs = [] ∨ ¬OperatorFirst ys) (hx : expand xs = .ok out)
    (hy : expand ys = .ok out') : expand (xs ++ ys) = .ok (out ++ out') := by
  obtain ⟨bx, hbx, hx⟩ := exists_of_bind_ok hx
  obtain ⟨bys, hbys, hy⟩ := exists_of_bind_ok hy
  obtain ⟨hsame, hunary⟩ := sameSupply_of_expandUnaryFrom hbys
  have hstart : bx = [] ∨ ¬OperatorFirst bys := by
    rcases hstart with rfl | hstart
    · cases hbx
      exact .inl rfl
    · exact .inr (hsame.operatorFirst.not.mp hstart)
  have hfirst : expandUnary (xs ++ ys) = .ok (bx ++ bys) := by
    rw [expandUnary, expandUnaryFrom_append hbx, hbys]
    rfl
  rw [expand, hfirst]
  exact expandBinary_append hunary hstart hx hy

/-- A level that begins with an operator has that from its first token. -/
theorem Parses.operatorFirst {d : Nat} {tokens : List String} {items : List Item}
    (h : Parses d tokens items) (hfirst : OperatorFirst items) :
    ∃ token ∈ tokens.head?, BinaryOperator.ofToken? token ≠ none := by
  obtain ⟨op, after, rfl⟩ := hfirst
  cases h with
  | loose _ hitem _ => exact ⟨_, rfl, by simp [ofToken?_of_binary hitem]⟩

end Item

/-! ## Texts -/

/-- What the nodes print as tells that a text reads. -/
theorem exists_of_texts {code : String} {texts : List String}
    (h : (read code).toOption.map (·.map Node.text) = some texts) :
    ∃ nodes, read code = .ok nodes ∧ nodes.map Node.text = texts := by
  obtain ⟨nodes, hnodes, htexts⟩ := Option.map_eq_some_iff.mp h
  refine ⟨nodes, ?_, htexts⟩
  cases hread : read code with
  | error e =>
    rw [hread] at hnodes
    cases hnodes
  | ok ns =>
    rw [hread] at hnodes
    exact congrArg Except.ok (Option.some.inj hnodes)

/-- **Texts read line by line.**  A text that reads and, on a line of its own behind it, another text
that reads are read together as what they are apart, if the other does not begin with an infix
operator or there is nothing in front of it. -/
theorem read_append_line {a b : String} {ns ms : List Node} (ha : read a = .ok ns)
    (hb : read b = .ok ms)
    (hseam : Token.lex a = [] ∨
      ∀ token ∈ (Token.lex b).head?, BinaryOperator.ofToken? token = none) :
    read (a ++ "\n" ++ b) = .ok (ns ++ ms) := by
  obtain ⟨xs, hxs, ha⟩ := exists_of_bind_ok ha
  obtain ⟨out, hout, ha⟩ := exists_of_bind_ok ha
  obtain ⟨ys, hys, hb⟩ := exists_of_bind_ok hb
  obtain ⟨out', hout', hb⟩ := exists_of_bind_ok hb
  have hparse : Item.parse (Token.lex (a ++ "\n" ++ b)) = .ok (xs ++ ys) := by
    rw [Token.lex_append_line, Item.parse_eq_ok_iff]
    exact (Item.parse_eq_ok_iff.mp hxs).append (Item.parse_eq_ok_iff.mp hys)
  have hstart : xs = [] ∨ ¬Item.OperatorFirst ys := by
    rcases hseam with hnone | hseam
    · rw [hnone, Item.parse, Item.parseAt.eq_def] at hxs
      cases hxs
      exact .inl rfl
    · refine .inr fun hfirst => ?_
      obtain ⟨token, htoken, hsome⟩ := (Item.parse_eq_ok_iff.mp hys).operatorFirst hfirst
      exact hsome (hseam token htoken)
  have hnodes : (out ++ out').mapM Item.toNode = .ok (ns ++ ms) := by
    rw [List.mapM_append, ha, hb]
    rfl
  rw [read, hparse]
  change (Item.expand (xs ++ ys) >>= _) = _
  rw [Item.expand_append hstart hout hout']
  exact hnodes

/-- A comment ends with its line. -/
theorem pair_reads_behind_comment : ∃ ns ms, read "f ; (x" = .ok ns ∧ read "x: y" = .ok ms ∧
    read ("f ; (x" ++ "\n" ++ "x: y") = .ok (ns ++ ms) := by
  obtain ⟨ns, hns, -⟩ := exists_of_texts
    (show (read "f ; (x").toOption.map (·.map Node.text) = some ["f"] by decide +kernel)
  obtain ⟨ms, hms, -⟩ := exists_of_texts
    (show (read "x: y").toOption.map (·.map Node.text) = some ["(_cons x y)"] by decide +kernel)
  exact ⟨ns, ms, hns, hms, read_append_line hns hms (.inr (by decide +kernel))⟩

/-- **An operator at the start of a line** takes its operands from that line if the text ends before
it, and from both sides otherwise. -/
theorem operator_line_reads_otherwise : ∃ ns ms ks, read "x" = .ok ns ∧ read ": y z" = .ok ms ∧
    read ("x" ++ "\n" ++ ": y z") = .ok ks ∧ ks ≠ ns ++ ms := by
  obtain ⟨ns, hns, hx⟩ := exists_of_texts
    (show (read "x").toOption.map (·.map Node.text) = some ["x"] by decide +kernel)
  obtain ⟨ms, hms, hyz⟩ := exists_of_texts
    (show (read ": y z").toOption.map (·.map Node.text) = some ["(_cons y z)"] by decide +kernel)
  obtain ⟨ks, hks, hxyz⟩ := exists_of_texts
    (show (read ("x" ++ "\n" ++ ": y z")).toOption.map (·.map Node.text) =
      some ["(_cons x y)", "z"] by decide +kernel)
  refine ⟨ns, ms, ks, hns, hms, hks, ?_⟩
  rintro rfl
  rw [List.map_append, hx, hyz] at hxyz
  exact absurd hxyz (by decide)

end Fexpr
