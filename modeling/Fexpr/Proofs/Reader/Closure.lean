import Fexpr.Proofs.Census
import Fexpr.Proofs.Reader.Nesting

/-!
# Proofs/Reader/Closure — what holds of everything that is read

A predicate on nodes that holds of what the reader makes by itself and passes to applications
(`Node.Closed`) holds of every node that a text reads as, if it holds of the atoms there
(`forall_of_read`).  The proof follows the reader: two passes over the operators of a level, the
folding of a level into one node, and the rules by which brackets parse.

The only values that the reader puts into a node are the primitives at the heads of brackets and
operators, so whatever it returns is within every census (`within_of_read`).
-/

namespace Fexpr

open Token (Loose)

/-- **A predicate that the reader does not lead out of**: it holds of nothing, and of every call
that the reader builds from nodes that it holds of. -/
structure Node.Closed (P : Node → Prop) : Prop where
  nil : P .nil
  binary (op : BinaryOperator) {left right : Node} : P left → P right → P (op.apply left right)
  unary (op : UnaryOperator) {operand : Node} : P operand → P (op.apply operand)
  bracket {b : Bracket} {head cdr : Node} {args : List Node} : b.head? = some head →
    (∀ n ∈ args, P n) → P cdr → P (.form head (.spine args cdr))
  form {head cdr : Node} {args : List Node} : P head → (∀ n ∈ args, P n) → P cdr →
    P (.form head (.spine args cdr))

/-- A predicate that operators do not lead out of. -/
structure Node.OperatorClosed (P : Node → Prop) : Prop where
  binary (op : BinaryOperator) {left right : Node} : P left → P right → P (op.apply left right)
  unary (op : UnaryOperator) {operand : Node} : P operand → P (op.apply operand)

theorem Node.Closed.operators {P : Node → Prop} (hP : Node.Closed P) : Node.OperatorClosed P :=
  ⟨hP.binary, hP.unary⟩

namespace Item

/-! ## Atoms -/

/-- **The atoms**: numbers of the language, identifiers and symbols. -/
theorem atom_cases {token : String} {n : Node} (h : ofToken token = .ok (.node n)) :
    (∃ k, k ≤ maxInteger ∧ n = .numeral k) ∨ n = .identifier token ∨
      ∃ name, n = .symbol name ∧ token = "#" ++ name := by
  revert h
  fun_cases ofToken token with
  | case1 | case3 | case4 | case5 => exact fun h => nomatch h
  | case2 _ value hrange =>
    rintro ⟨⟩
    rw [Bool.or_eq_true, not_or, decide_eq_true_eq] at hrange
    exact Or.inl ⟨value, Nat.not_lt.mp hrange.2, rfl⟩
  | case6 _ _ _ _ hsymbol =>
    rintro ⟨⟩
    refine Or.inr (Or.inr ⟨_, rfl, ?_⟩)
    rw [isSymbol] at hsymbol
    split at hsymbol
    · next c cs htoken =>
      rw [← String.toList_inj]
      simp [htoken]
    · cases hsymbol
  | case7 =>
    rintro ⟨⟩
    exact Or.inr (Or.inl rfl)

theorem ofToken?_of_unary {token : String} {op : UnaryOperator}
    (h : ofToken token = .ok (.unary op)) : UnaryOperator.ofToken? token = some op := by
  revert h
  fun_cases ofToken token with
  | case5 _ _ _ op' hop =>
    rintro ⟨⟩
    exact hop
  | case1 | case2 | case3 | case4 | case6 | case7 => exact fun h => nomatch h

theorem ofToken?_of_binary {token : String} {op : BinaryOperator}
    (h : ofToken token = .ok (.binary op)) : BinaryOperator.ofToken? token = some op := by
  revert h
  fun_cases ofToken token with
  | case4 _ _ op' hop =>
    rintro ⟨⟩
    exact hop
  | case1 | case2 | case3 | case5 | case6 | case7 => exact fun h => nomatch h

/-- The node of an item, if it is one, has the property. -/
def Holds (P : Node → Prop) : Item → Prop
  | .node n => P n
  | _ => True

/-- All nodes of a level have the property. -/
def AllHold (P : Node → Prop) (items : List Item) : Prop :=
  ∀ item ∈ items, item.Holds P

variable {P : Node → Prop} {item : Item} {items : List Item}

theorem AllHold.cons (h : item.Holds P) (hs : AllHold P items) : AllHold P (item :: items) :=
  List.forall_mem_cons.mpr ⟨h, hs⟩

theorem AllHold.tail (h : AllHold P (item :: items)) : AllHold P items :=
  (List.forall_mem_cons.mp h).2

theorem AllHold.head (h : AllHold P (item :: items)) : item.Holds P :=
  (List.forall_mem_cons.mp h).1

theorem allHold_nil : AllHold P [] := fun _ hi => absurd hi List.not_mem_nil

/-! ## Reverse Polish order -/

theorem allHold_foldl_binary {stack : List BinaryOperator} {queue : List Item}
    (h : AllHold P queue) :
    AllHold P (stack.foldl (fun q op => .binary op :: q) queue) := by
  induction stack generalizing queue with
  | nil => exact h
  | cons op stack ih => exact ih (.cons trivial h)

theorem allHold_drain {op : BinaryOperator} {queue : List Item} {stack : List BinaryOperator}
    (h : AllHold P queue) : AllHold P (Yard.drain op queue stack).1 := by
  induction stack generalizing queue with
  | nil => exact h
  | cons stacked stack ih =>
    rw [Yard.drain]
    split
    · exact ih (.cons trivial h)
    · exact h

theorem allHold_push {y : Yard} (hy : AllHold P y.queue) (hi : item.Holds P) :
    AllHold P (y.push item).queue := by
  -- an operand goes to the output, behind the stack unless an operator came before it
  have hoperand : AllHold P (item :: (if y.afterOperator then y else y.flush).queue) := by
    refine .cons hi ?_
    split
    · exact hy
    · exact allHold_foldl_binary hy
  cases item with
  | binary op => exact allHold_drain hy
  | node _ | rest | unary _ => exact hoperand

theorem allHold_toPolish (h : AllHold P items) : AllHold P (toPolish items) := by
  have hscan : AllHold P (items.foldr (fun item y => y.push item) Yard.empty).queue := by
    induction items with
    | nil => exact allHold_nil
    | cons item items ih => exact allHold_push (ih h.tail) h.head
  exact fun item hi => allHold_foldl_binary hscan item (List.mem_reverse.mp hi)

/-! ## Spines -/

theorem holds_afterMarker {cdr : Node} (hi : AllHold P items) (h : afterMarker items = .ok cdr) :
    P cdr := by
  rw [afterMarker.eq_def] at h
  split at h
  · cases h
  · next n rest =>
    rw [afterCdr.eq_def] at h
    split at h
    · cases h
      exact hi.head
    all_goals cases h
  all_goals cases h

/-- The nodes of a spine are nodes of its level, but for the `nil` that ends it. -/
theorem holds_moreCars {spine : List Node × Node} (hnil : P .nil) (hi : AllHold P items)
    (h : moreCars items = .ok spine) : (∀ n ∈ spine.1, P n) ∧ P spine.2 := by
  induction items generalizing spine with
  | nil =>
    cases h
    exact ⟨fun _ hn => absurd hn List.not_mem_nil, hnil⟩
  | cons item items ih =>
    cases item with
    | node car =>
      obtain ⟨rest, hrest, h⟩ := exists_of_bind_ok h
      cases h
      obtain ⟨hcars, hcdr⟩ := ih hi.tail hrest
      exact ⟨List.forall_mem_cons.mpr ⟨hi.head, hcars⟩, hcdr⟩
    | rest =>
      obtain ⟨cdr, hcdr, h⟩ := exists_of_bind_ok h
      cases h
      exact ⟨fun _ hn => absurd hn List.not_mem_nil, holds_afterMarker hi.tail hcdr⟩
    | unary _ | binary _ => cases h

theorem holds_carsAndCdr {spine : List Node × Node} (hnil : P .nil) (hi : AllHold P items)
    (h : carsAndCdr items = .ok spine) : (∀ n ∈ spine.1, P n) ∧ P spine.2 := by
  rw [carsAndCdr.eq_def] at h
  split at h
  · cases h
  · exact holds_moreCars hnil hi h

end Item

/-- **A bracket is an application**, of its own head or of its first car, or nothing. -/
theorem Bracket.construct_cases {P : Node → Prop} {b : Bracket} {items : List Item} {node : Node}
    (hnil : P .nil) (hi : Item.AllHold P items) (h : b.construct items = .ok node) :
    node = .nil ∨ ∃ head args cdr, node = .form head (.spine args cdr) ∧
      (b.head? = some head ∨ P head) ∧ (∀ n ∈ args, P n) ∧ P cdr := by
  rw [Bracket.construct] at h
  split at h
  · cases h
    exact .inl rfl
  · split at h
    · obtain ⟨⟨cars, cdr⟩, hspine, h⟩ := exists_of_bind_ok h
      obtain ⟨hcars, hcdr⟩ := Item.holds_carsAndCdr hnil hi hspine
      cases cars with
      | nil =>
        cases h
        exact .inl rfl
      | cons head args =>
        cases h
        obtain ⟨hhead, hargs⟩ := List.forall_mem_cons.mp hcars
        exact .inr ⟨head, args, cdr, rfl, .inr hhead, hargs, hcdr⟩
    · next head hhead =>
      obtain ⟨spine, htoSpine, h⟩ := exists_of_bind_ok h
      cases h
      obtain ⟨⟨cars, cdr⟩, hspine, h⟩ := exists_of_bind_ok htoSpine
      cases h
      obtain ⟨hcars, hcdr⟩ := Item.holds_carsAndCdr hnil hi hspine
      exact .inr ⟨head, cars, cdr, rfl, .inl hhead, hcars, hcdr⟩

namespace Node.OperatorClosed

variable {P : Node → Prop} (hP : Node.OperatorClosed P) {items out : List Item}
include hP

theorem applyPending {pending : List UnaryOperator} {operand : Node} (h : P operand) :
    P (Item.applyPending pending operand) := by
  induction pending generalizing operand with
  | nil => exact h
  | cons op pending ih => exact ih (hP.unary op h)

theorem expandUnaryFrom {pending : List UnaryOperator} (hi : Item.AllHold P items)
    (h : Item.expandUnaryFrom pending items = .ok out) : Item.AllHold P out := by
  induction items generalizing pending out with
  | nil =>
    cases pending with
    | nil =>
      cases h
      exact Item.allHold_nil
    | cons op pending => cases h
  | cons item items ih =>
    cases item with
    | unary op => exact ih hi.tail h
    | node n =>
      obtain ⟨rest, hrest, h⟩ := exists_of_bind_ok h
      cases h
      exact .cons (hP.applyPending hi.head) (ih hi.tail hrest)
    | rest | binary op =>
      cases pending with
      | nil =>
        obtain ⟨rest, hrest, h⟩ := exists_of_bind_ok h
        cases h
        exact .cons trivial (ih hi.tail hrest)
      | cons op pending => cases h

theorem runPolish {results queue : List Item} (hr : Item.AllHold P results)
    (hq : Item.AllHold P queue) (h : Item.runPolish results queue = .ok out) :
    Item.AllHold P out := by
  induction queue generalizing results with
  | nil =>
    cases h
    exact hr
  | cons item queue ih =>
    cases item with
    | binary op =>
      rw [Item.runPolish.eq_def] at h
      dsimp only at h
      split at h
      · next left right results =>
        have hcall : (Item.node (op.apply left right)).Holds P := hP.binary op hr.head hr.tail.head
        exact ih (.cons hcall hr.tail.tail) hq.tail h
      · cases h
      · cases h
      · cases h
    | node _ | rest | unary _ => exact ih (.cons hq.head hr) hq.tail h

theorem expand (hi : Item.AllHold P items) (h : Item.expand items = .ok out) :
    Item.AllHold P out := by
  obtain ⟨unary, hunary, h⟩ := exists_of_bind_ok h
  exact hP.runPolish Item.allHold_nil (Item.allHold_toPolish (hP.expandUnaryFrom hi hunary)) h

end Node.OperatorClosed

namespace Node.Closed

variable {P : Node → Prop} (hP : Node.Closed P) {items : List Item}
include hP

theorem construct {b : Bracket} {node : Node} (hi : Item.AllHold P items)
    (h : b.construct items = .ok node) : P node := by
  rcases Bracket.construct_cases hP.nil hi h with
    rfl | ⟨head, args, cdr, rfl, hhead | hhead, hargs, hcdr⟩
  · exact hP.nil
  · exact hP.bracket hhead hargs hcdr
  · exact hP.form hhead hargs hcdr

theorem parses {d : Nat} {tokens : List String}
    (hatom : ∀ token ∈ tokens, Loose token → ∀ n, Item.ofToken token = .ok (.node n) → P n)
    (h : Item.Parses d tokens items) : Item.AllHold P items := by
  induction h with
  | nil => exact Item.allHold_nil
  | @loose d token tokens item items hloose hitem _ ih =>
    obtain ⟨hhead, htail⟩ := List.forall_mem_cons.mp hatom
    refine .cons ?_ (ih htail)
    cases item with
    | node n => exact hhead hloose n hitem
    | rest | unary _ | binary _ => exact trivial
  | @bracket d inner after _ _ _ _ b _ hexpand hnode _ ih ih' =>
    have hinner := ih fun token ht => hatom token (by simp [ht])
    have hafter := ih' fun token ht => hatom token (by simp [ht])
    exact .cons (hP.construct (hP.operators.expand hinner hexpand) hnode) hafter

end Node.Closed

/-- The nodes that are left at the end are those of the outermost level. -/
theorem Item.holds_of_mapM {P : Node → Prop} {items : List Item} {nodes : List Node}
    (hi : Item.AllHold P items) (h : items.mapM Item.toNode = .ok nodes) : ∀ n ∈ nodes, P n := by
  intro n hn
  obtain ⟨item, hitem, hnode⟩ := exists_of_mem_mapM h n hn
  have hholds := hi item hitem
  cases item with
  | node n =>
    cases hnode
    exact hholds
  | rest | unary _ | binary _ => cases hnode

/-- **What is read has every property that the reader does not lead out of** and that the atoms of
the text have. -/
theorem forall_of_read {P : Node → Prop} (hP : Node.Closed P) {code : String} {nodes : List Node}
    (hatom : ∀ token ∈ Token.lex code, Loose token →
      ∀ n, Item.ofToken token = .ok (.node n) → P n)
    (h : read code = .ok nodes) : ∀ n ∈ nodes, P n := by
  obtain ⟨parsed, hparsed, h⟩ := exists_of_bind_ok h
  obtain ⟨items, hitems, h⟩ := exists_of_bind_ok h
  have hall := hP.parses hatom (Item.parse_eq_ok_iff.mp hparsed)
  exact Item.holds_of_mapM (hP.operators.expand hall hitems) h

/-! ## Censuses -/

theorem Node.closed_within (N : Census) : Node.Closed (Node.Within N) where
  nil := trivial
  binary _ _ _ hl hr := ⟨trivial, hl, hr, trivial⟩
  unary op operand h := by
    cases op with
    | id => exact ⟨trivial, h, trivial⟩
    | ofThis => exact ⟨trivial, trivial, h, trivial⟩
  bracket {b _ _ _} h hargs hcdr := by
    cases b with
    | form => cases h
    | list | array | shorthand | object | dictionary =>
      cases h
      exact ⟨trivial, Node.within_spine hargs hcdr⟩
  form hhead hargs hcdr := ⟨hhead, Node.within_spine hargs hcdr⟩

/-- **What is read is within every census.** -/
theorem within_of_read {N : Census} {code : String} {forms : List Node}
    (h : read code = .ok forms) : ∀ form ∈ forms, form.Within N :=
  forall_of_read (Node.closed_within N) (fun _ _ _ _ hn => by
    rcases Item.atom_cases hn with ⟨k, -, rfl⟩ | rfl | ⟨name, rfl, -⟩ <;> exact trivial) h

end Fexpr
