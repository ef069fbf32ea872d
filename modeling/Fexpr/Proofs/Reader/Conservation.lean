import Fexpr.Proofs.Expansion.Supply
import Fexpr.Proofs.Reader.Closure

/-!
# Proofs/Reader/Conservation — reading loses, doubles and reorders nothing

The identifiers, numbers and symbols of what a text reads as are those of its tokens, in order, and
the primitives that head its applications are those that its operators and brackets stand for
(`conserved_of_read`).

An operator moves its head in front of its left operand, and a bracket puts one where it opens;
nothing else ever moves.  So every pass **rearranges** (`Rearranges`) the leaves of its level: all
of them stay, and the atoms among them stay in order.
-/

namespace Fexpr

open Token (Loose Nested)

namespace Node

/-- Whether a node is an identifier, a number or a symbol. -/
def isAtom : Node → Bool
  | .identifier _ | .numeral _ | .symbol _ => true
  | _ => false

/-- **The leaves of a tree**, cars before cdrs; the empty list counts for nothing. -/
def leaves : Node → List Node
  | .nil => []
  | .pair car cdr | .form car cdr => car.leaves ++ cdr.leaves
  | n => [n]

/-- **The identifiers, numbers and symbols of a tree**, cars before cdrs. -/
def atoms (n : Node) : List Node :=
  n.leaves.filter isAtom

/-- **The primitives that the applications of a tree call**, where their heads are such. -/
def heads : Node → List Node
  | .form (.value label (.builtin b)) cdr => .value label (.builtin b) :: cdr.heads
  | .form car cdr | .pair car cdr => car.heads ++ cdr.heads
  | _ => []

theorem leaves_spine (items : List Node) (tail : Node) :
    (spine items tail).leaves = items.flatMap leaves ++ tail.leaves := by
  induction items with
  | nil => rfl
  | cons n items ih =>
    change n.leaves ++ (spine items tail).leaves = _
    rw [ih, List.flatMap_cons, List.append_assoc]

/-! ## Values at the heads of applications -/

/-- **Values stand at the heads of applications only**, and are primitives. -/
def Headed : Node → Prop
  | .value .. => False
  | .pair car cdr => car.Headed ∧ cdr.Headed
  | .form car cdr => (car.Headed ∨ ∃ label b, car = .value label (.builtin b)) ∧ cdr.Headed
  | _ => True

theorem headed_spine {items : List Node} {tail : Node} (hitems : ∀ n ∈ items, n.Headed)
    (htail : tail.Headed) : (spine items tail).Headed := by
  induction items with
  | nil => exact htail
  | cons n items ih =>
    obtain ⟨hn, hitems⟩ := List.forall_mem_cons.mp hitems
    exact ⟨hn, ih hitems⟩

theorem closed_headed : Node.Closed Headed where
  nil := trivial
  binary op _ _ hl hr := ⟨.inr ⟨_, _, rfl⟩, hl, hr, trivial⟩
  unary op operand h := by
    cases op with
    | id => exact ⟨.inr ⟨_, _, rfl⟩, h, trivial⟩
    | ofThis => exact ⟨.inr ⟨_, _, rfl⟩, trivial, h, trivial⟩
  bracket {b _ _ _} h hargs hcdr := by
    cases b with
    | form => cases h
    | list | array | shorthand | object | dictionary =>
      cases h
      exact ⟨.inr ⟨_, _, rfl⟩, headed_spine hargs hcdr⟩
  form hhead hargs hcdr := ⟨.inl hhead, headed_spine hargs hcdr⟩

/-- There the leaves that are no atoms are the heads. -/
theorem heads_eq_filter {n : Node} (h : n.Headed) : n.heads = n.leaves.filter (!·.isAtom) := by
  induction n with
  | nil | identifier _ | numeral _ | symbol _ => rfl
  | value label v => exact h.elim
  | pair car cdr ihcar ihcdr =>
    rw [heads, leaves, ihcar h.1, ihcdr h.2, List.filter_append]
  | form car cdr ihcar ihcdr =>
    obtain ⟨hcar | ⟨label, b, rfl⟩, hcdr⟩ := h
    · have hheads : (Node.form car cdr).heads = car.heads ++ cdr.heads := by
        cases car <;> first | rfl | exact hcar.elim
      rw [hheads, leaves, ihcar hcar, ihcdr hcdr, List.filter_append]
    · rw [heads, leaves, ihcdr hcdr, List.filter_append]
      rfl

end Node

/-! ## Rearranging leaves -/

/-- **The same leaves, with the atoms among them in the same order.** -/
structure Rearranges (xs ys : List Node) : Prop where
  perm : xs.Perm ys
  atoms : xs.filter Node.isAtom = ys.filter Node.isAtom

namespace Rearranges

variable {xs ys zs xs' ys' vs : List Node}

theorem refl (xs : List Node) : Rearranges xs xs := ⟨.refl xs, rfl⟩

theorem symm (h : Rearranges xs ys) : Rearranges ys xs := ⟨h.perm.symm, h.atoms.symm⟩

theorem trans (h : Rearranges xs ys) (h' : Rearranges ys zs) : Rearranges xs zs :=
  ⟨h.perm.trans h'.perm, h.atoms.trans h'.atoms⟩

theorem append (h : Rearranges xs ys) (h' : Rearranges xs' ys') :
    Rearranges (xs ++ xs') (ys ++ ys') :=
  ⟨h.perm.append h'.perm, by rw [List.filter_append, List.filter_append, h.atoms, h'.atoms]⟩

/-- What holds no atoms may come in any order. -/
theorem of_perm (hvs : ∀ v ∈ vs, v.isAtom = false) (h : xs.Perm vs) : Rearranges xs vs := by
  have hnone : ∀ {ws : List Node}, ws.Perm vs → ws.filter Node.isAtom = [] := fun hws =>
    List.filter_eq_nil_iff.mpr fun v hv => by simp [hvs v (hws.mem_iff.mp hv)]
  exact ⟨h, (hnone h).trans (hnone (.refl _)).symm⟩

/-- What holds no atoms moves freely. -/
theorem move (hvs : ∀ v ∈ vs, v.isAtom = false) (xs ys : List Node) :
    Rearranges (xs ++ (vs ++ ys)) (vs ++ (xs ++ ys)) := by
  refine ⟨List.perm_append_comm_assoc .., ?_⟩
  have hnone : vs.filter Node.isAtom = [] :=
    List.filter_eq_nil_iff.mpr fun v hv => by simp [hvs v hv]
  simp only [List.filter_append, hnone, List.nil_append]

end Rearranges

namespace Item

/-- **The leaves of the tree that an item is**, or that an operator adds to a tree. -/
def leaves : Item → List Node
  | .node n => n.leaves
  | .rest => []
  | .unary op => op.head :: op.leading
  | .binary op => [op.head]

variable {items out results queue : List Item}

/-! ## Prefixed operators -/

theorem leaves_unary (op : UnaryOperator) (n : Node) :
    (op.apply n).leaves = (Item.unary op).leaves ++ n.leaves := by
  cases op <;> simp [UnaryOperator.apply, Node.call, Node.leaves, Node.leaves_spine, leaves,
    UnaryOperator.head, UnaryOperator.leading]

theorem leaves_applyPending (pending : List UnaryOperator) (n : Node) :
    (applyPending pending n).leaves =
      (pending.reverse.map Item.unary).flatMap leaves ++ n.leaves := by
  induction pending generalizing n with
  | nil => rfl
  | cons op pending ih =>
    change (applyPending pending (op.apply n)).leaves = _
    rw [ih, leaves_unary]
    simp

/-- The first pass puts every operator where it stood. -/
theorem leaves_expandUnaryFrom {pending : List UnaryOperator}
    (h : expandUnaryFrom pending items = .ok out) :
    out.flatMap leaves = (pending.reverse.map Item.unary ++ items).flatMap leaves := by
  induction items generalizing pending out with
  | nil =>
    cases pending with
    | nil =>
      cases h
      rfl
    | cons op pending => cases h
  | cons item items ih =>
    cases item with
    | unary op =>
      have hrest : expandUnaryFrom (op :: pending) items = .ok out := h
      rw [ih hrest]
      simp
    | node n =>
      obtain ⟨rest, hrest, rfl⟩ := map_eq_ok.mp h
      rw [List.flatMap_cons, ih hrest]
      simp [leaves, leaves_applyPending]
    | rest | binary op =>
      cases pending with
      | nil =>
        obtain ⟨rest, hrest, rfl⟩ := map_eq_ok.mp h
        rw [List.flatMap_cons, ih hrest]
        simp
      | cons op pending => cases h

/-! ## Infix operators -/

theorem leaves_binary (op : BinaryOperator) (left right : Node) :
    (op.apply left right).leaves = op.head :: (left.leaves ++ right.leaves) := by
  simp [BinaryOperator.apply, Node.call, Node.leaves, Node.leaves_spine, BinaryOperator.head]

theorem leaves_operators (ops : List BinaryOperator) :
    (ops.map Item.binary).flatMap leaves = ops.map BinaryOperator.head := by
  rw [List.flatMap_map]
  exact List.flatMap_pure_eq_map ..

theorem isAtom_operators (ops : List BinaryOperator) :
    ∀ v ∈ ops.map BinaryOperator.head, v.isAtom = false := by
  intro v hv
  obtain ⟨op, -, rfl⟩ := List.mem_map.mp hv
  rfl

/-- The leaves of a yard: its operators wait in front of its output. -/
def Yard.leaves (y : Yard) : List Node :=
  y.stack.map BinaryOperator.head ++ y.queue.flatMap Item.leaves

/-- Operators that move from the stack to the output keep the leaves. -/
theorem rearranges_moved (done left : List BinaryOperator) (queue : List Item) :
    Rearranges (left.map BinaryOperator.head ++
        ((done.map Item.binary).reverse ++ queue).flatMap leaves)
      ((done ++ left).map BinaryOperator.head ++ queue.flatMap leaves) := by
  have hperm : (left ++ done.reverse).Perm (done ++ left) :=
    List.perm_append_comm.trans ((done.reverse_perm).append_right left)
  rw [List.flatMap_append, ← List.map_reverse, leaves_operators, ← List.append_assoc,
    ← List.map_append]
  exact (Rearranges.of_perm (isAtom_operators _) (hperm.map _)).append (.refl _)

theorem rearranges_flush (y : Yard) : Rearranges (y.flush.queue.flatMap leaves) y.leaves := by
  rw [Yard.flush_queue]
  simpa [Yard.leaves] using rearranges_moved y.stack [] y.queue

/-- One more item adds its leaves in front. -/
theorem rearranges_push (y : Yard) (item : Item) :
    Rearranges (y.push item).leaves (item.leaves ++ y.leaves) := by
  by_cases hitem : ∀ op, item ≠ .binary op
  · rw [y.push_operand hitem]
    have hready : Rearranges y.ready.leaves y.leaves := by
      cases hafter : y.afterOperator with
      | true =>
        rw [Yard.ready_of_afterOperator hafter]
        exact .refl _
      | false =>
        rw [Yard.ready_of_not_afterOperator hafter]
        simpa [Yard.leaves, Yard.flush] using rearranges_flush y
    exact ((Rearranges.move (isAtom_operators _) _ _).symm).trans ((Rearranges.refl _).append hready)
  · obtain ⟨op, rfl⟩ : ∃ op, item = .binary op := by simpa using hitem
    obtain ⟨done, left, hstack, hpush⟩ := y.push_binary op
    rw [hpush, Yard.leaves, Yard.leaves, hstack]
    exact (Rearranges.refl [op.head]).append (rearranges_moved done left y.queue)

theorem rearranges_toPolish (items : List Item) :
    Rearranges ((toPolish items).reverse.flatMap leaves) (items.flatMap leaves) := by
  have hscan : Rearranges (Yard.empty.scan items).leaves (items.flatMap leaves) := by
    induction items with
    | nil => exact .refl _
    | cons item items ih =>
      exact (rearranges_push _ item).trans ((Rearranges.refl _).append ih)
  rw [toPolish, List.reverse_reverse]
  exact (rearranges_flush _).trans hscan

/-- **Running a queue** puts its leaves in front of those of the results. -/
theorem rearranges_runPolish (h : runPolish results queue = .ok out) :
    Rearranges (out.flatMap leaves) (queue.reverse.flatMap leaves ++ results.flatMap leaves) := by
  induction queue generalizing results with
  | nil =>
    cases h
    exact .refl _
  | cons item queue ih =>
    rw [List.reverse_cons, List.flatMap_append, List.append_assoc, List.flatMap_singleton]
    cases item with
    | binary op =>
      rw [runPolish.eq_def] at h
      dsimp only at h
      split at h
      · next left right results =>
        simpa [leaves, leaves_binary] using ih h
      · cases h
      · cases h
      · cases h
    | node _ | rest | unary _ =>
      rw [runPolish_operand (by simp)] at h
      simpa using ih h

/-- **Expanding a level** moves at most heads. -/
theorem rearranges_expand (h : expand items = .ok out) :
    Rearranges (out.flatMap leaves) (items.flatMap leaves) := by
  obtain ⟨unary, hunary, h⟩ := exists_of_bind_ok h
  have hfirst : unary.flatMap leaves = items.flatMap leaves := leaves_expandUnaryFrom hunary
  rw [← hfirst]
  simpa using (rearranges_runPolish h).trans (by simpa using rearranges_toPolish unary)

/-! ## Levels that hold something -/

theorem ne_nil_of_expandUnaryFrom {pending : List UnaryOperator}
    (h : expandUnaryFrom pending items = .ok out) (hitems : items ≠ []) : out ≠ [] := by
  induction items generalizing pending out with
  | nil => exact absurd rfl hitems
  | cons item items ih =>
    cases item with
    | unary op =>
      have hrest : expandUnaryFrom (op :: pending) items = .ok out := h
      refine ih hrest ?_
      rintro rfl
      cases h
    | node n =>
      obtain ⟨rest, -, rfl⟩ := map_eq_ok.mp h
      exact List.cons_ne_nil _ _
    | rest | binary op =>
      cases pending with
      | nil =>
        obtain ⟨rest, -, rfl⟩ := map_eq_ok.mp h
        exact List.cons_ne_nil _ _
      | cons op pending => cases h

theorem ne_nil_of_runPolish (h : runPolish results queue = .ok out)
    (hne : results ≠ [] ∨ queue ≠ []) : out ≠ [] := by
  induction queue generalizing results with
  | nil =>
    cases h
    exact hne.resolve_right fun h => h rfl
  | cons item queue ih =>
    cases item with
    | binary op =>
      rw [runPolish.eq_def] at h
      dsimp only at h
      split at h
      · exact ih h (.inl (List.cons_ne_nil _ _))
      · cases h
      · cases h
      · cases h
    | node _ | rest | unary _ =>
      rw [runPolish_operand (by simp)] at h
      exact ih h (.inl (List.cons_ne_nil _ _))

theorem ne_nil_of_toPolish (hitems : items ≠ []) : toPolish items ≠ [] := by
  cases items with
  | nil => exact absurd rfl hitems
  | cons item items =>
    change ((Yard.empty.scan items).push item).flush.queue.reverse ≠ []
    rw [List.reverse_ne_nil_iff, Yard.flush_queue]
    by_cases hitem : ∀ op, item ≠ .binary op
    · rw [Yard.push_operand _ hitem]
      simp
    · obtain ⟨op, rfl⟩ : ∃ op, item = .binary op := by simpa using hitem
      obtain ⟨done, left, -, hpush⟩ := (Yard.empty.scan items).push_binary op
      rw [hpush]
      simp

/-- **Nothing expands to nothing**, and nothing else does. -/
theorem isEmpty_of_expand (h : expand items = .ok out) : out.isEmpty = items.isEmpty := by
  cases items with
  | nil =>
    cases h
    rfl
  | cons item items =>
    obtain ⟨unary, hunary, h⟩ := exists_of_bind_ok h
    have hne := ne_nil_of_expandUnaryFrom hunary (List.cons_ne_nil item items)
    have hout := ne_nil_of_runPolish h (.inr (ne_nil_of_toPolish hne))
    simpa using hout

/-! ## Brackets -/

theorem leaves_of_afterMarker {cdr : Node} (h : afterMarker items = .ok cdr) :
    items.flatMap leaves = cdr.leaves := by
  rw [afterMarker.eq_def] at h
  split at h
  · cases h
  · next n rest =>
    rw [afterCdr.eq_def] at h
    split at h
    · cases h
      simp [leaves]
    all_goals cases h
  all_goals cases h

theorem leaves_of_moreCars {spine : List Node × Node} (h : moreCars items = .ok spine) :
    items.flatMap leaves = spine.1.flatMap Node.leaves ++ spine.2.leaves := by
  induction items generalizing spine with
  | nil =>
    cases h
    rfl
  | cons item items ih =>
    cases item with
    | node car =>
      obtain ⟨rest, hrest, h⟩ := exists_of_bind_ok h
      cases h
      rw [List.flatMap_cons, ih hrest]
      simp [leaves]
    | rest =>
      obtain ⟨cdr, hcdr, h⟩ := exists_of_bind_ok h
      cases h
      simpa [leaves] using leaves_of_afterMarker hcdr
    | unary _ | binary _ => cases h

theorem leaves_of_carsAndCdr {spine : List Node × Node} (h : carsAndCdr items = .ok spine) :
    items.flatMap leaves = spine.1.flatMap Node.leaves ++ spine.2.leaves := by
  rw [carsAndCdr.eq_def] at h
  split at h
  · cases h
  · exact leaves_of_moreCars h

/-- Whatever is not empty has a car. -/
theorem eq_nil_of_carsAndCdr {cdr : Node} (h : carsAndCdr items = .ok ([], cdr)) : items = [] := by
  match items with
  | [] => rfl
  | .node car :: items =>
    obtain ⟨rest, -, h⟩ := exists_of_bind_ok h
    cases h
  | .rest :: _ | .unary _ :: _ | .binary _ :: _ => cases h

end Item

namespace Bracket

variable {b : Bracket} {items : List Item} {node : Node}

/-- The head that a bracket adds to its contents, if these are empty or not. -/
def added (b : Bracket) (empty : Bool) : List Node :=
  if empty && b.emptyIsNil then [] else b.head?.toList

theorem isAtom_added (b : Bracket) (empty : Bool) : ∀ v ∈ b.added empty, v.isAtom = false := by
  cases b <;> cases empty <;> simp [added, head?, emptyIsNil, Node.isAtom]

/-- **A bracket adds its head in front of its contents.** -/
theorem leaves_construct (h : b.construct items = .ok node) :
    node.leaves = b.added items.isEmpty ++ items.flatMap Item.leaves := by
  rw [construct] at h
  rw [added]
  split at h
  · next hempty =>
    cases h
    rw [if_pos hempty, List.isEmpty_iff.mp (Bool.and_eq_true_iff.mp hempty).1]
    rfl
  · next hempty =>
    rw [if_neg hempty]
    split at h
    · next hhead =>
      obtain ⟨⟨cars, cdr⟩, hspine, h⟩ := exists_of_bind_ok h
      rw [hhead]
      cases cars with
      | nil =>
        obtain rfl := Item.eq_nil_of_carsAndCdr hspine
        cases h
        rfl
      | cons head args =>
        rw [Item.leaves_of_carsAndCdr hspine]
        cases h
        simp [Node.leaves, Node.leaves_spine]
    · next head hhead =>
      obtain ⟨spine, htoSpine, h⟩ := exists_of_bind_ok h
      cases h
      obtain ⟨⟨cars, cdr⟩, hspine, h⟩ := exists_of_bind_ok htoSpine
      cases h
      have hleaf : head.leaves = [head] := by
        cases b <;> cases hhead <;> rfl
      rw [hhead, Node.leaves, hleaf, Node.leaves_spine, Item.leaves_of_carsAndCdr hspine]
      rfl

end Bracket

/-! ## Tokens -/

namespace Token

/-- **The atoms that a token stands for**: an atom for itself, `@` for `this`, and all others for
none. -/
def atoms (token : String) : List Node :=
  if (Bracket.ofOpener? token).isSome || Bracket.isCloser token then []
  else match Item.ofToken token with
    | .ok (.node n) => [n]
    | .ok (.unary .ofThis) => [.identifier "this"]
    | _ => []

/-- **The heads that tokens stand for**: one for each operator, and one for each bracket that calls
a primitive, unless it is empty and reads as nothing. -/
def heads : List String → List Node
  | [] => []
  | token :: tokens =>
    match Bracket.ofOpener? token with
    | some b => b.added (tokens.head? == some b.closer) ++ heads tokens
    | none =>
      match Item.ofToken token with
      | .ok (.unary op) => op.head :: heads tokens
      | .ok (.binary op) => op.head :: heads tokens
      | _ => heads tokens

variable {d : Nat} {token : String} {tokens inner after : List String} {b : Bracket}

theorem heads_opener (b : Bracket) (tokens : List String) :
    heads (b.opener :: tokens) = b.added (tokens.head? == some b.closer) ++ heads tokens := by
  rw [heads, b.ofOpener?_opener]

theorem heads_closer (b : Bracket) (tokens : List String) :
    heads (b.closer :: tokens) = heads tokens := by
  rw [heads, b.ofOpener?_closer]
  cases b <;> rfl

theorem atoms_opener (b : Bracket) : atoms b.opener = [] := by
  rw [atoms, b.ofOpener?_opener]
  rfl

theorem atoms_closer (b : Bracket) : atoms b.closer = [] := by
  rw [atoms, b.isCloser_closer, Bool.or_true]
  rfl

/-- A bracket is empty if its closer comes first. -/
theorem Nested.head?_eq (h : Nested d inner) (b : Bracket) (after : List String) :
    ((inner ++ b.closer :: after).head? == some b.closer) = inner.isEmpty := by
  cases h with
  | nil => simp
  | loose hloose => simpa using Bracket.ne_closer_of_loose hloose b
  | bracket b' => simpa using Bracket.opener_ne_closer b' b

/-- What stands between two brackets that belong together has heads of its own. -/
theorem Nested.heads_append (h : Nested d inner) (after : List String) :
    heads (inner ++ after) = heads inner ++ heads after := by
  induction h generalizing after with
  | nil => rfl
  | @loose d token tokens hloose _ ih =>
    rw [List.cons_append, heads, heads, hloose.1, ih]
    cases Item.ofToken token with
    | error e => rfl
    | ok item => cases item <;> rfl
  | @bracket d inner rest b hinner _ ih ih' =>
    rw [List.cons_append, List.append_assoc, List.cons_append, heads_opener, heads_opener,
      hinner.head?_eq, hinner.head?_eq, ih, ih, heads_closer, heads_closer, ih']
    simp only [List.append_assoc]

end Token

namespace Item

variable {d : Nat} {tokens : List String} {items : List Item}

/-- A loose token gives its item the head and the atoms that it stands for. -/
theorem leaves_ofToken {token : String} {item : Item} (hloose : Loose token)
    (h : ofToken token = .ok item) (tokens : List String) : ∃ hs : List Node,
      (∀ v ∈ hs, v.isAtom = false) ∧ item.leaves = hs ++ Token.atoms token ∧
        Token.heads (token :: tokens) = hs ++ Token.heads tokens := by
  have hatoms : Token.atoms token = match ofToken token with
      | .ok (.node n) => [n]
      | .ok (.unary .ofThis) => [.identifier "this"]
      | _ => [] := by
    rw [Token.atoms, hloose.1, hloose.2]
    rfl
  rw [Token.heads, hatoms, hloose.1, h]
  cases item with
  | node n =>
    refine ⟨[], by simp, ?_, rfl⟩
    rcases atom_cases h with ⟨k, -, rfl⟩ | rfl | ⟨name, rfl, -⟩ <;> rfl
  | rest => exact ⟨[], by simp, rfl, rfl⟩
  | binary op => exact ⟨[op.head], by simp [BinaryOperator.head, Node.isAtom], rfl, rfl⟩
  | unary op =>
    refine ⟨[op.head], by simp [UnaryOperator.head, Node.isAtom], ?_, rfl⟩
    cases op <;> rfl

theorem isAtom_heads (tokens : List String) : ∀ v ∈ Token.heads tokens, v.isAtom = false := by
  induction tokens with
  | nil => exact fun _ hv => absurd hv List.not_mem_nil
  | cons token tokens ih =>
    rw [Token.heads]
    split
    · next b _ =>
      intro v hv
      rcases List.mem_append.mp hv with hv | hv
      · exact b.isAtom_added _ v hv
      · exact ih v hv
    · split
      · exact List.forall_mem_cons.mpr ⟨rfl, ih⟩
      · exact List.forall_mem_cons.mpr ⟨rfl, ih⟩
      · exact ih

theorem Parses.isEmpty (h : Parses d tokens items) : items.isEmpty = tokens.isEmpty := by
  cases h <;> rfl

/-- **What parses has the leaves that its tokens stand for**, heads first. -/
theorem Parses.rearranges (h : Parses d tokens items) :
    Rearranges (items.flatMap leaves) (Token.heads tokens ++ tokens.flatMap Token.atoms) := by
  induction h with
  | nil => exact .refl _
  | @loose d token tokens item items hloose hitem _ ih =>
    obtain ⟨hs, hvalues, hleaves, hheads⟩ := leaves_ofToken hloose hitem tokens
    rw [List.flatMap_cons, List.flatMap_cons, hleaves, hheads, List.append_assoc, List.append_assoc]
    refine (Rearranges.refl hs).append ?_
    exact ((Rearranges.refl _).append ih).trans (.move (isAtom_heads tokens) _ _)
  | @bracket d inner after parsed contents items node b hinner hexpand hnode _ ih ih' =>
    have hempty : contents.isEmpty = inner.isEmpty :=
      (isEmpty_of_expand hexpand).trans hinner.isEmpty
    have hheads : Token.heads (b.opener :: (inner ++ b.closer :: after)) =
        b.added contents.isEmpty ++ (Token.heads inner ++ Token.heads after) := by
      rw [Token.heads_opener, hinner.nested.head?_eq, hinner.nested.heads_append,
        Token.heads_closer, hempty]
    have hatoms : (b.opener :: (inner ++ b.closer :: after)).flatMap Token.atoms =
        inner.flatMap Token.atoms ++ after.flatMap Token.atoms := by
      simp [Token.atoms_opener, Token.atoms_closer]
    rw [List.flatMap_cons, hheads, hatoms]
    change Rearranges (node.leaves ++ _) _
    rw [Bracket.leaves_construct hnode, List.append_assoc, List.append_assoc, List.append_assoc]
    refine (Rearranges.refl _).append ?_
    -- the heads of what follows move in front of the atoms inside
    have hcontents := (rearranges_expand hexpand).trans ih
    refine (hcontents.append ih').trans ?_
    rw [List.append_assoc]
    exact (Rearranges.refl _).append (.move (isAtom_heads after) _ _)

theorem leaves_of_mapM {nodes : List Node} (h : items.mapM toNode = .ok nodes) :
    items.flatMap leaves = nodes.flatMap Node.leaves := by
  induction items generalizing nodes with
  | nil =>
    cases h
    rfl
  | cons item items ih =>
    rw [List.mapM_cons] at h
    obtain ⟨n, hn, h⟩ := exists_of_bind_ok h
    obtain ⟨rest, hrest, h⟩ := exists_of_bind_ok h
    cases h
    rw [List.flatMap_cons, List.flatMap_cons, ih hrest]
    cases item with
    | node m =>
      cases hn
      rfl
    | rest | unary _ | binary _ => cases hn

end Item

theorem Token.isAtom_atoms (tokens : List String) :
    ∀ n ∈ tokens.flatMap Token.atoms, n.isAtom = true := by
  intro n hn
  obtain ⟨token, -, hn⟩ := List.mem_flatMap.mp hn
  rw [Token.atoms] at hn
  split at hn
  · exact absurd hn List.not_mem_nil
  · split at hn
    · next m hm =>
      obtain rfl := List.mem_singleton.mp hn
      rcases Item.atom_cases hm with ⟨k, -, rfl⟩ | rfl | ⟨name, rfl, -⟩ <;> rfl
    · obtain rfl := List.mem_singleton.mp hn
      rfl
    · exact absurd hn List.not_mem_nil

section

variable {code : String} {nodes : List Node}

theorem headed_of_read (h : read code = .ok nodes) : ∀ n ∈ nodes, n.Headed :=
  forall_of_read Node.closed_headed (fun _ _ _ _ hn => by
    rcases Item.atom_cases hn with ⟨k, -, rfl⟩ | rfl | ⟨name, rfl, -⟩ <;> exact trivial) h

theorem rearranges_of_read (h : read code = .ok nodes) : Rearranges (nodes.flatMap Node.leaves)
    (Token.heads (Token.lex code) ++ (Token.lex code).flatMap Token.atoms) := by
  obtain ⟨parsed, hparsed, h⟩ := exists_of_bind_ok h
  obtain ⟨items, hitems, h⟩ := exists_of_bind_ok h
  rw [← Item.leaves_of_mapM h]
  exact (Item.rearranges_expand hitems).trans (Item.parse_eq_ok_iff.mp hparsed).rearranges

theorem heads_of_read (h : read code = .ok nodes) :
    (nodes.flatMap Node.heads).Perm (Token.heads (Token.lex code)) := by
  have hheads := Item.isAtom_heads (Token.lex code)
  have hatoms := Token.isAtom_atoms (Token.lex code)
  have hfilter : nodes.flatMap Node.heads = (nodes.flatMap Node.leaves).filter (!·.isAtom) := by
    rw [List.filter_flatMap]
    exact List.flatMap_congr fun n hn => Node.heads_eq_filter (headed_of_read h n hn)
  have htokens : (Token.heads (Token.lex code) ++
      (Token.lex code).flatMap Token.atoms).filter (!·.isAtom) =
        Token.heads (Token.lex code) := by
    rw [List.filter_append, List.filter_eq_self.mpr (by simpa using hheads),
      List.filter_eq_nil_iff.mpr (by simpa using hatoms), List.append_nil]
  rw [hfilter, ← htokens]
  exact (rearranges_of_read h).perm.filter _

/-- **Reading loses, doubles and reorders nothing.**  The identifiers, numbers and symbols of what a
text reads as, in order, are those that its tokens stand for from left to right; and the primitives
at the heads of its applications are, up to order, those that its operators and brackets stand
for. -/
theorem conserved_of_read (h : read code = .ok nodes) :
    nodes.flatMap Node.atoms = (Token.lex code).flatMap Token.atoms ∧
      (nodes.flatMap Node.heads).Perm (Token.heads (Token.lex code)) := by
  refine ⟨?_, heads_of_read h⟩
  have hheads := Item.isAtom_heads (Token.lex code)
  have hatoms := Token.isAtom_atoms (Token.lex code)
  calc nodes.flatMap Node.atoms
      = (nodes.flatMap Node.leaves).filter Node.isAtom := List.filter_flatMap.symm
    _ = (Token.lex code).flatMap Token.atoms := by
      rw [(rearranges_of_read h).atoms, List.filter_append,
        List.filter_eq_nil_iff.mpr (by simpa using hheads), List.filter_eq_self.mpr hatoms,
        List.nil_append]

end

/-- A list of a call, a slot of `this` and a pair. -/
theorem list_is_conserved : ∃ nodes, read "[~f @x a:b]" = .ok nodes ∧
    nodes.flatMap Node.atoms = [.identifier "f", .identifier "this", .identifier "x",
      .identifier "a", .identifier "b"] ∧
    (nodes.flatMap Node.heads).Perm [.value "_list" (.builtin .list), .value "_id" (.builtin .id),
      .value "_get" (.builtin .get), .value "_cons" (.builtin .cons)] := by
  have hread : (read "[~f @x a:b]").isOk := by decide +kernel
  have hlex : Token.lex "[~f @x a:b]" = ["[", "~", "f", "@", "x", "a", ":", "b", "]"] := by
    decide +kernel
  cases hnodes : read "[~f @x a:b]" with
  | error e =>
    rw [hnodes] at hread
    cases hread
  | ok nodes =>
    have hconserved := conserved_of_read hnodes
    rw [hlex] at hconserved
    exact ⟨nodes, rfl, hconserved⟩

end Fexpr
