import Fexpr.Proofs.Reader.Conservation
import Fexpr.Proofs.Reader.Words

/-!
# Proofs/Reader/Depth — how deep what is read can be

On a path from a node that was read down to a leaf lie at most `maxNesting` applications that come
from brackets; every other application on it is an operation, and has an operator of its own in the
text (`length_le_of_read`).  Nothing bounds the operations: a run of prefixed operators reads as
that many applications inside each other, without one bracket (`tildes_exceed_limit`).
-/

namespace Fexpr

open Token (Loose Nested)

namespace Node

/-! ## Paths -/

/-- Whether a node is the head of the calls that an operator stands for. -/
def isOperatorHead : Node → Bool
  | .value _ (.builtin b) =>
    BinaryOperator.all.any (·.builtin == b) || UnaryOperator.all.any (·.builtin == b)
  | _ => false

/-- Whether a node is a call that an operator stands for. -/
def isOperation : Node → Bool
  | .form head _ => head.isOperatorHead
  | _ => false

/-- **A path from a node down to a leaf**, through cars and cdrs, with the applications on it. -/
inductive Path : Node → List Node → Prop
  | leaf {n : Node} : n.split = none → Path n []
  | pairCar {car cdr : Node} {forms : List Node} : Path car forms → Path (.pair car cdr) forms
  | pairCdr {car cdr : Node} {forms : List Node} : Path cdr forms → Path (.pair car cdr) forms
  | formCar {car cdr : Node} {forms : List Node} : Path car forms →
      Path (.form car cdr) (.form car cdr :: forms)
  | formCdr {car cdr : Node} {forms : List Node} : Path cdr forms →
      Path (.form car cdr) (.form car cdr :: forms)

/-- **How many applications that are no operations** lie on one path, at most. -/
def bracketDepth : Node → Nat
  | .pair car cdr => max car.bracketDepth cdr.bracketDepth
  | .form car cdr => max car.bracketDepth cdr.bracketDepth + if car.isOperatorHead then 0 else 1
  | _ => 0

variable {n car cdr : Node} {forms : List Node} {d : Nat}

theorem Path.brackets_le (h : n.Path forms) :
    forms.countP (!·.isOperation) ≤ n.bracketDepth := by
  induction h with
  | leaf => exact Nat.zero_le _
  | pairCar _ ih => exact Nat.le_trans ih (Nat.le_max_left ..)
  | pairCdr _ ih => exact Nat.le_trans ih (Nat.le_max_right ..)
  | @formCar car cdr _ _ ih =>
    rw [List.countP_cons, bracketDepth, isOperation]
    have hmax := Nat.le_trans ih (Nat.le_max_left car.bracketDepth cdr.bracketDepth)
    cases car.isOperatorHead <;> simpa using hmax
  | @formCdr car cdr _ _ ih =>
    rw [List.countP_cons, bracketDepth, isOperation]
    have hmax := Nat.le_trans ih (Nat.le_max_right car.bracketDepth cdr.bracketDepth)
    cases car.isOperatorHead <;> simpa using hmax

/-- A path through the head of an operation is at its end there. -/
theorem Path.eq_nil (h : n.Path forms) (hn : n.isOperatorHead) : forms = [] := by
  cases h with
  | leaf => rfl
  | pairCar | pairCdr | formCar | formCdr => cases hn

theorem heads_operation (h : car.isOperatorHead) (cdr : Node) :
    (form car cdr).heads = car :: cdr.heads := by
  rw [isOperatorHead.eq_def] at h
  split at h
  · rfl
  · cases h

theorem countP_heads_le (p : Node → Bool) (car cdr : Node) :
    car.heads.countP p + cdr.heads.countP p ≤ (form car cdr).heads.countP p := by
  have hheads : (form car cdr).heads = car.heads ++ cdr.heads ∨
      car.heads = [] ∧ (form car cdr).heads = car :: cdr.heads := by
    cases car with
    | value label v => cases v <;> first | exact .inl rfl | exact .inr ⟨rfl, rfl⟩
    | _ => exact .inl rfl
  rcases hheads with hheads | ⟨hcar, hheads⟩
  · exact Nat.le_of_eq (by rw [hheads, List.countP_append])
  · rw [hheads, hcar, List.countP_cons, List.countP_nil]
    omega

/-- The operations of a path are among those of the tree. -/
theorem Path.operations_le (h : n.Path forms) :
    forms.countP isOperation ≤ n.heads.countP isOperatorHead := by
  induction h with
  | leaf => exact Nat.zero_le _
  | @pairCar car cdr _ _ ih =>
    rw [heads, List.countP_append]
    exact Nat.le_add_right_of_le ih
  | @pairCdr car cdr _ _ ih =>
    rw [heads, List.countP_append]
    exact Nat.le_add_left_of_le ih
  | @formCar car cdr forms h ih =>
    rw [List.countP_cons, isOperation]
    by_cases hcar : car.isOperatorHead
    · rw [h.eq_nil hcar, heads_operation hcar, List.countP_cons, if_pos hcar]
      exact Nat.add_le_add_right (Nat.zero_le _) 1
    · have hle := countP_heads_le isOperatorHead car cdr
      rw [if_neg hcar]
      omega
  | @formCdr car cdr forms h ih =>
    rw [List.countP_cons, isOperation]
    by_cases hcar : car.isOperatorHead
    · rw [heads_operation hcar, List.countP_cons, if_pos hcar]
      exact Nat.add_le_add_right ih 1
    · have hle := countP_heads_le isOperatorHead car cdr
      rw [if_neg hcar]
      omega

/-! ## What brackets add -/

theorem bracketDepth_spine {items : List Node} {tail : Node}
    (hitems : ∀ n ∈ items, n.bracketDepth ≤ d) (htail : tail.bracketDepth ≤ d) :
    (spine items tail).bracketDepth ≤ d := by
  induction items with
  | nil => exact htail
  | cons n items ih =>
    obtain ⟨hn, hitems⟩ := List.forall_mem_cons.mp hitems
    exact Nat.max_le.mpr ⟨hn, ih hitems⟩

/-- Operations add nothing. -/
theorem operatorClosed_bracketDepth (d : Nat) : OperatorClosed fun n => n.bracketDepth ≤ d where
  binary op left right hl hr := by
    have hspine : (spine [left, right] .nil).bracketDepth ≤ d :=
      bracketDepth_spine (by simp [hl, hr]) (Nat.zero_le d)
    have hhead : op.head.isOperatorHead := by cases op <;> rfl
    change max op.head.bracketDepth (spine [left, right] .nil).bracketDepth + _ ≤ d
    rw [if_pos hhead, Nat.add_zero]
    exact Nat.max_le.mpr ⟨Nat.zero_le d, hspine⟩
  unary op operand h := by
    have hspine : (spine (op.leading ++ [operand]) .nil).bracketDepth ≤ d := by
      refine bracketDepth_spine (List.forall_mem_append.mpr ⟨?_, by simp [h]⟩) (Nat.zero_le d)
      cases op <;> simp [UnaryOperator.leading, bracketDepth]
    have hhead : op.head.isOperatorHead := by cases op <;> rfl
    change max op.head.bracketDepth (spine (op.leading ++ [operand]) .nil).bracketDepth + _ ≤ d
    rw [if_pos hhead, Nat.add_zero]
    exact Nat.max_le.mpr ⟨Nat.zero_le d, hspine⟩

end Node

namespace Item

variable {d : Nat} {tokens : List String} {items : List Item}

/-- **Brackets at most `d` deep** build nodes no deeper than that. -/
theorem Parses.bracketDepth_le (h : Parses d tokens items) :
    AllHold (fun n => n.bracketDepth ≤ d) items := by
  induction h with
  | nil => exact allHold_nil
  | @loose d token tokens item items hloose hitem _ ih =>
    refine .cons ?_ ih
    cases item with
    | node n => rcases atom_cases hitem with ⟨k, -, rfl⟩ | rfl | ⟨name, rfl, -⟩ <;> exact Nat.zero_le d
    | rest | unary _ | binary _ => exact trivial
  | @bracket d inner after parsed contents items node b hinner hexpand hnode _ ih ih' =>
    refine .cons ?_ ih'
    have hcontents := (Node.operatorClosed_bracketDepth d).expand ih hexpand
    rcases Bracket.construct_cases (Nat.zero_le d) hcontents hnode with
      rfl | ⟨head, args, cdr, rfl, hhead, hargs, hcdr⟩
    · exact Nat.zero_le _
    · have hhead : head.bracketDepth ≤ d := by
        rcases hhead with hhead | hhead
        · cases b <;> cases hhead <;> exact Nat.zero_le d
        · exact hhead
      have hspine := Node.bracketDepth_spine hargs hcdr
      change max head.bracketDepth (Node.spine args cdr).bracketDepth + _ ≤ d + 1
      refine Nat.add_le_add (Nat.max_le.mpr ⟨hhead, hspine⟩) ?_
      split <;> simp

end Item

/-! ## What operators add -/

namespace Token

/-- Whether a token is an operator. -/
def isOperator (token : String) : Bool :=
  (BinaryOperator.ofToken? token).isSome || (UnaryOperator.ofToken? token).isSome

theorem isOperator_of_unary {token : String} {op : UnaryOperator}
    (h : Item.ofToken token = .ok (.unary op)) : isOperator token := by
  rw [isOperator, Item.ofToken?_of_unary h]
  exact Bool.or_true _

theorem isOperator_of_binary {token : String} {op : BinaryOperator}
    (h : Item.ofToken token = .ok (.binary op)) : isOperator token := by
  rw [isOperator, Item.ofToken?_of_binary h]
  rfl

/-- Every operation has an operator of its own. -/
theorem operators_le (tokens : List String) :
    (heads tokens).countP Node.isOperatorHead ≤ tokens.countP isOperator := by
  induction tokens with
  | nil => exact Nat.le_refl 0
  | cons token tokens ih =>
    rw [heads, List.countP_cons]
    split
    · next b _ =>
      have hadded : (b.added (tokens.head? == some b.closer)).countP Node.isOperatorHead = 0 := by
        cases b <;> cases tokens.head? == some _ <;> rfl
      rw [List.countP_append, hadded, Nat.zero_add]
      exact Nat.le_add_right_of_le ih
    · split
      · next op hop =>
        rw [List.countP_cons, if_pos (isOperator_of_unary hop)]
        cases op <;> exact Nat.add_le_add_right ih 1
      · next op hop =>
        rw [List.countP_cons, if_pos (isOperator_of_binary hop)]
        cases op <;> exact Nat.add_le_add_right ih 1
      · exact Nat.le_add_right_of_le ih

end Token

/-! ## Operators without end -/

/-- A name behind `k` tildes. -/
def tildes (k : Nat) : String :=
  String.ofList (List.replicate k '~' ++ ['x'])

/-- What it reads as: the name inside `k` calls of the identity. -/
def tildeTree (k : Nat) : Node :=
  (⟨List.replicate k .id, .identifier "x"⟩ : Item.Operand).tree

theorem lex_tildes (k : Nat) : Token.lex (tildes k) = List.replicate k "~" ++ ["x"] := by
  rw [Token.lex, tildes, String.toList_ofList]
  induction k with
  | zero => decide
  | succ k ih =>
    rw [List.replicate_succ, List.replicate_succ, List.cons_append, List.cons_append,
      Token.scan_boundary (by decide) (by decide) (Token.startsPair_of_ne (by decide) (by decide) _)
        (by decide), ih]
    rfl

theorem read_tildes (k : Nat) : read (tildes k) = .ok [tildeTree k] := by
  have hparse : Item.parse (Token.lex (tildes k)) =
      .ok (List.replicate k (.unary .id) ++ [.node (.identifier "x")]) := by
    rw [lex_tildes, Item.parse_eq_ok_iff]
    induction k with
    | zero => exact .loose ⟨by decide, by decide⟩ rfl .nil
    | succ k ih => exact .loose ⟨by decide, by decide⟩ rfl ih
  have hexpand : Item.expand (List.replicate k (.unary .id) ++ [.node (.identifier "x")]) =
      .ok [.node (tildeTree k)] := by
    have hoperand := Item.expand_of_forall₂
      (.cons (.operand ⟨List.replicate k .id, .identifier "x"⟩) .nil)
    simpa [tildeTree, Item.Segment.items, Item.Operand.items, Item.chainRest] using hoperand
  rw [read, hparse]
  change (Item.expand _ >>= _) = _
  rw [hexpand]
  rfl

/-- All of them lie on one path. -/
theorem path_tildeTree (k : Nat) : ∃ forms, (tildeTree k).Path forms ∧ forms.length = k := by
  induction k with
  | zero => exact ⟨[], .leaf rfl, rfl⟩
  | succ k ih =>
    obtain ⟨forms, hpath, hlength⟩ := ih
    exact ⟨_ :: forms, .formCdr (.pairCar hpath), congrArg (· + 1) hlength⟩

/-! ## Texts -/

/-- **Brackets are bounded, operators are counted.**  On a path from a node that was read down to a
leaf lie at most `maxNesting` applications that are no operations, and at most one operation for
each operator of the text. -/
theorem length_le_of_read {code : String} {nodes forms : List Node} {n : Node}
    (h : read code = .ok nodes) (hn : n ∈ nodes) (hpath : n.Path forms) :
    forms.countP (!·.isOperation) ≤ maxNesting ∧
      forms.length ≤ maxNesting + (Token.lex code).countP Token.isOperator := by
  have hbrackets : n.bracketDepth ≤ maxNesting := by
    obtain ⟨parsed, hparsed, h⟩ := exists_of_bind_ok h
    obtain ⟨items, hitems, h⟩ := exists_of_bind_ok h
    have hall := (Item.parse_eq_ok_iff.mp hparsed).bracketDepth_le
    exact Item.holds_of_mapM ((Node.operatorClosed_bracketDepth _).expand hall hitems) h n hn
  have hoperations : forms.countP Node.isOperation ≤ (Token.lex code).countP Token.isOperator :=
    calc forms.countP Node.isOperation
        ≤ n.heads.countP Node.isOperatorHead := hpath.operations_le
      _ ≤ (nodes.flatMap Node.heads).countP Node.isOperatorHead :=
        (List.sublist_flatten_of_mem (List.mem_map_of_mem hn)).countP_le
      _ = (Token.heads (Token.lex code)).countP Node.isOperatorHead := (heads_of_read h).countP_eq _
      _ ≤ (Token.lex code).countP Token.isOperator := Token.operators_le _
  have hbrackets := Nat.le_trans hpath.brackets_le hbrackets
  have hlength : forms.length = forms.countP Node.isOperation + forms.countP (!·.isOperation) := by
    simpa using List.length_eq_countP_add_countP Node.isOperation
  exact ⟨hbrackets, by omega⟩

/-- Two tildes, two applications. -/
theorem tildes_length_le : ∃ nodes n forms, read (tildes 2) = .ok nodes ∧ n ∈ nodes ∧
    n.Path forms ∧ forms.length = 2 ∧ forms.countP (!·.isOperation) ≤ maxNesting ∧
      forms.length ≤ maxNesting + (Token.lex (tildes 2)).countP Token.isOperator := by
  obtain ⟨forms, hpath, hlength⟩ := path_tildeTree 2
  have hmem : tildeTree 2 ∈ [tildeTree 2] := List.mem_singleton_self _
  exact ⟨_, _, forms, read_tildes 2, hmem, hpath, hlength,
    length_le_of_read (read_tildes 2) hmem hpath⟩

/-- **Brackets alone are bounded**: a name behind more tildes than the limit reads, and lies deeper
than the limit. -/
theorem tildes_exceed_limit : ∃ n forms, read (tildes (maxNesting + 1)) = .ok [n] ∧
    n.Path forms ∧ maxNesting < forms.length := by
  obtain ⟨forms, hpath, hlength⟩ := path_tildeTree (maxNesting + 1)
  exact ⟨_, forms, read_tildes _, hpath, hlength ▸ Nat.lt_succ_self _⟩

end Fexpr
