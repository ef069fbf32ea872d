import Fexpr.Node.Text
import Fexpr.Proofs.Reader.Closure
import Fexpr.Proofs.Reader.Words

/-!
# Proofs/Reader/RoundTrip — what is printed reads as it was

A node that was read prints as a text that reads as the same node, except that the primitives behind
operators and brackets come back as the identifiers they print as (`read_text`).

A text **spells** items if its tokens parse to them, wherever it ends (`SpellsWithin`, and `Spells`
where the depth does not matter).  Texts compose as a printer composes them: side by side with a
blank between them, and inside brackets.  So to be spelled by one's own text is a property that the
reader does not lead out of (`Node.closed_spelled`), and it is left to look at the atoms.
-/

namespace Fexpr

open Token (Ends IsWord Loose Nested scan ends_nil ends_blank ends_close)

namespace Node

/-! ## Labels in place of primitives -/

/-- **The node with an identifier in place of each primitive at the head of an application**: that
of its label. -/
def named : Node → Node
  | .pair car cdr => .pair car.named cdr.named
  | .form (.value label (.builtin _)) cdr => .form (.identifier label) cdr.named
  | .form car cdr => .form car.named cdr.named
  | node => node

/-- Some application in the node has a primitive at its head. -/
def CallsPrimitive : Node → Prop
  | .form (.value _ (.builtin _)) _ => True
  | .pair car cdr | .form car cdr => car.CallsPrimitive ∨ cdr.CallsPrimitive
  | _ => False

theorem named_eq_self_iff (n : Node) : n.named = n ↔ ¬n.CallsPrimitive := by
  fun_induction named n with
  | case1 car cdr ihcar ihcdr =>
    rw [CallsPrimitive, not_or, ← ihcar, ← ihcdr, Node.pair.injEq]
  | case2 label b cdr _ => simp [CallsPrimitive]
  | case3 car cdr hcar ihcar ihcdr =>
    rw [CallsPrimitive, not_or, ← ihcar, ← ihcdr, Node.form.injEq]
    exact hcar
  | case4 n hpair _ hform =>
    cases n with
    | pair car cdr => exact (hpair car cdr rfl).elim
    | form car cdr => exact (hform car cdr rfl).elim
    | nil | identifier _ | numeral _ | symbol _ | value _ _ => exact ⟨fun _ h => h, fun _ => rfl⟩

/-- **A primitive prints as its label.** -/
theorem write_named (n : Node) (ending : Option String) :
    n.named.write ending = n.write ending := by
  fun_induction named n generalizing ending with
  | case1 car cdr ihcar ihcdr => cases ending <;> simp only [write, ihcar, ihcdr]
  | case2 label b cdr ih => cases ending <;> simp only [write, endingWith, ih]
  | case3 car cdr _ ihcar ihcdr => simp only [write, ihcar, ihcdr]
  | case4 => rfl

theorem named_spine (args : List Node) (cdr : Node) :
    (spine args cdr).named = spine (args.map named) cdr.named := by
  induction args with
  | nil => rfl
  | cons n args ih => exact congrArg (Node.pair n.named) ih

end Node

/-! ## Texts and their items -/

/-- **A text spells items within a depth** if it is scanned, wherever words end behind it, as tokens
that parse to the items and nest their brackets no deeper. -/
def SpellsWithin (d : Nat) (text : List Char) (items : List Item) : Prop :=
  ∃ tokens, Item.Parses d tokens items ∧
    ∀ rest, Ends rest → scan (.word []) (text ++ rest) = tokens ++ scan (.word []) rest

/-- **A text spells items** if it does at some depth. -/
def Spells (text : List Char) (items : List Item) : Prop :=
  ∃ d, SpellsWithin d text items

namespace SpellsWithin

variable {d d' : Nat} {xs ys : List Char} {items items' : List Item} {token : String}

theorem mono (h : SpellsWithin d xs items) (hd : d ≤ d') : SpellsWithin d' xs items := by
  obtain ⟨tokens, hparses, hscan⟩ := h
  exact ⟨tokens, hparses.mono hd, hscan⟩

theorem nil : SpellsWithin d [] [] :=
  ⟨[], .nil, fun _ _ => rfl⟩

theorem word {item : Item} (hword : IsWord token) (hitem : Item.ofToken token = .ok item) :
    SpellsWithin d token.toList [item] := by
  refine ⟨[token], .loose ?_ hitem .nil, fun rest hrest => Token.scan_word hword hrest⟩
  have h := hword.not_boundary
  simp only [Token.isBoundary, Bool.or_eq_false_iff, Option.isSome_eq_false_iff,
    Option.isNone_iff_eq_none] at h
  exact ⟨h.1.2, h.2⟩

/-- The rest marker. -/
theorem bar : SpellsWithin d ['|'] [.rest] :=
  ⟨[Token.restMarker], .loose ⟨by decide, by decide⟩ rfl .nil,
    fun rest _ => Token.scan_bar [] rest⟩

/-- A blank in front does not matter. -/
theorem blank (h : SpellsWithin d xs items) : SpellsWithin d (' ' :: xs) items := by
  obtain ⟨tokens, hparses, hscan⟩ := h
  refine ⟨tokens, hparses, fun rest hrest => ?_⟩
  rw [List.cons_append, Token.scan_blank]
  exact hscan rest hrest

/-- **One text behind the other** spells the items of both, if words end between them. -/
theorem append (h : SpellsWithin d xs items) (h' : SpellsWithin d ys items') (hends : Ends ys) :
    SpellsWithin d (xs ++ ys) (items ++ items') := by
  obtain ⟨tokens, hparses, hscan⟩ := h
  obtain ⟨tokens', hparses', hscan'⟩ := h'
  refine ⟨tokens ++ tokens', hparses.append hparses', fun rest hrest => ?_⟩
  have hbetween : Ends (ys ++ rest) := by
    cases ys with
    | nil => exact hrest
    | cons c ys => exact hends
  rw [List.append_assoc, hscan _ hbetween, hscan' rest hrest, List.append_assoc]

/-- **A text in brackets** spells the node that is built from its items, if no operator is among
them. -/
theorem bracketed {b : Bracket} {opener closer : Char} {n : Node} (h : SpellsWithin d xs items)
    (hopener : ∀ cs, scan (.word []) (opener :: cs) = b.opener :: scan (.word []) cs)
    (hcloser : ∀ cs, scan (.word []) (closer :: cs) = b.closer :: scan (.word []) cs)
    (hends : ∀ cs, Ends (closer :: cs)) (hbare : ∀ item ∈ items, item.IsBare)
    (hnode : b.construct items = .ok n) :
    SpellsWithin (d + 1) (opener :: (xs ++ [closer])) [.node n] := by
  obtain ⟨tokens, hparses, hscan⟩ := h
  refine ⟨b.opener :: (tokens ++ [b.closer]),
    .bracket b hparses (Item.expand_of_bare hbare) hnode .nil, fun rest _ => ?_⟩
  calc scan (.word []) ((opener :: (xs ++ [closer])) ++ rest)
      = b.opener :: scan (.word []) (xs ++ closer :: rest) := by
        rw [List.cons_append, List.append_assoc, hopener]
        rfl
    _ = b.opener :: (tokens ++ b.closer :: scan (.word []) rest) := by
        rw [hscan _ (hends rest), hcloser]
    _ = (b.opener :: (tokens ++ [b.closer])) ++ scan (.word []) rest := by
        simp

/-- A whole text that spells items has tokens that parse to them. -/
theorem parses {text : String} (h : SpellsWithin d text.toList items) :
    Item.Parses d (Token.lex text) items := by
  obtain ⟨tokens, hparses, hscan⟩ := h
  have htokens : Token.lex text = tokens := by
    have hnil := hscan [] ends_nil
    rwa [List.append_nil, Token.scan_nil, List.append_nil] at hnil
  rwa [htokens]

end SpellsWithin

namespace Spells

variable {xs ys : List Char} {items items' : List Item} {token : String}

theorem nil : Spells [] [] :=
  ⟨0, .nil⟩

theorem word {item : Item} (hword : IsWord token) (hitem : Item.ofToken token = .ok item) :
    Spells token.toList [item] :=
  ⟨0, .word hword hitem⟩

theorem bar : Spells ['|'] [.rest] :=
  ⟨0, .bar⟩

theorem blank (h : Spells xs items) : Spells (' ' :: xs) items := by
  obtain ⟨d, hxs⟩ := h
  exact ⟨d, hxs.blank⟩

theorem append (h : Spells xs items) (h' : Spells ys items') (hends : Ends ys) :
    Spells (xs ++ ys) (items ++ items') := by
  obtain ⟨d, hxs⟩ := h
  obtain ⟨d', hys⟩ := h'
  refine ⟨max d d', SpellsWithin.append ?_ ?_ hends⟩
  · exact hxs.mono (Nat.le_max_left d d')
  · exact hys.mono (Nat.le_max_right d d')

theorem parenthesized {n : Node} (h : Spells xs items) (hbare : ∀ item ∈ items, item.IsBare)
    (hnode : Bracket.form.construct items = .ok n) : Spells ('(' :: (xs ++ [')'])) [.node n] := by
  obtain ⟨d, hxs⟩ := h
  exact ⟨d + 1, hxs.bracketed (b := .form) (Token.scan_open []) (Token.scan_close [])
    (fun _ => ends_close) hbare hnode⟩

end Spells

/-! ## Nodes and their texts -/

namespace Node

/-- A node that prints as an element of its own: no spine cell, and no primitive that prints as its
label. -/
def IsElement : Node → Prop
  | .pair _ _ | .value _ _ => False
  | _ => True

/-- **An element is spelled by its text**, up to the labels of primitives. -/
structure Spelled (n : Node) : Prop where
  element : n.IsElement
  spells : Spells n.text.toList [.node n.named]

/-- The items that stand for an explicit cdr. -/
def restItems : Node → List Item
  | .nil => []
  | cdr => [.rest, .node cdr.named]

theorem moreCars_restItems (cdr : Node) : Item.moreCars cdr.restItems = .ok ([], cdr.named) := by
  cases cdr <;> rfl

theorem isBare_restItems (cdr : Node) : ∀ item ∈ cdr.restItems, item.IsBare := by
  intro item hitem
  cases cdr with
  | nil => cases hitem
  | _ =>
    simp only [restItems, List.mem_cons, List.not_mem_nil, or_false] at hitem
    rcases hitem with rfl | rfl <;> exact trivial

/-! ## Applications -/

variable {head cdr : Node} {args : List Node}

/-- A cdr of its own is written behind the rest marker. -/
theorem Spelled.write_rest (h : cdr.Spelled) :
    ∃ xs, (cdr.write (some ")")).toList = xs ++ [')'] ∧ Ends xs ∧ Spells xs cdr.restItems := by
  have hmarked (text : String) :
      (endingWith (some ")") text).toList = ' ' :: '|' :: ' ' :: text.toList ++ [')'] := by
    rw [endingWith, String.toList_append, String.toList_append]
    rfl
  have hspells : Spells (' ' :: '|' :: ' ' :: cdr.text.toList) [.rest, .node cdr.named] :=
    (Spells.bar.append h.spells.blank ends_blank).blank
  cases cdr with
  | nil => exact ⟨[], rfl, ends_nil, Spells.nil⟩
  | pair _ _ | value _ _ => exact h.element.elim
  | form _ _ | identifier _ | numeral _ | symbol _ => exact ⟨_, hmarked _, ends_blank, hspells⟩

/-- **What follows a car** up to the closing parenthesis spells the cars that follow and the cdr. -/
theorem write_spine (hargs : ∀ n ∈ args, n.Spelled) (hcdr : cdr.Spelled) :
    ∃ xs, ((spine args cdr).write (some ")")).toList = xs ++ [')'] ∧ Ends xs ∧
      Spells xs ((args.map named).map .node ++ cdr.restItems) := by
  induction args with
  | nil => exact hcdr.write_rest
  | cons n args ih =>
    obtain ⟨hn, hargs⟩ := List.forall_mem_cons.mp hargs
    obtain ⟨xs, hxs, hends, hspells⟩ := ih hargs
    have htext : ((spine (n :: args) cdr).write (some ")")).toList =
        ' ' :: (n.text.toList ++ xs) ++ [')'] := by
      change (" " ++ n.write none ++ (spine args cdr).write (some ")")).toList = _
      rw [String.toList_append, String.toList_append, hxs, List.cons_append, List.append_assoc,
        List.append_assoc]
      rfl
    exact ⟨_, htext, ends_blank, (hn.spells.append hspells hends).blank⟩

/-- The application that cars and a cdr spell. -/
theorem construct_form (head : Node) (args : List Node) (cdr : Node) :
    Bracket.form.construct (.node head :: ((args.map named).map .node ++ cdr.restItems)) =
      .ok (.form head (spine args cdr).named) := by
  have hcars : Item.moreCars ((head :: args.map named).map .node ++ cdr.restItems) =
      .ok (head :: args.map named, cdr.named) := by
    simpa using Item.moreCars_append (moreCars_restItems cdr) (head :: args.map named)
  rw [Bracket.construct, if_neg (by simp), named_spine]
  change (Item.moreCars ((head :: args.map named).map .node ++ cdr.restItems) >>= _) = _
  rw [hcars]
  rfl

/-- **A printed application spells itself**, whatever its head stands for. -/
theorem spells_form {n : Node} (hhead : Spells head.text.toList [.node n])
    (hargs : ∀ n ∈ args, n.Spelled) (hcdr : cdr.Spelled) :
    Spells (form head (spine args cdr)).text.toList [.node (.form n (spine args cdr).named)] := by
  obtain ⟨xs, hxs, hends, hspells⟩ := write_spine hargs hcdr
  have htext : (form head (spine args cdr)).text.toList =
      '(' :: (head.text.toList ++ xs ++ [')']) := by
    change ("(" ++ head.write none ++ (spine args cdr).write (some ")")).toList = _
    rw [String.toList_append, String.toList_append, hxs, List.append_assoc, List.append_assoc]
    rfl
  rw [htext]
  refine (hhead.append hspells hends).parenthesized ?_ (construct_form n args cdr)
  refine List.forall_mem_append.mpr ⟨List.forall_mem_singleton.mpr trivial,
    List.forall_mem_append.mpr ⟨fun item hitem => ?_, isBare_restItems cdr⟩⟩
  obtain ⟨n, -, rfl⟩ := List.mem_map.mp hitem
  exact trivial

theorem Spelled.form (hhead : head.Spelled) (hargs : ∀ n ∈ args, n.Spelled) (hcdr : cdr.Spelled) :
    (form head (spine args cdr)).Spelled := by
  refine ⟨trivial, ?_⟩
  have hnamed : (Node.form head (spine args cdr)).named =
      .form head.named (spine args cdr).named := by
    cases head with
    | value _ _ => exact hhead.element.elim
    | _ => rfl
  rw [hnamed]
  exact spells_form hhead.spells hargs hcdr

/-! ## Atoms and primitives -/

/-- A word that reads as an identifier. -/
def IsName (name : String) : Prop :=
  IsWord name ∧ Item.ofToken name = .ok (.node (.identifier name))

/-- **A call of a primitive with a name for its label.** -/
theorem spelled_call {label : String} {b : Builtin} (hlabel : IsName label)
    (hargs : ∀ n ∈ args, n.Spelled) (hcdr : cdr.Spelled) :
    (form (.value label (.builtin b)) (spine args cdr)).Spelled :=
  ⟨trivial, spells_form (Spells.word hlabel.1 hlabel.2) hargs hcdr⟩

theorem spelled_nil : nil.Spelled :=
  ⟨trivial, Spells.nil.parenthesized (fun _ h => absurd h List.not_mem_nil) rfl⟩

theorem spelled_identifier {name : String} (h : IsName name) : (identifier name).Spelled :=
  ⟨trivial, Spells.word h.1 h.2⟩

theorem toList_toString_nat (k : Nat) : (toString k).toList = Nat.toDigits 10 k :=
  Nat.toList_repr

theorem isDigit_of_mem_toString {k : Nat} {c : Char} (hc : c ∈ (toString k).toList) : c.isDigit :=
  Nat.isDigit_of_mem_toDigits (by decide) (by decide) (toList_toString_nat k ▸ hc)

/-- A number in decimal is a word. -/
theorem isWord_numeral (k : Nat) : IsWord (toString k) where
  ne_nil := toList_toString_nat k ▸ Nat.toDigits_ne_nil
  inWord c hc := Token.inWord_of_isAlphanum (by simp [Char.isAlphanum, isDigit_of_mem_toString hc])

/-- **A number in decimal is read as the number.** -/
theorem ofToken_numeral {k : Nat} (hk : k ≤ maxInteger) :
    Item.ofToken (toString k) = .ok (.node (.numeral k)) := by
  have hvalue : Decimal.value (toString k).toList = k := by
    rw [toList_toString_nat]
    exact Nat.ofDigitChars_ten_toDigits
  have hempty : (toString k).isEmpty = false := by
    rw [Bool.eq_false_iff, ne_eq, String.isEmpty_iff]
    exact fun h => (isWord_numeral k).ne_nil (h ▸ rfl)
  have hall : Decimal.isDigits (toString k).toList :=
    List.all_eq_true.mpr fun _ hc => isDigit_of_mem_toString hc
  rw [Item.ofToken, if_pos hall]
  dsimp only
  rw [hvalue, hempty, if_neg (by simpa using hk)]

theorem spelled_numeral {k : Nat} (hk : k ≤ maxInteger) : (numeral k).Spelled :=
  ⟨trivial, Spells.word (isWord_numeral k) (ofToken_numeral hk)⟩

/-- **An atom of a text is a word**, as it is none of the boundaries. -/
theorem isWord_of_atom {code token : String} {n : Node} (htoken : token ∈ Token.lex code)
    (hloose : Loose token) (h : Item.ofToken token = .ok (.node n)) : IsWord token := by
  refine (Token.isBoundary_or_isWord htoken).resolve_left fun hboundary => ?_
  simp only [Token.isBoundary, hloose.1, hloose.2, Option.isSome_none, Bool.or_false,
    Bool.or_eq_true, beq_iff_eq, Option.isSome_iff_exists] at hboundary
  rcases hboundary with (rfl | ⟨op, hop⟩) | ⟨op, hop⟩
  · cases h
  · have htoken := List.find?_some hop
    obtain rfl := eq_of_beq htoken
    cases op <;> cases h
  · have htoken := List.find?_some hop
    obtain rfl := eq_of_beq htoken
    cases op <;> cases h

/-- **An atom of a text is spelled by its own text.** -/
theorem spelled_of_mem_lex {code token : String} {n : Node} (htoken : token ∈ Token.lex code)
    (hloose : Loose token) (h : Item.ofToken token = .ok (.node n)) : n.Spelled := by
  have hword := isWord_of_atom htoken hloose h
  rcases Item.atom_cases h with ⟨k, hk, rfl⟩ | rfl | ⟨name, rfl, rfl⟩
  · exact spelled_numeral hk
  · exact spelled_identifier ⟨hword, h⟩
  · exact ⟨trivial, Spells.word hword h⟩

/-- **The reader does not lead out of what is spelled by its own text.** -/
theorem closed_spelled : Node.Closed Spelled where
  nil := spelled_nil
  binary op left right hl hr := by
    have hlabel : IsName ("_" ++ op.builtin.name) := by cases op <;> exact ⟨by decide, rfl⟩
    exact spelled_call hlabel (by simp [hl, hr]) spelled_nil
  unary op operand h := by
    have hlabel : IsName ("_" ++ op.builtin.name) := by cases op <;> exact ⟨by decide, rfl⟩
    refine spelled_call hlabel (List.forall_mem_append.mpr ⟨?_, by simp [h]⟩) spelled_nil
    cases op with
    | id => exact fun _ h => absurd h List.not_mem_nil
    | ofThis => exact List.forall_mem_singleton.mpr (spelled_identifier ⟨by decide, rfl⟩)
  bracket {b _ _ _} h hargs hcdr := by
    cases b with
    | form => cases h
    | list | array | shorthand | object | dictionary =>
      cases h
      exact spelled_call ⟨by decide, rfl⟩ hargs hcdr
  form := Spelled.form

end Node

/-- Tokens that parse to one node read as the node. -/
theorem read_of_parses {text : String} {n : Node}
    (h : Item.Parses maxNesting (Token.lex text) [.node n]) : read text = .ok [n] := by
  have hparse : Item.parse (Token.lex text) = .ok [.node n] := Item.parse_eq_ok_iff.mpr h
  have hexpand : Item.expand [.node n] = .ok [.node n] :=
    Item.expand_of_bare (List.forall_mem_singleton.mpr trivial)
  calc Fexpr.read text = (Item.expand [.node n] >>= (·.mapM Item.toNode)) := by
        rw [Fexpr.read, hparse]
        rfl
    _ = .ok [n] := by
        rw [hexpand]
        rfl

/-- A text that spells a node reads as the node, if its brackets are not too deep. -/
theorem Spells.read {text : String} {n : Node} (h : Spells text.toList [.node n])
    (hdepth : Nested maxNesting (Token.lex text)) : read text = .ok [n] := by
  obtain ⟨d, hspells⟩ := h
  exact read_of_parses (hspells.parses.of_nested hdepth)

/-- **A node that was read reads back from its text**, if that nests brackets no deeper than the
limit: each primitive at the head of an application comes back as the identifier of its label, and
nothing else changes.  So a node that calls no primitive comes back as it is, and what comes back
prints as the same text. -/
theorem read_text {code : String} {nodes : List Node} {n : Node} (h : read code = .ok nodes)
    (hn : n ∈ nodes) (hdepth : Nested maxNesting (Token.lex n.text)) :
    read n.text = .ok [n.named] ∧ (n.named = n ↔ ¬n.CallsPrimitive) ∧ n.named.text = n.text := by
  have hspelled : n.Spelled :=
    forall_of_read Node.closed_spelled (fun _ ht hl _ => Node.spelled_of_mem_lex ht hl) h n hn
  exact ⟨hspelled.spells.read hdepth, n.named_eq_self_iff, n.write_named none⟩

/-- A call whose arguments are a pair and a list with an explicit rest. -/
theorem call_with_dotted_list_reads_back :
    ∃ n, read "(f a:b [c | d])" = .ok [n] ∧ n.text = "(f (_cons a b) (_list c | d))" ∧
      Nested maxNesting (Token.lex n.text) ∧ read n.text = .ok [n.named] ∧
      (n.named = n ↔ ¬n.CallsPrimitive) ∧ n.named.text = n.text := by
  have hread : (read "(f a:b [c | d])").toOption.map (·.map Node.text) =
      some ["(f (_cons a b) (_list c | d))"] := by
    decide +kernel
  have hparse : (Item.parse (Token.lex "(f (_cons a b) (_list c | d))")).isOk := by decide +kernel
  obtain ⟨nodes, hnodes, htexts⟩ := Option.map_eq_some_iff.mp hread
  obtain ⟨n, rfl, htext⟩ := List.map_eq_singleton_iff.mp htexts
  have hnested : Nested maxNesting (Token.lex n.text) := by
    rw [htext]
    cases hitems : Item.parse (Token.lex "(f (_cons a b) (_list c | d))") with
    | error e =>
      rw [hitems] at hparse
      cases hparse
    | ok items => exact (Item.parse_eq_ok_iff.mp hitems).nested
  have hn : read "(f a:b [c | d])" = .ok [n] := by
    cases hread : read "(f a:b [c | d])" with
    | error e =>
      rw [hread] at hnodes
      cases hnodes
    | ok nodes =>
      rw [hread] at hnodes
      exact congrArg Except.ok (Option.some.inj hnodes)
  exact ⟨n, hn, htext, hnested, read_text hn List.mem_cons_self hnested⟩

end Fexpr
