import Fexpr.Proofs.Reader.Rests
import Fexpr.Reader

/-!
# Proofs/Reader/Nesting — brackets parse exactly if they nest

Tokens are **well-nested** (`Token.Nested`) if every opener is closed by its own closer behind
tokens that are well-nested themselves.  The parser finds the partner of an opener by counting, and
counts only the brackets that end like it; what stands between two brackets that belong together
adds nothing to any count (`Bracket.splitAt?_append`), so the place where a count ends is the
partner.

Hence parsing is an induction over the nesting (`Item.Parses`), and the parser returns exactly what
that derives (`Item.parse_eq_ok_iff`).  Whatever parses is well-nested to the limit, and all plain
atoms in brackets that are so nested parse (`Item.parse_iff_nested`).
-/

namespace Fexpr

section

variable {ε α β : Type}

/-- A sequence that succeeds is two successes. -/
theorem exists_of_bind_ok {x : Except ε α} {f : α → Except ε β} {b : β} (h : x >>= f = .ok b) :
    ∃ a, x = .ok a ∧ f a = .ok b := by
  cases x with
  | error e => cases h
  | ok a => exact ⟨a, rfl, h⟩

/-- What a successful `mapM` returns comes from its list. -/
theorem exists_of_mem_mapM {f : α → Except ε β} {xs : List α} {ys : List β}
    (h : xs.mapM f = .ok ys) : ∀ y ∈ ys, ∃ x ∈ xs, f x = .ok y := by
  induction xs generalizing ys with
  | nil =>
    cases h
    exact fun y hy => absurd hy List.not_mem_nil
  | cons x xs ih =>
    rw [List.mapM_cons] at h
    obtain ⟨y, hy, h⟩ := exists_of_bind_ok h
    obtain ⟨zs, hzs, h⟩ := exists_of_bind_ok h
    cases h
    intro z hz
    rcases List.mem_cons.mp hz with rfl | hz
    · exact ⟨x, List.mem_cons_self, hy⟩
    · obtain ⟨x', hx', hf⟩ := ih hzs z hz
      exact ⟨x', List.mem_cons_of_mem x hx', hf⟩

end

/-! ## Openers and closers -/

namespace Bracket

variable {b b' : Bracket} {token : String}

theorem ofOpener?_opener (b : Bracket) : ofOpener? b.opener = some b := by
  cases b <;> decide

theorem eq_opener (h : ofOpener? token = some b) : token = b.opener := by
  have hb := List.find?_some h
  exact (eq_of_beq hb).symm

theorem opener_inj (h : b.opener = b'.opener) : b = b' := by
  have hb := ofOpener?_opener b
  rw [h, ofOpener?_opener] at hb
  exact (Option.some.inj hb).symm

theorem isCloser_closer (b : Bracket) : isCloser b.closer := by
  cases b <;> decide

theorem ofOpener?_closer (b : Bracket) : ofOpener? b.closer = none := by
  cases b <;> decide

theorem opener_ne_closer (b b' : Bracket) : b.opener ≠ b'.closer := by
  intro h
  have hb := ofOpener?_opener b
  rw [h, ofOpener?_closer] at hb
  cases hb

end Bracket

namespace Token

/-- **A token that is no bracket.** -/
def Loose (token : String) : Prop :=
  Bracket.ofOpener? token = none ∧ Bracket.isCloser token = false

/-- **Well-nested tokens**: every opener is closed by its own closer, and what stands between them
is nested.  Brackets are at most `d` deep. -/
inductive Nested : Nat → List String → Prop
  | nil {d : Nat} : Nested d []
  | loose {d : Nat} {token : String} {tokens : List String} : Loose token → Nested d tokens →
      Nested d (token :: tokens)
  | bracket {d : Nat} {inner after : List String} (b : Bracket) : Nested d inner →
      Nested (d + 1) after → Nested (d + 1) (b.opener :: (inner ++ b.closer :: after))

end Token

open Token (Loose Nested)

/-! ## The partner of an opener -/

namespace Bracket

variable {b : Bracket} {d k : Nat} {token : String} {tokens xs ys inner after : List String}

theorem ne_closer_of_loose (h : Loose token) (b : Bracket) : token ≠ b.closer := by
  rintro rfl
  exact Bool.false_ne_true (h.2.symm.trans b.isCloser_closer)

/-- A cut further on, seen from before `xs`. -/
def ahead (xs : List String) (cut : List String × List String) : List String × List String :=
  (xs ++ cut.1, cut.2)

theorem map_ahead (xs ys : List String) (cut : Option (List String × List String)) :
    (cut.map (ahead ys)).map (ahead xs) = cut.map (ahead (xs ++ ys)) := by
  cases cut <;> simp [ahead]

theorem splitAt?_closer_zero (b : Bracket) (tokens : List String) :
    b.splitAt? 0 (b.closer :: tokens) = some ([], tokens) := by
  rw [splitAt?, if_pos (beq_self_eq_true _)]

theorem splitAt?_closer_succ (b : Bracket) (k : Nat) (tokens : List String) :
    b.splitAt? (k + 1) (b.closer :: tokens) = (b.splitAt? k tokens).map (ahead [b.closer]) := by
  rw [splitAt?, if_pos (beq_self_eq_true _)]
  rfl

theorem splitAt?_of_ne (h : token ≠ b.closer) (k : Nat) (tokens : List String) :
    b.splitAt? k (token :: tokens) =
      (b.splitAt? (if (ofOpener? token).any (·.closer == b.closer) then k + 1 else k) tokens).map
        (ahead [token]) := by
  rw [splitAt?.eq_def]
  exact if_neg (by rwa [beq_iff_eq])

/-- **Nested brackets do not count**: whatever is cut behind them is cut at the same place. -/
theorem splitAt?_append (h : Nested d xs) (b : Bracket) (k : Nat) (ys : List String) :
    b.splitAt? k (xs ++ ys) = (b.splitAt? k ys).map (ahead xs) := by
  induction h generalizing k ys with
  | nil =>
    rw [List.nil_append]
    cases b.splitAt? k ys <;> rfl
  | @loose d token tokens hloose _ ih =>
    rw [List.cons_append, splitAt?_of_ne (ne_closer_of_loose hloose b), hloose.1, ih, map_ahead]
    rfl
  | @bracket d inner after b' _ _ ih ih' =>
    rw [List.cons_append, List.append_assoc, List.cons_append,
      splitAt?_of_ne (opener_ne_closer b' b), ofOpener?_opener, ih]
    by_cases hcloser : b'.closer = b.closer
    · -- one bracket more is open inside, and its closer is the next to count
      rw [Option.any_some, hcloser, if_pos (beq_self_eq_true _), splitAt?_closer_succ, ih']
      simp only [map_ahead, List.cons_append, List.nil_append]
    · rw [splitAt?_of_ne hcloser, ofOpener?_closer, Option.any_some,
        beq_false_of_ne hcloser]
      simp only [Bool.false_eq_true, if_false, Option.any_none, ih', map_ahead, List.cons_append,
        List.nil_append]

/-- **The cut is at the partner.** -/
theorem splitAt?_nested (h : Nested d inner) (b : Bracket) (after : List String) :
    b.splitAt? 0 (inner ++ b.closer :: after) = some (inner, after) := by
  rw [splitAt?_append h, splitAt?_closer_zero]
  simp [ahead]

/-- A cut takes a closer out. -/
theorem eq_of_splitAt? (h : b.splitAt? k tokens = some (inner, after)) :
    tokens = inner ++ b.closer :: after := by
  induction tokens generalizing k inner after with
  | nil => cases h
  | cons token tokens ih =>
    by_cases hcloser : token = b.closer
    · subst hcloser
      cases k with
      | zero =>
        rw [splitAt?_closer_zero] at h
        cases h
        rfl
      | succ k =>
        rw [splitAt?_closer_succ] at h
        obtain ⟨⟨i, a⟩, hcut, heq⟩ := Option.map_eq_some_iff.mp h
        cases heq
        rw [ih hcut]
        rfl
    · rw [splitAt?_of_ne hcloser] at h
      obtain ⟨⟨i, a⟩, hcut, heq⟩ := Option.map_eq_some_iff.mp h
      cases heq
      rw [ih hcut]
      rfl

end Bracket

namespace Token

variable {d d' : Nat} {xs ys inner inner' after after' : List String}

/-- **An opener has one partner.** -/
theorem Nested.partner_unique (h : Nested d inner) (h' : Nested d' inner') (b : Bracket)
    (heq : inner ++ b.closer :: after = inner' ++ b.closer :: after') :
    inner = inner' ∧ after = after' := by
  have hcut := Bracket.splitAt?_nested h b after
  rw [heq, Bracket.splitAt?_nested h' b after'] at hcut
  cases hcut
  exact ⟨rfl, rfl⟩

end Token

/-! ## Parsing -/

namespace Item

/-- **What the tokens of a level parse to**, inside of which brackets are at most `d` deep: a loose
token is an item, and a bracket is the node that is built from the tokens between its opener and the
partner of that. -/
inductive Parses : Nat → List String → List Item → Prop
  | nil {d : Nat} : Parses d [] []
  | loose {d : Nat} {token : String} {tokens : List String} {item : Item} {items : List Item} :
      Loose token → ofToken token = .ok item → Parses d tokens items →
      Parses d (token :: tokens) (item :: items)
  | bracket {d : Nat} {inner after : List String} {parsed contents items : List Item} {node : Node}
      (b : Bracket) : Parses d inner parsed → expand parsed = .ok contents →
      b.construct contents = .ok node → Parses (d + 1) after items →
      Parses (d + 1) (b.opener :: (inner ++ b.closer :: after)) (.node node :: items)

variable {d depth : Nat} {token : String} {tokens inner after : List String} {items : List Item}

theorem Parses.nested (h : Parses d tokens items) : Nested d tokens := by
  induction h with
  | nil => exact .nil
  | loose hloose _ _ ih => exact .loose hloose ih
  | bracket b _ _ _ _ ih ih' => exact .bracket b ih ih'

theorem Parses.mono {d' : Nat} (h : Parses d tokens items) (hd : d ≤ d') :
    Parses d' tokens items := by
  induction h generalizing d' with
  | nil => exact .nil
  | loose hloose hitem _ ih => exact .loose hloose hitem (ih hd)
  | bracket b _ hexpand hnode _ ih ih' =>
    obtain ⟨d', rfl⟩ : ∃ e, d' = e + 1 := ⟨d' - 1, by omega⟩
    exact .bracket b (ih (Nat.le_of_succ_le_succ hd)) hexpand hnode (ih' hd)

theorem Parses.append {tokens' : List String} {items' : List Item} (h : Parses d tokens items)
    (h' : Parses d tokens' items') : Parses d (tokens ++ tokens') (items ++ items') := by
  induction h with
  | nil => exact h'
  | loose hloose hitem _ ih => exact .loose hloose hitem (ih h')
  | bracket b hinner hexpand hnode _ _ ih' =>
    rw [List.cons_append, List.append_assoc, List.cons_append]
    exact .bracket b hinner hexpand hnode (ih' h')

/-- **The bound of the depth does not matter**, as long as the tokens stay within it. -/
theorem Parses.of_nested {d' : Nat} (h : Parses d' tokens items) (hnested : Nested d tokens) :
    Parses d tokens items := by
  induction h generalizing d with
  | nil => exact .nil
  | loose hloose hitem _ ih =>
    cases hnested with
    | loose _ hrest => exact .loose hloose hitem (ih hrest)
    | bracket b => exact absurd (b.ofOpener?_opener.symm.trans hloose.1) (Option.some_ne_none b)
  | @bracket d' inner after _ _ _ _ b hinner hexpand hnode hafter ih ih' =>
    generalize htokens : b.opener :: (inner ++ b.closer :: after) = tokens at hnested
    cases hnested with
    | nil => cases htokens
    | loose hloose =>
      obtain ⟨rfl, -⟩ := List.cons.inj htokens
      exact absurd (b.ofOpener?_opener.symm.trans hloose.1) (Option.some_ne_none b)
    | @bracket d inner' after' b' hinner' hafter' =>
      obtain ⟨hopener, hrest⟩ := List.cons.inj htokens
      obtain rfl := Bracket.opener_inj hopener
      obtain ⟨rfl, rfl⟩ := hinner.nested.partner_unique hinner' b hrest
      exact .bracket b (ih hinner') hexpand hnode (ih' hafter')

theorem parseAt_loose (h : Loose token) (depth : Nat) (tokens : List String) :
    parseAt depth (token :: tokens) = (do
      let item ← ofToken token
      let items ← parseAt depth tokens
      return item :: items) := by
  rw [parseAt.eq_def]
  dsimp only
  split
  · next b hb =>
    rw [h.1] at hb
    cases hb
  · rw [h.2]
    rfl

theorem parseAt_closer (hopen : Bracket.ofOpener? token = none) (hclose : Bracket.isCloser token)
    (depth : Nat) (tokens : List String) :
    parseAt depth (token :: tokens) = .error (.unexpectedCloser token) := by
  rw [parseAt.eq_def]
  dsimp only
  split
  · next b hb =>
    rw [hopen] at hb
    cases hb
  · rw [if_pos hclose]

theorem parseAt_unbalanced {b : Bracket} (h : b.splitAt? 0 tokens = none) (depth : Nat) :
    parseAt depth (b.opener :: tokens) = .error (.unbalanced b.opener) := by
  rw [parseAt.eq_def]
  dsimp only
  split
  · next b' hb =>
    rw [Bracket.ofOpener?_opener] at hb
    cases hb
    split
    · rfl
    · next hsome =>
      rw [h] at hsome
      cases hsome
  · next hnone =>
    rw [Bracket.ofOpener?_opener] at hnone
    cases hnone

theorem parseAt_bracket {b : Bracket} (h : b.splitAt? 0 tokens = some (inner, after))
    (depth : Nat) :
    parseAt depth (b.opener :: tokens) = (do
      if maxNesting ≤ depth then throw .tooDeep
      let contents ← expand (← parseAt (depth + 1) inner)
      let node ← b.construct contents
      let items ← parseAt depth after
      return .node node :: items) := by
  rw [parseAt.eq_def]
  dsimp only
  split
  · next b' hb =>
    rw [Bracket.ofOpener?_opener] at hb
    cases hb
    split
    · next hnone =>
      rw [h] at hnone
      cases hnone
    · next inner' after' hsome =>
      rw [h] at hsome
      cases hsome
      rfl
  · next hnone =>
    rw [Bracket.ofOpener?_opener] at hnone
    cases hnone

/-- What is built by the rules is what the parser returns. -/
theorem Parses.parseAt (h : Parses d tokens items) (hdepth : depth + d = maxNesting) :
    Item.parseAt depth tokens = .ok items := by
  induction h generalizing depth with
  | nil => rw [parseAt.eq_def]
  | loose hloose hitem _ ih =>
    rw [parseAt_loose hloose, hitem, ih hdepth]
    rfl
  | @bracket d inner after parsed contents items node b hinner hexpand hnode hafter ih ih' =>
    have hlimit : ¬maxNesting ≤ depth := by omega
    rw [parseAt_bracket (Bracket.splitAt?_nested hinner.nested b after), if_neg hlimit,
      ih (by omega), ih' hdepth]
    simp only [bind, Except.bind, pure, Except.pure, hexpand, hnode]

/-- **What the parser returns is built by the rules.** -/
theorem parses_of_parseAt (h : Item.parseAt depth tokens = .ok items)
    (hdepth : depth + d = maxNesting) : Parses d tokens items := by
  induction hn : tokens.length using Nat.strongRecOn generalizing depth d tokens items with
  | _ n ih =>
    subst hn
    cases tokens with
    | nil =>
      rw [parseAt.eq_def] at h
      cases h
      exact .nil
    | cons token tokens =>
      cases hopen : Bracket.ofOpener? token with
      | none =>
        cases hclose : Bracket.isCloser token with
        | true =>
          rw [parseAt_closer hopen hclose] at h
          cases h
        | false =>
          have hloose : Loose token := ⟨hopen, hclose⟩
          rw [parseAt_loose hloose] at h
          obtain ⟨item, hitem, h⟩ := exists_of_bind_ok h
          obtain ⟨rest, hrest, h⟩ := exists_of_bind_ok h
          cases h
          exact .loose hloose hitem (ih tokens.length (by simp) hrest hdepth rfl)
      | some b =>
        obtain rfl := Bracket.eq_opener hopen
        cases hsplit : b.splitAt? 0 tokens with
        | none =>
          rw [parseAt_unbalanced hsplit] at h
          cases h
        | some cut =>
          obtain ⟨inner, after⟩ := cut
          have hlength := Bracket.length_of_splitAt? hsplit
          rw [parseAt_bracket hsplit] at h
          split at h
          · cases h
          next hlimit =>
          obtain ⟨d, rfl⟩ : ∃ e, d = e + 1 := ⟨d - 1, by omega⟩
          obtain ⟨parsed, hparsed, h⟩ := exists_of_bind_ok h
          obtain ⟨contents, hcontents, h⟩ := exists_of_bind_ok h
          obtain ⟨node, hnode, h⟩ := exists_of_bind_ok h
          obtain ⟨rest, hrest, h⟩ := exists_of_bind_ok h
          cases h
          have hinner : Parses d inner parsed :=
            ih inner.length (by simp only [List.length_cons]; omega) hparsed (by omega) rfl
          have hafter : Parses (d + 1) after rest :=
            ih after.length (by simp only [List.length_cons]; omega) hrest hdepth rfl
          rw [Bracket.eq_of_splitAt? hsplit]
          exact .bracket b hinner hcontents hnode hafter

/-- **Parsing is what the rules say.** -/
theorem parse_eq_ok_iff : parse tokens = .ok items ↔ Parses maxNesting tokens items :=
  ⟨fun h => parses_of_parseAt h (Nat.zero_add _), fun h => h.parseAt (Nat.zero_add _)⟩

/-! ## Levels of nodes -/

variable {nodes : List Node}

/-- **Every bracket is built from nodes**, whatever its kind and however many there are. -/
theorem exists_construct (b : Bracket) (nodes : List Node) :
    ∃ n, b.construct (nodes.map .node) = .ok n := by
  rw [Bracket.construct]
  split
  · exact ⟨_, rfl⟩
  · next hnil =>
    split
    · next hhead =>
      rw [toForm, carsAndCdr_nodes]
      cases nodes with
      | nil => exact ⟨_, rfl⟩
      | cons n nodes => exact ⟨_, rfl⟩
    · rw [toSpine, carsAndCdr_nodes]
      exact ⟨_, rfl⟩

end Item

/-- **A plain atom**: neither empty nor an operator nor the rest marker, and an integer of the
language if it is a run of digits. -/
structure Token.Plain (token : String) : Prop where
  ne_empty : token ≠ ""
  ne_restMarker : token ≠ Token.restMarker
  binary : BinaryOperator.ofToken? token = none
  unary : UnaryOperator.ofToken? token = none
  inRange : Decimal.isDigits token.toList → Decimal.value token.toList ≤ maxInteger

namespace Item

variable {d : Nat} {token : String} {tokens : List String}

theorem exists_ofToken (h : Token.Plain token) : ∃ n, ofToken token = .ok (.node n) := by
  rw [ofToken]
  split
  · next hdigits =>
    have hempty : token.isEmpty = false := by
      rw [Bool.eq_false_iff, ne_eq, String.isEmpty_iff]
      exact h.ne_empty
    have hrange : ¬maxInteger < Decimal.value token.toList := Nat.not_lt_of_le (h.inRange hdigits)
    dsimp only
    rw [hempty, if_neg (by simpa using hrange)]
    exact ⟨_, rfl⟩
  · rw [if_neg (by simpa using h.ne_restMarker), h.binary, h.unary]
    dsimp only
    split <;> exact ⟨_, rfl⟩

/-- Well-nested brackets around plain atoms parse. -/
theorem exists_parses_of_nested (h : Nested d tokens)
    (hplain : ∀ token ∈ tokens, Loose token → Token.Plain token) :
    ∃ nodes : List Node, Parses d tokens (nodes.map .node) := by
  induction h with
  | nil => exact ⟨[], .nil⟩
  | @loose d token tokens hloose _ ih =>
    obtain ⟨hhead, htail⟩ := List.forall_mem_cons.mp hplain
    obtain ⟨n, hn⟩ := exists_ofToken (hhead hloose)
    obtain ⟨nodes, hnodes⟩ := ih htail
    exact ⟨n :: nodes, .loose hloose hn hnodes⟩
  | @bracket d inner after b _ _ ih ih' =>
    obtain ⟨parsed, hparsed⟩ := ih fun token ht => hplain token (by simp [ht])
    obtain ⟨nodes, hnodes⟩ := ih' fun token ht => hplain token (by simp [ht])
    obtain ⟨n, hn⟩ := exists_construct b parsed
    have hexpand : expand (parsed.map .node) = .ok (parsed.map .node) :=
      expand_of_bare fun item hitem => by
        obtain ⟨m, -, rfl⟩ := List.mem_map.mp hitem
        exact trivial
    exact ⟨n :: nodes, .bracket b hparsed hexpand hn hnodes⟩

/-- **Brackets parse exactly if they nest.**  What parses is well-nested and no deeper than the
limit, and parses by the rules, each bracket from the tokens up to its one partner; and what is so
nested parses, if everything else is a plain atom. -/
theorem parse_iff_nested (tokens : List String) :
    (∀ items, parse tokens = .ok items ↔ Parses maxNesting tokens items) ∧
    (∀ items, parse tokens = .ok items → Nested maxNesting tokens) ∧
    (Nested maxNesting tokens → (∀ token ∈ tokens, Loose token → Token.Plain token) →
      ∃ items, parse tokens = .ok items) ∧
    ∀ (b : Bracket) {d d' : Nat} {inner inner' after after' : List String}, Nested d inner →
      Nested d' inner' → inner ++ b.closer :: after = inner' ++ b.closer :: after' →
      inner = inner' ∧ after = after' := by
  refine ⟨fun items => parse_eq_ok_iff, fun items h => (parse_eq_ok_iff.mp h).nested,
    fun hnested hplain => ?_, fun b _ _ _ _ _ _ h h' => h.partner_unique h' b⟩
  obtain ⟨nodes, hnodes⟩ := exists_parses_of_nested hnested hplain
  exact ⟨_, parse_eq_ok_iff.mpr hnodes⟩

/-- A list of a name inside a call. -/
theorem list_in_call_parses :
    Nested maxNesting ["(", "f", "[", "f", "]", ")"] ∧
      ∃ items, parse ["(", "f", "[", "f", "]", ")"] = .ok items := by
  have hloose : Loose "f" := ⟨by decide, by decide⟩
  have hplain : Token.Plain "f" :=
    ⟨by decide, by decide, by decide, by decide, fun h => absurd h (by decide)⟩
  have hlist : Nested (maxNesting - 1) ["f", "[", "f", "]"] :=
    .loose hloose (@Nested.bracket _ ["f"] [] .list (.loose hloose .nil) .nil)
  have hcall : Nested maxNesting ["(", "f", "[", "f", "]", ")"] :=
    @Nested.bracket _ ["f", "[", "f", "]"] [] .form hlist .nil
  refine ⟨hcall, (parse_iff_nested _).2.2.1 hcall fun token ht hl => ?_⟩
  simp only [List.mem_cons, List.not_mem_nil, or_false] at ht
  rcases ht with rfl | rfl | rfl | rfl | rfl | rfl
  · exact absurd hl.1 (by decide)
  · exact hplain
  · exact absurd hl.1 (by decide)
  · exact hplain
  · exact absurd hl.2 (by decide)
  · exact absurd hl.2 (by decide)

end Item

end Fexpr
