import Fexpr.Program
import Fexpr.Proofs.Arena.Placement
import Fexpr.Proofs.Combinators
import Fexpr.Proofs.Moments
import Fexpr.Proofs.Reader.RoundTrip

/-!
# Proofs/Data — data survive being printed, read and run

**Data** are the constants, the numbers, the symbols and the pairs of data (`Value.IsDatum`).  The
text of a datum is a program whose value is the datum, and which changes nothing but the log
(`Value.IsDatum.run_text`).

The two halves meet at a node: the **literal** of a value follows the printer through its text
(`Value.literal`).  The text of a datum reads as its literal, at as many levels of brackets as lists
are nested in the datum (`Value.IsDatum.read_eq`), and the literal evaluates to the datum, at two
levels of evaluation for each level of nesting (`Value.IsDatum.evaluated`).
-/

namespace Fexpr

open Token (Ends IsWord ends_nil ends_blank ends_closeList)

namespace Value

/-- **Data**: the constants, the numbers and the symbols that can be written, and pairs of data. -/
inductive IsDatum : Value → Prop
  | nil : IsDatum .nil
  | void : IsDatum .void
  | bool (b : Bool) : IsDatum (.bool b)
  | integer {k : Nat} : k ≤ maxInteger → IsDatum (.integer k)
  | symbol {name : String} : name ≠ "" → (∀ c ∈ name.toList, c.isAlphanum ∨ c = '-') →
      IsDatum (.symbol name)
  | pair {car cdr : Value} : IsDatum car → IsDatum cdr → IsDatum (.pair car cdr)

/-- **How deep lists are nested** in a value; what ends a list is no deeper than the list. -/
def nesting : Value → Nat
  | .pair car cdr => max (car.nesting + 1) cdr.nesting
  | _ => 0

/-- The name of a truth value. -/
def boolName (b : Bool) : String :=
  if b then "true" else "false"

/-- **The node that the text of a value reads as**, by the place of the value.  A value without a
notation stands for itself. -/
def literal : Place → Value → Node
  | .rest, .nil => .nil
  | .rest, .pair car cdr => .pair (car.literal .inside) (cdr.literal .rest)
  | _, .pair car cdr =>
    .form (.value "_list" (.builtin .list)) (.pair (car.literal .inside) (cdr.literal .rest))
  | _, .nil => .identifier "nil"
  | _, .void => .identifier "void"
  | _, .bool b => .identifier (boolName b)
  | _, .integer n => .numeral n.toNat
  | _, .symbol name => .symbol name
  | _, v => .quoted v

/-! ## Reading -/

/-- **What follows a car in the text of a list**, up to the closing bracket, spells items that fold
into a spine. -/
def Continues (d : Nat) (text : List Char) (spine : Node) : Prop :=
  ∃ xs items cars cdr, text = xs ++ [']'] ∧ Ends xs ∧ SpellsWithin d xs items ∧
    (∀ item ∈ items, item.IsBare) ∧ Item.moreCars items = .ok (cars, cdr) ∧
    Node.spine cars cdr = spine

/-- The text of a value spells its literal, at as many levels of brackets as lists are nested in the
value. -/
structure Spelled (record : Value → String) (v : Value) : Prop where
  inside : ∀ {d : Nat}, v.nesting ≤ d →
    SpellsWithin d (v.write record .inside).toList [.node (v.literal .inside)]
  rest : ∀ {d : Nat}, v.nesting ≤ d + 1 →
    Continues d (v.write record .rest).toList (v.literal .rest)

variable {record : Value → String} {v car cdr : Value} {d : Nat} {word : String} {n : Node}

theorem continues_nil : Continues d "]".toList .nil :=
  ⟨[], [], [], .nil, rfl, ends_nil, .nil, fun _ h => absurd h List.not_mem_nil, rfl, rfl⟩

/-- A word of its own ends a list behind the rest marker. -/
theorem continues_word (hword : IsWord word) (hitem : Item.ofToken word = .ok (.node n)) :
    Continues d (Place.fit .rest word).toList n := by
  have hspells : SpellsWithin d (' ' :: '|' :: ' ' :: word.toList) [.rest, .node n] :=
    (SpellsWithin.bar.append (SpellsWithin.word hword hitem).blank ends_blank).blank
  refine ⟨_, _, [], n, ?_, ends_blank, hspells, ?_, rfl, rfl⟩
  · rw [Place.fit, String.toList_append, String.toList_append]
    rfl
  · simp only [List.mem_cons, List.not_mem_nil, or_false]
    rintro item (rfl | rfl) <;> exact trivial

/-- **An atom is spelled by a word.** -/
theorem spelled_word (hword : IsWord word) (hitem : Item.ofToken word = .ok (.node n))
    (hwrite : ∀ place, v.write record place = place.fit word)
    (hliteral : ∀ place, v.literal place = n) : v.Spelled record where
  inside _ := by
    rw [hwrite, hliteral]
    exact .word hword hitem
  rest _ := by
    rw [hwrite, hliteral]
    exact continues_word hword hitem

/-- A car in front of what continues a list. -/
theorem Continues.cons {text : String} {spine : Node} (h : Continues d text.toList spine)
    (hcar : SpellsWithin d word.toList [.node n]) :
    Continues d (" " ++ word ++ text).toList (.pair n spine) := by
  obtain ⟨xs, items, cars, cdr, htext, hends, hspells, hbare, hcars, rfl⟩ := h
  refine ⟨_, _, n :: cars, cdr, ?_, ends_blank, (hcar.append hspells hends).blank,
    List.forall_mem_cons.mpr ⟨trivial, hbare⟩, ?_, rfl⟩
  · rw [String.toList_append, String.toList_append, htext, List.cons_append, List.append_assoc,
      List.append_assoc]
    rfl
  · rw [List.singleton_append, Item.moreCars, hcars]
    rfl

/-- **A list spells a call of the primitive** that the reader puts in place of its brackets. -/
theorem Continues.bracketed {text : String} {spine : Node} (h : Continues d text.toList spine)
    (hcar : SpellsWithin d word.toList [.node n]) :
    SpellsWithin (d + 1) ("[" ++ word ++ text).toList
      [.node (.form (.value "_list" (.builtin .list)) (.pair n spine))] := by
  obtain ⟨xs, items, cars, cdr, htext, hends, hspells, hbare, hcars, rfl⟩ := h
  have htoList : ("[" ++ word ++ text).toList = '[' :: (word.toList ++ xs ++ [']']) := by
    rw [String.toList_append, String.toList_append, htext, List.append_assoc, List.append_assoc]
    rfl
  have hnode : Bracket.list.construct (.node n :: items) =
      .ok (.form (.value "_list" (.builtin .list)) (.pair n (.spine cars cdr))) := by
    have hmore : Item.carsAndCdr (.node n :: items) = .ok (n :: cars, cdr) := by
      change Item.moreCars (.node n :: items) = _
      rw [Item.moreCars, hcars]
      rfl
    rw [Bracket.construct, if_neg (by simp)]
    change (Item.toSpine (.node n :: items) >>= _) = _
    rw [Item.toSpine, hmore]
    rfl
  rw [htoList]
  exact (hcar.append hspells hends).bracketed (b := .list) (Token.scan_openList [])
    (Token.scan_closeList []) (fun _ => ends_closeList) (List.forall_mem_cons.mpr ⟨trivial, hbare⟩)
    hnode

theorem spelled_nil : Spelled record .nil where
  inside _ := by
    have hword : IsWord "nil" := by decide
    have hitem : Item.ofToken "nil" = .ok (.node (.identifier "nil")) := rfl
    exact .word hword hitem
  -- at the end of a list it is not written
  rest _ := continues_nil

theorem Spelled.pair (hcar : car.Spelled record) (hcdr : cdr.Spelled record) :
    (Value.pair car cdr).Spelled record where
  inside {d} hd := by
    rw [nesting, Nat.max_le] at hd
    obtain ⟨d, rfl⟩ : ∃ e, d = e + 1 := ⟨d - 1, by omega⟩
    exact (hcdr.rest hd.2).bracketed (hcar.inside (Nat.le_of_succ_le_succ hd.1))
  rest hd := by
    rw [nesting, Nat.max_le] at hd
    exact (hcdr.rest hd.2).cons (hcar.inside (Nat.le_of_succ_le_succ hd.1))

/-- A symbol is spelled by its name behind a number sign. -/
theorem spelled_symbol {name : String} (hne : name ≠ "")
    (hname : ∀ c ∈ name.toList, c.isAlphanum ∨ c = '-') : Spelled record (.symbol name) := by
  have htoList : ("#" ++ name).toList = '#' :: name.toList := String.toList_append
  have hword : IsWord ("#" ++ name) := by
    refine ⟨htoList ▸ List.cons_ne_nil _ _, fun c hc => ?_⟩
    rw [htoList, List.mem_cons] at hc
    rcases hc with rfl | hc
    · decide
    · rcases hname c hc with hc | rfl
      · exact Token.inWord_of_isAlphanum hc
      · decide
  have hsymbol : Item.isSymbol ("#" ++ name) := by
    cases hchars : name.toList with
    | nil => exact absurd (String.toList_eq_nil_iff.mp hchars) hne
    | cons c cs =>
      rw [Item.isSymbol, htoList, hchars]
      refine List.all_eq_true.mpr fun d hd => ?_
      simpa using hname d (hchars ▸ hd)
  have hitem : Item.ofToken ("#" ++ name) = .ok (.node (.symbol name)) := by
    have hnone := hword.not_boundary
    simp only [Token.isBoundary, Bool.or_eq_false_iff, Option.isSome_eq_false_iff,
      Option.isNone_iff_eq_none] at hnone
    obtain ⟨⟨⟨⟨hrest, hbinary⟩, hunary⟩, -⟩, -⟩ := hnone
    have hdigits : Decimal.isDigits ("#" ++ name).toList = false := by
      rw [htoList]
      rfl
    rw [Item.ofToken, hdigits, hrest, hbinary, hunary, hsymbol, htoList, List.tail_cons,
      String.ofList_toList]
    rfl
  exact spelled_word hword hitem (by rintro (_ | _ | _) <;> rfl) (by rintro (_ | _ | _) <;> rfl)

/-- **The text of a datum spells its literal.** -/
theorem IsDatum.spelled (h : v.IsDatum) : v.Spelled record := by
  induction h with
  | nil => exact spelled_nil
  | void =>
    have hword : IsWord "void" := by decide
    exact spelled_word hword rfl (by rintro (_ | _ | _) <;> rfl) (by rintro (_ | _ | _) <;> rfl)
  | bool b =>
    have hword : IsWord (boolName b) := by cases b <;> decide
    have hitem : Item.ofToken (boolName b) = .ok (.node (.identifier (boolName b))) := by
      cases b <;> rfl
    exact spelled_word hword hitem (by rintro (_ | _ | _) <;> rfl) (by rintro (_ | _ | _) <;> rfl)
  | integer hk =>
    exact spelled_word (Node.isWord_numeral _) (Node.ofToken_numeral hk)
      (by rintro (_ | _ | _) <;> rfl) (by rintro (_ | _ | _) <;> rfl)
  | symbol hne hname => exact spelled_symbol hne hname
  | pair _ _ ihcar ihcdr => exact ihcar.pair ihcdr

/-- A datum prints alone as it does inside another value. -/
theorem IsDatum.exists_text_eq (h : v.IsDatum) (st : Store) :
    ∃ record, st.text v = v.write record .inside := by
  have halone : ∀ record, v.write record .alone = v.write record .inside := by
    intro record
    cases h <;> rfl
  rw [Store.text]
  cases st.recordCount with
  | zero => exact ⟨_, halone _⟩
  | succ n => exact ⟨_, halone _⟩

/-- **The text of a datum reads as its literal**, if lists are nested in the datum no deeper than
brackets may be. -/
theorem IsDatum.read_eq (h : v.IsDatum) (hnesting : v.nesting ≤ maxNesting) (st : Store) :
    read (st.text v) = .ok [v.literal .inside] := by
  obtain ⟨record, htext⟩ := h.exists_text_eq st
  rw [htext]
  exact read_of_parses (h.spelled.inside hnesting).parses

end Value

/-! ## Evaluating -/

namespace Eval

variable {α β : Type} {x : Eval α} {cfg : Config} {s : State} {a : α} {b : β}

/-- **The computation delivers** `a` and changes nothing but the log. -/
def Delivers (x : Eval α) (cfg : Config) (s : State) (a : α) : Prop :=
  ∃ log, x cfg s = .ok a { s with log }

theorem delivers_pure (a : α) : Delivers (pure a) cfg s a :=
  ⟨s.log, rfl⟩

theorem Delivers.bind (hx : Delivers x cfg s a) {f : α → Eval β}
    (hf : ∀ log, Delivers (f a) cfg { s with log } b) : Delivers (x >>= f) cfg s b := by
  obtain ⟨log, hx⟩ := hx
  obtain ⟨log', hf⟩ := hf log
  refine ⟨log', ?_⟩
  rw [bind_apply, hx]
  exact hf

theorem Delivers.deeper (hdepth : s.depth < cfg.maxDepth)
    (hx : Delivers x cfg { s with depth := s.depth + 1 } a) : Delivers (Eval.deeper x) cfg s a := by
  obtain ⟨log, hx⟩ := hx
  refine ⟨log, ?_⟩
  rw [Eval.deeper, if_neg (Nat.not_le_of_lt hdepth), hx]
  rfl

end Eval

/-- The constants of the language under their names. -/
def constants : Row :=
  [("nil", .nil), ("void", .void), ("true", .bool true), ("false", .bool false)]

/-- **The constants have their names** in the scope and everything it sees. -/
def Arena.KnowsConstants (a : Arena) (scope : ScopeId) : Prop :=
  ∀ b ∈ constants, a.get? scope b.1 = some b.2

namespace Value

open Eval (Delivers)

variable {scope : ScopeId} {cfg : Config} {s : State} {v : Value} {fuel d : Nat}

theorem delivers_eval {node : Node} (hfuel : 1 ≤ fuel) (hdepth : s.depth < cfg.maxDepth)
    (h : ∀ r, Delivers (evalNode r node scope) cfg { s with depth := s.depth + 1 } v) :
    Delivers ((Evaluator.ofFuel fuel).eval node scope) cfg s v := by
  obtain ⟨n, rfl⟩ := Nat.exists_eq_add_of_le' hfuel
  exact (h _).deeper hdepth

/-- **The call that a list is read as** answers the list of the values of its elements. -/
theorem delivers_list {car cdr : Node} {n : Nat} (hdepth : s.depth + 2 ≤ cfg.maxDepth)
    (h : ∀ log, Delivers (evalSpine (.ofFuel n) scope (.pair car cdr)) cfg
      { s with depth := s.depth + 2, log } v) :
    Delivers ((Evaluator.ofFuel (n + 3)).eval
      (.form (.value "_list" (.builtin .list)) (.pair car cdr)) scope) cfg s v := by
  refine Delivers.deeper (by omega) (Delivers.bind (a := .builtin .list) ?_ fun log => ?_)
  · exact delivers_eval (by omega) hdepth fun _ => Eval.delivers_pure _
  · refine Delivers.bind (Eval.trace_apply _ cfg _) fun log' => ?_
    exact Delivers.deeper hdepth (h log')

/-- Evaluating the node alone gives the value, where the constants have their names. -/
def GivenBy (scope : ScopeId) (v : Value) (node : Node) : Prop :=
  ∀ r cfg s, s.arena.KnowsConstants scope → Delivers (evalNode r node scope) cfg s v

theorem givenBy_identifier {name : String} (h : (name, v) ∈ constants) :
    v.GivenBy scope (.identifier name) := by
  intro r cfg s hs
  refine ⟨s.log, ?_⟩
  change Eval.lookup scope name cfg s = _
  rw [Eval.lookup, hs _ h]

/-- **Room for `d` levels of lists**: three calls and two levels of evaluation for each, and one more
for the atoms in them. -/
structure Room (scope : ScopeId) (cfg : Config) (d fuel : Nat) (s : State) : Prop where
  fuel : 3 * d + 1 ≤ fuel
  depth : s.depth + (2 * d + 1) ≤ cfg.maxDepth
  constants : s.arena.KnowsConstants scope

theorem Room.inner {n : Nat} (h : Room scope cfg (d + 1) (n + 3) s) (log : String) :
    Room scope cfg d n { s with depth := s.depth + 2, log } where
  fuel := by
    have hfuel := h.fuel
    omega
  depth := by
    have hdepth := h.depth
    change s.depth + 2 + (2 * d + 1) ≤ cfg.maxDepth
    omega
  constants := h.constants

/-- The literal of a value evaluates to the value, where there is room for the lists that are nested
in it. -/
structure Evaluated (scope : ScopeId) (cfg : Config) (v : Value) : Prop where
  inside : ∀ {d fuel : Nat} {s : State}, v.nesting ≤ d → Room scope cfg d fuel s →
    Delivers ((Evaluator.ofFuel fuel).eval (v.literal .inside) scope) cfg s v
  rest : ∀ {d fuel : Nat} {s : State}, v.nesting ≤ d + 1 → Room scope cfg d fuel s →
    Delivers (evalSpine (.ofFuel fuel) scope (v.literal .rest)) cfg s v

theorem delivers_atom {node : Node} (h : v.GivenBy scope node) (hroom : Room scope cfg d fuel s) :
    Delivers ((Evaluator.ofFuel fuel).eval node scope) cfg s v := by
  have hfuel := hroom.fuel
  have hdepth := hroom.depth
  exact delivers_eval (by omega) (by omega) fun r => h r cfg _ hroom.constants

theorem evaluated_atom (h : ∀ place, v.GivenBy scope (v.literal place))
    (hspine : ∀ r, evalSpine r scope (v.literal .rest) = r.eval (v.literal .rest) scope) :
    v.Evaluated scope cfg where
  inside _ hroom := delivers_atom (h _) hroom
  rest _ hroom := by
    rw [hspine]
    exact delivers_atom (h _) hroom

theorem Evaluated.pair {car cdr : Value} (hcar : car.Evaluated scope cfg)
    (hcdr : cdr.Evaluated scope cfg) : (Value.pair car cdr).Evaluated scope cfg := by
  -- the cell is the same in both places; what begins a list also pays for its call
  have hspine : ∀ {d fuel : Nat} {s : State}, (Value.pair car cdr).nesting ≤ d + 1 →
      Room scope cfg d fuel s →
      Delivers (evalSpine (.ofFuel fuel) scope (.pair (car.literal .inside) (cdr.literal .rest)))
        cfg s (.pair car cdr) := by
    intro d fuel s hd hroom
    rw [nesting, Nat.max_le] at hd
    refine (hcar.inside (Nat.le_of_succ_le_succ hd.1) hroom).bind fun log => ?_
    have hroom' : Room scope cfg d fuel { s with log } := ⟨hroom.fuel, hroom.depth, hroom.constants⟩
    exact (hcdr.rest hd.2 hroom').bind fun _ => Eval.delivers_pure _
  refine ⟨fun {d fuel s} hd hroom => ?_, hspine⟩
  have hpos : 1 ≤ d := by
    rw [nesting, Nat.max_le] at hd
    omega
  obtain ⟨d, rfl⟩ := Nat.exists_eq_add_of_le' hpos
  obtain ⟨n, rfl⟩ : ∃ n, fuel = n + 3 := Nat.exists_eq_add_of_le' (by
    have hfuel := hroom.fuel
    omega)
  have hdepth := hroom.depth
  exact delivers_list (by omega) fun log => hspine hd (hroom.inner log)

/-- **The literal of a datum evaluates to the datum.** -/
theorem IsDatum.evaluated (h : v.IsDatum) : v.Evaluated scope cfg := by
  induction h with
  | nil =>
    refine evaluated_atom (fun place => ?_) fun _ => rfl
    cases place with
    | alone | inside => exact givenBy_identifier (by simp [constants])
    | rest => exact fun _ _ _ _ => Eval.delivers_pure _
  | void =>
    refine evaluated_atom (fun place => ?_) fun _ => rfl
    cases place <;> exact givenBy_identifier (by simp [constants])
  | bool b =>
    refine evaluated_atom (fun place => ?_) fun _ => rfl
    cases place <;> exact givenBy_identifier (by cases b <;> simp [constants, boolName])
  | integer _ | symbol _ _ =>
    refine evaluated_atom (fun place => ?_) fun _ => rfl
    cases place <;> exact fun _ _ _ _ => Eval.delivers_pure _
  | pair _ _ ihcar ihcdr => exact ihcar.pair ihcdr

end Value

/-! ## Running -/

open Eval (Delivers)

/-- **The text of a datum is a program for the datum**, wherever the constants have their names. -/
theorem Value.IsDatum.runWith_text {v : Value} (h : v.IsDatum) (hnesting : v.nesting ≤ maxNesting)
    {cfg : Config} {s : State} {scope : ScopeId} {fuel : Nat} (hs : s.arena.KnowsConstants scope)
    (hdepth : s.depth + (2 * v.nesting + 1) ≤ cfg.maxDepth) (hfuel : 3 * v.nesting + 1 ≤ fuel)
    (st : Store) : ∃ log, Program.runWith fuel (st.text v) scope cfg s = .ok v { s with log } := by
  have hforms : Delivers (Program.runForms (.ofFuel fuel) [v.literal .inside] scope) cfg s v := by
    refine Delivers.bind (Eval.trace_apply _ cfg s) fun log => ?_
    refine Delivers.bind ?_ fun log' => Eval.delivers_pure v
    exact h.evaluated.inside le_rfl ⟨hfuel, hdepth, hs⟩
  obtain ⟨log, hforms⟩ := hforms
  refine ⟨log, ?_⟩
  rw [Program.runWith, Program.runUnder_apply, h.read_eq hnesting]
  dsimp only
  rw [hforms]

theorem State.knowsConstants_initial : State.initial.arena.KnowsConstants Arena.root := by
  have hchain : State.initial.arena.chain Arena.root = [Arena.root] :=
    (State.arena_initial_of (P := fun a => a.Lineage Arena.root [Arena.root])
      (.root (by decide) rfl) fun _ _ _ _ ha => ha.set).chain_eq
  intro b hb
  have hlatest : Arena.latest constants b.1 = some b.2 := by
    simp only [constants, List.mem_cons, List.not_mem_nil, or_false] at hb
    rcases hb with rfl | rfl | rfl | rfl <;> rfl
  have hbound : (State.initial.arena.frame Arena.root).bindings[b.1]? = some b.2 := by
    have hsetAll := @Arena.bindings_setAll (fun _ => Arena.root)
      (Builtin.globals.map (fun g => (g.1, .builtin g.2)) ++ constants) .fresh Arena.root
      (by decide) b.1
    rw [if_pos rfl, Arena.latest_append, hlatest] at hsetAll
    exact hsetAll
  rw [Arena.get?, hchain, List.findSome?_cons, hbound]

/-- **Data survive being printed, read and run.** In a fresh state, with a limit of at least two
levels of evaluation for each level of lists and one more, the text of a datum is a program for the
datum; its run changes nothing but the log, so that it leaves all scopes as they were. -/
theorem Value.IsDatum.run_text {v : Value} (h : v.IsDatum) (hnesting : v.nesting ≤ maxNesting)
    {cfg : Config} (hdepth : 2 * v.nesting + 1 ≤ cfg.maxDepth) (st : Store) :
    ∃ log, Program.run (st.text v) cfg .initial = .ok v { State.initial with log } := by
  have hfuel : 3 * v.nesting + 1 ≤ Program.ampleFuel :=
    le_trans (by omega : 3 * v.nesting + 1 ≤ 3 * maxNesting + 1) (by decide)
  exact h.runWith_text hnesting State.knowsConstants_initial (by simpa [State.initial] using hdepth)
    hfuel st

/-- A list that holds another one, which is improper, and ends in a number, under the lowest limit
that admits it. -/
theorem Value.improper_list_runs :
    let v : Value :=
      .pair .void (.pair (.pair (.symbol "a-1") (.bool true)) (.pair .nil (.integer 7)))
    ({} : Store).text v = "[void [#a-1 | true] nil | 7]" ∧ v.IsDatum ∧ v.nesting ≤ maxNesting ∧
      2 * v.nesting + 1 ≤ 5 ∧
      ∃ log, Program.run "[void [#a-1 | true] nil | 7]" { maxDepth := 5 } .initial =
        .ok v { State.initial with log } := by
  intro v
  have htext : ({} : Store).text v = "[void [#a-1 | true] nil | 7]" := by decide
  have hv : v.IsDatum :=
    .pair .void (.pair (.pair (.symbol (by decide) (by simp)) (.bool true))
      (.pair .nil (.integer (by decide))))
  exact ⟨htext, hv, by decide, by decide, htext ▸ hv.run_text (by decide) (by decide) {}⟩

end Fexpr
