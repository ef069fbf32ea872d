import Fexpr.Item.Expansion

/-!
# Reader — from source text to syntax trees

`parse` turns the tokens of one level into items: an opener takes all tokens up to its partner, and
what stands between them is parsed, expanded and folded into one node. `read` does the same for a
whole text, whose levels outside all brackets may hold no loose operator or marker.
-/

namespace Fexpr

namespace Bracket

/-- **Cuts a token list at the partner of an opener** that has just been taken. Only the brackets
that end with the same closer count, whatever their kind; `depth` of them are open inside. -/
def splitAt? (b : Bracket) (depth : Nat) : List String → Option (List String × List String)
  | [] => none
  | token :: tokens =>
    if token == b.closer then
      match depth with
      | 0 => some ([], tokens)
      | depth + 1 => (splitAt? b depth tokens).map fun (inner, after) => (token :: inner, after)
    else
      let depth := if (ofOpener? token).any (·.closer == b.closer) then depth + 1 else depth
      (splitAt? b depth tokens).map fun (inner, after) => (token :: inner, after)

/-- A cut loses exactly the closing token. -/
theorem length_of_splitAt? {b : Bracket} {depth : Nat} {tokens inner after : List String}
    (h : b.splitAt? depth tokens = some (inner, after)) :
    inner.length + after.length + 1 = tokens.length := by
  induction tokens generalizing depth inner after with
  | nil => simp [splitAt?] at h
  | cons token tokens ih =>
    unfold splitAt? at h
    split at h
    · cases depth with
      | zero =>
        simp only [Option.some.injEq, Prod.mk.injEq] at h
        obtain ⟨rfl, rfl⟩ := h
        simp
      | succ depth =>
        obtain ⟨⟨i, a⟩, hi, heq⟩ := Option.map_eq_some_iff.1 h
        simp only [Prod.mk.injEq] at heq
        obtain ⟨rfl, rfl⟩ := heq
        have := ih hi
        simp only [List.length_cons]
        omega
    · obtain ⟨⟨i, a⟩, hi, heq⟩ := Option.map_eq_some_iff.1 h
      simp only [Prod.mk.injEq] at heq
      obtain ⟨rfl, rfl⟩ := heq
      have := ih hi
      simp only [List.length_cons]
      omega

/-- **Folds the expanded contents of a bracket into its node.** -/
def construct (b : Bracket) (items : List Item) : Except SyntaxError Node :=
  if items.isEmpty && b.emptyIsNil then .ok .nil
  else match b.head? with
    | none => Item.toForm items
    | some head => do return .form head (← Item.toSpine items)

end Bracket

namespace Item

/-- Parses the tokens of a level that lies inside `depth` brackets. -/
def parseAt (depth : Nat) (tokens : List String) : Except SyntaxError (List Item) :=
  match tokens with
  | [] => .ok []
  | token :: tokens =>
    match Bracket.ofOpener? token with
    | some b =>
      match h : b.splitAt? 0 tokens with
      | none => .error (.unbalanced b.opener)
      | some (inner, after) => do
        if maxNesting ≤ depth then throw .tooDeep
        let contents ← expand (← parseAt (depth + 1) inner)
        let node ← b.construct contents
        let items ← parseAt depth after
        return .node node :: items
    | none =>
      if Bracket.isCloser token then .error (.unexpectedCloser token)
      else do
        let item ← ofToken token
        let items ← parseAt depth tokens
        return item :: items
termination_by tokens.length
decreasing_by
  · have := Bracket.length_of_splitAt? h
    simp only [List.length_cons]
    omega
  · have := Bracket.length_of_splitAt? h
    simp only [List.length_cons]
    omega
  · simp

/-- **The items of the outermost level** of a token list. -/
def parse (tokens : List String) : Except SyntaxError (List Item) :=
  parseAt 0 tokens

/-- The node that an item is, at a level where nothing but nodes may be left. -/
def toNode : Item → Except SyntaxError Node
  | .node n => .ok n
  | .rest => .error .misplacedRest
  | .unary op => .error (.danglingUnary op.token)
  | .binary op => .error (.missingOperand op.token)

end Item

/-- **The top-level nodes of a text.** -/
def read (code : String) : Except SyntaxError (List Node) := do
  let items ← Item.expand (← Item.parse (Token.lex code))
  items.mapM Item.toNode

end Fexpr
