import Fexpr.Eval.Closure
import Mathlib.Logic.Function.Basic

/-!
# Proofs/Renaming/Value — other identities for curried values

`Value.rename σ` gives every curried value in a value the identity `σ` finds for it, and so do the
renamings of patterns and nodes.  Everything a program can find out about a value is invariant under
an injective renaming: its type, its elements, its text, and what it is equal to (`same_rename`).
-/

namespace Fexpr

/-! ## Renaming -/

mutual

/-- **The value with other identities for the curried values in it.** -/
def Value.rename (σ : Nat → Nat) : Value → Value
  | .nil => .nil
  | .void => .void
  | .integer n => .integer n
  | .bool b => .bool b
  | .symbol name => .symbol name
  | .pair car cdr => .pair (car.rename σ) (cdr.rename σ)
  | .builtin b => .builtin b
  | .curried tag callee args => .curried (σ tag) (callee.rename σ) (args.rename σ)
  | .function id => .function id
  | .method id => .method id
  | .boundMethod tag id receiver => .boundMethod tag id (receiver.rename σ)
  | .multiFunction tag alternatives => .multiFunction tag alternatives
  | .pattern p => .pattern (p.rename σ)
  | .object id => .object id
  | .dictionary id => .dictionary id
  | .promise id => .promise id

/-- The pattern with other identities for the curried values in it. -/
def Pattern.rename (σ : Nat → Nat) : Pattern → Pattern
  | .identifier name => .identifier name
  | .value v => .value (v.rename σ)
  | .cons cars tail => .cons (Pattern.renameAll σ cars) (tail.rename σ)
  | .predicated base predicate => .predicated (base.rename σ) (predicate.rename σ)
  | .defaulted base fallback => .defaulted (base.rename σ) (fallback.rename σ)
  | .aliased first second => .aliased (first.rename σ) (second.rename σ)
  | .defaultArguments => .defaultArguments

/-- The renaming of a list of patterns. -/
def Pattern.renameAll (σ : Nat → Nat) : List Pattern → List Pattern
  | [] => []
  | p :: ps => p.rename σ :: Pattern.renameAll σ ps

end

/-- **The node with other identities for the curried values in it.** -/
def Node.rename (σ : Nat → Nat) : Node → Node
  | .nil => .nil
  | .pair car cdr => .pair (car.rename σ) (cdr.rename σ)
  | .form car cdr => .form (car.rename σ) (cdr.rename σ)
  | .identifier name => .identifier name
  | .numeral n => .numeral n
  | .symbol name => .symbol name
  | .value label v => .value label (v.rename σ)

/-- The only nodes in the description of a misuse are printed. -/
def Misuse.rename (σ : Nat → Nat) : Misuse → Misuse
  | .cannotBind target => .cannotBind (target.rename σ)
  | .notAnAlternative node => .notAnAlternative (node.rename σ)
  | .notASlot node => .notASlot (node.rename σ)
  | cause => cause

def RunError.rename (σ : Nat → Nat) : RunError → RunError
  | .misuse procedure cause => .misuse procedure (cause.rename σ)
  | e => e

variable {σ : Nat → Nat}

/-! ## One renaming after another -/

mutual

theorem Value.rename_comp (σ τ : Nat → Nat) :
    (v : Value) → (v.rename σ).rename τ = v.rename (τ ∘ σ)
  | .pair car cdr => by simp only [Value.rename, Value.rename_comp σ τ car, Value.rename_comp σ τ cdr]
  | .curried tag callee args => by
    simp only [Value.rename, Value.rename_comp σ τ callee, Value.rename_comp σ τ args,
      Function.comp_apply]
  | .boundMethod tag id receiver => by simp only [Value.rename, Value.rename_comp σ τ receiver]
  | .pattern p => by simp only [Value.rename, Pattern.rename_comp σ τ p]
  | .nil | .void | .integer _ | .bool _ | .symbol _ | .builtin _ | .function _ | .method _
  | .multiFunction .. | .object _ | .dictionary _ | .promise _ => rfl

theorem Pattern.rename_comp (σ τ : Nat → Nat) :
    (p : Pattern) → (p.rename σ).rename τ = p.rename (τ ∘ σ)
  | .identifier _ | .defaultArguments => rfl
  | .value v => by simp only [Pattern.rename, Value.rename_comp σ τ v]
  | .cons cars tail => by
    simp only [Pattern.rename, Pattern.renameAll_comp σ τ cars, Pattern.rename_comp σ τ tail]
  | .predicated base v | .defaulted base v => by
    simp only [Pattern.rename, Pattern.rename_comp σ τ base, Value.rename_comp σ τ v]
  | .aliased first second => by
    simp only [Pattern.rename, Pattern.rename_comp σ τ first, Pattern.rename_comp σ τ second]

theorem Pattern.renameAll_comp (σ τ : Nat → Nat) : (ps : List Pattern) →
    Pattern.renameAll τ (Pattern.renameAll σ ps) = Pattern.renameAll (τ ∘ σ) ps
  | [] => rfl
  | p :: ps => by
    simp only [Pattern.renameAll, Pattern.rename_comp σ τ p, Pattern.renameAll_comp σ τ ps]

end

mutual

theorem Value.rename_id : (v : Value) → v.rename id = v
  | .pair car cdr => by simp only [Value.rename, Value.rename_id car, Value.rename_id cdr]
  | .curried tag callee args => by
    simp only [Value.rename, Value.rename_id callee, Value.rename_id args, id_eq]
  | .boundMethod tag id receiver => by simp only [Value.rename, Value.rename_id receiver]
  | .pattern p => by simp only [Value.rename, Pattern.rename_id p]
  | .nil | .void | .integer _ | .bool _ | .symbol _ | .builtin _ | .function _ | .method _
  | .multiFunction .. | .object _ | .dictionary _ | .promise _ => rfl

theorem Pattern.rename_id : (p : Pattern) → p.rename id = p
  | .identifier _ | .defaultArguments => rfl
  | .value v => by simp only [Pattern.rename, Value.rename_id v]
  | .cons cars tail => by
    simp only [Pattern.rename, Pattern.renameAll_id cars, Pattern.rename_id tail]
  | .predicated base v | .defaulted base v => by
    simp only [Pattern.rename, Pattern.rename_id base, Value.rename_id v]
  | .aliased first second => by
    simp only [Pattern.rename, Pattern.rename_id first, Pattern.rename_id second]

theorem Pattern.renameAll_id : (ps : List Pattern) → Pattern.renameAll id ps = ps
  | [] => rfl
  | p :: ps => by simp only [Pattern.renameAll, Pattern.rename_id p, Pattern.renameAll_id ps]

end

theorem Node.rename_comp (σ τ : Nat → Nat) (node : Node) :
    (node.rename σ).rename τ = node.rename (τ ∘ σ) := by
  induction node with
  | pair car cdr ihcar ihcdr | form car cdr ihcar ihcdr => simp only [rename, ihcar, ihcdr]
  | value label v => simp only [rename, Value.rename_comp]
  | nil | identifier name | numeral n | symbol name => rfl

theorem Node.rename_id (node : Node) : node.rename id = node := by
  induction node with
  | pair car cdr ihcar ihcdr | form car cdr ihcar ihcdr => simp only [rename, ihcar, ihcdr]
  | value label v => simp only [rename, Value.rename_id]
  | nil | identifier name | numeral n | symbol name => rfl

/-! ## What a renaming keeps -/

namespace Value

variable (σ : Nat → Nat)

theorem elements_rename (v : Value) :
    (v.rename σ).elements = (v.elements.1.map (rename σ), v.elements.2.rename σ) := by
  fun_induction elements v with
  | case1 car cdr ih =>
    change (car.rename σ :: (cdr.rename σ).elements.1, (cdr.rename σ).elements.2) = _
    rw [ih]
    rfl
  | case2 v hv =>
    cases v with
    | pair car cdr => exact absurd rfl (hv car cdr)
    | _ => rfl

theorem rename_ofList (vs : List Value) : (ofList vs).rename σ = ofList (vs.map (rename σ)) := by
  induction vs with
  | nil => rfl
  | cons v vs ih => exact congrArg (Value.pair (v.rename σ)) ih

theorem isCallable_rename (v : Value) : (v.rename σ).isCallable = v.isCallable := by
  cases v <;> rfl

theorem typeName_rename (v : Value) : (v.rename σ).typeName = v.typeName := by
  cases v <;> rfl

theorem typeMismatch_rename (v : Value) (procedure expected : String) :
    (v.rename σ).typeMismatch procedure expected =
      (v.typeMismatch procedure expected).rename σ := by
  rw [typeMismatch, typeName_rename]
  rfl

end Value

theorem Pattern.rename_chain_single (σ : Nat → Nat) (p tail : Pattern) :
    (chain [p] tail).rename σ = chain [p.rename σ] (tail.rename σ) := by
  cases tail <;> rfl

/-! ### Equality -/

mutual

/-- **What equals what does not depend on the identities**, as long as distinct ones stay
distinct. -/
theorem Value.same_rename (hσ : Function.Injective σ) :
    (v w : Value) → (v.rename σ).same (w.rename σ) = v.same w
  | .pair car cdr, w => by
    cases w with
    | pair car' cdr' =>
      simp only [Value.rename, Value.same, Value.same_rename hσ car car',
        Value.same_rename hσ cdr cdr']
    | _ => rfl
  | .curried tag callee args, w => by
    cases w with
    | curried tag' callee' args' =>
      simp only [Value.rename, Value.same, Bool.beq_eq_decide_eq, hσ.eq_iff]
    | _ => rfl
  | .pattern p, w => by
    cases w with
    | pattern q => simp only [Value.rename, Value.same, Pattern.same_rename hσ p q]
    | _ => rfl
  | .nil, w | .void, w | .integer _, w | .bool _, w | .symbol _, w | .builtin _, w
  | .function _, w | .method _, w | .boundMethod .., w | .multiFunction .., w | .object _, w
  | .dictionary _, w | .promise _, w => by cases w <;> rfl

theorem Pattern.same_rename (hσ : Function.Injective σ) :
    (p q : Pattern) → (p.rename σ).same (q.rename σ) = p.same q
  | .value v, q => by
    cases q with
    | value w => simp only [Pattern.rename, Pattern.same, Value.same_rename hσ v w]
    | _ => rfl
  | .cons cars tail, q => by
    cases q with
    | cons cars' tail' =>
      simp only [Pattern.rename, Pattern.same, Pattern.allSame_rename hσ cars cars',
        Pattern.same_rename hσ tail tail']
    | _ => rfl
  | .predicated base v, q => by
    cases q with
    | predicated base' w =>
      simp only [Pattern.rename, Pattern.same, Pattern.same_rename hσ base base',
        Value.same_rename hσ v w]
    | _ => rfl
  | .defaulted base v, q => by
    cases q with
    | defaulted base' w =>
      simp only [Pattern.rename, Pattern.same, Pattern.same_rename hσ base base',
        Value.same_rename hσ v w]
    | _ => rfl
  | .aliased first second, q => by
    cases q with
    | aliased first' second' =>
      simp only [Pattern.rename, Pattern.same, Pattern.same_rename hσ first first',
        Pattern.same_rename hσ second second']
    | _ => rfl
  | .identifier _, q | .defaultArguments, q => by cases q <;> rfl

theorem Pattern.allSame_rename (hσ : Function.Injective σ) : (ps qs : List Pattern) →
    Pattern.allSame (Pattern.renameAll σ ps) (Pattern.renameAll σ qs) = Pattern.allSame ps qs
  | [], [] | [], _ :: _ | _ :: _, [] => rfl
  | p :: ps, q :: qs => by
    simp only [Pattern.renameAll, Pattern.allSame, Pattern.same_rename hσ p q,
      Pattern.allSame_rename hσ ps qs]

end

theorem Value.beq_rename (hσ : Function.Injective σ) (v w : Value) :
    (v.rename σ == w.rename σ) = (v == w) := by
  rw [beq_eq_same, beq_eq_same, same_rename hσ]

/-! ### Texts -/

mutual

/-- **A value prints as before** if the records it mentions do. -/
theorem Value.write_rename {record record' : Value → String}
    (hrecord : ∀ v, record' (v.rename σ) = record v) : (place : Place) → (v : Value) →
    (v.rename σ).write record' place = v.write record place
  | place, .pair car cdr => by
    have hcar := Value.write_rename hrecord .inside car
    have hcdr := Value.write_rename hrecord .rest cdr
    cases place <;> simp only [Value.rename, Value.write, hcar, hcdr]
  | place, .curried tag callee args => by
    simp only [Value.rename, Value.write, Value.write_rename hrecord .alone callee]
  | place, .pattern p => by simp only [Value.rename, Value.write, Pattern.write_rename hrecord p]
  | place, .object id => by
    cases place with
    | alone => exact hrecord (.object id)
    | inside | rest => rfl
  | place, .dictionary id => by
    cases place with
    | alone => exact hrecord (.dictionary id)
    | inside | rest => rfl
  | place, .promise id => by
    have hpromise : record' (.promise id) = record (.promise id) := hrecord (.promise id)
    simp only [Value.rename, Value.write, hpromise]
  | place, .nil | place, .void | place, .integer _ | place, .bool _ | place, .symbol _
  | place, .builtin _ | place, .function _ | place, .method _ | place, .boundMethod ..
  | place, .multiFunction .. => by cases place <;> rfl

theorem Pattern.write_rename {record record' : Value → String}
    (hrecord : ∀ v, record' (v.rename σ) = record v) :
    (p : Pattern) → (p.rename σ).write record' = p.write record
  | .identifier _ | .defaultArguments => rfl
  | .value v => Value.write_rename hrecord .inside v
  | .cons cars tail => by
    simp only [Pattern.rename, Pattern.write, Pattern.writeCars_rename hrecord cars,
      Pattern.write_rename hrecord tail]
  | .predicated base v | .defaulted base v => by
    simp only [Pattern.rename, Pattern.write, Pattern.write_rename hrecord base,
      Value.write_rename hrecord .inside v]
  | .aliased first second => by
    simp only [Pattern.rename, Pattern.write, Pattern.write_rename hrecord first,
      Pattern.write_rename hrecord second]

theorem Pattern.writeCars_rename {record record' : Value → String}
    (hrecord : ∀ v, record' (v.rename σ) = record v) : (ps : List Pattern) →
    Pattern.writeCars record' (Pattern.renameAll σ ps) = Pattern.writeCars record ps
  | [] => rfl
  | p :: ps => by
    simp only [Pattern.renameAll, Pattern.writeCars, Pattern.write_rename hrecord p,
      Pattern.writeCars_rename hrecord ps]

end

/-! ## What a renaming of nodes keeps -/

namespace Node

variable (σ : Nat → Nat) {procedure : String}

theorem write_rename (ending : Option String) (node : Node) :
    (node.rename σ).write ending = node.write ending := by
  induction node generalizing ending with
  | pair car cdr ihcar ihcdr =>
    cases ending <;> simp only [rename, write, ihcar, ihcdr]
  | form car cdr ihcar ihcdr => simp only [rename, write, ihcar, ihcdr]
  | nil | identifier name | numeral n | symbol name | value label v => rfl

/-- A node prints as its labels. -/
theorem text_rename (node : Node) : (node.rename σ).text = node.text :=
  write_rename σ none node

theorem elements_rename (node : Node) :
    (node.rename σ).elements = (node.elements.1.map (rename σ), node.elements.2.rename σ) := by
  fun_induction elements node with
  | case1 car cdr ih =>
    change (car.rename σ :: (cdr.rename σ).elements.1, (cdr.rename σ).elements.2) = _
    rw [ih]
    rfl
  | case2 node hnode =>
    cases node with
    | pair car cdr => exact absurd rfl (hnode car cdr)
    | _ => rfl

theorem rename_spine (items : List Node) (tail : Node) :
    (spine items tail).rename σ = spine (items.map (rename σ)) (tail.rename σ) := by
  induction items with
  | nil => rfl
  | cons item items ih => exact congrArg (Node.pair (item.rename σ)) ih

/-- Quoting renamed elements is renaming quoted ones. -/
theorem map_quoted_rename (vs : List Value) :
    (vs.map (Value.rename σ)).map quoted = (vs.map quoted).map (rename σ) := by
  rw [List.map_map, List.map_map]
  rfl

theorem rename_quote (args : Value) : (quote args).rename σ = quote (args.rename σ) := by
  rw [quote, quote, rename_spine, Value.elements_rename, map_quoted_rename]
  congr 1
  cases args.elements.2 <;> rfl

theorem rename_quoteBefore (args : Value) (rest : Node) :
    (quoteBefore args rest).rename σ = quoteBefore (args.rename σ) (rest.rename σ) := by
  rw [quoteBefore, quoteBefore, rename_spine, Value.elements_rename, map_quoted_rename]
  congr 1
  cases args.elements.2 <;> rfl

theorem argumentError_rename (arg : Node) (expected : Nat) :
    (arg.rename σ).argumentError procedure expected =
      (arg.argumentError procedure expected).rename σ := by
  rw [argumentError, argumentError, elements_rename, List.length_map]
  cases arg.elements.2 <;> rfl

end Node

/-! ## Messages -/

theorem Misuse.message_rename (σ : Nat → Nat) (cause : Misuse) :
    (cause.rename σ).message = cause.message := by
  cases cause with
  | cannotBind node => exact congrArg ("cannot bind to " ++ ·) (node.text_rename σ)
  | notAnAlternative node =>
    exact congrArg ("expected (<pattern> <body> ...), got " ++ ·) (node.text_rename σ)
  | notASlot node => exact congrArg ("expected a `key: value` slot, got " ++ ·) (node.text_rename σ)
  | _ => rfl

theorem RunError.message_rename (σ : Nat → Nat) (e : RunError) :
    (e.rename σ).message = e.message := by
  cases e with
  | misuse procedure cause => exact congrArg (procedure ++ ": " ++ ·) (cause.message_rename σ)
  | _ => rfl

end Fexpr
