import Fexpr.Proofs.Comparison.Closure

/-!
# Proofs/Comparison/Primitive — related evaluators run the primitives alike

Promises, slots and then the primitives, in the order of their definitions.
-/

namespace Fexpr

/-- A slot of an object that is being built. -/
def SlotWithin (N : Census) (slot : String × Value) : Prop :=
  slot.2.Within N

open Congruence (andThen ofExcept)

namespace Comparison

variable {C : Comparison} {r r' : Evaluator} {w : C.World} {scope : ScopeId}

/-! ## Promises -/

theorem forceValue (h : C.Agree r r') {v : Value} (hv : v.Within (C.census w)) :
    C.Rel w scope (Promise.forceValue r v) (Promise.forceValue r' v) Value.Within := by
  cases v with
  | promise id => exact h.force w scope hv
  | _ => exact C.pure hv

/-! ## Slots -/

theorem nameOf (h : C.Agree r r') {procedure : String} {key : Node}
    (hk : key.Within (C.census w)) :
    C.Rel w scope (Slot.nameOf r procedure key scope) (Slot.nameOf r' procedure key scope)
      Anything := by
  cases key with
  | identifier name => exact C.pure trivial
  | _ =>
    refine C.bind (h.eval w scope hk) fun w₁ v _ _ => ?_
    cases v with
    | symbol name => exact C.pure trivial
    | _ => exact C.fail

theorem bindTo {receiver v : Value} (hr : receiver.Within (C.census w))
    (hv : v.Within (C.census w)) :
    C.Rel w scope (Slot.bindTo receiver v) (Slot.bindTo receiver v) Value.Within := by
  cases v with
  | method f =>
    refine andThen (C.elementary .freshTag) fun w₁ tag h₁ => ?_
    exact C.pure ⟨Census.closure_mono h₁ hv, hr.mono h₁⟩
  | _ => exact C.pure hv

theorem readSlot (h : C.Agree r r') {target : Value} {key : Node}
    (ht : target.Within (C.census w)) (hk : key.Within (C.census w)) :
    C.Rel w scope (Slot.read r target key scope) (Slot.read r' target key scope)
      Value.Within := by
  cases target with
  | object id =>
    refine andThen (nameOf h hk) fun w₁ name h₁ => ?_
    refine C.bind (C.elementary (.read (fun _ st => st.slot? id name) OptionWithin
      fun _ _ _ hst v hv => hst.slot? (Census.object_mono h₁ ht) hv)) fun w₂ o h₂ ho => ?_
    cases o with
    | none => exact C.fail
    | some v => exact bindTo ((Value.Within.mono h₁ ht).mono h₂) (optionWithin_some.mp ho)
  | dictionary id =>
    cases key with
    | identifier name =>
      refine C.bind (C.elementary (.read (fun _ st => (st.dictionary id).attributes[name]?)
        OptionWithin fun _ _ _ hst v hv => (hst.dictionary id ht).2.1 name v hv)) fun w₁ o h₁ ho => ?_
      cases o with
      | none => exact C.fail
      | some v => exact bindTo (Value.Within.mono h₁ ht) (optionWithin_some.mp ho)
    | _ =>
      refine C.bind (h.eval w scope hk) fun w₁ key h₁ _ => ?_
      refine C.bind (C.elementary (.read (fun _ st => (st.dictionary id).get? key) OptionWithin
        fun _ _ _ hst v hv => (hst.dictionary id (Census.dictionary_mono h₁ ht)).get? hv))
        fun w₂ o _ ho => ?_
      cases o with
      | none => exact andThen (C.read fun _ st => st.text key) fun _ _ _ => C.fail
      | some v => exact C.pure (optionWithin_some.mp ho)
  | pair car cdr =>
    refine andThen (nameOf h hk) fun w₁ name h₁ => ?_
    have ht₁ := Value.Within.mono h₁ ht
    cases name == "car" with
    | true => exact C.pure ht₁.1
    | false =>
      cases name == "cdr" with
      | true => exact forceValue h ht₁.2
      | false =>
        cases name == "cdr-slot" with
        | true => exact C.pure ht₁.2
        | false => exact C.fail
  | _ => exact C.fail

theorem writeSlot (h : C.Agree r r') {target : Value} {key value : Node}
    (hk : key.Within (C.census w)) (hv : value.Within (C.census w)) :
    C.Rel w scope (Slot.write r target key value scope) (Slot.write r' target key value scope)
      Value.Within := by
  cases target with
  | object id =>
    refine andThen (nameOf h hk) fun w₁ name h₁ => ?_
    refine C.bind (h.eval w₁ scope (hv.mono h₁)) fun w₂ v _ hv => ?_
    exact andThen (C.elementary (.setSlot id name hv)) fun w₃ _ h₃ => C.pure (hv.mono h₃)
  | dictionary id =>
    have hentry : C.Rel w scope
        (do
          let key ← r.eval key scope
          let v ← r.eval value scope
          Eval.modifyStore (·.setEntry id key v)
          return v)
        (do
          let key ← r'.eval key scope
          let v ← r'.eval value scope
          Eval.modifyStore (·.setEntry id key v)
          return v) Value.Within := by
      refine C.bind (h.eval w scope hk) fun w₁ key h₁ hkey => ?_
      refine C.bind (h.eval w₁ scope (hv.mono h₁)) fun w₂ v h₂ hv => ?_
      exact andThen (C.elementary (.setEntry id (hkey.mono h₂) hv)) fun w₃ _ h₃ =>
        C.pure (hv.mono h₃)
    cases key with
    | identifier name =>
      refine C.bind (h.eval w scope hv) fun w₁ v _ hv => ?_
      exact andThen (C.elementary (.setAttribute id name hv)) fun w₂ _ h₂ => C.pure (hv.mono h₂)
    | _ => exact hentry
  | _ => exact C.fail

/-! ## Objects and dictionaries -/

theorem ofItem (h : C.Agree r r') {item : Node} (hi : item.Within (C.census w)) :
    C.Rel w scope (Slot.ofItem r item scope) (Slot.ofItem r' item scope) SlotWithin := by
  cases item with
  | identifier name => exact C.map (h.eval w scope hi) fun _ _ hv => hv
  | form head args =>
    refine C.bind (h.eval w scope hi.1) fun w₁ v h₁ _ => ?_
    have hargs := hi.2.mono h₁
    split
    · refine C.bind (ofExcept (Φ := fun N p => p.1.Within N ∧ p.2.Within N) fun p hp =>
        hargs.twoArguments hp) fun w₂ p _ hp => ?_
      refine andThen (nameOf h hp.1) fun w₃ name h₃ => ?_
      exact C.map (h.eval w₃ scope (hp.2.mono h₃)) fun _ _ hv => hv
    · refine C.bind (ofExcept (Φ := fun N p => p.1.Within N ∧ p.2.Within N) fun p hp =>
        hargs.twoArguments hp) fun w₂ p h₂ hp => ?_
      refine andThen (nameOf h hp.2) fun w₃ name h₃ => ?_
      have hcallee : (Value.builtin .get).Within (C.census w₃) := trivial
      exact C.map (h.call w₃ scope hcallee ((hargs.mono h₂).mono h₃)) fun _ _ hv => hv
    · exact C.fail
  | _ => exact C.fail

theorem ofItems (h : C.Agree r r') {slots : Bindings} {items : List Node}
    (hs : Bindings.Within (C.census w) slots) (hi : ∀ n ∈ items, n.Within (C.census w)) :
    C.Rel w scope (Slot.ofItems r scope slots items) (Slot.ofItems r' scope slots items)
      Bindings.Within := by
  induction items generalizing w slots with
  | nil => exact C.pure hs
  | cons item items ih =>
    refine C.bind (ofItem h (hi item List.mem_cons_self)) fun w₁ slot h₁ hslot => ?_
    exact ih (Bindings.within_insert (hs.mono h₁) hslot) fun n hn =>
      (hi n (List.mem_cons_of_mem item hn)).mono h₁

theorem buildObject (h : C.Agree r r') {prototype : Option ObjectId} {arg : Node}
    (hp : ∀ id ∈ prototype, (C.census w).object id) (ha : arg.Within (C.census w)) :
    C.Rel w scope (Slot.buildObject r prototype arg scope)
      (Slot.buildObject r' prototype arg scope) Value.Within := by
  rw [Slot.buildObject, Slot.buildObject]
  split
  · refine C.bind (ofItems h Bindings.within_empty ha.elements.1) fun w₁ slots h₁ hslots => ?_
    exact C.map
      (C.elementary (.addObject ⟨hslots, fun id hid => Census.object_mono h₁ (hp id hid)⟩))
      fun _ _ hid => hid
  · exact C.fail

theorem entriesOf (h : C.Agree r r') {dict : Dictionary} {items : List Node}
    (hd : dict.Within (C.census w)) (hi : ∀ n ∈ items, n.Within (C.census w)) :
    C.Rel w scope (Slot.entriesOf r scope dict items) (Slot.entriesOf r' scope dict items)
      Dictionary.Within := by
  induction items generalizing w dict with
  | nil => exact C.pure hd
  | cons item items ih =>
    refine C.bind (h.eval w scope (hi item List.mem_cons_self)) fun w₁ v h₁ hv => ?_
    cases v with
    | pair key v =>
      exact ih ((hd.mono h₁).insert hv.1 hv.2) fun n hn =>
        (hi n (List.mem_cons_of_mem item hn)).mono h₁
    | _ => exact C.fail

theorem buildDictionary (h : C.Agree r r') {arg : Node} (ha : arg.Within (C.census w)) :
    C.Rel w scope (Slot.buildDictionary r arg scope) (Slot.buildDictionary r' arg scope)
      Value.Within := by
  rw [Slot.buildDictionary, Slot.buildDictionary]
  split
  · refine C.bind (entriesOf h Dictionary.within_empty ha.elements.1) fun w₁ dict _ hd => ?_
    exact C.map (C.elementary (.addDictionary hd)) fun _ _ hid => hid
  · exact C.fail

/-! ## The primitives -/

section Primitives

variable {arg : Node}

theorem primitive_print (h : C.Agree r r') (ha : arg.Within (C.census w)) :
    C.Rel w scope (Primitive.print r arg scope) (Primitive.print r' arg scope) Value.Within := by
  refine C.bind (evalArgument h ha) fun w₁ v _ _ => ?_
  refine andThen (C.read fun _ st => st.text v) fun w₂ text _ => ?_
  exact andThen (C.elementary (.print _)) fun _ _ _ => C.pure trivial

theorem integerOf {procedure : String} (v : Value) :
    C.Rel w scope (Primitive.integerOf procedure v) (Primitive.integerOf procedure v)
      Anything := by
  cases v with
  | integer n => exact C.pure trivial
  | _ => exact C.fail

theorem primitive_add (h : C.Agree r r') (ha : arg.Within (C.census w)) :
    C.Rel w scope (Primitive.add r arg scope) (Primitive.add r' arg scope) Value.Within := by
  refine C.bind (evalTwoArguments h ha) fun w₁ p _ _ => ?_
  refine andThen (integerOf p.1) fun w₂ m _ => ?_
  refine andThen (integerOf p.2) fun w₃ n _ => ?_
  cases inIntegerRange (m + n) with
  | true => exact C.pure trivial
  | false => exact C.fail

theorem primitive_parity (h : C.Agree r r') {procedure : String} {remainder : Int}
    (ha : arg.Within (C.census w)) :
    C.Rel w scope (Primitive.parity r arg scope procedure remainder)
      (Primitive.parity r' arg scope procedure remainder) Value.Within :=
  C.bind (evalArgument h ha) fun _ v _ _ => C.map (integerOf v) fun _ _ _ => trivial

theorem primitive_eq (h : C.Agree r r') (ha : arg.Within (C.census w)) :
    C.Rel w scope (Primitive.eq r arg scope) (Primitive.eq r' arg scope) Value.Within :=
  C.map (evalTwoArguments h ha) fun _ _ _ => trivial

theorem primitive_define (h : C.Agree r r') {procedure : String} {binding : Binding}
    (ha : arg.Within (C.census w)) :
    C.Rel w scope (Primitive.define r arg scope procedure binding)
      (Primitive.define r' arg scope procedure binding) Value.Within := by
  refine C.bind (ofExcept (Φ := fun N p => p.1.Within N ∧ p.2.Within N) fun p hp =>
    ha.twoArguments hp) fun w₁ p _ hp => ?_
  obtain ⟨target, value⟩ := p
  cases target with
  | identifier name =>
    refine C.bind (h.eval w₁ scope hp.2) fun w₂ v _ hv => ?_
    exact andThen (C.elementary (.bind binding scope name hv)) fun w₃ _ h₃ => C.pure (hv.mono h₃)
  | _ => exact C.fail

theorem primitive_ifElse (h : C.Agree r r') (ha : arg.Within (C.census w)) :
    C.Rel w scope (Primitive.ifElse r arg scope) (Primitive.ifElse r' arg scope)
      Value.Within := by
  refine C.bind (ofExcept (Φ := fun N p => p.1.Within N ∧ p.2.1.Within N ∧ p.2.2.Within N)
    fun p hp => ha.threeArguments hp) fun w₁ p _ hp => ?_
  refine C.bind (h.eval w₁ scope hp.1) fun w₂ v h₂ _ => ?_
  split
  · exact h.eval w₂ scope (hp.2.1.mono h₂)
  · exact h.eval w₂ scope (hp.2.2.mono h₂)
  · exact C.fail

theorem primitive_list (h : C.Agree r r') (ha : arg.Within (C.census w)) :
    C.Rel w scope (Primitive.list r arg scope) (Primitive.list r' arg scope) Value.Within := by
  cases arg with
  | nil | pair _ _ => exact h.eval w scope ha
  | _ => exact C.fail

theorem primitive_cons (h : C.Agree r r') (ha : arg.Within (C.census w)) :
    C.Rel w scope (Primitive.cons r arg scope) (Primitive.cons r' arg scope) Value.Within :=
  C.map (evalTwoArguments h ha) fun _ _ hp => hp

theorem halvesOf {procedure : String} {v : Value} (hv : v.Within (C.census w)) :
    C.Rel w scope (Primitive.halvesOf procedure v) (Primitive.halvesOf procedure v)
      PairWithin := by
  cases v with
  | pair car cdr => exact C.pure hv
  | _ => exact C.fail

theorem primitive_car (h : C.Agree r r') (ha : arg.Within (C.census w)) :
    C.Rel w scope (Primitive.car r arg scope) (Primitive.car r' arg scope) Value.Within :=
  C.bind (evalArgument h ha) fun _ _ _ hv => C.map (halvesOf hv) fun _ _ hp => hp.1

theorem primitive_cdr (h : C.Agree r r') (ha : arg.Within (C.census w)) :
    C.Rel w scope (Primitive.cdr r arg scope) (Primitive.cdr r' arg scope) Value.Within :=
  C.bind (evalArgument h ha) fun _ _ _ hv => C.bind (halvesOf hv) fun _ _ _ hp =>
    forceValue h hp.2

theorem primitive_get (h : C.Agree r r') (ha : arg.Within (C.census w)) :
    C.Rel w scope (Primitive.get r arg scope) (Primitive.get r' arg scope) Value.Within := by
  refine C.bind (ofExcept (Φ := fun N p => p.1.Within N ∧ p.2.Within N) fun p hp =>
    ha.twoArguments hp) fun w₁ p _ hp => ?_
  exact C.bind (h.eval w₁ scope hp.1) fun w₂ v h₂ hv => readSlot h hv (hp.2.mono h₂)

theorem primitive_set (h : C.Agree r r') (ha : arg.Within (C.census w)) :
    C.Rel w scope (Primitive.set r arg scope) (Primitive.set r' arg scope) Value.Within := by
  refine C.bind (ofExcept (Φ := fun N p => p.1.Within N ∧ p.2.1.Within N ∧ p.2.2.Within N)
    fun p hp => ha.threeArguments hp) fun w₁ p _ hp => ?_
  exact C.bind (h.eval w₁ scope hp.1) fun w₂ v h₂ _ =>
    writeSlot h (hp.2.1.mono h₂) (hp.2.2.mono h₂)

theorem primitive_extend (h : C.Agree r r') (ha : arg.Within (C.census w)) :
    C.Rel w scope (Primitive.extend r arg scope) (Primitive.extend r' arg scope)
      Value.Within := by
  rw [Primitive.extend, Primitive.extend]
  split
  · next prototype items hs =>
    refine C.bind (h.eval w scope (ha.split hs).1) fun w₁ v h₁ hv => ?_
    cases v with
    | object id =>
      refine buildObject h (fun id' hid' => ?_) ((ha.split hs).2.mono h₁)
      cases hid'
      exact hv
    | _ => exact C.fail
  · exact C.fail

theorem primitive_multiFunction (h : C.Agree r r') (ha : arg.Within (C.census w)) :
    C.Rel w scope (Primitive.multiFunction r arg scope) (Primitive.multiFunction r' arg scope)
      Value.Within := by
  rw [Primitive.multiFunction, Primitive.multiFunction]
  split
  · refine C.bind (makeAll h ha.elements.1) fun w₁ ids _ hids => ?_
    exact andThen (C.elementary .freshTag) fun w₂ tag h₂ =>
      C.pure fun id hid => Census.closure_mono h₂ (hids id hid)
  · exact C.fail

theorem primitive_bind (h : C.Agree r r') (ha : arg.Within (C.census w)) :
    C.Rel w scope (Primitive.bind r arg scope) (Primitive.bind r' arg scope) Value.Within := by
  refine C.bind (evalTwoArguments h ha) fun w₁ p _ hp => ?_
  obtain ⟨v, receiver⟩ := p
  cases v with
  | method f =>
    exact andThen (C.elementary .freshTag) fun w₂ tag h₂ =>
      C.pure ⟨Census.closure_mono h₂ hp.1, hp.2.mono h₂⟩
  | _ => exact C.fail

theorem primitive_isMatch (h : C.Agree r r') (ha : arg.Within (C.census w)) :
    C.Rel w scope (Primitive.isMatch r arg scope) (Primitive.isMatch r' arg scope)
      Value.Within := by
  rw [Primitive.isMatch_eq, Primitive.isMatch_eq]
  refine C.bind (evalTwoArguments h ha) fun w₁ p _ hp => ?_
  obtain ⟨v, target⟩ := p
  cases v with
  | pattern p =>
    refine C.map (C.withFrame (.inl rfl) upward_anything fun w₂ frame h₂ => ?_) fun _ _ _ => trivial
    exact matchWith h p (Value.Within.mono h₂ hp.1) (optionWithin_some.mpr (hp.2.mono h₂))
  | _ => exact C.fail

theorem primitive_call (h : C.Agree r r') (ha : arg.Within (C.census w)) :
    C.Rel w scope (Primitive.call r arg scope) (Primitive.call r' arg scope) Value.Within := by
  rw [Primitive.call, Primitive.call]
  split
  · next callee args hs =>
    exact C.bind (h.eval w scope (ha.split hs).1) fun w₁ v h₁ hv =>
      h.call w₁ scope hv ((ha.split hs).2.mono h₁)
  · exact C.fail

theorem primitive_apply (h : C.Agree r r') (ha : arg.Within (C.census w)) :
    C.Rel w scope (Primitive.apply r arg scope) (Primitive.apply r' arg scope) Value.Within :=
  C.bind (evalTwoArguments h ha) fun w₁ _ _ hp => h.call w₁ scope hp.1 (Node.within_quote hp.2)

theorem primitive_curry (h : C.Agree r r') (ha : arg.Within (C.census w)) :
    C.Rel w scope (Primitive.curry r arg scope) (Primitive.curry r' arg scope) Value.Within := by
  rw [Primitive.curry, Primitive.curry]
  split
  · next callee args hs =>
    refine C.bind (h.eval w scope (ha.split hs).1) fun w₁ v h₁ hv => ?_
    refine C.bind (h.eval w₁ scope ((ha.split hs).2.mono h₁)) fun w₂ args h₂ hargs => ?_
    exact andThen (C.elementary .freshCurriedTag) fun w₃ tag h₃ =>
      C.pure ⟨(hv.mono h₂).mono h₃, hargs.mono h₃⟩
  · exact C.fail

theorem primitive_delay (ha : arg.Within (C.census w)) :
    C.Rel w scope (Primitive.delay arg scope) (Primitive.delay arg scope) Value.Within := by
  refine C.bind (ofExcept (Φ := Node.Within) fun _ hn => ha.argument hn) fun w₁ node _ hn => ?_
  refine C.bind (C.elementary .capture) fun w₂ _ h₂ hscope => ?_
  exact C.map (C.elementary (.addPromise ⟨hn.mono h₂, hscope⟩)) fun _ _ hid => hid

theorem primitive_force (h : C.Agree r r') (ha : arg.Within (C.census w)) :
    C.Rel w scope (Primitive.force r arg scope) (Primitive.force r' arg scope) Value.Within :=
  C.bind (evalArgument h ha) fun _ _ _ hv => forceValue h hv

/-- **Related evaluators run every primitive alike.** -/
theorem runBuiltin (h : C.Agree r r') (b : Builtin) (ha : arg.Within (C.census w)) :
    C.Rel w scope (b.run r arg scope) (b.run r' arg scope) Value.Within := by
  cases b with
  | print => exact primitive_print h ha
  | add => exact primitive_add h ha
  | id => exact evalArgument h ha
  | list => exact primitive_list h ha
  | cons => exact primitive_cons h ha
  | car => exact primitive_car h ha
  | cdr => exact primitive_cdr h ha
  | get => exact primitive_get h ha
  | set => exact primitive_set h ha
  | function => exact C.map (ofArguments h ha) fun _ _ hid => hid
  | method => exact C.map (ofArguments h ha) fun _ _ hid => hid
  | multiFunction => exact primitive_multiFunction h ha
  | bind => exact primitive_bind h ha
  | functionShorthand => exact C.map (shorthand ha) fun _ _ hid => hid
  | pattern => exact C.map (buildSole h arg ha) fun _ _ hp => hp
  | patternWithPredicate => exact C.map (buildPredicated h arg ha) fun _ _ hp => hp
  | patternWithDefault => exact C.map (buildDefaulted h arg ha) fun _ _ hp => hp
  | patternAlias => exact C.map (buildAliased h arg ha) fun _ _ hp => hp
  | isMatch => exact primitive_isMatch h ha
  | call => exact primitive_call h ha
  | apply => exact primitive_apply h ha
  | curry => exact primitive_curry h ha
  | isEven => exact primitive_parity h ha
  | isOdd => exact primitive_parity h ha
  | object => exact buildObject h (fun _ hid => absurd hid (by simp)) ha
  | extend => exact primitive_extend h ha
  | dictionary => exact buildDictionary h ha
  | array => exact C.fail
  | define => exact primitive_define h ha
  | redefine => exact primitive_define h ha
  | ifElse => exact primitive_ifElse h ha
  | eq => exact primitive_eq h ha
  | delay => exact primitive_delay ha
  | force => exact primitive_force h ha

end Primitives

end Comparison

end Fexpr
