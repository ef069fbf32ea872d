import Fexpr.Proofs.Reader.Lines

/-!
# Proofs/Reader/Shape — which trees are programs

Whatever a text reads as is a **program** (`program_of_read`): an atom, or an application of a
program or of a primitive to a spine of programs.  So values stand nowhere but at the heads of
applications, and cells nowhere but in their spines.

That a node is a program fixes what can stand at each place in it (`Program.fits`), since neither a
value nor a cell is a program by itself.
-/

namespace Fexpr

namespace Node

/-! ## Programs -/

/-- **The names that symbols have in programs**: letters, digits and hyphens. -/
def IsSymbolName (name : String) : Prop :=
  name ≠ "" ∧ ∀ c ∈ name.toList, c.isAlphanum ∨ c = '-'

/-- **A program**: an atom, or an application to a spine of programs that ends in a program. -/
inductive Program : Node → Prop
  | nil : Program .nil
  | identifier (name : String) : Program (.identifier name)
  | numeral {n : Nat} : n ≤ maxInteger → Program (.numeral n)
  | symbol {name : String} : IsSymbolName name → Program (.symbol name)
  | form {head cdr : Node} {args : List Node} : Program head → (∀ n ∈ args, Program n) →
      Program cdr → Program (.form head (.spine args cdr))
  | call {cdr : Node} {args : List Node} (label : String) (b : Builtin) :
      (∀ n ∈ args, Program n) → Program cdr →
      Program (.form (.value label (.builtin b)) (.spine args cdr))

variable {n head car cdr : Node}

theorem not_program_pair : ¬Program (.pair car cdr) := nofun

theorem not_program_value {label : String} {v : Value} : ¬Program (.value label v) := nofun

/-! ## Places -/

/-- **Where in a tree a node stands**: at its root, or as a part of an application or a cell. -/
inductive Place where
  | root | head | args | car | cdr

/-- **A node stands at a place** in a tree. -/
inductive At (root : Node) : Place → Node → Prop
  | root : At root .root root
  | head {place : Place} {head args : Node} : At root place (.form head args) → At root .head head
  | args {place : Place} {head args : Node} : At root place (.form head args) → At root .args args
  | car {place : Place} {car cdr : Node} : At root place (.pair car cdr) → At root .car car
  | cdr {place : Place} {car cdr : Node} : At root place (.pair car cdr) → At root .cdr cdr

/-- A spine of programs that ends in a program. -/
def ProgramSpine (n : Node) : Prop :=
  ∃ args cdr, n = .spine args cdr ∧ (∀ arg ∈ args, Program arg) ∧ cdr.Program

/-- What calls: a program or a primitive. -/
def ProgramHead (n : Node) : Prop :=
  n.Program ∨ ∃ label b, n = .value label (.builtin b)

/-- **What fits a place** in a program. -/
def Place.Fits : Place → Node → Prop
  | .root, n | .car, n => n.Program
  | .head, n => n.ProgramHead
  | .args, n | .cdr, n => n.ProgramSpine

theorem program_form_iff : Program (.form head cdr) ↔ head.ProgramHead ∧ cdr.ProgramSpine := by
  constructor
  · rintro (_ | _ | _ | _ | ⟨hhead, hargs, hcdr⟩ | ⟨label, b, hargs, hcdr⟩)
    · exact ⟨.inl hhead, _, _, rfl, hargs, hcdr⟩
    · exact ⟨.inr ⟨label, b, rfl⟩, _, _, rfl, hargs, hcdr⟩
  · rintro ⟨hhead | ⟨label, b, rfl⟩, args, cdr, rfl, hargs, hcdr⟩
    · exact .form hhead hargs hcdr
    · exact .call label b hargs hcdr

theorem programSpine_pair_iff : ProgramSpine (.pair car cdr) ↔ car.Program ∧ cdr.ProgramSpine := by
  constructor
  · rintro ⟨args, tail, hspine, hargs, htail⟩
    cases args with
    | nil =>
      obtain rfl : Node.pair car cdr = tail := hspine
      exact absurd htail not_program_pair
    | cons arg args =>
      obtain ⟨rfl, rfl⟩ := Node.pair.inj hspine
      obtain ⟨hcar, hargs⟩ := List.forall_mem_cons.mp hargs
      exact ⟨hcar, args, tail, rfl, hargs, htail⟩
  · rintro ⟨hcar, args, tail, rfl, hargs, htail⟩
    exact ⟨car :: args, tail, rfl, List.forall_mem_cons.mpr ⟨hcar, hargs⟩, htail⟩

/-- What is no cell ends a spine by itself. -/
theorem ProgramSpine.program (h : n.ProgramSpine) (hn : ∀ car cdr, n ≠ .pair car cdr) :
    n.Program := by
  obtain ⟨args, cdr, rfl, -, hcdr⟩ := h
  cases args with
  | nil => exact hcdr
  | cons arg args => exact absurd rfl (hn arg (spine args cdr))

variable {root : Node} {place : Place}

/-- An application is a program wherever it fits. -/
theorem Place.Fits.form (h : place.Fits (.form head cdr)) : Program (.form head cdr) := by
  cases place with
  | root | car => exact h
  | head => exact h.resolve_right nofun
  | args | cdr => exact ProgramSpine.program h nofun

/-- A cell fits nowhere but in a spine. -/
theorem Place.Fits.pair (h : place.Fits (.pair car cdr)) :
    (place = .args ∨ place = .cdr) ∧ ProgramSpine (.pair car cdr) := by
  cases place with
  | root | car => exact absurd h not_program_pair
  | head => exact absurd (h.resolve_right nofun) not_program_pair
  | args => exact ⟨.inl rfl, h⟩
  | cdr => exact ⟨.inr rfl, h⟩

/-- A value fits nowhere but at the head of an application. -/
theorem Place.Fits.value {label : String} {v : Value} (h : place.Fits (.value label v)) :
    place = .head ∧ ∃ b, v = .builtin b := by
  cases place with
  | root | car => exact absurd h not_program_value
  | head =>
    obtain ⟨_, b, hvalue⟩ := h.resolve_left not_program_value
    exact ⟨rfl, b, (Node.value.inj hvalue).2⟩
  | args | cdr => exact absurd (ProgramSpine.program h nofun) not_program_value

/-- **Everything in a program fits its place.** -/
theorem Program.fits (h : root.Program) (hn : root.At place n) : place.Fits n := by
  induction hn with
  | root => exact h
  | head _ ih => exact (program_form_iff.mp ih.form).1
  | args _ ih => exact (program_form_iff.mp ih.form).2
  | car _ ih => exact (programSpine_pair_iff.mp ih.pair.2).1
  | cdr _ ih => exact (programSpine_pair_iff.mp ih.pair.2).2

/-! ## The reader -/

/-- **The reader makes programs out of programs.** -/
theorem closed_program : Node.Closed Program where
  nil := .nil
  binary op _ _ hl hr :=
    .call _ op.builtin (List.forall_mem_cons.mpr ⟨hl, List.forall_mem_singleton.mpr hr⟩) .nil
  unary op operand h := by
    have hleading : ∀ n ∈ op.leading, Program n := by
      cases op with
      | id => exact fun _ hn => absurd hn List.not_mem_nil
      | ofThis => exact List.forall_mem_singleton.mpr (.identifier "this")
    have hargs : ∀ n ∈ op.leading ++ [operand], Program n :=
      List.forall_mem_append.mpr ⟨hleading, List.forall_mem_singleton.mpr h⟩
    exact .call _ op.builtin hargs .nil
  bracket {b _ _ _} hhead hargs hcdr := by
    cases b with
    | form => cases hhead
    | list | array | shorthand | object | dictionary =>
      cases hhead
      exact .call _ _ hargs hcdr
  form := .form

end Node

theorem Item.isSymbolName_of_ofToken {token name : String}
    (h : ofToken token = .ok (.node (.symbol name))) : Node.IsSymbolName name := by
  revert h
  fun_cases ofToken token with
  | case6 _ _ _ _ hsymbol =>
    rintro ⟨⟩
    rw [isSymbol] at hsymbol
    split at hsymbol
    · next c cs htoken =>
      rw [htoken, List.tail_cons]
      refine ⟨fun hempty => ?_, ?_⟩
      · simpa using congrArg String.toList hempty
      · simpa using hsymbol
    · cases hsymbol
  | case1 | case2 | case3 | case4 | case5 | case7 => rintro ⟨⟩

/-- **What is read is a program.**  Every node that a text reads as is an atom, or an application of
a program or of a primitive to a spine of programs that ends in a program; at every depth a value is
a primitive at the head of an application, and a cell is the spine of one, or continues it. -/
theorem program_of_read {code : String} {nodes : List Node} (h : read code = .ok nodes) :
    ∀ n ∈ nodes, n.Program ∧ ∀ place m, n.At place m →
      (∀ label v, m = .value label v → place = .head ∧ ∃ b, v = .builtin b) ∧
      ∀ car cdr, m = .pair car cdr → place = .args ∨ place = .cdr := by
  intro n hn
  have hprogram : n.Program := by
    refine forall_of_read Node.closed_program (fun token _ _ m hm => ?_) h n hn
    rcases Item.atom_cases hm with ⟨k, hk, rfl⟩ | rfl | ⟨name, rfl, -⟩
    · exact .numeral hk
    · exact .identifier token
    · exact .symbol (Item.isSymbolName_of_ofToken hm)
  refine ⟨hprogram, fun place m hm => ⟨?_, ?_⟩⟩
  · rintro label v rfl
    exact (hprogram.fits hm).value
  · rintro car cdr rfl
    exact (hprogram.fits hm).pair.1

/-- An array of a symbol and an operation, and an application with an explicit rest, are programs. -/
theorem array_and_rest_are_programs : ∃ nodes, read "#[#on x: 1] (f | @y)" = .ok nodes ∧
    nodes.map Node.text = ["(_array #on (_cons x 1))", "(f | (_get this y))"] ∧
    ∀ n ∈ nodes, n.Program ∧ ∀ place m, n.At place m →
      (∀ label v, m = .value label v → place = .head ∧ ∃ b, v = .builtin b) ∧
      ∀ car cdr, m = .pair car cdr → place = .args ∨ place = .cdr := by
  obtain ⟨nodes, hread, htexts⟩ := exists_of_texts
    (show (read "#[#on x: 1] (f | @y)").toOption.map (·.map Node.text) =
      some ["(_array #on (_cons x 1))", "(f | (_get this y))"] by decide +kernel)
  exact ⟨nodes, hread, htexts, program_of_read hread⟩

end Fexpr
