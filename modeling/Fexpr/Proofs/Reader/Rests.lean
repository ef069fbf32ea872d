import Fexpr.Proofs.Expansion.Precedence

/-!
# Proofs/Reader/Rests — where a rest marker may stand

    car … car            car car … car | cdr

A level without operators folds if it has one of these two shapes, the second with at least one car
(`IsSpine`), and then it folds into the spine that the shape spells.  Every other level is an error,
and which one is fixed by where its markers stand (`Misplaced`).  So the shapes and the errors tell
what becomes of a level, as an argument spine and as an application alike (`folds_iff`).
-/

namespace Fexpr

namespace Item

/-! ## Shapes and errors -/

/-- **A level that folds**, with its cars and its cdr: nodes alone, or at least one node and then,
behind the one marker, one more. -/
inductive IsSpine : List Item → List Node → Node → Prop
  | proper (cars : List Node) : IsSpine (cars.map .node) cars .nil
  | dotted (car : Node) (cars : List Node) (cdr : Node) :
      IsSpine ((car :: cars).map .node ++ [.rest, .node cdr]) (car :: cars) cdr

/-- **What is wrong with a level that does not fold.** -/
inductive Misplaced (items : List Item) : SyntaxError → Prop
  /-- A marker comes first. -/
  | first : items.head? = some .rest → Misplaced items .cdrWithoutCar
  /-- The only marker comes last, behind at least one node. -/
  | last (car : Node) (cars : List Node) : items = (car :: cars).map .node ++ [.rest] →
      Misplaced items .noCdrAfterRest
  /-- Anything else. -/
  | other : (∀ cars cdr, ¬IsSpine items cars cdr) → items.head? ≠ some .rest →
      (∀ car cars, items ≠ (car :: cars).map .node ++ [.rest]) → Misplaced items .multipleRests

/-- A level folds or something is wrong with it. -/
theorem isSpine_or_misplaced (items : List Item) :
    (∃ cars cdr, IsSpine items cars cdr) ∨ ∃ e, Misplaced items e := by
  by_cases hspine : ∃ cars cdr, IsSpine items cars cdr
  · exact .inl hspine
  by_cases hfirst : items.head? = some .rest
  · exact .inr ⟨_, .first hfirst⟩
  by_cases hlast : ∃ car cars, items = (car :: cars).map .node ++ [.rest]
  · obtain ⟨car, cars, h⟩ := hlast
    exact .inr ⟨_, .last car cars h⟩
  · exact .inr ⟨_, .other (fun cars cdr h => hspine ⟨cars, cdr, h⟩) hfirst
      fun car cars h => hlast ⟨car, cars, h⟩⟩

/-! ## Cars and the cdr -/

variable {items : List Item} {cars : List Node} {cdr : Node} {e : SyntaxError}

/-- **Nodes that stand before other items are cars**, whatever becomes of the others. -/
theorem moreCars_nodes_append (nodes : List Node) (items : List Item) :
    moreCars (nodes.map .node ++ items) =
      (moreCars items).map fun (cars, cdr) => (nodes ++ cars, cdr) := by
  induction nodes with
  | nil => cases h : moreCars items <;> simp [h, Except.map]
  | cons n nodes ih =>
    rw [List.map_cons, List.cons_append, moreCars, ih]
    cases moreCars items <;> rfl

theorem moreCars_append (h : moreCars items = .ok (cars, cdr)) (nodes : List Node) :
    moreCars (nodes.map .node ++ items) = .ok (nodes ++ cars, cdr) := by
  rw [moreCars_nodes_append, h]
  rfl

/-- Behind the first node a level is a level of more cars. -/
theorem carsAndCdr_nodes_append (car : Node) (cars : List Node) (items : List Item) :
    carsAndCdr ((car :: cars).map .node ++ items) =
      (moreCars items).map fun (more, cdr) => (car :: cars ++ more, cdr) :=
  moreCars_nodes_append (car :: cars) items

/-- **What has the shape folds.** -/
theorem IsSpine.carsAndCdr_eq (h : IsSpine items cars cdr) : carsAndCdr items = .ok (cars, cdr) := by
  cases h with
  | proper =>
    have hnodes : moreCars (cars.map .node) = .ok (cars, .nil) := by
      have hnil : moreCars [] = .ok ([], .nil) := rfl
      simpa only [List.append_nil] using moreCars_append hnil cars
    rw [← hnodes]
    cases cars <;> rfl
  | dotted car cars =>
    have hmarker : moreCars [.rest, .node cdr] = .ok ([], cdr) := rfl
    rw [carsAndCdr_nodes_append, hmarker]
    simp only [Except.map, List.append_nil]

theorem carsAndCdr_nodes (nodes : List Node) :
    carsAndCdr (nodes.map .node) = .ok (nodes, .nil) :=
  (IsSpine.proper nodes).carsAndCdr_eq

/-- The nodes in front of the first marker. -/
theorem exists_nodes_append (h : ∀ item ∈ items, item.IsBare) :
    ∃ (nodes : List Node) (rest : List Item), items = nodes.map .node ++ rest ∧
      (rest = [] ∨ ∃ more, rest = .rest :: more ∧ ∀ item ∈ more, item.IsBare) := by
  induction items with
  | nil => exact ⟨[], [], rfl, .inl rfl⟩
  | cons item items ih =>
    obtain ⟨hitem, hitems⟩ := List.forall_mem_cons.mp h
    cases item with
    | node n =>
      obtain ⟨nodes, rest, rfl, hrest⟩ := ih hitems
      exact ⟨n :: nodes, rest, rfl, hrest⟩
    | rest => exact ⟨[], .rest :: items, rfl, .inr ⟨items, rfl, hitems⟩⟩
    | unary _ | binary _ => exact hitem.elim

/-- **Behind a marker there is room for one node.** -/
theorem afterMarker_of_bare (h : ∀ item ∈ items, item.IsBare) (hne : items ≠ [])
    (hone : ∀ n, items ≠ [.node n]) : afterMarker items = .error .multipleRests := by
  match items with
  | [] => exact absurd rfl hne
  | [.node n] => exact absurd rfl (hone n)
  | .node _ :: .node _ :: _ | .node _ :: .rest :: _ | .rest :: _ => rfl
  | .node _ :: .unary op :: _ | .node _ :: .binary op :: _ =>
    exact (h _ (List.mem_cons_of_mem _ List.mem_cons_self)).elim
  | .unary op :: _ | .binary op :: _ => exact (h _ List.mem_cons_self).elim

/-- **What is wrong with a level is what is reported.** -/
theorem Misplaced.carsAndCdr_eq (hbare : ∀ item ∈ items, item.IsBare) (h : Misplaced items e) :
    carsAndCdr items = .error e := by
  cases h with
  | first hfirst =>
    obtain ⟨more, rfl⟩ : ∃ more, items = .rest :: more := by
      cases items with
      | nil => cases hfirst
      | cons item more => exact ⟨more, by rw [Option.some.inj hfirst]⟩
    rfl
  | last car cars hlast =>
    rw [hlast, carsAndCdr_nodes_append]
    rfl
  | other hspine hfirst hlast =>
    obtain ⟨nodes, rest, rfl, rfl | ⟨more, rfl, hmore⟩⟩ := exists_nodes_append hbare
    · rw [List.append_nil] at hspine
      exact absurd (.proper nodes) (hspine nodes .nil)
    cases nodes with
    | nil => exact absurd rfl hfirst
    | cons car cars =>
      -- neither nothing nor a single node is behind the first marker
      have hafter : afterMarker more = .error .multipleRests := by
        refine afterMarker_of_bare hmore ?_ ?_
        · rintro rfl
          exact hlast car cars rfl
        · rintro n rfl
          exact hspine _ _ (.dotted car cars n)
      have hmarker : moreCars (.rest :: more) = .error .multipleRests := by
        rw [moreCars, hafter]
        rfl
      rw [carsAndCdr_nodes_append, hmarker]
      rfl

/-- **A level folds into cars and a cdr exactly if it has the shape.** -/
theorem carsAndCdr_eq_ok_iff (hbare : ∀ item ∈ items, item.IsBare) :
    carsAndCdr items = .ok (cars, cdr) ↔ IsSpine items cars cdr := by
  refine ⟨fun h => ?_, IsSpine.carsAndCdr_eq⟩
  rcases isSpine_or_misplaced items with ⟨cars', cdr', hspine⟩ | ⟨e, hmisplaced⟩
  · obtain ⟨rfl, rfl⟩ := Prod.mk.inj (Except.ok.inj (hspine.carsAndCdr_eq.symm.trans h))
    exact hspine
  · cases (hmisplaced.carsAndCdr_eq hbare).symm.trans h

/-- **A level is an error exactly if that is wrong with it.** -/
theorem carsAndCdr_eq_error_iff (hbare : ∀ item ∈ items, item.IsBare) :
    carsAndCdr items = .error e ↔ Misplaced items e := by
  refine ⟨fun h => ?_, Misplaced.carsAndCdr_eq hbare⟩
  rcases isSpine_or_misplaced items with ⟨cars, cdr, hspine⟩ | ⟨e', hmisplaced⟩
  · cases hspine.carsAndCdr_eq.symm.trans h
  · obtain rfl := Except.error.inj ((hmisplaced.carsAndCdr_eq hbare).symm.trans h)
    exact hmisplaced

/-! ## Folding -/

theorem toSpine_eq (items : List Item) :
    toSpine items = (carsAndCdr items).map fun (cars, cdr) => .spine cars cdr := by
  rw [toSpine]
  cases carsAndCdr items <;> rfl

theorem IsSpine.toSpine_eq (h : IsSpine items cars cdr) : toSpine items = .ok (.spine cars cdr) := by
  rw [Item.toSpine_eq, h.carsAndCdr_eq]
  rfl

/-- **The first car applied to the rest**, or nothing where there is no car. -/
def applied : List Node → Node → Node
  | [], _ => .nil
  | head :: args, cdr => .form head (.spine args cdr)

theorem toForm_eq (items : List Item) :
    toForm items = (carsAndCdr items).map fun (cars, cdr) => applied cars cdr := by
  rw [toForm]
  cases carsAndCdr items with
  | error e => rfl
  | ok spine =>
    obtain ⟨_ | ⟨head, args⟩, cdr⟩ := spine <;> rfl

section

variable {build : List Node → Node → Node} {node : Node} (hbare : ∀ item ∈ items, item.IsBare)

include hbare

/-- Whatever is built of the cars and the cdr is built exactly of a level that has the shape. -/
theorem map_carsAndCdr_eq_ok_iff :
    (carsAndCdr items).map (fun (cars, cdr) => build cars cdr) = .ok node ↔
      ∃ cars cdr, IsSpine items cars cdr ∧ node = build cars cdr := by
  constructor
  · intro h
    cases hspine : carsAndCdr items with
    | error e =>
      rw [hspine] at h
      cases h
    | ok spine =>
      rw [hspine] at h
      exact ⟨spine.1, spine.2, (carsAndCdr_eq_ok_iff hbare).mp hspine, (Except.ok.inj h).symm⟩
  · rintro ⟨cars, cdr, hspine, rfl⟩
    rw [hspine.carsAndCdr_eq]
    rfl

theorem map_carsAndCdr_eq_error_iff :
    (carsAndCdr items).map (fun (cars, cdr) => build cars cdr) = .error e ↔
      Misplaced items e := by
  rw [← carsAndCdr_eq_error_iff hbare]
  cases carsAndCdr items with
  | ok spine => exact ⟨nofun, nofun⟩
  | error e' => simp only [Except.map, Except.error.injEq]

end

/-- **Rest markers are accepted exactly where a level has room for them.**  A level of nodes and
markers folds if and only if it is nodes alone, or nodes and then, behind the one marker, one more:
into the spine of the nodes in front of the marker, which ends in the node behind it or in `nil`, and
as an application into the first of them applied to the spine of the others.  Otherwise the error
tells whether a marker comes first, or the only one last, or neither. -/
theorem folds_iff (hbare : ∀ item ∈ items, item.IsBare) :
    (∀ node, toSpine items = .ok node ↔
      ∃ cars cdr, IsSpine items cars cdr ∧ node = .spine cars cdr) ∧
    (∀ node, toForm items = .ok node ↔ items = [] ∧ node = .nil ∨
      ∃ head args cdr, IsSpine items (head :: args) cdr ∧ node = .form head (.spine args cdr)) ∧
    (∀ e, toSpine items = .error e ↔ Misplaced items e) ∧
    ∀ e, toForm items = .error e ↔ Misplaced items e := by
  simp only [toSpine_eq, toForm_eq]
  refine ⟨fun node => map_carsAndCdr_eq_ok_iff hbare, fun node => ?_,
    fun e => map_carsAndCdr_eq_error_iff hbare, fun e => map_carsAndCdr_eq_error_iff hbare⟩
  rw [map_carsAndCdr_eq_ok_iff hbare]
  constructor
  · rintro ⟨cars, cdr, hspine, rfl⟩
    cases hspine with
    | proper cars =>
      cases cars with
      | nil => exact .inl ⟨rfl, rfl⟩
      | cons head args => exact .inr ⟨head, args, .nil, .proper (head :: args), rfl⟩
    | dotted head args cdr => exact .inr ⟨head, args, cdr, .dotted head args cdr, rfl⟩
  · rintro (⟨rfl, rfl⟩ | ⟨head, args, cdr, hspine, rfl⟩)
    · exact ⟨[], .nil, .proper [], rfl⟩
    · exact ⟨head :: args, cdr, hspine, rfl⟩

/-- The level `f x | y` is the application of `f` to `x` and the rest `y`; in `f | x y` there is one
node too many behind the marker. -/
theorem rest_of_application_folds :
    let f := Node.identifier "f"
    let x := Node.identifier "x"
    let y := Node.identifier "y"
    (∀ item ∈ [Item.node f, .node x, .rest, .node y], item.IsBare) ∧
      toForm [.node f, .node x, .rest, .node y] = .ok (.form f (.pair x y)) ∧
      (∀ item ∈ [Item.node f, .rest, .node x, .node y], item.IsBare) ∧
      toForm [.node f, .rest, .node x, .node y] = .error .multipleRests ∧
      Misplaced [.node f, .rest, .node x, .node y] .multipleRests := by
  intro f x y
  have hdotted : ∀ item ∈ [Item.node f, .node x, .rest, .node y], item.IsBare := by
    simp [IsBare]
  have htwo : ∀ item ∈ [Item.node f, .rest, .node x, .node y], item.IsBare := by
    simp [IsBare]
  refine ⟨hdotted, ?_, htwo, rfl, ?_⟩
  · exact ((folds_iff hdotted).2.1 _).mpr (.inr ⟨f, [x], y, .dotted f [x] y, rfl⟩)
  · exact ((folds_iff htwo).2.2.2 _).mp rfl

end Item

end Fexpr
