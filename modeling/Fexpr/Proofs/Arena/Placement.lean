import Fexpr.Eval.Matching
import Fexpr.Proofs.Arena.Use
import Mathlib.Data.List.Induction

/-!
# Proofs/Arena/Placement — where bindings go, and what is left of a row of them

A name that is bound from a scope goes to one frame (`Arena.holder`): the nearest that binds it, or
the end of the chain.  Binding it there, or binding another name, moves no name anywhere else, and
neither does anything that leaves the frames in use alone (`Arena.Alike`).  So a row of bindings
writes each name to a place that is known beforehand (`Places`), and what counts in the end is the
last value of each name (`setAll_congr`).
-/

namespace Fexpr

/-- **A row of bindings**, the first one first. -/
abbrev Row := List (String × Value)

/-- The names that a row binds. -/
def Row.names (bs : Row) : List String :=
  bs.map Prod.fst

@[simp] theorem Row.names_nil : Row.names [] = [] := rfl

@[simp] theorem Row.names_cons (b : String × Value) (bs : Row) :
    Row.names (b :: bs) = b.1 :: bs.names := rfl

theorem Row.names_append (bs cs : Row) : Row.names (bs ++ cs) = bs.names ++ cs.names :=
  List.map_append

theorem Row.forall_names_append {bs cs : Row} {P : String → Prop} (hbs : ∀ name ∈ bs.names, P name)
    (hcs : ∀ name ∈ cs.names, P name) : ∀ name ∈ Row.names (bs ++ cs), P name := by
  rw [names_append]
  exact List.forall_mem_append.mpr ⟨hbs, hcs⟩

/-- Binds a name in the chosen way, in an arena. -/
def Binding.put (binding : Binding) (scope : ScopeId) (name : String) (v : Value) (a : Arena) :
    Arena :=
  match binding with
  | .inward => a.set scope name v
  | .outward => (a.setOutward scope name v).2

/-- **Binds one name after the other.** -/
def Binding.putAll (binding : Binding) (scope : ScopeId) (bs : Row) (a : Arena) :
    Arena :=
  bs.foldl (fun a b => binding.put scope b.1 b.2 a) a

theorem Binding.bind_eq (binding : Binding) (scope : ScopeId) (name : String) (v : Value) :
    binding.bind scope name v = Eval.modifyArena (binding.put scope name v) := by
  cases binding <;> rfl

namespace Arena

/-! ## Chains that end -/

/-- **The scopes from `u` outwards**, when their chain ends. -/
inductive Lineage (a : Arena) : ScopeId → List ScopeId → Prop
  | root {u : ScopeId} : u < a.frames.size → a.parent? u = none → Lineage a u [u]
  | step {u p : ScopeId} {us : List ScopeId} : u < a.frames.size → a.parent? u = some p →
      Lineage a p us → Lineage a u (u :: us)

namespace Lineage

variable {a : Arena} {u : ScopeId} {us vs : List ScopeId}

theorem ne_nil (h : a.Lineage u us) : us ≠ [] := by
  cases h <;> simp

theorem unique (h : a.Lineage u us) (h' : a.Lineage u vs) : us = vs := by
  induction h generalizing vs with
  | root _ hp =>
    rcases h' with _ | ⟨_, hp', _⟩
    · rfl
    · simp [hp] at hp'
  | step _ hp _ ih =>
    rcases h' with ⟨_, hp'⟩ | ⟨_, hp', h'⟩
    · simp [hp] at hp'
    · obtain rfl := Option.some.inj (hp.symm.trans hp')
      rw [ih h']

/-- Every scope of a chain has the rest of it as its own. -/
theorem of_mem (h : a.Lineage u us) {w : ScopeId} (hw : w ∈ us) :
    ∃ ws, a.Lineage w ws ∧ ws.length ≤ us.length := by
  induction h with
  | root hu hp =>
    obtain rfl := List.mem_singleton.mp hw
    exact ⟨_, .root hu hp, le_rfl⟩
  | step hu hp h ih =>
    rcases List.mem_cons.mp hw with rfl | hw
    · exact ⟨_, .step hu hp h, le_rfl⟩
    · obtain ⟨ws, hws, hle⟩ := ih hw
      exact ⟨ws, hws, hle.trans (Nat.le_succ _)⟩

theorem nodup (h : a.Lineage u us) : us.Nodup := by
  induction h with
  | root => simp
  | step hu hp h ih =>
    refine List.nodup_cons.mpr ⟨fun hmem => ?_, ih⟩
    obtain ⟨ws, hws, hle⟩ := h.of_mem hmem
    rw [hws.unique (.step hu hp h), List.length_cons] at hle
    omega

theorem lt_size (h : a.Lineage u us) {w : ScopeId} (hw : w ∈ us) : w < a.frames.size := by
  obtain ⟨ws, hws, -⟩ := h.of_mem hw
  cases hws <;> assumption

theorem chainFrom_eq (h : a.Lineage u us) {n : Nat} (hn : us.length ≤ n) :
    a.chainFrom n u = us := by
  induction h generalizing n with
  | root hu hp =>
    obtain ⟨n, rfl⟩ : ∃ m, n = m + 1 := ⟨n - 1, by simp at hn; omega⟩
    have hp' : (a.frame _).parent = none := hp
    simp only [chainFrom, hp']
  | step hu hp h ih =>
    obtain ⟨n, rfl⟩ : ∃ m, n = m + 1 := ⟨n - 1, by simp at hn; omega⟩
    have hp' : (a.frame _).parent = some _ := hp
    simp only [chainFrom, hp']
    rw [ih (Nat.le_of_succ_le_succ hn)]

/-- **A chain that ends is the chain.** -/
theorem chain_eq (h : a.Lineage u us) : a.chain u = us := by
  refine h.chainFrom_eq ?_
  rw [← List.toFinset_card_of_nodup h.nodup, ← Finset.card_range a.frames.size]
  exact Finset.card_le_card fun w hw =>
    Finset.mem_range.mpr (h.lt_size (List.mem_toFinset.mp hw))

/-- A scope that lies in another is in use. -/
theorem mem_inUse_of_parent (ha : a.Tidy) {p : ScopeId} (hu : u < a.frames.size)
    (hp : a.parent? u = some p) : u ∈ a.inUse := by
  refine mem_inUse.mpr ⟨hu, fun hfree => ?_⟩
  simp [ha.orphan u hfree] at hp

end Lineage

/-! ## The frame that a name goes to -/

/-- **The first of some scopes that binds the name**, or the last of them. -/
def holder (a : Arena) (name : String) : List ScopeId → ScopeId
  | [] => root
  | [u] => u
  | u :: us => if a.has u name then u else a.holder name us

section Holder

variable {a : Arena} {u w : ScopeId} {us : List ScopeId} {name x : String} {v : Value}

theorem holder_cons (h : us ≠ []) :
    a.holder name (u :: us) = if a.has u name then u else a.holder name us := by
  cases us with
  | nil => exact absurd rfl h
  | cons => rfl

theorem holder_mem (h : us ≠ []) : a.holder name us ∈ us := by
  induction us with
  | nil => exact absurd rfl h
  | cons u us ih =>
    rcases eq_or_ne us [] with rfl | hus
    · simp [holder]
    · rw [holder_cons hus]
      split
      · exact List.mem_cons_self
      · exact List.mem_cons_of_mem u (ih hus)

theorem holder_eq (h : us ≠ []) (d : ScopeId) :
    (us.find? fun t => a.has t name).getD (us.getLastD d) = a.holder name us := by
  induction us generalizing d with
  | nil => exact absurd rfl h
  | cons u us ih =>
    rcases eq_or_ne us [] with rfl | hus
    · by_cases hu : a.has u name <;> simp [holder, hu]
    · rw [holder_cons hus, List.find?_cons]
      cases a.has u name with
      | true => rfl
      | false =>
        rw [List.getLastD_cons]
        exact ih hus u

/-- **Binding outwards binds in the frame that the name goes to.** -/
theorem setOutward_eq (h : a.Lineage u us) :
    (a.setOutward u name v).2 = a.set (a.holder name us) name v := by
  rw [← holder_eq h.ne_nil u, ← h.chain_eq, setOutward, binder?, outermost]
  cases (a.chain u).find? fun t => a.has t name <;> rfl

theorem has_set_of_ne (h : w ≠ u) : (a.set w x v).has u name = a.has u name := by
  rw [has, set, frame_update_of_ne _ h, has]

theorem has_set_self (h : u < a.frames.size) :
    (a.set u x v).has u name = (x == name || a.has u name) := by
  rw [has, set, frame_update_self _ h, has]
  rw [Std.ExtTreeMap.contains_insert]
  congr 1
  rw [Bool.eq_iff_iff]
  simp

theorem holder_set_of_not_mem (h : w ∉ us) :
    (a.set w x v).holder name us = a.holder name us := by
  induction us with
  | nil => rfl
  | cons u us ih =>
    rcases eq_or_ne us [] with rfl | hus
    · rfl
    · have hu : w ≠ u := fun he => h (he ▸ List.mem_cons_self)
      rw [holder_cons hus, holder_cons hus, has_set_of_ne hu,
        ih fun hw => h (List.mem_cons_of_mem u hw)]

theorem Lineage.set (h : a.Lineage u us) : (a.set w x v).Lineage u us := by
  induction h with
  | root hu hp => exact .root (by rwa [Arena.set, size_update]) ((parent?_set ..).trans hp)
  | step hu hp _ ih =>
    exact .step (by rwa [Arena.set, size_update]) ((parent?_set ..).trans hp) ih

/-- **A binding moves no name**: wherever a name would have gone, it goes there still. -/
theorem holder_set (h : a.Lineage u us) :
    (a.set (a.holder x us) x v).holder name us = a.holder name us := by
  induction h with
  | root => rfl
  | @step u p us hu hp h ih =>
    have hmem : u ∉ us := (List.nodup_cons.mp (Lineage.step hu hp h).nodup).1
    rw [holder_cons h.ne_nil, holder_cons h.ne_nil, holder_cons h.ne_nil]
    cases hx : a.has u x with
    | true =>
      -- the frame binds `x` already
      have hsame : (x == name || a.has u name) = a.has u name := by
        by_cases hname : x = name
        · rw [← hname, hx, Bool.or_true]
        · simp [hname]
      rw [if_pos rfl, has_set_self hu, hsame, holder_set_of_not_mem hmem]
    | false =>
      have hne : a.holder x us ≠ u := fun he => hmem (he ▸ holder_mem h.ne_nil)
      rw [if_neg Bool.false_ne_true, has_set_of_ne hne, ih]

end Holder

/-! ## Arenas that agree on the frames in use -/

/-- **The same frames are in use and hold the same.** -/
structure Alike (a b : Arena) : Prop where
  tidy : b.Tidy
  inUse : b.inUse = a.inUse
  frame : ∀ u ∈ a.inUse, b.frame u = a.frame u
  slots : a.frames.size ≤ b.frames.size

namespace Alike

variable {a b c : Arena} {u : ScopeId} {us : List ScopeId}

theorem refl (h : a.Tidy) : a.Alike a := ⟨h, rfl, fun _ _ => rfl, le_rfl⟩

theorem trans (hab : a.Alike b) (hbc : b.Alike c) : a.Alike c where
  tidy := hbc.tidy
  inUse := hbc.inUse.trans hab.inUse
  frame u hu := (hbc.frame u (hab.inUse ▸ hu)).trans (hab.frame u hu)
  slots := hab.slots.trans hbc.slots

theorem set (h : a.Alike b) (w : ScopeId) (name : String) (v : Value) :
    (a.set w name v).Alike (b.set w name v) where
  tidy := h.tidy.update w fun _ => rfl
  inUse := by rw [Arena.set, Arena.set, inUse_update, inUse_update, h.inUse]
  frame u hu := by
    rw [Arena.set, inUse_update] at hu
    by_cases huw : w = u
    · subst huw
      have hlt : w < a.frames.size := (mem_inUse.mp hu).1
      rw [Arena.set, Arena.set, frame_update_self _ hlt,
        frame_update_self _ (hlt.trans_le h.slots), h.frame w hu]
    · rw [Arena.set, Arena.set, frame_update_of_ne _ huw, frame_update_of_ne _ huw, h.frame u hu]
  slots := by
    rw [Arena.set, Arena.set, size_update, size_update]
    exact h.slots

/-- Chains are the same: only their last frame may be out of use, and that stays without a
parent. -/
theorem lineage (ha : a.Tidy) (h : a.Alike b) (hus : a.Lineage u us) : b.Lineage u us := by
  induction hus with
  | @root u hu hp =>
    refine .root (hu.trans_le h.slots) ?_
    by_cases hmem : u ∈ a.inUse
    · rw [parent?, h.frame u hmem]
      exact hp
    · refine h.tidy.orphan u ?_
      by_contra hfree
      exact hmem (h.inUse ▸ mem_inUse.mpr ⟨hu.trans_le h.slots, hfree⟩)
  | @step u p us hu hp _ ih =>
    refine .step (hu.trans_le h.slots) ?_ ih
    rw [parent?, h.frame u (Lineage.mem_inUse_of_parent ha hu hp)]
    exact hp

theorem holder_eq (ha : a.Tidy) (h : a.Alike b) (hus : a.Lineage u us) (name : String) :
    b.holder name us = a.holder name us := by
  induction hus with
  | root => rfl
  | @step u p us hu hp hus ih =>
    rw [holder_cons hus.ne_nil, holder_cons hus.ne_nil, has,
      h.frame u (Lineage.mem_inUse_of_parent ha hu hp), ← has, ih]

end Alike

/-! ## A row of bindings -/

/-- Binds names one after the other, each at its own place. -/
def setAll (place : String → ScopeId) (bs : Row) (a : Arena) : Arena :=
  bs.foldl (fun a b => a.set (place b.1) b.1 b.2) a

/-- **The last value that a row of bindings gives to a name.** -/
def latest (bs : Row) (name : String) : Option Value :=
  bs.reverse.lookup name

section SetAll

variable {place : String → ScopeId} {bs cs : Row} {a b : Arena}

theorem setAll_append : setAll place (bs ++ cs) a = setAll place cs (setAll place bs a) :=
  List.foldl_append

theorem latest_append (bs cs : Row) (name : String) :
    latest (bs ++ cs) name = (latest cs name).or (latest bs name) := by
  rw [latest, List.reverse_append, List.lookup_append]
  rfl

theorem latest_singleton (b : String × Value) (name : String) :
    latest [b] name = if b.1 = name then some b.2 else none := by
  obtain ⟨key, v⟩ := b
  by_cases h : key = name
  · simp [latest, h]
  · have hne : (name == key) = false := beq_eq_false_iff_ne.mpr (Ne.symm h)
    simp [latest, List.lookup_cons, h, hne]

theorem latest_eq_none_iff {name : String} : latest bs name = none ↔ name ∉ bs.names := by
  simp only [latest, Row.names, List.lookup_eq_none_iff, List.mem_reverse, List.mem_map,
    not_exists, not_and]
  constructor
  · rintro h b hb rfl
    simpa using h b hb
  · intro h b hb
    rw [bne_iff_ne]
    exact Ne.symm (h b hb)

/-- A row of bindings that is overwritten altogether. -/
theorem latest_overwritten (h : ∀ name ∈ bs.names, name ∈ cs.names)
    (before : Row) (name : String) :
    latest (before ++ bs ++ cs) name = latest (before ++ cs) name := by
  rw [latest_append, latest_append, latest_append]
  cases hcs : latest cs name with
  | some v => rfl
  | none =>
    have hbs : latest bs name = none :=
      latest_eq_none_iff.mpr fun hmem => latest_eq_none_iff.mp hcs (h name hmem)
    rw [hbs]
    rfl

theorem setAll_free (a : Arena) : (setAll place bs a).free = a.free := by
  induction bs generalizing a with
  | nil => rfl
  | cons b bs ih => exact ih (a.set (place b.1) b.1 b.2)

theorem size_setAll (a : Arena) : (setAll place bs a).frames.size = a.frames.size := by
  induction bs generalizing a with
  | nil => rfl
  | cons b bs ih => exact (ih _).trans (size_update a _ _)

theorem inUse_setAll (a : Arena) : (setAll place bs a).inUse = a.inUse := by
  rw [Arena.inUse, size_setAll, setAll_free]
  rfl

theorem Tidy.setAll (h : a.Tidy) : (setAll place bs a).Tidy := by
  induction bs generalizing a with
  | nil => exact h
  | cons b bs ih => exact ih (h.update _ fun _ => rfl)

/-- A part of the frames that bindings do not touch. -/
theorem part_setAll {β : Type} (g : Frame → β)
    (h : ∀ (x : Frame) (m : Bindings), g { x with bindings := m } = g x) (u : ScopeId) :
    g ((setAll place bs a).frame u) = g (a.frame u) := by
  induction bs generalizing a with
  | nil => rfl
  | cons b bs ih => exact ih.trans (part_update g (fun x => h x _) a _ u)

/-- **What a row of bindings leaves under a name**: its last value, at the place of the name. -/
theorem bindings_setAll {u : ScopeId} (hu : u < a.frames.size) (name : String) :
    ((setAll place bs a).frame u).bindings[name]? =
      (if place name = u then latest bs name else none).or (a.frame u).bindings[name]? := by
  induction bs using List.reverseRecOn with
  | nil => simp [setAll, latest]
  | append_singleton bs b ih =>
    rw [setAll_append, latest_append, latest_singleton]
    change (((setAll place bs a).set (place b.1) b.1 b.2).frame u).bindings[name]? = _
    have hu' : u < (setAll place bs a).frames.size := by rwa [size_setAll]
    by_cases hplace : place b.1 = u
    · rw [hplace, set, frame_update_self _ hu', Std.ExtTreeMap.getElem?_insert]
      by_cases hname : b.1 = name
      · subst hname
        simp [hplace]
      · simp [hname, ih]
    · rw [set, frame_update_of_ne _ hplace, ih]
      by_cases hname : b.1 = name
      · subst hname
        simp [hplace]
      · simp [hname]

/-- Arenas are the same if their slots and their free lists are. -/
theorem eq_of_frame {a b : Arena} (hfree : a.free = b.free)
    (hsize : a.frames.size = b.frames.size)
    (h : ∀ u < a.frames.size, a.frame u = b.frame u) : a = b := by
  obtain ⟨frames, free⟩ := a
  obtain ⟨frames', free'⟩ := b
  obtain rfl : free = free' := hfree
  refine congrArg (Arena.mk · free) (Array.ext hsize fun u hu hu' => ?_)
  simpa [frame, Array.getD, hu, hu'] using h u hu

/-- **Only the last value of each name counts.** -/
theorem setAll_congr (h : ∀ name, latest bs name = latest cs name) :
    setAll place bs a = setAll place cs a := by
  refine eq_of_frame ?_ ?_ fun u hu => ?_
  · rw [setAll_free, setAll_free]
  · rw [size_setAll, size_setAll]
  rw [size_setAll] at hu
  have hbindings : ((setAll place bs a).frame u).bindings =
      ((setAll place cs a).frame u).bindings :=
    Std.ExtTreeMap.ext_getElem? fun name => by
      rw [bindings_setAll hu, bindings_setAll hu, h]
  have hparent : ((setAll place bs a).frame u).parent = ((setAll place cs a).frame u).parent := by
    rw [part_setAll (·.parent) fun _ _ => rfl, part_setAll (·.parent) fun _ _ => rfl]
  have hcaptured : ((setAll place bs a).frame u).captured =
      ((setAll place cs a).frame u).captured := by
    rw [part_setAll (·.captured) fun _ _ => rfl, part_setAll (·.captured) fun _ _ => rfl]
  generalize (setAll place bs a).frame u = f at *
  generalize (setAll place cs a).frame u = g at *
  obtain ⟨_, _, _⟩ := f
  obtain ⟨_, _, _⟩ := g
  cases hbindings
  cases hparent
  cases hcaptured
  rfl

end SetAll

/-! ## Places -/

/-- **Where a binding puts each name**, from a scope of an arena. -/
def Places (binding : Binding) (scope : ScopeId) (a : Arena) (place : String → ScopeId) : Prop :=
  match binding with
  | .inward => ∀ name, place name = scope
  | .outward => ∃ us, a.Lineage scope us ∧ ∀ name, place name = a.holder name us

theorem exists_places (binding : Binding) {scope : ScopeId} {a : Arena} {us : List ScopeId}
    (h : a.Lineage scope us) : ∃ place, Places binding scope a place := by
  cases binding with
  | inward => exact ⟨fun _ => scope, fun _ => rfl⟩
  | outward => exact ⟨fun name => a.holder name us, us, h, fun _ => rfl⟩

namespace Places

variable {binding : Binding} {scope : ScopeId} {a b : Arena} {place : String → ScopeId}

theorem put_eq (h : Places binding scope a place) (name : String) (v : Value) :
    binding.put scope name v a = a.set (place name) name v := by
  cases binding with
  | inward => rw [h name]; rfl
  | outward =>
    obtain ⟨us, hus, hplace⟩ := h
    rw [hplace name]
    exact setOutward_eq hus

theorem set (h : Places binding scope a place) (name : String) (v : Value) :
    Places binding scope (a.set (place name) name v) place := by
  cases binding with
  | inward => exact h
  | outward =>
    obtain ⟨us, hus, hplace⟩ := h
    refine ⟨us, hus.set, fun x => ?_⟩
    rw [hplace name, holder_set hus, hplace x]

theorem alike (ha : a.Tidy) (hab : a.Alike b) (h : Places binding scope a place) :
    Places binding scope b place := by
  cases binding with
  | inward => exact h
  | outward =>
    obtain ⟨us, hus, hplace⟩ := h
    exact ⟨us, hab.lineage ha hus, fun x => (hplace x).trans (hab.holder_eq ha hus x).symm⟩

/-- **A row of bindings writes each name to its place.** -/
theorem putAll_eq (h : Places binding scope a place) (bs : Row) :
    binding.putAll scope bs a = setAll place bs a := by
  induction bs generalizing a with
  | nil => rfl
  | cons b bs ih =>
    change binding.putAll scope bs (binding.put scope b.1 b.2 a) = _
    rw [h.put_eq, ih (h.set b.1 b.2)]
    rfl

theorem setAll (h : Places binding scope a place) (bs : Row) :
    Places binding scope (setAll place bs a) place := by
  induction bs generalizing a with
  | nil => exact h
  | cons b bs ih => exact ih (h.set b.1 b.2)

end Places

end Arena

end Fexpr
