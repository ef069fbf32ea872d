import Fexpr.Proofs.Arena.Placement
import Fexpr.Proofs.Balance
import Fexpr.Proofs.Permanence
import Fexpr.Proofs.Return.Enough

/-!
# Proofs/Matching/Rebinding — states that differ by a row of bindings

`s.Rebound binding scope bs t` says that, as far as the frames in use and the records of `s` go, `t`
is `s` after the bindings `bs`: what else happened since has left no trace there.  One more binding
makes the row longer (`Rebound.put`), a call that leaves alone what is in use (`Undisturbed`) keeps
it as it is (`Rebound.call`), and of two bindings of one name only the later counts
(`Rebound.congr`).
-/

namespace Fexpr

/-- **What is in use is the same**, and so are all objects, dictionaries and promises. -/
structure State.Undisturbed (s t : State) : Prop where
  inUse : t.arena.inUse = s.arena.inUse
  frame : ∀ u ∈ s.arena.inUse, t.arena.frame u = s.arena.frame u
  objects : Retained s.store.objects t.store.objects
  dictionaries : Retained s.store.dictionaries t.store.dictionaries
  promises : Retained s.store.promises t.store.promises

theorem State.Undisturbed.refl (s : State) : s.Undisturbed s :=
  ⟨rfl, fun _ _ => rfl, .refl _, .refl _, .refl _⟩

/-- **`t` is `s` after a row of bindings**, in the frames in use, the records and the depth. -/
structure State.Rebound (binding : Binding) (scope : ScopeId) (s : State)
    (bs : Row) (t : State) : Prop where
  arena : (binding.putAll scope bs s.arena).Alike t.arena
  closures : Retained s.store.closures t.store.closures
  objects : Retained s.store.objects t.store.objects
  dictionaries : Retained s.store.dictionaries t.store.dictionaries
  promises : Retained s.store.promises t.store.promises
  depth : t.depth = s.depth

namespace State.Rebound

variable {binding : Binding} {scope : ScopeId} {s t u : State} {bs cs : Row}

theorem refl (binding : Binding) (scope : ScopeId) (hs : s.arena.Tidy) :
    s.Rebound binding scope [] s :=
  ⟨.refl hs, .refl _, .refl _, .refl _, .refl _, rfl⟩

/-- **A call that leaves alone what is in use** leaves nothing to be told. -/
theorem call {fuel : Nat} {callee : Value} {arg : Node} {caller : ScopeId} {cfg : Config}
    (h : s.Rebound binding scope bs t)
    (hcall : ((Evaluator.ofFuel fuel).call callee arg caller cfg t).EndsIn u)
    (hu : t.Undisturbed u) : s.Rebound binding scope bs u := by
  have hbalanced := (Balance.agree_ofFuel fuel).call callee arg caller cfg t h.arena.tidy
  have hextends := (Permanence.agree_ofFuel fuel).call callee arg caller cfg t
  have hbalanced : t.Balanced u := by
    rcases hcall with ⟨v, hcall⟩ | ⟨e, hcall⟩
    · rwa [hcall] at hbalanced
    · rwa [hcall] at hbalanced
  have hextends : t.Extends u := hcall.state_eq ▸ hextends
  exact ⟨h.arena.trans ⟨hbalanced.tidy, hu.inUse, hu.frame, hextends.slots⟩,
    h.closures.trans hextends.closures, h.objects.trans hu.objects,
    h.dictionaries.trans hu.dictionaries, h.promises.trans hu.promises,
    hbalanced.depth.trans h.depth⟩

section Places

variable {place : String → ScopeId} (hs : s.arena.Tidy)
  (hplace : Arena.Places binding scope s.arena place)

include hs hplace

/-- Each name still goes to its place. -/
theorem places (h : s.Rebound binding scope bs t) : Arena.Places binding scope t.arena place := by
  have harena := h.arena
  rw [hplace.putAll_eq] at harena
  exact (hplace.setAll bs).alike hs.setAll harena

/-- **One more binding.** -/
theorem put (h : s.Rebound binding scope bs t) (name : String) (v : Value) :
    s.Rebound binding scope (bs ++ [(name, v)])
      { t with arena := binding.put scope name v t.arena } := by
  refine ⟨?_, h.closures, h.objects, h.dictionaries, h.promises, h.depth⟩
  have harena := h.arena
  rw [hplace.putAll_eq] at harena ⊢
  rw [(h.places hs hplace).put_eq, Arena.setAll_append]
  exact harena.set (place name) name v

omit hs in
/-- **Bindings that are overwritten later do not count.** -/
theorem congr (h : s.Rebound binding scope bs t)
    (hbs : ∀ name, Arena.latest bs name = Arena.latest cs name) :
    s.Rebound binding scope cs t := by
  refine ⟨?_, h.closures, h.objects, h.dictionaries, h.promises, h.depth⟩
  have harena := h.arena
  rw [hplace.putAll_eq] at harena ⊢
  rwa [← Arena.setAll_congr hbs]

omit hs in
/-- Names that are not among the bindings are bound as before. -/
theorem bindings_eq (h : s.Rebound binding scope bs t) {u : ScopeId} (hu : u ∈ s.arena.inUse)
    {name : String} (hname : name ∉ bs.names) :
    (t.arena.frame u).bindings[name]? = (s.arena.frame u).bindings[name]? := by
  have harena := h.arena
  rw [hplace.putAll_eq] at harena
  have hmem : u ∈ (Arena.setAll place bs s.arena).inUse := by rwa [Arena.inUse_setAll]
  rw [harena.frame u hmem, Arena.bindings_setAll (Arena.mem_inUse.mp hu).1,
    Arena.latest_eq_none_iff.mpr hname, ite_self, Option.none_or]

end Places

end State.Rebound

end Fexpr
