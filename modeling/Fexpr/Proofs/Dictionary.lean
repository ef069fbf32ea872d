import Fexpr.Proofs.Equality
import Fexpr.Store

/-!
# Proofs/Dictionary — a dictionary is a finite map up to equality

Putting a value under a key changes what is found under the keys that equal it, and nothing else
(`get?_insert`); the keys stay where they are, and a new one goes last (`keys_insert`).  So no two
keys of a dictionary that was filled by insertions are equal (`WellMade.insert`).
-/

namespace Fexpr

namespace Dictionary

/-- The keys of the entries, in their order. -/
def keys (d : Dictionary) : List Value :=
  d.entries.map (·.1)

/-- **No two keys are equal.** -/
def WellMade (d : Dictionary) : Prop :=
  d.keys.Pairwise fun k k' => (k == k') = false

variable {d : Dictionary} {k k' v : Value} {entries : List (Value × Value)}

theorem find?_insertEntry :
    ((insertEntry k v entries).find? fun entry => entry.1 == k').map (·.2) =
      if k' == k then some v else (entries.find? fun entry => entry.1 == k').map (·.2) := by
  induction entries with
  | nil =>
    rw [insertEntry, BEq.comm (a := k')]
    cases hk : k == k' <;> simp [hk]
  | cons entry entries ih =>
    obtain ⟨key, w⟩ := entry
    rw [insertEntry]
    cases hkey : key == k with
    | true =>
      -- a key that equals this entry's equals the one that is put in
      have hsame : (key == k') = (k' == k) := by rw [BEq.congr_left hkey, BEq.comm]
      simp only [if_true, List.find?_cons, hsame]
      cases k' == k <;> rfl
    | false =>
      simp only [Bool.false_eq_true, if_false, List.find?_cons]
      cases hfound : key == k' with
      | false => exact ih
      | true =>
        have hother : (k' == k) = false := by rw [← BEq.congr_left hfound, hkey]
        simp [hother]

/-- **What is found under a key after a value has been put under another**: the value if the two
keys are equal, and what was found before if not. -/
theorem get?_insert (d : Dictionary) (k v k' : Value) :
    (d.insert k v).get? k' = if k' == k then some v else d.get? k' :=
  find?_insertEntry

theorem map_insertEntry : (insertEntry k v entries).map (·.1) =
    if (entries.map (·.1)).any (· == k) then entries.map (·.1) else entries.map (·.1) ++ [k] := by
  induction entries with
  | nil => rfl
  | cons entry entries ih =>
    obtain ⟨key, w⟩ := entry
    rw [insertEntry]
    cases hkey : key == k with
    | true => simp [hkey]
    | false =>
      simp only [Bool.false_eq_true, if_false, List.map_cons, ih, List.any_cons, hkey,
        Bool.false_or]
      split <;> rfl

/-- **Keys keep their order, and a new one goes last.** -/
theorem keys_insert (d : Dictionary) (k v : Value) :
    (d.insert k v).keys = if d.keys.any (· == k) then d.keys else d.keys ++ [k] :=
  map_insertEntry

theorem wellMade_empty : ({} : Dictionary).WellMade :=
  List.Pairwise.nil

/-- **An insertion leaves no two keys equal.** -/
theorem WellMade.insert (h : d.WellMade) (k v : Value) : (d.insert k v).WellMade := by
  rw [WellMade, keys_insert]
  split
  · exact h
  · next hnew =>
    refine List.pairwise_append.mpr ⟨h, List.pairwise_singleton _ _, fun key hkey other hother => ?_⟩
    obtain rfl := List.mem_singleton.mp hother
    simpa using fun heq => hnew (List.any_eq_true.mpr ⟨key, hkey, heq⟩)

end Dictionary

end Fexpr
