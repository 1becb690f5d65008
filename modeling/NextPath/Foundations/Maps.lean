import Mathlib.Data.Finmap

/-!
# Finite maps

The maps of the source are finite maps; `Map K V` is Mathlib's `Finmap` with one type of values.
The two lemmas say what a lookup finds after a write and after a deletion, by one case split on
the key, which is how the proofs about the pool use them.
-/

namespace NextPath

/-- A finite map from keys to values. -/
abbrev Map (K V : Type) := Finmap fun _ : K => V

namespace Map

variable {K V : Type} [DecidableEq K]

theorem lookup_insert_ite (m : Map K V) (k k' : K) (v : V) :
    (m.insert k v).lookup k' = if k' = k then some v else m.lookup k' := by
  split_ifs with h
  · subst h
    exact Finmap.lookup_insert m
  · exact Finmap.lookup_insert_of_ne m h

theorem lookup_erase_ite (m : Map K V) (k k' : K) :
    (m.erase k).lookup k' = if k' = k then none else m.lookup k' := by
  split_ifs with h
  · subst h
    exact Finmap.lookup_erase k' m
  · exact Finmap.lookup_erase_ne h

/-- A write covers the deletion before it. -/
theorem insert_erase (m : Map K V) (k : K) (v : V) : (m.erase k).insert k v = m.insert k v := by
  refine Finmap.ext_lookup fun k' => ?_
  simp only [lookup_insert_ite, lookup_erase_ite]
  split_ifs <;> rfl

end Map

end NextPath
