import Mathlib.Data.List.AList

/-!
# The interface of a hash map

The operations of a hash map with unique keys, in the style of the standard library's unordered associative
containers, and the behaviour their documentation promises.  A program that only uses this interface is verified for
every implementation; association lists without repeated keys are one.
-/

namespace Exchange

/-- A finite map `M` from `K` to `V`.  `emplace` inserts a key that is absent and does nothing for a key that is
present; `assign` is the effect of `m[k] = v`. -/
class DenseMap (M : Type) (K V : outParam Type) where
  empty : M
  find : M → K → Option V
  emplace : M → K → V → M
  assign : M → K → V → M
  erase : M → K → M
  size : M → Nat
  find_empty : ∀ k, find empty k = none
  find_emplace_self : ∀ m k v, find m k = none → find (emplace m k v) k = some v
  find_emplace_ne : ∀ m k k' v, k' ≠ k → find (emplace m k v) k' = find m k'
  emplace_present : ∀ m k v w, find m k = some w → emplace m k v = m
  find_assign_self : ∀ m k v, find (assign m k v) k = some v
  find_assign_ne : ∀ m k k' v, k' ≠ k → find (assign m k v) k' = find m k'
  find_erase_self : ∀ m k, find (erase m k) k = none
  find_erase_ne : ∀ m k k', k' ≠ k → find (erase m k) k' = find m k'
  size_empty : size empty = 0
  size_emplace : ∀ m k v, find m k = none → size (emplace m k v) = size m + 1
  size_erase : ∀ m k v, find m k = some v → size (erase m k) + 1 = size m

attribute [simp] DenseMap.find_empty DenseMap.find_assign_self DenseMap.find_erase_self DenseMap.size_empty

instance {K V : Type} [DecidableEq K] : DenseMap (AList fun _ : K => V) K V where
  empty := ∅
  find m k := m.lookup k
  emplace m k v := if (m.lookup k).isSome then m else m.insert k v
  assign m k v := m.insert k v
  erase m k := m.erase k
  size m := m.keys.length
  find_empty k := AList.lookup_empty k
  find_emplace_self m k v h := by
    rw [h]
    exact AList.lookup_insert m
  find_emplace_ne m k k' v h := by
    split
    · rfl
    · exact AList.lookup_insert_ne h
  emplace_present m k v w h := by
    rw [h]
    rfl
  find_assign_self m k v := AList.lookup_insert m
  find_assign_ne m k k' v h := AList.lookup_insert_ne h
  find_erase_self m k := AList.lookup_erase k m
  find_erase_ne m k k' h := AList.lookup_erase_ne h
  size_empty := rfl
  size_emplace m k v h := by
    have hk : k ∉ m.keys := AList.lookup_eq_none.1 h
    rw [h]
    simp [AList.keys_insert, List.erase_of_not_mem hk]
  size_erase m k v h := by
    have hk : k ∈ m.keys := AList.lookup_isSome.1 (by rw [h]; rfl)
    rw [AList.keys_erase, List.length_erase_of_mem hk]
    have := List.length_pos_of_mem hk
    omega

end Exchange
