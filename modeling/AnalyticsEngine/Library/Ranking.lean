import Mathlib.Data.List.Sort
import Mathlib.Data.List.Nodup
import Mathlib.Data.String.Basic

/-!
# Ranks of distinct keys

A sort of the indices by their keys puts an index before another exactly when its key is smaller.
-/

namespace AnalyticsEngine.Library

/- Shortcut instances for sorting strings. -/
instance trans_string : IsTrans String (· ≤ ·) := inferInstance

instance antisymm_string : Std.Antisymm fun a b : String => a ≤ b := inferInstance

variable {α : Type*} [LinearOrder α]

/-- The indices of a list in the order of its keys. -/
def sortedIndices (keys : List α) : List ℕ :=
  (keys.zipIdx.insertionSort fun p q => p.1 ≤ q.1).map Prod.snd

theorem sortedIndices_perm (keys : List α) :
    (sortedIndices keys).Perm (List.range keys.length) := by
  unfold sortedIndices
  have hsnd := List.zipIdx_map_snd 0 keys
  rw [← List.range_eq_range'] at hsnd
  rw [← hsnd]
  exact (List.perm_insertionSort _ _).map _

variable {keys : List α}

theorem idxOf_sortedIndices_lt {i : ℕ} (hi : i < keys.length) :
    (sortedIndices keys).idxOf i < keys.length := by
  have hperm := sortedIndices_perm keys
  have hmem := hperm.mem_iff.mpr (List.mem_range.mpr hi)
  have hlt := List.idxOf_lt_length_iff.mpr hmem
  rw [hperm.length_eq, List.length_range] at hlt
  exact hlt

/-- The entry of the sorted list at the place of an index. -/
theorem sorted_at {i : ℕ} (hi : i < keys.length) :
    (keys.zipIdx.insertionSort fun p q => p.1 ≤ q.1)[(sortedIndices keys).idxOf i]? =
      some (keys[i], i) := by
  have hlt : (sortedIndices keys).idxOf i < (sortedIndices keys).length := by
    rw [(sortedIndices_perm keys).length_eq, List.length_range]
    exact idxOf_sortedIndices_lt hi
  have hget : (sortedIndices keys)[(sortedIndices keys).idxOf i] = i := List.getElem_idxOf hlt
  generalize (sortedIndices keys).idxOf i = place at hlt hget
  unfold sortedIndices at hlt hget
  rw [List.length_map] at hlt
  rw [List.getElem_map] at hget
  rw [List.getElem?_eq_getElem hlt, Option.some.injEq]
  have hmem : (keys.zipIdx.insertionSort fun p q => p.1 ≤ q.1)[place] ∈ keys.zipIdx :=
    (List.mem_insertionSort _).mp (List.getElem_mem _)
  have hkey := List.mem_zipIdx' hmem
  refine Prod.ext (hkey.2.trans ?_) hget
  simp only [List.get_eq_getElem, hget]

theorem idxOf_sortedIndices_lt_iff (hkeys : keys.Nodup) {i j : ℕ} (hi : i < keys.length)
    (hj : j < keys.length) :
    (sortedIndices keys).idxOf i < (sortedIndices keys).idxOf j ↔ keys[i] < keys[j] := by
  have hsorted := List.pairwise_insertionSort (fun p q : α × ℕ => p.1 ≤ q.1) keys.zipIdx
  -- an earlier place never holds a larger key
  have hle : ∀ {i j : ℕ} (hi : i < keys.length) (hj : j < keys.length),
      (sortedIndices keys).idxOf i < (sortedIndices keys).idxOf j → keys[i] ≤ keys[j] := by
    intro i j hi hj hlt
    obtain ⟨hi', heqi⟩ := List.getElem?_eq_some_iff.mp (sorted_at hi)
    obtain ⟨hj', heqj⟩ := List.getElem?_eq_some_iff.mp (sorted_at hj)
    have hpair := List.pairwise_iff_getElem.mp hsorted _ _ hi' hj' hlt
    rw [heqi, heqj] at hpair
    exact hpair
  constructor
  · intro hlt
    refine lt_of_le_of_ne (hle hi hj hlt) ?_
    intro heq
    have hsame := (hkeys.getElem_inj_iff).mp heq
    subst hsame
    omega
  · intro hlt
    rcases lt_trichotomy ((sortedIndices keys).idxOf i) ((sortedIndices keys).idxOf j) with
      hbefore | hsame | hafter
    · exact hbefore
    · have hi' := sorted_at hi
      rw [hsame, sorted_at hj] at hi'
      have hpair := Option.some.inj hi'
      have hkey : keys[j] = keys[i] := congrArg Prod.fst hpair
      exact absurd hlt (by rw [hkey]; exact lt_irrefl _)
    · exact absurd hlt (not_lt.mpr (hle hj hi hafter))

end AnalyticsEngine.Library
