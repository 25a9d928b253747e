import AnalyticsEngine.Embeddings.Hashing

/-!
# The sampled artists (scripts/measure_recall_churn.py, `_deterministic_sample`)

The sample takes the smallest hashes. Artists with different node keys have different hashes, and
then the sample depends on nothing but the set of artists, and on that in a monotone way.
-/

namespace AnalyticsEngine.RecallChurn
open Library Embeddings

variable {ι : Type*} {nodeKey : ι → U64} {seed : U64} {candidates : List ι}

/-- What an artist is ranked by. -/
def sampleHash (nodeKey : ι → U64) (seed : U64) (id : ι) : U64 := splitmix64 (nodeKey id ^^^ seed)

/-- `sorted(candidates, key=…)`, a stable sort. -/
def ranked (nodeKey : ι → U64) (seed : U64) (candidates : List ι) : List ι :=
  candidates.mergeSort fun a b => sampleHash nodeKey seed a ≤ sampleHash nodeKey seed b

/-- `_deterministic_sample`; `nodeKey` is `node_key("a", id)`. -/
def deterministicSample (nodeKey : ι → U64) (candidates : List ι) (n : ℕ) (seed : U64) : List ι :=
  (ranked nodeKey seed candidates).take n

theorem sampleHash_injective (seed : U64) : Function.Injective fun key : U64 => splitmix64 (key ^^^ seed) :=
  splitmix64_injective.comp (xor_injective seed)

theorem ranked_perm (nodeKey : ι → U64) (seed : U64) (candidates : List ι) :
    (ranked nodeKey seed candidates).Perm candidates := List.mergeSort_perm _ _

/-- No two candidates are ranked alike. -/
theorem ranked_strict (hkeys : (candidates.map nodeKey).Nodup) :
    (ranked nodeKey seed candidates).Pairwise fun a b =>
      sampleHash nodeKey seed a < sampleHash nodeKey seed b := by
  have hsorted : (ranked nodeKey seed candidates).Pairwise fun a b =>
      sampleHash nodeKey seed a ≤ sampleHash nodeKey seed b := by
    refine (List.pairwise_mergeSort ?_ ?_ candidates).imp fun h => of_decide_eq_true h
    · intro a b c hab hbc
      simp only [decide_eq_true_eq] at *
      exact hab.trans hbc
    · intro a b
      simpa using le_total (sampleHash nodeKey seed a) (sampleHash nodeKey seed b)
  have hhashes : (candidates.map (sampleHash nodeKey seed)).Nodup := by
    have h := hkeys.map (sampleHash_injective seed)
    rw [List.map_map] at h
    exact h
  have hdistinct : (ranked nodeKey seed candidates).Pairwise fun a b =>
      sampleHash nodeKey seed a ≠ sampleHash nodeKey seed b := by
    rw [← List.pairwise_map]
    exact ((ranked_perm nodeKey seed candidates).map _).nodup_iff.mpr hhashes
  exact hsorted.imp₂ (fun _ _ hle hne => lt_of_le_of_ne hle hne) hdistinct

theorem ranked_eq {l l' : List ι} (hperm : l.Perm l')
    (hl : l.Pairwise fun a b => sampleHash nodeKey seed a < sampleHash nodeKey seed b)
    (hl' : l'.Pairwise fun a b => sampleHash nodeKey seed a < sampleHash nodeKey seed b) : l = l' :=
  hperm.eq_of_pairwise (fun _ _ _ _ hab hba => absurd (hab.trans hba) (lt_irrefl _)) hl hl'

theorem ranked_filter [DecidableEq ι] (hkeys : (candidates.map nodeKey).Nodup) {kept : List ι}
    (hnodup : kept.Nodup) (hkept : kept ⊆ candidates) :
    (ranked nodeKey seed candidates).filter (· ∈ kept) = ranked nodeKey seed kept := by
  have hcandidates : candidates.Nodup := hkeys.of_map
  have hfilter : (candidates.filter (· ∈ kept)).Perm kept := by
    rw [List.perm_ext_iff_of_nodup (hcandidates.filter _) hnodup]
    intro id
    rw [List.mem_filter, decide_eq_true_eq]
    exact ⟨fun h => h.2, fun h => ⟨hkept h, h⟩⟩
  have hkeptKeys : (kept.map nodeKey).Nodup :=
    (hfilter.map nodeKey).nodup_iff.mp (hkeys.sublist (List.filter_sublist.map _))
  refine ranked_eq ?_ ((ranked_strict hkeys).sublist List.filter_sublist) (ranked_strict hkeptKeys)
  exact (((ranked_perm nodeKey seed candidates).filter _).trans hfilter).trans
    (ranked_perm nodeKey seed kept).symm

/-- With different node keys the order of the candidates is of no consequence, a larger sample
extends a smaller one, and artists that go missing take no other artist out of the sample. -/
theorem deterministicSample_stable [DecidableEq ι] (hkeys : (candidates.map nodeKey).Nodup)
    (seed : U64) :
    (∀ candidates', candidates'.Perm candidates → ∀ n,
      deterministicSample nodeKey candidates' n seed = deterministicSample nodeKey candidates n seed) ∧
    (∀ n more, deterministicSample nodeKey candidates n seed <+:
      deterministicSample nodeKey candidates (n + more) seed) ∧
    (∀ kept, kept.Nodup → kept ⊆ candidates → ∀ n,
      (deterministicSample nodeKey candidates n seed).filter (· ∈ kept) <+:
        deterministicSample nodeKey kept n seed) := by
  refine ⟨?_, ?_, ?_⟩
  · intro candidates' hperm n
    have hkeys' : (candidates'.map nodeKey).Nodup := (hperm.map nodeKey).nodup_iff.mpr hkeys
    have hranked := (ranked_perm nodeKey seed candidates').trans
      (hperm.trans (ranked_perm nodeKey seed candidates).symm)
    unfold deterministicSample
    rw [ranked_eq hranked (ranked_strict hkeys') (ranked_strict hkeys)]
  · intro n more
    exact List.take_prefix_take_left (Nat.le_add_right n more)
  · intro kept hnodup hkept n
    unfold deterministicSample
    rw [← ranked_filter hkeys hnodup hkept]
    generalize ranked nodeKey seed candidates = all
    have hsample : (all.take n).filter (· ∈ kept) <+: all.filter (· ∈ kept) := by
      conv_rhs => rw [← List.take_append_drop n all, List.filter_append]
      exact List.prefix_append _ _
    have hlength : ((all.take n).filter (· ∈ kept)).length ≤ n :=
      (List.length_filter_le _ _).trans (List.length_take_le n all)
    exact List.prefix_take_iff.mpr ⟨hsample, hlength⟩

theorem threeCandidates_keys : (([3, 5, 9] : List U64).map id).Nodup := by
  decide

theorem deterministicSample_stable_three :
    deterministicSample id [5, 3, 9] 2 7 = deterministicSample id [3, 5, 9] 2 7 ∧
      (deterministicSample id [3, 5, 9] 2 7).filter (· ∈ ([3, 9] : List U64)) <+:
        deterministicSample id [3, 9] 2 7 := by
  obtain ⟨horder, -, hmissing⟩ := deterministicSample_stable threeCandidates_keys 7
  exact ⟨horder [5, 3, 9] (by decide) 2, hmissing [3, 9] (by decide) (by decide) 2⟩

end AnalyticsEngine.RecallChurn
