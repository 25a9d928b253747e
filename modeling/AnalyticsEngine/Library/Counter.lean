import Mathlib.Data.List.Sort
import Mathlib.Data.Finset.Basic
import Mathlib.Data.Prod.Lex
import Mathlib.Algebra.BigOperators.Group.List.Basic

/-!
# Counters

A counter is an association list in order of first appearance. Adding a count to it adds to the
total of that key (`total_addCount`), so a tally has one entry a key, with the key's total
(`mem_tally`), and its sorted items are in increasing key order (`sortedItems_ordered`).
-/

namespace AnalyticsEngine.Library

variable {κ M : Type*}

def addCount [DecidableEq κ] [Add M] (key : κ) (count : M) : List (κ × M) → List (κ × M)
  | [] => [(key, count)]
  | (k, m) :: rest => if k = key then (k, m + count) :: rest else (k, m) :: addCount key count rest

def tally [DecidableEq κ] [Add M] (entries : List (κ × M)) (counter : List (κ × M)) :
    List (κ × M) :=
  entries.foldl (fun counter entry => addCount entry.1 entry.2 counter) counter

def total [DecidableEq κ] [AddMonoid M] (entries : List (κ × M)) (key : κ) : M :=
  ((entries.filter fun entry => entry.1 = key).map Prod.snd).sum

/- `sorted(counter.items())`: pairs in lexicographic order. -/
def sortedItems [LinearOrder κ] [LinearOrder M] (counter : List (κ × M)) : List (κ × M) :=
  counter.insertionSort fun a b => toLex a ≤ toLex b

section Tally
variable [DecidableEq κ] [AddCommMonoid M] {entries counter : List (κ × M)} {key k : κ} {count : M}

theorem total_cons (entry : κ × M) (entries : List (κ × M)) (key : κ) :
    total (entry :: entries) key = (if entry.1 = key then entry.2 else 0) + total entries key := by
  unfold total
  by_cases h : entry.1 = key <;> simp [h]

theorem total_append (entries later : List (κ × M)) (key : κ) :
    total (entries ++ later) key = total entries key + total later key := by
  unfold total
  rw [List.filter_append, List.map_append, List.sum_append]

theorem total_elsewhere (h : ∀ entry ∈ entries, entry.1 ≠ key) : total entries key = 0 := by
  have hnone : (entries.filter fun entry => entry.1 = key) = [] :=
    List.filter_eq_nil_iff.mpr fun entry hentry hkey => h entry hentry (of_decide_eq_true hkey)
  unfold total
  rw [hnone]
  rfl

/-- Where a sum unites the members, a total has the members of its entries. -/
theorem mem_total {β : Type*} [DecidableEq β] {members : M → Finset β} (hzero : members 0 = ∅)
    (hadd : ∀ a b, members (a + b) = members a ∪ members b) {x : β} :
    x ∈ members (total entries key) ↔ ∃ entry ∈ entries, entry.1 = key ∧ x ∈ members entry.2 := by
  induction entries with
  | nil =>
    have hnone : total ([] : List (κ × M)) key = 0 := rfl
    simp [hnone, hzero]
  | cons entry rest ih =>
    rw [total_cons, hadd, Finset.mem_union, ih, List.exists_mem_cons_iff]
    by_cases hkey : entry.1 = key <;> simp [hkey, hzero]

theorem total_addCount (counter : List (κ × M)) (key k : κ) (count : M) :
    total (addCount key count counter) k = total counter k + if key = k then count else 0 := by
  induction counter with
  | nil => by_cases hk : key = k <;> simp [addCount, total, hk]
  | cons entry rest ih =>
    unfold addCount
    by_cases hentry : entry.1 = key
    · rw [if_pos hentry, total_cons, total_cons, hentry]
      by_cases hk : key = k
      · simp only [hk, if_true]
        exact add_right_comm _ _ _
      · simp [hk]
    · rw [if_neg hentry, total_cons, total_cons, ih, add_assoc]

theorem mem_keys_addCount (counter : List (κ × M)) (key k : κ) (count : M) :
    k ∈ (addCount key count counter).map Prod.fst ↔ k = key ∨ k ∈ counter.map Prod.fst := by
  induction counter with
  | nil => simp [addCount]
  | cons entry rest ih =>
    unfold addCount
    by_cases hentry : entry.1 = key
    · simp [hentry]
    · simp only [if_neg hentry, List.map_cons, List.mem_cons, ih]
      exact or_left_comm

theorem nodup_addCount (h : (counter.map Prod.fst).Nodup) :
    ((addCount key count counter).map Prod.fst).Nodup := by
  induction counter with
  | nil => simp [addCount]
  | cons entry rest ih =>
    rw [List.map_cons, List.nodup_cons] at h
    unfold addCount
    by_cases hentry : entry.1 = key
    · rw [if_pos hentry, List.map_cons, List.nodup_cons]
      exact h
    · rw [if_neg hentry, List.map_cons, List.nodup_cons, mem_keys_addCount]
      exact ⟨fun hmem => hmem.elim hentry h.1, ih h.2⟩

theorem nodup_tally (h : (counter.map Prod.fst).Nodup) :
    ((tally entries counter).map Prod.fst).Nodup := by
  induction entries generalizing counter with
  | nil => exact h
  | cons entry rest ih => exact ih (nodup_addCount h)

theorem total_tally (entries counter : List (κ × M)) (k : κ) :
    total (tally entries counter) k = total counter k + total entries k := by
  induction entries generalizing counter with
  | nil => simp [tally, total]
  | cons entry rest ih =>
    show total (tally rest (addCount entry.1 entry.2 counter)) k = _
    rw [ih, total_addCount, total_cons, add_assoc]

theorem mem_keys_tally (entries counter : List (κ × M)) (k : κ) :
    k ∈ (tally entries counter).map Prod.fst ↔
      k ∈ counter.map Prod.fst ∨ k ∈ entries.map Prod.fst := by
  induction entries generalizing counter with
  | nil => simp [tally]
  | cons entry rest ih =>
    show k ∈ (tally rest (addCount entry.1 entry.2 counter)).map Prod.fst ↔ _
    rw [ih, mem_keys_addCount, List.map_cons, List.mem_cons]
    tauto

theorem sum_addCount (counter : List (κ × M)) (key : κ) (count : M) :
    ((addCount key count counter).map Prod.snd).sum = (counter.map Prod.snd).sum + count := by
  induction counter with
  | nil => simp [addCount]
  | cons entry rest ih =>
    unfold addCount
    by_cases hentry : entry.1 = key
    · simp [hentry, add_right_comm]
    · simp [hentry, ih, add_assoc]

theorem sum_tally (entries counter : List (κ × M)) :
    ((tally entries counter).map Prod.snd).sum =
      (counter.map Prod.snd).sum + (entries.map Prod.snd).sum := by
  induction entries generalizing counter with
  | nil => simp [tally]
  | cons entry rest ih =>
    show ((tally rest (addCount entry.1 entry.2 counter)).map Prod.snd).sum = _
    rw [ih, sum_addCount, List.map_cons, List.sum_cons, add_assoc]

/-- In a list with one entry a key, an entry holds its key's total. -/
theorem total_of_mem (hnodup : (counter.map Prod.fst).Nodup) (h : (k, count) ∈ counter) :
    total counter k = count := by
  induction counter with
  | nil => cases h
  | cons entry rest ih =>
    rw [List.map_cons, List.nodup_cons] at hnodup
    rw [total_cons]
    rcases List.mem_cons.mp h with h | h
    · subst h
      have hrest : rest.filter (fun entry => entry.1 = k) = [] := by
        refine List.filter_eq_nil_iff.mpr fun entry hentry hk => hnodup.1 ?_
        exact List.mem_map.mpr ⟨entry, hentry, of_decide_eq_true hk⟩
      simp [total, hrest]
    · have hne : entry.1 ≠ k := fun hk =>
        hnodup.1 (hk ▸ List.mem_map.mpr ⟨(k, count), h, rfl⟩)
      rw [if_neg hne, zero_add]
      exact ih hnodup.2 h

theorem mem_tally : (k, count) ∈ tally entries [] ↔
    k ∈ entries.map Prod.fst ∧ count = total entries k := by
  have hnodup : ((tally entries []).map Prod.fst).Nodup := nodup_tally List.nodup_nil
  have htotal : total (tally entries []) k = total entries k := by
    rw [total_tally]
    exact zero_add _
  have hkeys := mem_keys_tally entries [] k
  rw [List.map_nil] at hkeys
  constructor
  · intro h
    refine ⟨?_, ?_⟩
    · rcases hkeys.mp (List.mem_map.mpr ⟨_, h, rfl⟩) with hnil | hentries
      · cases hnil
      · exact hentries
    · rw [← htotal, total_of_mem hnodup h]
  · rintro ⟨hk, hcount⟩
    obtain ⟨⟨key, stored⟩, hmem, hkey⟩ := List.mem_map.mp (hkeys.mpr (Or.inr hk))
    cases hkey
    have := total_of_mem hnodup hmem
    rw [htotal, ← hcount] at this
    rw [this]
    exact hmem

end Tally

section Sorted
variable [LinearOrder κ] [LinearOrder M] {counter : List (κ × M)} {entry : κ × M}

theorem mem_sortedItems : entry ∈ sortedItems counter ↔ entry ∈ counter := by
  unfold sortedItems
  exact List.mem_insertionSort _

theorem sortedItems_ordered (hnodup : (counter.map Prod.fst).Nodup) :
    (sortedItems counter).Pairwise fun a b => a.1 < b.1 := by
  have hle : (sortedItems counter).Pairwise fun a b => toLex a ≤ toLex b := by
    unfold sortedItems
    have : Std.Total fun a b : κ × M => toLex a ≤ toLex b := ⟨fun a b => le_total _ _⟩
    have : IsTrans (κ × M) fun a b => toLex a ≤ toLex b := ⟨fun _ _ _ hab hbc => le_trans hab hbc⟩
    exact List.pairwise_insertionSort _ _
  have hne : (sortedItems counter).Pairwise fun a b => a.1 ≠ b.1 := by
    have hperm := (List.perm_insertionSort (fun a b : κ × M => toLex a ≤ toLex b) counter).map
      Prod.fst
    exact List.pairwise_map.mp (hperm.nodup_iff.mpr hnodup)
  refine (hle.and hne).imp fun {a b} h => ?_
  rcases Prod.Lex.toLex_le_toLex.mp h.1 with hlt | heq
  · exact hlt
  · exact absurd heq.1 h.2

end Sorted

end AnalyticsEngine.Library
