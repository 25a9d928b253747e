import AnalyticsEngine.Library.Upsert
import Mathlib.Algebra.BigOperators.Group.List.Basic
import Mathlib.Data.List.Perm.Basic

/-!
# Grouping by a key

`groups key l` is the dictionary that a loop of `setdefault(key, []).append` leaves: a key for each
group in the order of its first member, the members in their order. Nothing is lost and nothing is
there twice (`groups_perm`).
-/

namespace AnalyticsEngine.Library

section
variable {α κ : Type*} [DecidableEq κ]

/-- Two parts of a group, the earlier first. -/
def joined (old new : κ × List α) : κ × List α := (old.1, old.2 ++ new.2)

omit [DecidableEq κ] in
theorem joined_fst (old new : κ × List α) : (joined old new).1 = old.1 := rfl

def groups (key : α → κ) (l : List α) : List (κ × List α) :=
  upsertAll Prod.fst joined (l.map fun x => (key x, [x])) []

variable {key : α → κ} {l : List α}

theorem groups_nodup (key : α → κ) (l : List α) : ((groups key l).map Prod.fst).Nodup := by
  unfold groups
  exact nodup_upsertAll joined_fst (by simp) _

omit [DecidableEq κ] in
theorem foldl_joined (rows : List (κ × List α)) (first : κ × List α) :
    rows.foldl joined first = (first.1, first.2 ++ rows.flatMap Prod.snd) := by
  induction rows generalizing first with
  | nil => simp
  | cons row rows ih => simp [ih, joined, List.flatMap_cons]

/-- The members of a group are those with its key. -/
theorem mem_groups {k : κ} {members : List α} :
    (k, members) ∈ groups key l ↔
      members = l.filter (fun x => key x = k) ∧ members ≠ [] := by
  have hrow : (k, members) ∈ groups key l ↔ rowOf Prod.fst (groups key l) k = some (k, members) := by
    constructor
    · intro h
      exact rowOf_of_mem (groups_nodup key l) h
    · exact rowOf_mem
  have hfilter : ((l.map fun x => (key x, [x])).filter fun row => row.1 = k) =
      (l.filter fun x => key x = k).map fun x => (key x, [x]) := by
    rw [List.filter_map]
    rfl
  have hsingles : ∀ xs : List α, (xs.map fun x => (key x, [x])).flatMap Prod.snd = xs := by
    intro xs
    simp [List.flatMap_map]
  rw [hrow]
  unfold groups
  rw [rowOf_upsertAll_new joined_fst (by simp), hfilter]
  cases hmembers : l.filter fun x => key x = k with
  | nil =>
    constructor
    · rintro ⟨first, rest, hsplit, _⟩
      simp at hsplit
    · rintro ⟨rfl, hne⟩
      exact absurd rfl hne
  | cons x xs =>
    have hx : key x = k := by
      have hmem : x ∈ l.filter fun x => key x = k := by simp [hmembers]
      exact of_decide_eq_true (List.mem_filter.mp hmem).2
    constructor
    · rintro ⟨first, rest, hsplit, hrest⟩
      obtain ⟨rfl, rfl⟩ := List.cons.inj hsplit
      rw [foldl_joined, hsingles] at hrest
      obtain ⟨_, rfl⟩ := Prod.mk.inj hrest
      exact ⟨rfl, by simp⟩
    · rintro ⟨rfl, _⟩
      refine ⟨(key x, [x]), xs.map fun x => (key x, [x]), rfl, ?_⟩
      rw [foldl_joined, hsingles, hx]
      rfl

theorem upsert_joined_perm (row : κ × List α) (table : List (κ × List α)) :
    ((upsert Prod.fst joined row table).flatMap Prod.snd).Perm
      (table.flatMap Prod.snd ++ row.2) := by
  induction table with
  | nil => simp [upsert]
  | cons old rest ih =>
    unfold upsert
    by_cases hold : old.1 = row.1
    · rw [if_pos hold, List.flatMap_cons, List.flatMap_cons]
      simp only [joined, List.append_assoc]
      exact List.perm_append_comm.append_left old.2
    · rw [if_neg hold, List.flatMap_cons, List.flatMap_cons, List.append_assoc]
      exact ih.append_left old.2

/-- The groups together hold every entry once. -/
theorem groups_perm (key : α → κ) (l : List α) : ((groups key l).flatMap Prod.snd).Perm l := by
  have hall : ∀ (rows table : List (κ × List α)),
      ((upsertAll Prod.fst joined rows table).flatMap Prod.snd).Perm
        (table.flatMap Prod.snd ++ rows.flatMap Prod.snd) := by
    intro rows
    induction rows with
    | nil => intro table; simp [upsertAll]
    | cons row rows ih =>
      intro table
      refine (ih _).trans ?_
      rw [List.flatMap_cons, ← List.append_assoc]
      exact (upsert_joined_perm row table).append_right _
  have h := hall (l.map fun x => (key x, [x])) []
  simpa [groups, List.flatMap_map] using h

/-- A sum over the entries, group by group. -/
theorem sum_groups {M : Type*} [AddCommMonoid M] (key : α → κ) (l : List α) (f : α → M) :
    ((groups key l).map fun group => (group.2.map f).sum).sum = (l.map f).sum := by
  rw [← ((groups_perm key l).map f).sum_eq, List.map_flatMap]
  induction groups key l with
  | nil => rfl
  | cons group rest ih => rw [List.map_cons, List.sum_cons, ih, List.flatMap_cons, List.sum_append]

end

end AnalyticsEngine.Library
