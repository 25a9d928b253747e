import Mathlib.Data.List.Nodup
import Mathlib.Data.List.Basic

/-!
# Upserts and inserts

A list of rows with distinct keys. An upsert merges the new row into the one with its key, or
appends it; after many upserts the row of a key is the first one given for it with the later ones
merged into it in turn (`rowOf_upsertAll`). Plain inserts go through as long as no key is there
twice (`foldlM_insert`).
-/

namespace AnalyticsEngine.Library

section
variable {α κ : Type*} [DecidableEq κ] (key : α → κ) (merge : α → α → α)

def upsert (row : α) : List α → List α
  | [] => [row]
  | old :: rest => if key old = key row then merge old row :: rest else old :: upsert row rest

def upsertAll (rows : List α) (table : List α) : List α :=
  rows.foldl (fun table row => upsert key merge row table) table

/-- The row of a key. -/
def rowOf (table : List α) (k : κ) : Option α := table.find? fun row => key row = k

/-- What an upsert leaves at its key. -/
def merged (old : Option α) (row : α) : α := old.elim row fun old => merge old row

variable {key merge} {table rows : List α} {row : α} {k : κ}

theorem rowOf_key (h : rowOf key table k = some row) : key row = k := by
  have hfound := List.find?_some h
  exact of_decide_eq_true hfound

theorem rowOf_mem (h : rowOf key table k = some row) : row ∈ table := List.mem_of_find?_eq_some h

theorem rowOf_eq_none : rowOf key table k = none ↔ k ∉ table.map key := by
  unfold rowOf
  simp

theorem rowOf_of_mem (hnodup : (table.map key).Nodup) (hrow : row ∈ table) :
    rowOf key table (key row) = some row := by
  unfold rowOf
  cases hfind : table.find? (fun r => key r = key row) with
  | none => exact absurd (List.mem_map_of_mem hrow) (rowOf_eq_none.mp hfind)
  | some found =>
    have hkey := rowOf_key hfind
    rw [List.inj_on_of_nodup_map hnodup (rowOf_mem hfind) hrow hkey]

variable (hmerge : ∀ old row, key (merge old row) = key old)
include hmerge

theorem rowOf_upsert (table : List α) (row : α) (k : κ) :
    rowOf key (upsert key merge row table) k =
      if key row = k then some (merged merge (rowOf key table k) row) else rowOf key table k := by
  unfold rowOf
  induction table with
  | nil => by_cases hk : key row = k <;> simp [upsert, merged, hk]
  | cons old rest ih =>
    unfold upsert
    by_cases hold : key old = key row
    · rw [if_pos hold, List.find?_cons, List.find?_cons, hmerge, hold]
      by_cases hk : key row = k <;> simp [merged, hk]
    · rw [if_neg hold, List.find?_cons, List.find?_cons, ih]
      by_cases hk : key old = k
      · have hne : key row ≠ k := fun h => hold (hk.trans h.symm)
        simp [hk, hne]
      · simp [hk]

theorem keys_upsert (table : List α) (row : α) :
    (upsert key merge row table).map key =
      if key row ∈ table.map key then table.map key else table.map key ++ [key row] := by
  induction table with
  | nil => simp [upsert]
  | cons old rest ih =>
    unfold upsert
    by_cases hold : key old = key row
    · simp [hold, hmerge]
    · have hne : key row ≠ key old := fun h => hold h.symm
      rw [if_neg hold, List.map_cons, ih]
      simp only [List.map_cons, List.mem_cons, hne, false_or]
      split_ifs with hrest
      · rfl
      · rfl

theorem nodup_upsert (hnodup : (table.map key).Nodup) (row : α) :
    ((upsert key merge row table).map key).Nodup := by
  rw [keys_upsert hmerge]
  split_ifs with hrow
  · exact hnodup
  · exact List.nodup_append_comm.mp (List.nodup_cons.mpr ⟨hrow, hnodup⟩)

theorem nodup_upsertAll (hnodup : (table.map key).Nodup) (rows : List α) :
    ((upsertAll key merge rows table).map key).Nodup := by
  induction rows generalizing table with
  | nil => exact hnodup
  | cons row rest ih => exact ih (nodup_upsert hmerge hnodup row)

theorem mem_keys_upsertAll (rows table : List α) (k : κ) :
    k ∈ (upsertAll key merge rows table).map key ↔ k ∈ table.map key ∨ k ∈ rows.map key := by
  induction rows generalizing table with
  | nil => simp [upsertAll]
  | cons row rest ih =>
    show k ∈ (upsertAll key merge rest (upsert key merge row table)).map key ↔ _
    rw [ih, keys_upsert hmerge, List.map_cons, List.mem_cons]
    split_ifs with hrow
    · constructor
      · rintro (htable | hrest)
        · exact Or.inl htable
        · exact Or.inr (Or.inr hrest)
      · rintro (htable | rfl | hrest)
        · exact Or.inl htable
        · exact Or.inl hrow
        · exact Or.inr hrest
    · rw [List.mem_append, List.mem_singleton, or_assoc]

omit hmerge in
theorem upsert_new (hnew : key row ∉ table.map key) :
    upsert key merge row table = table ++ [row] := by
  induction table with
  | nil => rfl
  | cons old rest ih =>
    rw [List.map_cons, List.mem_cons, not_or] at hnew
    unfold upsert
    rw [if_neg (Ne.symm hnew.1), ih hnew.2, List.cons_append]

omit hmerge in
/-- Rows with new, distinct keys are appended in their order. -/
theorem upsertAll_new (hkeys : ((table ++ rows).map key).Nodup) :
    upsertAll key merge rows table = table ++ rows := by
  induction rows generalizing table with
  | nil => exact (List.append_nil table).symm
  | cons row rest ih =>
    have hsplit : table ++ row :: rest = (table ++ [row]) ++ rest := by simp
    have hnew : key row ∉ table.map key := by
      intro hmem
      rw [hsplit, List.map_append, List.map_append, List.map_singleton] at hkeys
      exact List.disjoint_of_nodup_append hkeys.of_append_left hmem (List.mem_singleton_self _)
    rw [hsplit] at hkeys ⊢
    rw [← ih hkeys]
    unfold upsertAll
    rw [List.foldl_cons, upsert_new hnew]

/-- The row of a key after many upserts: the rows given for it, merged one after the other. -/
theorem rowOf_upsertAll (rows table : List α) (k : κ) :
    rowOf key (upsertAll key merge rows table) k =
      (rows.filter fun row => key row = k).foldl (fun old row => some (merged merge old row))
        (rowOf key table k) := by
  induction rows generalizing table with
  | nil => rfl
  | cons row rest ih =>
    show rowOf key (upsertAll key merge rest (upsert key merge row table)) k = _
    rw [ih, rowOf_upsert hmerge]
    by_cases hk : key row = k <;> simp [hk]

omit [DecidableEq κ] in
theorem key_foldl_merge (rows : List α) (first : α) : key (rows.foldl merge first) = key first := by
  induction rows generalizing first with
  | nil => rfl
  | cons row rest ih => exact (ih (merge first row)).trans (hmerge first row)

omit hmerge in
theorem foldl_merged (rows : List α) (first : α) :
    rows.foldl (fun old row => some (merged merge old row)) (some first) =
      some (rows.foldl merge first) := by
  induction rows generalizing first with
  | nil => rfl
  | cons row rest ih => exact ih (merge first row)

/-- From a table without the key, the row is there exactly if one was given for it. -/
theorem rowOf_upsertAll_new (hnew : k ∉ table.map key) {row : α} :
    rowOf key (upsertAll key merge rows table) k = some row ↔
      ∃ first rest, (rows.filter fun row => key row = k) = first :: rest ∧
        row = rest.foldl merge first := by
  rw [rowOf_upsertAll hmerge, rowOf_eq_none.mpr hnew]
  cases rows.filter fun row => key row = k with
  | nil => simp
  | cons first rest =>
    rw [List.foldl_cons]
    show rest.foldl _ (some first) = some row ↔ _
    rw [foldl_merged, Option.some.injEq]
    constructor
    · intro h
      exact ⟨first, rest, rfl, h.symm⟩
    · rintro ⟨first', rest', hsplit, hrow⟩
      obtain ⟨rfl, rfl⟩ := List.cons.inj hsplit
      exact hrow.symm

end

/-- A loop of inserts that go through on a new key stores rows with new, distinct keys. -/
theorem foldlM_insert {σ α κ : Type*} {m : Type _ → Type*} [Monad m] [LawfulMonad m]
    {rowsIn : σ → List α} {key : α → κ} {insert : σ → α → m σ} {rows : List α} {table : σ}
    (hinsert : ∀ table, ∀ row ∈ rows, key row ∉ (rowsIn table).map key →
      ∃ after, insert table row = pure after ∧ rowsIn after = rowsIn table ++ [row])
    (hkeys : ((rowsIn table ++ rows).map key).Nodup) :
    ∃ after, rows.foldlM insert table = pure after ∧ rowsIn after = rowsIn table ++ rows := by
  induction rows generalizing table with
  | nil => exact ⟨table, rfl, (List.append_nil _).symm⟩
  | cons row rest ih =>
    have hsplit : rowsIn table ++ row :: rest = (rowsIn table ++ [row]) ++ rest := by simp
    have hnew : key row ∉ (rowsIn table).map key := by
      intro hmem
      rw [hsplit, List.map_append, List.map_append, List.map_singleton] at hkeys
      exact List.disjoint_of_nodup_append hkeys.of_append_left hmem (List.mem_singleton_self _)
    obtain ⟨next, hnext, hrows⟩ := hinsert table row List.mem_cons_self hnew
    rw [hsplit, ← hrows] at hkeys
    obtain ⟨after, hafter, hall⟩ :=
      ih (fun table r hr => hinsert table r (List.mem_cons_of_mem _ hr)) hkeys
    refine ⟨after, ?_, ?_⟩
    · rw [List.foldlM_cons, hnext, pure_bind, hafter]
    · rw [hall, hrows, hsplit]

end AnalyticsEngine.Library
