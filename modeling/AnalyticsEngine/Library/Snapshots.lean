import AnalyticsEngine.Library.Grouping
import Mathlib.Data.List.Induction
import Mathlib.Data.List.Nodup
import Mathlib.Data.List.Sort

/-!
# A table replaced as a whole

A replacement deletes every row and inserts others one by one, each against the constraints of the
table, in one transaction. A history of calls that replace the table or leave it as it is leaves the
rows of the last one that replaced it (`foldl_replaced`). Rows ranked within groups are read back in
the order in which they were ranked, however the reader sorts (`eq_of_rising`).
-/

namespace AnalyticsEngine.Library

section
variable {ρ : Type*} {admits : List ρ → ρ → Bool}

/-- Rows inserted after those there are, `none` at the first that a constraint refuses. -/
def insertAll (admits : List ρ → ρ → Bool) (table : List ρ) : List ρ → Option (List ρ)
  | [] => some table
  | row :: later => if admits table row then insertAll admits (table ++ [row]) later else none

theorem insertAll_rows {rows table after : List ρ} (h : insertAll admits table rows = some after) :
    after = table ++ rows := by
  induction rows generalizing table with
  | nil =>
    cases h
    exact (List.append_nil _).symm
  | cons row later ih =>
    unfold insertAll at h
    split_ifs at h with hadmits
    rw [ih h, List.append_assoc]
    rfl

end

section
variable {σ α β : Type*}

/-- The last call that replaces the table decides what is in it. -/
theorem foldl_replaced {step : σ → α → σ} {effect : α → Option β} {put : β → σ}
    (hstep : ∀ s a, step s a = (effect a).elim s put) (history : List α) (start : σ) :
    history.foldl step start = (history.filterMap effect).getLast?.elim start put := by
  induction history using List.reverseRecOn with
  | nil => rfl
  | append_singleton earlier a ih =>
    rw [List.foldl_append, List.filterMap_append, List.foldl_cons, List.foldl_nil, hstep, ih]
    cases heffect : effect a with
    | none => simp [heffect]
    | some b => simp [heffect]

end

section
variable {α : Type*} {rank : α → ℕ} {out l : List α}

theorem eq_of_rank_eq (hl : l.Pairwise fun a b => rank a < rank b) {a b : α} (ha : a ∈ l)
    (hb : b ∈ l) (hrank : rank a = rank b) : a = b := by
  have hnodup : (l.map rank).Nodup := by
    rw [List.Nodup, List.pairwise_map]
    exact hl.imp fun h => Nat.ne_of_lt h
  exact List.inj_on_of_nodup_map hnodup ha hb hrank

/-- Rows whose ranks rise come out of every sort by rank as they are. -/
theorem eq_of_rising (hperm : out.Perm l) (hout : out.Pairwise fun a b => rank a ≤ rank b)
    (hl : l.Pairwise fun a b => rank a < rank b) : out = l := by
  refine List.Perm.eq_of_pairwise ?_ hout (hl.imp fun h => Nat.le_of_lt h) hperm
  intro a b ha hb hab hba
  exact eq_of_rank_eq hl (hperm.mem_iff.mp ha) hb (Nat.le_antisymm hab hba)

end

/-! ### Ranks within groups -/

section
variable {α β κ : Type*} [DecidableEq κ]

/-- The first `cap` members of a group with their ranks from 1, each made a row. -/
def rankRows (row : κ → α → ℕ → Option β) (cap : ℕ) (k : κ) (members : List α) : Option (List β) :=
  ((members.take cap).zipIdx 1).mapM fun entry => row k entry.1 entry.2

/-- The rows of every group, one group after the other. -/
def rankedRows (key : α → κ) (row : κ → α → ℕ → Option β) (cap : ℕ) (items : List α) :
    Option (List β) :=
  ((groups key items).mapM fun group => rankRows row cap group.1 group.2).map List.flatten

variable {key : α → κ} {row : κ → α → ℕ → Option β} {rowKey : β → κ} {cap : ℕ}
  {items members : List α} {rows : List β} {k : κ}

omit [DecidableEq κ] in
theorem mapM_some_cons {γ : Type*} {f : γ → Option β} {x : γ} {xs : List γ} {ys : List β}
    (h : (x :: xs).mapM f = some ys) :
    ∃ y rest, f x = some y ∧ xs.mapM f = some rest ∧ ys = y :: rest := by
  rw [List.mapM_cons] at h
  obtain ⟨y, hy, h⟩ := Option.bind_eq_some_iff.mp h
  obtain ⟨rest, hrest, h⟩ := Option.bind_eq_some_iff.mp h
  cases h
  exact ⟨y, rest, hy, hrest, rfl⟩

omit [DecidableEq κ] in
theorem mem_mapM_some {γ : Type*} {f : γ → Option β} {xs : List γ} {ys : List β}
    (h : xs.mapM f = some ys) {y : β} (hy : y ∈ ys) : ∃ x ∈ xs, f x = some y := by
  induction xs generalizing ys with
  | nil =>
    cases h
    cases hy
  | cons x xs ih =>
    obtain ⟨z, rest, hz, hrest, rfl⟩ := mapM_some_cons h
    rcases List.mem_cons.mp hy with rfl | hy
    · exact ⟨x, List.mem_cons_self, hz⟩
    · obtain ⟨w, hw, hwy⟩ := ih hrest hy
      exact ⟨w, List.mem_cons_of_mem _ hw, hwy⟩

omit [DecidableEq κ] in
theorem mapM_some_take {γ : Type*} {f : γ → Option β} {xs : List γ} {ys : List β} (n : ℕ)
    (h : xs.mapM f = some ys) : (xs.take n).mapM f = some (ys.take n) := by
  induction xs generalizing n ys with
  | nil =>
    cases h
    simp
  | cons x xs ih =>
    obtain ⟨y, rest, hy, hrest, rfl⟩ := mapM_some_cons h
    cases n with
    | zero => simp
    | succ n => simp [hy, ih n hrest]

theorem zipIdx_take {γ : Type*} (xs : List γ) (n k : ℕ) :
    (xs.take n).zipIdx k = (xs.zipIdx k).take n := by
  induction xs generalizing n k with
  | nil => simp
  | cons x xs ih =>
    cases n with
    | zero => simp
    | succ n => simp [ih]

omit [DecidableEq κ] in
theorem rankRows_key (hkey : ∀ k a n b, row k a n = some b → rowKey b = k)
    (h : rankRows row cap k members = some rows) : ∀ b ∈ rows, rowKey b = k := by
  intro b hb
  obtain ⟨entry, _, hentry⟩ := mem_mapM_some h hb
  exact hkey k entry.1 entry.2 b hentry

/-- The rows of a group: those of its members, in their order. -/
theorem flatten_filter (hkey : ∀ k a n b, row k a n = some b → rowKey b = k)
    {table : List (κ × List α)} (hnodup : (table.map Prod.fst).Nodup) {parts : List (List β)}
    (h : (table.mapM fun group => rankRows row cap group.1 group.2) = some parts) :
    (∀ members, (k, members) ∈ table →
        rankRows row cap k members = some (parts.flatten.filter fun b => rowKey b = k)) ∧
      (k ∉ table.map Prod.fst → (parts.flatten.filter fun b => rowKey b = k) = []) := by
  induction table generalizing parts with
  | nil =>
    cases h
    exact ⟨fun _ hmem => absurd hmem List.not_mem_nil, fun _ => rfl⟩
  | cons group later ih =>
    obtain ⟨part, rest, hpart, hrest, rfl⟩ := mapM_some_cons h
    rw [List.map_cons, List.nodup_cons] at hnodup
    obtain ⟨hmember, habsent⟩ := ih hnodup.2 hrest
    rw [List.flatten_cons, List.filter_append]
    have hpartKey := rankRows_key hkey hpart
    by_cases hk : group.1 = k
    · subst hk
      have hall : (part.filter fun b => rowKey b = group.1) = part := by
        rw [List.filter_eq_self]
        intro b hb
        exact decide_eq_true (hpartKey b hb)
      rw [hall, habsent hnodup.1, List.append_nil]
      refine ⟨?_, ?_⟩
      · intro members hmem
        rcases List.mem_cons.mp hmem with heq | hlater
        · rw [← heq] at hpart
          exact hpart
        · exact absurd (List.mem_map.mpr ⟨_, hlater, rfl⟩) hnodup.1
      · intro hnot
        exact absurd List.mem_cons_self hnot
    · have hnone : (part.filter fun b => rowKey b = k) = [] := by
        rw [List.filter_eq_nil_iff]
        intro b hb
        simpa [hpartKey b hb] using hk
      rw [hnone, List.nil_append]
      refine ⟨?_, ?_⟩
      · intro members hmem
        rcases List.mem_cons.mp hmem with heq | hlater
        · exact absurd (congrArg Prod.fst heq).symm hk
        · exact hmember members hlater
      · intro hnot
        exact habsent fun hmem => hnot (List.mem_cons_of_mem _ hmem)

/-- The rows with one key are those of the entries with this key, the first `cap` of them, ranked in
their order. -/
theorem rankedRows_filter (hkey : ∀ k a n b, row k a n = some b → rowKey b = k)
    (h : rankedRows key row cap items = some rows) (k : κ) :
    rankRows row cap k (items.filter fun x => key x = k) =
      some (rows.filter fun b => rowKey b = k) := by
  unfold rankedRows at h
  obtain ⟨parts, hparts, rfl⟩ := Option.map_eq_some_iff.mp h
  obtain ⟨hmember, habsent⟩ := flatten_filter (k := k) hkey (groups_nodup key items) hparts
  by_cases hk : k ∈ (groups key items).map Prod.fst
  · obtain ⟨⟨_, members⟩, hmem, rfl⟩ := List.mem_map.mp hk
    rw [← (mem_groups.mp hmem).1]
    exact hmember members hmem
  · have hnone : (items.filter fun x => key x = k) = [] := by
      by_contra hne
      exact hk (List.mem_map.mpr ⟨_, mem_groups.mpr ⟨rfl, hne⟩, rfl⟩)
    rw [hnone, habsent hk]
    simp [rankRows]

omit [DecidableEq κ] in
/-- The ranks of one group are 1, 2 and so on, to `cap` at most. -/
theorem rankRows_ranks {rank : β → ℕ} (hrank : ∀ k a n b, row k a n = some b → rank b = n)
    (h : rankRows row cap k members = some rows) :
    rows.map rank = List.range' 1 (min cap members.length) := by
  have hrows : ∀ (entries : List (α × ℕ)) (out : List β),
      (entries.mapM fun entry => row k entry.1 entry.2) = some out →
        out.map rank = entries.map Prod.snd := by
    intro entries
    induction entries with
    | nil =>
      intro out hout
      cases hout
      rfl
    | cons entry later ih =>
      intro out hout
      obtain ⟨b, rest, hb, hrest, rfl⟩ := mapM_some_cons hout
      rw [List.map_cons, List.map_cons, ih rest hrest, hrank k entry.1 entry.2 b hb]
  unfold rankRows at h
  rw [hrows _ _ h, List.zipIdx_map_snd, List.length_take]

omit [DecidableEq κ] in
theorem rankRows_rising {rank : β → ℕ} (hrank : ∀ k a n b, row k a n = some b → rank b = n)
    (h : rankRows row cap k members = some rows) :
    rows.Pairwise fun a b => rank a < rank b := by
  have hsorted : (rows.map rank).Pairwise (· < ·) := by
    rw [rankRows_ranks hrank h]
    exact List.pairwise_lt_range'
  exact List.pairwise_map.mp hsorted

omit [DecidableEq κ] in
theorem rankRows_length {rank : β → ℕ} (hrank : ∀ k a n b, row k a n = some b → rank b = n)
    (h : rankRows row cap k members = some rows) : rows.length ≤ cap := by
  have hlength := congrArg List.length (rankRows_ranks hrank h)
  rw [List.length_map, List.length_range'] at hlength
  omega

end

end AnalyticsEngine.Library
