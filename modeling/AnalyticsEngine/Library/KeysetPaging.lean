import Mathlib.Data.List.Sort
import Mathlib.Data.Finset.Card

/-!
# Keyset paging over a changing table

A reader asks for the first `size` admitted rows behind a key, in key order, and goes on behind
the last key it got, until a page is short. `tables i` is the table as the `i`-th query sees it,
and in between the rows come and go. What is yielded is in increasing key order
(`Paged.ordered`), nothing that stays is missed (`Paged.complete`), and over a finite set of
admitted keys the reading ends (`keysetPages_paged`).
-/

namespace AnalyticsEngine.Library

variable {ρ κ : Type*} [LinearOrder κ]

def beyond (cursor : Option κ) (k : κ) : Bool :=
  match cursor with
  | none => true
  | some c => decide (c < k)

def keysetOrder (key : ρ → κ) (admits : ρ → Bool) (rows : List ρ) (cursor : Option κ) : List ρ :=
  (rows.filter fun r => admits r && beyond cursor (key r)).insertionSort fun r s => key r ≤ key s

def keysetPage (key : ρ → κ) (admits : ρ → Bool) (size : ℕ) (rows : List ρ)
    (cursor : Option κ) : List ρ :=
  (keysetOrder key admits rows cursor).take size

def keysetPages (key : ρ → κ) (admits : ρ → Bool) (size : ℕ) (tables : ℕ → List ρ) :
    ℕ → ℕ → Option κ → Option (List (List ρ))
  | 0, _, _ => none
  | fuel + 1, i, cursor =>
    let page := keysetPage key admits size (tables i) cursor
    match page.getLast? with
    | none => some [page]
    | some last =>
      if page.length < size then some [page]
      else (keysetPages key admits size tables fuel (i + 1) (some (key last))).map (page :: ·)

variable {key : ρ → κ} {admits : ρ → Bool} {size : ℕ} {rows : List ρ} {tables : ℕ → List ρ}
  {cursor : Option κ} {r : ρ}

theorem beyond_trans {c k : κ} (hc : beyond cursor c = true) (hk : beyond (some c) k = true) :
    beyond cursor k = true := by
  cases cursor with
  | none => rfl
  | some b => exact decide_eq_true ((of_decide_eq_true hc).trans (of_decide_eq_true hk))

theorem beyond_shrinks {window : Finset κ} {c : κ} (hc : c ∈ window)
    (hbeyond : beyond cursor c = true) :
    (window.filter fun k => beyond (some c) k = true).card <
      (window.filter fun k => beyond cursor k = true).card := by
  apply Finset.card_lt_card
  rw [Finset.ssubset_iff_of_subset]
  · refine ⟨c, Finset.mem_filter.mpr ⟨hc, hbeyond⟩, ?_⟩
    intro hself
    exact lt_irrefl _ (of_decide_eq_true (Finset.mem_filter.mp hself).2)
  · intro k hk
    obtain ⟨hkw, hlt⟩ := Finset.mem_filter.mp hk
    exact Finset.mem_filter.mpr ⟨hkw, beyond_trans hbeyond hlt⟩

/-! ### One page -/

theorem mem_keysetOrder : r ∈ keysetOrder key admits rows cursor ↔
    r ∈ rows ∧ admits r = true ∧ beyond cursor (key r) = true := by
  unfold keysetOrder
  rw [List.mem_insertionSort, List.mem_filter, Bool.and_eq_true]

theorem mem_of_mem_keysetPage (h : r ∈ keysetPage key admits size rows cursor) :
    r ∈ rows ∧ admits r = true ∧ beyond cursor (key r) = true :=
  mem_keysetOrder.mp (List.mem_of_mem_take h)

theorem keysetOrder_ordered (hkeys : (rows.map key).Nodup) :
    (keysetOrder key admits rows cursor).Pairwise fun r s => key r < key s := by
  have hle : (keysetOrder key admits rows cursor).Pairwise fun r s => key r ≤ key s := by
    unfold keysetOrder
    have : Std.Total fun r s : ρ => key r ≤ key s := ⟨fun r s => le_total (key r) (key s)⟩
    have : IsTrans ρ fun r s => key r ≤ key s := ⟨fun _ _ _ hrs hst => le_trans hrs hst⟩
    exact List.pairwise_insertionSort _ _
  have hne : (keysetOrder key admits rows cursor).Pairwise fun r s => key r ≠ key s := by
    have hfilter : ((rows.filter fun r => admits r && beyond cursor (key r)).map key).Nodup :=
      hkeys.sublist (List.filter_sublist.map key)
    exact List.pairwise_map.mp (((List.perm_insertionSort _ _).map key).nodup_iff.mpr hfilter)
  exact (hle.and hne).imp fun h => lt_of_le_of_ne h.1 h.2

theorem keysetPage_ordered (hkeys : (rows.map key).Nodup) :
    (keysetPage key admits size rows cursor).Pairwise fun r s => key r < key s :=
  (keysetOrder_ordered hkeys).sublist (List.take_sublist _ _)

theorem mem_keysetPage_of_short (hshort : (keysetPage key admits size rows cursor).length < size)
    (hr : r ∈ rows) (hadmits : admits r = true) (hbeyond : beyond cursor (key r) = true) :
    r ∈ keysetPage key admits size rows cursor := by
  unfold keysetPage at hshort ⊢
  rw [List.length_take, min_lt_iff] at hshort
  have hlength := hshort.resolve_left (lt_irrefl _)
  rw [List.take_of_length_le hlength.le]
  exact mem_keysetOrder.mpr ⟨hr, hadmits, hbeyond⟩

theorem mem_keysetPage_of_le (hkeys : (rows.map key).Nodup) {last : ρ}
    (hlast : (keysetPage key admits size rows cursor).getLast? = some last) (hr : r ∈ rows)
    (hadmits : admits r = true) (hbeyond : beyond cursor (key r) = true)
    (hle : key r ≤ key last) : r ∈ keysetPage key admits size rows cursor := by
  have hmem := mem_keysetOrder.mpr ⟨hr, hadmits, hbeyond⟩
  have hsplit := List.take_append_drop size (keysetOrder key admits rows cursor)
  have hordered : (keysetOrder key admits rows cursor).Pairwise fun r s => key r < key s :=
    keysetOrder_ordered hkeys
  rw [← hsplit] at hmem hordered
  rcases List.mem_append.mp hmem with htake | hdrop
  · exact htake
  · have hlt := (List.pairwise_append.mp hordered).2.2 last (List.mem_of_getLast? hlast) r hdrop
    exact absurd hle hlt.not_ge

/-! ### The whole reading -/

/-- A reading from the `i`-th query on, its last page being the first short one. -/
inductive Paged (key : ρ → κ) (admits : ρ → Bool) (size : ℕ) (tables : ℕ → List ρ) :
    ℕ → Option κ → List (List ρ) → Prop where
  | short {i : ℕ} {cursor : Option κ}
      (hshort : (keysetPage key admits size (tables i) cursor).length < size) :
      Paged key admits size tables i cursor [keysetPage key admits size (tables i) cursor]
  | full {i : ℕ} {cursor : Option κ} {last : ρ} {pages : List (List ρ)}
      (hlast : (keysetPage key admits size (tables i) cursor).getLast? = some last)
      (later : Paged key admits size tables (i + 1) (some (key last)) pages) :
      Paged key admits size tables i cursor
        (keysetPage key admits size (tables i) cursor :: pages)

variable {i : ℕ} {pages : List (List ρ)}

/-- What is yielded was admitted from the table of its query. -/
theorem Paged.sound (h : Paged key admits size tables i cursor pages) :
    ∀ r ∈ pages.flatten, admits r = true ∧ beyond cursor (key r) = true ∧
      ∃ j < pages.length, r ∈ tables (i + j) := by
  induction h with
  | short hshort =>
    intro r hr
    rw [List.flatten_singleton] at hr
    obtain ⟨hrow, hadmits, hbeyond⟩ := mem_of_mem_keysetPage hr
    exact ⟨hadmits, hbeyond, 0, Nat.zero_lt_one, hrow⟩
  | @full i cursor last pages hlast later ih =>
    intro r hr
    rw [List.flatten_cons, List.mem_append] at hr
    rcases hr with hpage | hlater
    · obtain ⟨hrow, hadmits, hbeyond⟩ := mem_of_mem_keysetPage hpage
      exact ⟨hadmits, hbeyond, 0, Nat.zero_lt_succ _, hrow⟩
    · obtain ⟨hadmits, hbeyond, j, hj, hrow⟩ := ih r hlater
      obtain ⟨_, _, hcursor⟩ := mem_of_mem_keysetPage (List.mem_of_getLast? hlast)
      refine ⟨hadmits, ?_, j + 1, Nat.succ_lt_succ hj, ?_⟩
      · exact beyond_trans hcursor hbeyond
      · rwa [Nat.add_right_comm, Nat.add_assoc] at hrow

/-- What is yielded is in strictly increasing key order, across the pages too. -/
theorem Paged.ordered (h : Paged key admits size tables i cursor pages)
    (hkeys : ∀ i, ((tables i).map key).Nodup) :
    pages.flatten.Pairwise fun r s => key r < key s := by
  induction h with
  | short hshort =>
    rw [List.flatten_singleton]
    exact keysetPage_ordered (hkeys _)
  | @full i cursor last pages hlast later ih =>
    rw [List.flatten_cons, List.pairwise_append]
    have hpage : (keysetPage key admits size (tables i) cursor).Pairwise fun r s => key r < key s :=
      keysetPage_ordered (hkeys i)
    refine ⟨hpage, ih, ?_⟩
    intro r hr s hs
    have hrlast : key r ≤ key last := by
      obtain ⟨init, hinit⟩ := List.getLast?_eq_some_iff.mp hlast
      rw [hinit] at hr hpage
      rcases List.mem_append.mp hr with hfirst | hrl
      · exact ((List.pairwise_append.mp hpage).2.2 r hfirst last (List.mem_singleton_self _)).le
      · rw [List.mem_singleton.mp hrl]
    exact lt_of_le_of_lt hrlast (of_decide_eq_true (later.sound s hs).2.1)

/-- A row that is there at every query is yielded. -/
theorem Paged.complete (h : Paged key admits size tables i cursor pages)
    (hkeys : ∀ i, ((tables i).map key).Nodup) (hadmits : admits r = true)
    (hbeyond : beyond cursor (key r) = true) (hrow : ∀ j < pages.length, r ∈ tables (i + j)) :
    r ∈ pages.flatten := by
  induction h with
  | short hshort =>
    rw [List.flatten_singleton]
    exact mem_keysetPage_of_short hshort (hrow 0 Nat.zero_lt_one) hadmits hbeyond
  | @full i cursor last pages hlast later ih =>
    rw [List.flatten_cons, List.mem_append]
    by_cases hle : key r ≤ key last
    · exact Or.inl (mem_keysetPage_of_le (hkeys i) hlast (hrow 0 (Nat.zero_lt_succ _)) hadmits
        hbeyond hle)
    · refine Or.inr (ih (decide_eq_true (not_le.mp hle)) ?_)
      intro j hj
      have hthere := hrow (j + 1) (Nat.succ_lt_succ hj)
      rwa [Nat.add_right_comm, Nat.add_assoc]

/-- Over finitely many admitted keys there are at most as many full pages as keys. -/
theorem keysetPages_paged (hsize : 1 ≤ size) {window : Finset κ}
    (hwindow : ∀ i, ∀ r ∈ tables i, admits r = true → key r ∈ window) {fuel : ℕ}
    (hfuel : (window.filter fun k => beyond cursor k = true).card < fuel) :
    ∃ pages, keysetPages key admits size tables fuel i cursor = some pages ∧
      Paged key admits size tables i cursor pages := by
  induction fuel generalizing i cursor with
  | zero => exact absurd hfuel (Nat.not_lt_zero _)
  | succ fuel ih =>
    cases hlast : (keysetPage key admits size (tables i) cursor).getLast? with
    | none =>
      simp only [keysetPages, hlast]
      rw [List.getLast?_eq_none_iff] at hlast
      refine ⟨_, rfl, Paged.short ?_⟩
      rw [hlast]
      exact hsize
    | some last =>
      simp only [keysetPages, hlast]
      split_ifs with hshort
      · exact ⟨_, rfl, Paged.short hshort⟩
      · -- a full page moves the cursor to an admitted key, so fewer keys remain behind it
        obtain ⟨hrow, hadmits, hbeyond⟩ := mem_of_mem_keysetPage (List.mem_of_getLast? hlast)
        have hfewer := beyond_shrinks (hwindow i last hrow hadmits) hbeyond
        obtain ⟨pages, hpages, hpaged⟩ := @ih (some (key last)) (i + 1) (by omega)
        rw [hpages]
        exact ⟨_, rfl, Paged.full hlast hpaged⟩

end AnalyticsEngine.Library
