import AnalyticsEngine.Library.KBest

/-!
# The k best entries by a key

Entries carry a key, and several may carry the same. `TopBy key k l out` says that `out` is a choice
of `k` entries of `l` with no better entry left out: what a partial sort returns, ties and order
being its own affair. A choice from a running choice and new entries is a choice from all of them
(`TopBy.extend`), so a stream may be cut anywhere.
-/

namespace AnalyticsEngine.Library

variable {β κ : Type*} [LinearOrder κ] {key : β → κ} {k : ℕ} {l l' new out out' : List β}

def TopBy (key : β → κ) (k : ℕ) (l out : List β) : Prop :=
  ∃ rest, (out ++ rest).Perm l ∧ out.length = min k l.length ∧ ∀ a ∈ out, ∀ b ∈ rest, key b ≤ key a

/-- A routine that selects, as it likes among equal keys. -/
structure Selector (key : β → κ) where
  run : ℕ → List β → List β
  selects : ∀ k l, TopBy key k l (run k l)

/-- A routine that puts the best entries first, not necessarily a stable one. -/
structure Sorter (key : β → κ) where
  run : List β → List β
  perm : ∀ l, (run l).Perm l
  sorted : ∀ l, (run l).Pairwise fun a b => key b ≤ key a

theorem pairwise_best_first (key : β → κ) (l : List β) :
    (l.mergeSort fun a b => key b ≤ key a).Pairwise fun a b => key b ≤ key a := by
  refine (List.pairwise_mergeSort ?_ ?_ l).imp fun h => of_decide_eq_true h
  · intro a b c hab hbc
    simp only [decide_eq_true_eq] at *
    exact hbc.trans hab
  · intro a b
    simpa using le_total (key b) (key a)

/-- A stable sort, best first. -/
def Sorter.stable (key : β → κ) : Sorter key where
  run l := l.mergeSort fun a b => key b ≤ key a
  perm l := List.mergeSort_perm l _
  sorted := pairwise_best_first key

/-- The head of a stable sort. -/
def Selector.stable (key : β → κ) : Selector key where
  run k l := (l.mergeSort fun a b => key b ≤ key a).take k
  selects := by
    intro k l
    refine ⟨(l.mergeSort fun a b => key b ≤ key a).drop k, ?_, ?_, ?_⟩
    · rw [List.take_append_drop]
      exact List.mergeSort_perm l _
    · rw [List.length_take, List.length_mergeSort]
    · have h := pairwise_best_first key l
      rw [← List.take_append_drop k (l.mergeSort fun a b => key b ≤ key a)] at h
      exact (List.pairwise_append.mp h).2.2

omit [LinearOrder κ] in
theorem filter_ne_self [DecidableEq β] {x : β} (hx : x ∉ l) : l.filter (· ≠ x) = l := by
  rw [List.filter_eq_self]
  intro a ha
  exact decide_eq_true fun h => hx (h ▸ ha)

omit [LinearOrder κ] in
theorem perm_cons_without [DecidableEq β] (hl : l.Nodup) {x : β} (hx : x ∈ l) :
    l.Perm (x :: l.filter (· ≠ x)) := by
  have herase : l.erase x = l.filter (· ≠ x) := by
    rw [hl.erase_eq_filter]
    apply List.filter_congr
    intro a _
    by_cases h : a = x <;> simp [h]
  rw [← herase]
  exact List.perm_cons_erase hx

namespace TopBy

theorem self (h : l.length ≤ k) : TopBy key k l l := by
  refine ⟨[], ?_, ?_, ?_⟩
  · rw [List.append_nil]
  · omega
  · intro a _ b hb
    cases hb

theorem length (h : TopBy key k l out) : out.length = min k l.length := by
  obtain ⟨rest, _, hlength, _⟩ := h
  exact hlength

theorem perm (h : TopBy key k l out) (hl : l.Perm l') : TopBy key k l' out := by
  obtain ⟨rest, hperm, hlength, hbest⟩ := h
  refine ⟨rest, hperm.trans hl, ?_, hbest⟩
  rw [hlength, hl.length_eq]

theorem perm_out (h : TopBy key k l out) (hout : out.Perm out') : TopBy key k l out' := by
  obtain ⟨rest, hperm, hlength, hbest⟩ := h
  refine ⟨rest, (hout.symm.append_right rest).trans hperm, ?_, ?_⟩
  · rw [← hout.length_eq, hlength]
  · intro a ha
    exact hbest a (hout.mem_iff.mpr ha)

theorem subset (h : TopBy key k l out) : out ⊆ l := by
  obtain ⟨rest, hperm, _, _⟩ := h
  intro a ha
  exact hperm.mem_iff.mp (List.mem_append_left rest ha)

theorem nodup (h : TopBy key k l out) (hl : l.Nodup) : out.Nodup := by
  obtain ⟨rest, hperm, _, _⟩ := h
  exact (hperm.nodup_iff.mpr hl).of_append_left

/-- No entry that is left out is better than one that was taken. -/
theorem left_out (h : TopBy key k l out) {a b : β} (ha : a ∈ out) (hb : b ∈ l) (hnot : b ∉ out) :
    key b ≤ key a := by
  obtain ⟨rest, hperm, _, hbest⟩ := h
  rcases List.mem_append.mp (hperm.mem_iff.mpr hb) with hout | hrest
  · exact absurd hout hnot
  · exact hbest a ha b hrest

/-- Fewer than `k` entries are better than one that was taken. -/
theorem better_count (h : TopBy key k l out) {a : β} (ha : a ∈ out) :
    (l.countP fun x => key a < key x) < k := by
  obtain ⟨rest, hperm, hlength, hbest⟩ := h
  have hrest : (rest.countP fun x => key a < key x) = 0 := by
    rw [List.countP_eq_zero]
    intro x hx hlt
    exact absurd (hbest a ha x hx) (not_le.mpr (of_decide_eq_true hlt))
  have hout : (out.countP fun x => key a < key x) ≠ out.length := by
    intro hall
    exact absurd (of_decide_eq_true (List.countP_eq_length.mp hall a ha)) (lt_irrefl _)
  have hbound : (out.countP fun x => key a < key x) ≤ out.length := List.countP_le_length
  have hcount := hperm.countP_eq fun x => decide (key a < key x)
  rw [List.countP_append, hrest] at hcount
  omega

theorem not_crowded (h : TopBy key k l out) {a : β} (ha : a ∈ out) {better : List β}
    (hsub : better.Subperm l) (hbetter : ∀ x ∈ better, key a < key x) : better.length < k := by
  have hall : (better.countP fun x => key a < key x) = better.length := by
    rw [List.countP_eq_length]
    intro x hx
    exact decide_eq_true (hbetter x hx)
  have hcount := hsub.countP_le fun x => decide (key a < key x)
  have := h.better_count ha
  omega

/-- Of entries whose keys rise the best one is the last. -/
theorem head_of_rising (h : TopBy key 1 l out) (hl : l.Pairwise fun a b => key a < key b) :
    out.head? = l.getLast? := by
  have hlength := h.length
  rcases List.eq_nil_or_concat l with rfl | ⟨init, last, rfl⟩
  · have hout : out = [] := by simpa using hlength
    rw [hout]
    rfl
  · rw [List.concat_eq_append] at *
    rw [List.length_append, List.length_singleton, Nat.min_eq_left (Nat.le_add_left 1 _)] at hlength
    obtain ⟨best, rfl⟩ := List.length_eq_one_iff.mp hlength
    have hbest : best ∈ init ++ [last] := h.subset List.mem_cons_self
    rw [List.getLast?_concat, List.head?_cons]
    congr 1
    rcases List.mem_append.mp hbest with hinit | hlast
    · have hlt : key best < key last :=
        (List.pairwise_append.mp hl).2.2 best hinit last List.mem_cons_self
      by_contra hne
      have hnot : last ∉ [best] := fun hmem => hne (List.mem_singleton.mp hmem).symm
      have hle := h.left_out List.mem_cons_self (List.mem_append_right init List.mem_cons_self) hnot
      exact absurd hlt (not_lt.mpr hle)
    · exact List.mem_singleton.mp hlast

/-- A choice from a running choice and new entries is a choice from everything seen. -/
theorem extend (h : TopBy key k l out) (h' : TopBy key k (out ++ new) out') :
    TopBy key k (l ++ new) out' := by
  obtain ⟨rest, hperm, hlength, hbest⟩ := h
  have hsize := hperm.length_eq
  rw [List.length_append] at hsize
  obtain ⟨rest', hperm', hlength', hbest'⟩ := id h'
  refine ⟨rest' ++ rest, ?_, ?_, ?_⟩
  · calc out' ++ (rest' ++ rest) = (out' ++ rest') ++ rest := (List.append_assoc ..).symm
      _ |>.Perm ((out ++ new) ++ rest) := hperm'.append_right rest
      _ |>.Perm ((out ++ rest) ++ new) := by
          rw [List.append_assoc, List.append_assoc]
          exact List.perm_append_comm.append_left out
      _ |>.Perm (l ++ new) := hperm.append_right new
  · rw [hlength', List.length_append, List.length_append]
    omega
  · intro a ha b hb
    rcases List.mem_append.mp hb with hb | hb
    · exact hbest' a ha b hb
    · -- the running choice is full, and all of it is at least as good as `b`
      by_contra hab
      have hcrowd := h'.not_crowded ha (List.sublist_append_left out new).subperm
        fun x hx => (not_le.mp hab).trans_le (hbest x hx b hb)
      have := List.length_pos_of_mem hb
      omega

/-- Fillers that rank behind `k` other entries are not taken. -/
theorem of_append (h : TopBy key k (l ++ new) out) (hfew : k ≤ l.length)
    (hbehind : ∀ a ∈ l, ∀ b ∈ new, key b < key a) : TopBy key k l out := by
  classical
  have hnone : ∀ b ∈ out, b ∉ new := by
    intro b hb hnew
    have := h.not_crowded hb (List.sublist_append_left l new).subperm fun a ha => hbehind a ha b hnew
    omega
  have hout : ∀ b ∈ out, b ∈ l := by
    intro b hb
    exact (List.mem_append.mp (h.subset hb)).resolve_right (hnone b hb)
  have hnew : new.filter (· ∈ l) = [] := by
    rw [List.filter_eq_nil_iff]
    intro b hb hl
    exact absurd (hbehind b (of_decide_eq_true hl) b hb) (lt_irrefl _)
  obtain ⟨rest, hperm, hlength, hbest⟩ := h
  have hfilter := hperm.filter (· ∈ l)
  rw [List.filter_append, List.filter_append, hnew, List.append_nil,
    List.filter_eq_self.mpr fun b hb => decide_eq_true (hout b hb),
    List.filter_eq_self.mpr fun b hb => decide_eq_true hb] at hfilter
  refine ⟨rest.filter (· ∈ l), hfilter, ?_, ?_⟩
  · rw [List.length_append] at hlength
    omega
  · intro a ha b hb
    exact hbest a ha b (List.mem_of_mem_filter hb)

/-- With room for all of `l`, all of it is taken, and fillers after it. -/
theorem fill_up (h : TopBy key k (l ++ new) out) (hroom : l.length ≤ k)
    (hbehind : ∀ a ∈ l, ∀ b ∈ new, key b < key a) :
    ∃ fill, out.Perm (l ++ fill) ∧ fill ⊆ new := by
  classical
  have hnew : new.filter (· ∈ l) = [] := by
    rw [List.filter_eq_nil_iff]
    intro b hb hl
    exact absurd (hbehind b (of_decide_eq_true hl) b hb) (lt_irrefl _)
  have hsub : ∀ b ∈ out, b ∉ l → b ∈ new := fun b hb hnot =>
    (List.mem_append.mp (h.subset hb)).resolve_left hnot
  obtain ⟨rest, hperm, hlength, hbest⟩ := h
  have hsize := hperm.length_eq
  have hfilter := hperm.filter (· ∈ l)
  rw [List.filter_append, List.filter_append, hnew, List.append_nil,
    List.filter_eq_self.mpr fun b hb => decide_eq_true hb] at hfilter
  have hrest : rest.filter (· ∈ l) = [] := by
    rw [List.filter_eq_nil_iff]
    intro b hb hl
    -- were `b` left out, `k` entries of `l` would have been taken, and there are no more
    have hout : ∀ a ∈ out, decide (a ∈ l) = true := by
      intro a ha
      by_contra hnot
      have hfiller := hsub a ha (fun h => hnot (decide_eq_true h))
      exact absurd (hbest a ha b hb) (not_le.mpr (hbehind b (of_decide_eq_true hl) a hfiller))
    have hlist := hfilter.length_eq
    have hsome : 0 < (rest.filter (· ∈ l)).length :=
      List.length_pos_of_mem (List.mem_filter.mpr ⟨hb, hl⟩)
    have hpos := List.length_pos_of_mem hb
    rw [List.filter_eq_self.mpr hout, List.length_append] at hlist
    simp only [List.length_append] at hlength hsize
    omega
  rw [hrest, List.append_nil] at hfilter
  refine ⟨out.filter fun b => !decide (b ∈ l), ?_, ?_⟩
  · exact (List.filter_append_perm (· ∈ l) out).symm.trans (hfilter.append_right _)
  · intro b hb
    obtain ⟨hout, hnot⟩ := List.mem_filter.mp hb
    exact hsub b hout (by simpa using hnot)

/-- One more than asked for, without a given entry, is a choice among the others. -/
theorem without [DecidableEq β] (h : TopBy key (k + 1) l out) (hl : l.Nodup)
    (hsorted : out.Pairwise fun a b => key b ≤ key a) {x : β} (hx : x ∈ l) :
    TopBy key k (l.filter (· ≠ x)) ((out.filter (· ≠ x)).take k) := by
  obtain ⟨rest, hperm, hlength, hbest⟩ := h
  have hnodup := hperm.nodup_iff.mpr hl
  have hsize := hperm.length_eq
  have hothers := hperm.filter (· ≠ x)
  have hcount := (perm_cons_without hl hx).length_eq
  rw [List.length_append] at hsize
  rw [List.filter_append] at hothers
  rw [List.length_cons] at hcount
  by_cases hout : x ∈ out
  · have hrest : x ∉ rest := fun h => List.disjoint_of_nodup_append hnodup hout h
    have hfew := (perm_cons_without hnodup.of_append_left hout).length_eq
    rw [List.length_cons] at hfew
    rw [filter_ne_self hrest] at hothers
    rw [List.take_of_length_le (by omega)]
    refine ⟨rest, hothers, by omega, ?_⟩
    intro a ha b hb
    exact hbest a (List.mem_of_mem_filter ha) b hb
  · have hrest : x ∈ rest := (List.mem_append.mp (hperm.mem_iff.mpr hx)).resolve_left hout
    have hpos := List.length_pos_of_mem hrest
    rw [filter_ne_self hout] at hothers ⊢
    refine ⟨out.drop k ++ rest.filter (· ≠ x), ?_, ?_, ?_⟩
    · rw [← List.append_assoc, List.take_append_drop]
      exact hothers
    · rw [List.length_take]
      omega
    · intro a ha b hb
      rcases List.mem_append.mp hb with hb | hb
      · rw [← List.take_append_drop k out] at hsorted
        exact (List.pairwise_append.mp hsorted).2.2 a ha b hb
      · exact hbest a (List.mem_of_mem_take ha) b (List.mem_of_mem_filter hb)

/-- Two choices carry the same keys. -/
theorem keys_perm (h : TopBy key k l out) (h' : TopBy key k l out') :
    (out.map key).Perm (out'.map key) := by
  have hselection : ∀ {out : List β}, TopBy key k l out →
      IsSelection (κ := κᵒᵈ) k (l.map (OrderDual.toDual ∘ key)) (out.map (OrderDual.toDual ∘ key)) := by
    intro out h
    obtain ⟨rest, hperm, hlength, hbest⟩ := h
    refine ⟨rest.map (OrderDual.toDual ∘ key), ?_, ?_, ?_⟩
    · rw [← List.map_append]
      exact hperm.map _
    · rw [List.length_map, List.length_map, hlength]
    · intro a ha b hb
      obtain ⟨x, hx, rfl⟩ := List.mem_map.mp ha
      obtain ⟨y, hy, rfl⟩ := List.mem_map.mp hb
      exact hbest x hx y hy
  have hdual := (selection_perm (hselection h)).trans (selection_perm (hselection h')).symm
  have hmap := hdual.map OrderDual.ofDual
  rwa [List.map_map, List.map_map] at hmap

/-- Sorted, two choices carry the same keys at the same places. -/
theorem keys_eq (h : TopBy key k l out) (h' : TopBy key k l out')
    (hsorted : out.Pairwise fun a b => key b ≤ key a)
    (hsorted' : out'.Pairwise fun a b => key b ≤ key a) : out.map key = out'.map key := by
  have hdown : ∀ {l : List β}, (l.Pairwise fun a b => key b ≤ key a) →
      (l.map key).Pairwise (· ≥ ·) := fun h => List.pairwise_map.mpr h
  exact (h.keys_perm h').eq_of_pairwise (fun _ _ _ _ hab hba => le_antisymm hba hab)
    (hdown hsorted) (hdown hsorted')

/-- Without a tie at the cut there is one choice. -/
theorem perm_of_gap (h : TopBy key k l out) (h' : TopBy key k l out') (hl : l.Nodup)
    (hgap : ∀ a ∈ out, ∀ b ∈ l, b ∉ out → key b < key a) : out'.Perm out := by
  have hsub : out' ⊆ out := by
    intro b hb
    by_contra hnot
    have hout : out.Subperm l := (h.nodup hl).subperm h.subset
    have hlength := h.length
    have hfull := h'.not_crowded hb hout fun a ha => hgap a ha b (h'.subset hb) hnot
    have hall : out.Perm l := hout.perm_of_length_le (by omega)
    exact hnot (hall.mem_iff.mpr (h'.subset hb))
  refine ((h'.nodup hl).subperm hsub).perm_of_length_le ?_
  rw [h.length, h'.length]

end TopBy

/-! ### A stream -/

/-- A running choice of `k` entries, block by block. -/
theorem topBy_foldl {step : List β → List β → List β}
    (hstep : ∀ top block, top.length = k → TopBy key k (top ++ block) (step top block))
    (blocks : List (List β)) {start : List β} (h : TopBy key k l start) (hstart : start.length = k) :
    TopBy key k (l ++ blocks.flatten) (blocks.foldl step start) := by
  induction blocks generalizing l start with
  | nil =>
    rw [List.flatten_nil, List.append_nil]
    exact h
  | cons block blocks ih =>
    have hblock := hstep start block hstart
    have hlength := hblock.length
    rw [List.length_append] at hlength
    rw [List.flatten_cons, ← List.append_assoc]
    exact ih (h.extend hblock) (by omega)

end AnalyticsEngine.Library
