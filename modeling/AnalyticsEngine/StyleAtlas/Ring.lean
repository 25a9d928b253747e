import AnalyticsEngine.Library.HeldKarp
import AnalyticsEngine.Library.Ranking
import Mathlib.Algebra.Order.BigOperators.Group.List
import Mathlib.Algebra.Order.Ring.Defs
import Mathlib.Data.Finset.Sort
import Mathlib.Data.List.AList
import Mathlib.Data.List.InsertIdx
import Mathlib.Data.String.Basic

/-!
# insights/style_atlas.py: the genre ring

The exact ring fills its table layer by layer (`heldKarp_bellman`), so unwinding it gives an order
of all genres. The pinned ring keeps the genres that are still there in their order, and no
insertion comes before the first of them.
-/

namespace AnalyticsEngine.StyleAtlas
open Library

abbrev Shares (K : Type*) := AList fun _ : String => AList fun _ : String => K

section
variable {K : Type*} [LinearOrder K] [AddCommMonoid K]

/-- `matrix[i, j]`: the share of a genre in a style. -/
def shareOf (shares : Shares K) (style genre : String) : K :=
  match shares.lookup style with
  | none => 0
  | some styleShares => (styleShares.lookup genre).getD 0

def genreAffinity (genres : List String) (shares : Shares K) (j k : ℕ) : K :=
  if j = k then 0
  else ((shares.keys.insertionSort (· ≤ ·)).map fun style =>
    min (shareOf shares style (genres.getD j "")) (shareOf shares style (genres.getD k ""))).sum

end

/-! ### ring_order -/

def ringExactMaxGenres : ℕ := 20

inductive AtlasError where
  | exactRing (n : ℕ)

def AtlasError.message : AtlasError → String
  | .exactRing n => "an exact ring over " ++ Nat.repr n ++ " genres exceeds the " ++
      Nat.repr ringExactMaxGenres ++ "-genre bound"

section
variable {K : Type*} [LinearOrder K] [AddCommMonoid K]

/-- `best` and `previous` before the first layer. -/
def emptyTable : PathTable K where
  best mask last := if mask = {0} ∧ last = 0 then 0 else ⊥
  previous _ _ := none

/- One `last` of one layer: the masks of `size` bits with the start and `last` among them. -/
def fillLast (n : ℕ) (weight : ℕ → ℕ → K) (size : ℕ) (table : PathTable K) (last : ℕ) :
    PathTable K where
  best mask k :=
    if k = last ∧ mask.card = size ∧ Target n mask last then
      let chosen := argmax (candidates n weight table mask last)
      table.best (mask.erase last) chosen + weight chosen last
    else table.best mask k
  previous mask k :=
    if k = last ∧ mask.card = size ∧ Target n mask last then
      some (argmax (candidates n weight table mask last))
    else table.previous mask k

def fillLayer (n : ℕ) (weight : ℕ → ℕ → K) (table : PathTable K) (size : ℕ) : PathTable K :=
  (List.range' 1 (n - 1)).foldl (fillLast n weight size) table

def heldKarp (n : ℕ) (weight : ℕ → ℕ → K) : PathTable K :=
  (List.range' 2 (n - 1)).foldl (fillLayer n weight) emptyTable

/-- The smaller neighbour of the start comes second. -/
def canonical (order : List ℕ) : List ℕ :=
  match order with
  | [] => []
  | first :: rest =>
    if rest.getLastD first < rest.headD first then first :: rest.reverse else order

def ringOrder (n : ℕ) (weight : ℕ → ℕ → K) : Except AtlasError (List ℕ) :=
  if ringExactMaxGenres < n then .error (.exactRing n)
  else if n ≤ 3 then .ok (List.range n)
  else
    let table := heldKarp n weight
    let closing : ℕ → WithBot K := fun k =>
      if k = 0 then ⊥ else table.best (Finset.range n) k + weight k 0
    let last := argmax ((List.range n).map closing)
    .ok (canonical (unwind table.previous n (Finset.range n) (some last)).reverse)

/-! ### The table -/

/-- The table once the entries in `done` have been filled. -/
structure FilledTo (n : ℕ) (weight : ℕ → ℕ → K) (done : ℕ → ℕ → Prop) (table : PathTable K) :
    Prop where
  start : table.best {0} 0 = 0
  step : ∀ mask last, Target n mask last → done mask.card last →
    table.best mask last =
        table.best (mask.erase last) (argmax (candidates n weight table mask last)) +
          weight (argmax (candidates n weight table mask last)) last ∧
      table.previous mask last = some (argmax (candidates n weight table mask last))
  unreached : ∀ mask last, ¬(Target n mask last ∧ done mask.card last) →
    ¬(mask = {0} ∧ last = 0) → table.best mask last = ⊥
  stop : ∀ mask last, ¬(Target n mask last ∧ done mask.card last) → table.previous mask last = none

variable {n : ℕ} {weight : ℕ → ℕ → K}

theorem emptyTable_filledTo : FilledTo n weight (fun size _ => size < 2) emptyTable where
  start := by
    unfold emptyTable
    simp only [and_self, if_true]
  step mask last htarget hdone := by
    have hpair : ({0, last} : Finset ℕ) ⊆ mask := by
      intro k hk
      rcases Finset.mem_insert.mp hk with rfl | hk
      · exact htarget.2.1
      · rw [Finset.mem_singleton.mp hk]
        exact htarget.2.2.1
    have hcard := Finset.card_le_card hpair
    rw [Finset.card_pair htarget.2.2.2.symm] at hcard
    omega
  unreached mask last _ hstart := if_neg hstart
  stop _ _ _ := rfl

theorem fillLast_skip {size last k : ℕ} {mask : Finset ℕ} (table : PathTable K)
    (h : ¬(k = last ∧ mask.card = size ∧ Target n mask last)) :
    (fillLast n weight size table last).best mask k = table.best mask k ∧
      (fillLast n weight size table last).previous mask k = table.previous mask k := by
  unfold fillLast
  exact ⟨if_neg h, if_neg h⟩

/-- Filling one column of a layer reads the layer below it alone. -/
theorem fillLast_filledTo {done : ℕ → ℕ → Prop} {size last : ℕ} {table : PathTable K}
    (h : FilledTo n weight done table) (hsmaller : ∀ s k, done s k → s ≤ size) :
    FilledTo n weight (fun s k => done s k ∨ (s = size ∧ k = last))
      (fillLast n weight size table last) := by
  -- an entry of a smaller set is as before
  have hframe : ∀ mask : Finset ℕ, mask.card < size → ∀ k,
      (fillLast n weight size table last).best mask k = table.best mask k := by
    intro mask hcard k
    exact (fillLast_skip table fun hnew => absurd hnew.2.1 (by omega)).1
  have hcandidates : ∀ mask k, Target n mask k → mask.card ≤ size →
      candidates n weight (fillLast n weight size table last) mask k =
        candidates n weight table mask k := by
    intro mask k htarget hcard
    unfold candidates
    apply List.map_congr_left
    intro j _
    have hpos := Finset.card_pos.mpr ⟨k, htarget.2.2.1⟩
    rw [hframe _ (by rw [Finset.card_erase_of_mem htarget.2.2.1]; omega)]
  have hskip : ∀ mask k, ¬(Target n mask k ∧ (done mask.card k ∨ (mask.card = size ∧ k = last))) →
      (fillLast n weight size table last).best mask k = table.best mask k ∧
        (fillLast n weight size table last).previous mask k = table.previous mask k := by
    intro mask k hnone
    apply fillLast_skip
    intro hfound
    obtain ⟨rfl, hsize, htarget⟩ := hfound
    exact hnone ⟨htarget, Or.inr ⟨hsize, rfl⟩⟩
  refine ⟨?_, ?_, ?_, ?_⟩
  · rw [(fillLast_skip table fun hnew => hnew.2.2.2.2.2 hnew.1.symm).1]
    exact h.start
  · intro mask k htarget hdone
    have hcard : mask.card ≤ size := by
      rcases hdone with hdone | ⟨hsize, _⟩
      · exact hsmaller _ _ hdone
      · exact hsize.le
    have hpos := Finset.card_pos.mpr ⟨k, htarget.2.2.1⟩
    rw [hcandidates mask k htarget hcard, hframe (mask.erase k) (by
      rw [Finset.card_erase_of_mem htarget.2.2.1]
      omega)]
    by_cases hnew : k = last ∧ mask.card = size
    · obtain ⟨rfl, hsize⟩ := hnew
      unfold fillLast
      simp only [hsize, htarget, and_self, if_true]
    · have hold : done mask.card k := by
        rcases hdone with hdone | ⟨hsize, hk⟩
        · exact hdone
        · exact absurd ⟨hk, hsize⟩ hnew
      obtain ⟨hbest, hprevious⟩ := fillLast_skip table
        fun hall : k = last ∧ mask.card = size ∧ Target n mask last => hnew ⟨hall.1, hall.2.1⟩
      rw [hbest, hprevious]
      exact h.step mask k htarget hold
  · intro mask k hnone hstart
    rw [(hskip mask k hnone).1]
    exact h.unreached mask k (fun hold => hnone ⟨hold.1, Or.inl hold.2⟩) hstart
  · intro mask k hnone
    rw [(hskip mask k hnone).2]
    exact h.stop mask k fun hold => hnone ⟨hold.1, Or.inl hold.2⟩

theorem FilledTo.congr {done done' : ℕ → ℕ → Prop} {table : PathTable K}
    (h : FilledTo n weight done table)
    (hiff : ∀ mask last, Target n mask last → (done mask.card last ↔ done' mask.card last)) :
    FilledTo n weight done' table where
  start := h.start
  step mask last htarget hdone := h.step mask last htarget ((hiff mask last htarget).mpr hdone)
  unreached mask last hnone := h.unreached mask last fun hold =>
    hnone ⟨hold.1, (hiff mask last hold.1).mp hold.2⟩
  stop mask last hnone := h.stop mask last fun hold =>
    hnone ⟨hold.1, (hiff mask last hold.1).mp hold.2⟩

theorem fillLayer_filledTo {size : ℕ} {table : PathTable K}
    (h : FilledTo n weight (fun s _ => s < size) table) :
    FilledTo n weight (fun s _ => s < size + 1) (fillLayer n weight table size) := by
  have hfold : ∀ columns : List ℕ, FilledTo n weight
      (fun s k => s < size ∨ (s = size ∧ k ∈ columns))
      (columns.foldl (fillLast n weight size) table) := by
    intro columns
    induction columns using List.reverseRecOn with
    | nil => exact h.congr fun _ _ _ => by simp
    | append_singleton columns last ih =>
      rw [List.foldl_append]
      have hnext : FilledTo n weight _ (fillLast n weight size _ last) :=
        fillLast_filledTo ih (by omega)
      apply FilledTo.congr hnext
      intro mask k _
      simp only [List.mem_append, List.mem_singleton]
      tauto
  unfold fillLayer
  refine FilledTo.congr (hfold _) ?_
  intro mask last htarget
  have hlt := Finset.mem_range.mp (htarget.1 htarget.2.2.1)
  have hpos := htarget.2.2.2
  rw [List.mem_range'_1]
  omega

theorem heldKarp_bellman (n : ℕ) (weight : ℕ → ℕ → K) : Bellman n weight (heldKarp n weight) := by
  -- the layers are filled by the size of the set, so each reads finished entries only
  have hfold : ∀ layers, FilledTo n weight (fun s _ => s < 2 + layers)
      ((List.range' 2 layers).foldl (fillLayer n weight) emptyTable) := by
    intro layers
    induction layers with
    | zero => exact emptyTable_filledTo
    | succ layers ih =>
      rw [List.range'_1_concat, List.foldl_append]
      exact fillLayer_filledTo ih
  have hall := hfold (n - 1)
  have hdone : ∀ mask last, Target n mask last → mask.card < 2 + (n - 1) := by
    intro mask last htarget
    have hcard := Finset.card_le_card htarget.1
    rw [Finset.card_range] at hcard
    omega
  exact
    { start := hall.start
      step := fun mask last htarget => hall.step mask last htarget (hdone mask last htarget)
      unreached := fun mask last hnone => hall.unreached mask last fun hold => hnone hold.1
      stop := fun mask last hnone => hall.stop mask last fun hold => hnone hold.1 }

/-! ### The exact ring is an order of the genres -/

theorem canonical_perm (order : List ℕ) : (canonical order).Perm order := by
  unfold canonical
  cases order with
  | nil => exact List.Perm.refl _
  | cons first rest =>
    simp only
    split_ifs
    · exact List.Perm.cons _ (List.reverse_perm rest)
    · exact List.Perm.refl _

/-- Above three genres the ring unwinds the heaviest path that closes into a cycle. -/
theorem ringOrder_unwound {order : List ℕ} (h : ringOrder n weight = .ok order) (hmany : 3 < n) :
    ∃ last, Target n (Finset.range n) last ∧
      order = canonical
        (unwind (heldKarp n weight).previous n (Finset.range n) (some last)).reverse ∧
      ∀ k, k < n → k ≠ 0 → (heldKarp n weight).best (Finset.range n) k + weight k 0 ≤
        (heldKarp n weight).best (Finset.range n) last + weight last 0 := by
  unfold ringOrder at h
  split_ifs at h with hbound hfew
  · omega
  simp only at h
  generalize hlast : argmax ((List.range n).map fun k => if k = 0 then (⊥ : WithBot K)
    else (heldKarp n weight).best (Finset.range n) k + weight k 0) = last at h
  cases h
  have htargets : ∀ k, k < n → k ≠ 0 → Target n (Finset.range n) k := fun k hk hk0 =>
    ⟨Finset.Subset.refl _, Finset.mem_range.mpr (by omega), Finset.mem_range.mpr hk, hk0⟩
  obtain ⟨hlt, hmax⟩ := argmax_range (show 0 < n by omega) fun k =>
    if k = 0 then (⊥ : WithBot K) else (heldKarp n weight).best (Finset.range n) k + weight k 0
  rw [hlast] at hlt hmax
  -- closing the cycle from vertex 1 is possible, so the last vertex is not the start
  have hne : last ≠ 0 := by
    intro heq
    subst heq
    have hone := hmax 1 (by omega)
    rw [if_neg one_ne_zero, if_pos rfl] at hone
    rcases WithBot.add_eq_bot.mp (le_bot_iff.mp hone) with hbot | hbot
    · exact (heldKarp_bellman n weight).reached (htargets 1 (by omega) one_ne_zero) hbot
    · exact WithBot.coe_ne_bot hbot
  refine ⟨last, htargets last hlt hne, rfl, ?_⟩
  intro k hk hk0
  have hle := hmax k hk
  rw [if_neg hk0, if_neg hne] at hle
  exact hle

theorem ringOrder_few {order : List ℕ} (h : ringOrder n weight = .ok order) (hfew : n ≤ 3) :
    order = List.range n := by
  unfold ringOrder at h
  split_ifs at h with hbound
  exact (Except.ok.inj h).symm

theorem ringOrder_perm {order : List ℕ} (h : ringOrder n weight = .ok order) :
    order.Perm (List.range n) := by
  by_cases hfew : n ≤ 3
  · rw [ringOrder_few h hfew]
  · obtain ⟨last, htarget, rfl, _⟩ := ringOrder_unwound h (by omega)
    obtain ⟨hnodup, hmem, _⟩ := (heldKarp_bellman n weight).unwind_spec (Finset.card_range n).le
      (Or.inr htarget)
    apply (canonical_perm _).trans
    apply (List.reverse_perm _).trans
    rw [List.perm_ext_iff_of_nodup hnodup List.nodup_range]
    intro k
    rw [hmem, Finset.mem_range, List.mem_range]

theorem ringOrder_ok (weight : ℕ → ℕ → K) (hfew : n ≤ ringExactMaxGenres) : ∃ order, ringOrder n weight = .ok order := by
  unfold ringOrder
  rw [if_neg (not_lt.mpr hfew)]
  split_ifs
  · exact ⟨_, rfl⟩
  · exact ⟨_, rfl⟩

end

/-! ### pinned_ring -/

section
variable {K : Type*} [LinearOrder K] [AddCommGroup K]

/-- One new genre, put where it adds the most overlap. -/
def insertGenre (genres : List String) (weight : ℕ → ℕ → K) (ring : List String) (genre : String) :
    List String :=
  if ring.length < 2 then ring ++ [genre]
  else
    let index := fun genre => genres.idxOf genre
    let g := index genre
    let gains := (ring.zip (ring.tail ++ ring.take 1)).map fun p =>
      weight (index p.1) g + weight g (index p.2) - weight (index p.1) (index p.2)
    ring.insertIdx (argmax gains + 1) genre

def pinnedRing (pinned genres : List String) (weight : ℕ → ℕ → K) : List String :=
  let ring := pinned.filter fun genre => genre ∈ genres
  ((genres.toFinset \ ring.toFinset).sort (· ≤ ·)).foldl (insertGenre genres weight) ring

variable (genres : List String) (weight : ℕ → ℕ → K)

theorem insertIdx_split {α : Type*} (x : α) {l : List α} {i : ℕ} (hi : i ≤ l.length) :
    l.insertIdx i x = l.take i ++ x :: l.drop i := by
  induction l generalizing i with
  | nil =>
    obtain rfl := Nat.le_zero.mp hi
    rfl
  | cons a l ih =>
    cases i with
    | zero => rfl
    | succ i =>
      rw [List.insertIdx_succ_cons, ih (Nat.le_of_succ_le_succ hi)]
      rfl

theorem insertGenre_split (ring : List String) (genre : String) :
    ∃ before after, ring = before ++ after ∧
      insertGenre genres weight ring genre = before ++ genre :: after ∧
        (before = [] → ring = []) := by
  unfold insertGenre
  split_ifs with hshort
  · exact ⟨ring, [], (List.append_nil ring).symm, rfl, id⟩
  · simp only
    generalize hgains : (ring.zip (ring.tail ++ ring.take 1)).map (fun p =>
      weight (genres.idxOf p.1) (genres.idxOf genre) + weight (genres.idxOf genre) (genres.idxOf p.2) -
        weight (genres.idxOf p.1) (genres.idxOf p.2)) = gains
    have hlength : gains.length = ring.length := by
      rw [← hgains, List.length_map, List.length_zip, List.length_append, List.length_tail,
        List.length_take]
      omega
    have hne : gains ≠ [] := by
      intro heq
      subst heq
      rw [List.length_nil] at hlength
      omega
    obtain ⟨v, hv, _⟩ := argmax_spec hne
    have hlt := (List.getElem?_eq_some_iff.mp hv).1
    refine ⟨ring.take (argmax gains + 1), ring.drop (argmax gains + 1),
      (List.take_append_drop _ _).symm, insertIdx_split genre (by omega), ?_⟩
    intro hnil
    rw [List.take_eq_nil_iff] at hnil
    exact hnil.resolve_left (Nat.succ_ne_zero _)

theorem foldl_insertGenre (keep : String → Bool) {news : List String}
    (hnews : ∀ genre ∈ news, keep genre = false) (ring : List String) :
    (news.foldl (insertGenre genres weight) ring).Perm (ring ++ news) ∧
      (news.foldl (insertGenre genres weight) ring).filter keep = ring.filter keep ∧
      (ring ≠ [] → (news.foldl (insertGenre genres weight) ring).head? = ring.head?) := by
  induction news generalizing ring with
  | nil =>
    rw [List.append_nil]
    exact ⟨List.Perm.refl _, rfl, fun _ => rfl⟩
  | cons genre later ih =>
    obtain ⟨before, after, hring, hinsert, hfirst⟩ := insertGenre_split genres weight ring genre
    obtain ⟨hperm, hfilter, hhead⟩ := ih (fun g hg => hnews g (List.mem_cons_of_mem _ hg))
      (insertGenre genres weight ring genre)
    rw [List.foldl_cons]
    refine ⟨hperm.trans ?_, hfilter.trans ?_, ?_⟩
    · rw [hinsert, hring, List.append_assoc, List.append_assoc, List.cons_append]
      exact List.Perm.append_left before List.perm_middle.symm
    · rw [hinsert, hring, List.filter_append, List.filter_append,
        List.filter_cons_of_neg (by simp [hnews genre List.mem_cons_self])]
    · intro hne
      have hbefore : before ≠ [] := fun hnil => hne (hfirst hnil)
      have hne' : insertGenre genres weight ring genre ≠ [] := by
        rw [hinsert]
        simp
      rw [hhead hne', hinsert, hring, List.head?_append_of_ne_nil _ hbefore,
        List.head?_append_of_ne_nil _ hbefore]

/-- The pinned ring holds every genre once, the survivors in their order and first. -/
theorem pinnedRing_spec {pinned : List String} (hpinned : pinned.Nodup) :
    (pinnedRing pinned genres weight).Nodup ∧
      (∀ genre, genre ∈ pinnedRing pinned genres weight ↔ genre ∈ genres) ∧
      (pinnedRing pinned genres weight).filter (fun genre => genre ∈ pinned) =
        pinned.filter (fun genre => genre ∈ genres) ∧
      (pinned.filter (fun genre => genre ∈ genres) ≠ [] →
        (pinnedRing pinned genres weight).head? =
          (pinned.filter fun genre => genre ∈ genres).head?) := by
  unfold pinnedRing
  simp only
  generalize hring : (pinned.filter fun genre => decide (genre ∈ genres)) = ring
  generalize hnews : (genres.toFinset \ ring.toFinset).sort (· ≤ ·) = news
  have hmem : ∀ genre, genre ∈ news ↔ genre ∈ genres ∧ genre ∉ ring := by
    intro genre
    rw [← hnews, Finset.mem_sort, Finset.mem_sdiff, List.mem_toFinset, List.mem_toFinset]
  have hsurvivor : ∀ genre, genre ∈ ring ↔ genre ∈ pinned ∧ genre ∈ genres := by
    intro genre
    rw [← hring, List.mem_filter, decide_eq_true_iff]
  have hnew : ∀ genre ∈ news, decide (genre ∈ pinned) = false := by
    intro genre hgenre
    obtain ⟨hgenres, hring'⟩ := (hmem genre).mp hgenre
    exact decide_eq_false fun hold => hring' ((hsurvivor genre).mpr ⟨hold, hgenres⟩)
  obtain ⟨hperm, hfilter, hhead⟩ := foldl_insertGenre genres weight
    (fun genre => genre ∈ pinned) hnew ring
  refine ⟨?_, ?_, ?_, hhead⟩
  · rw [hperm.nodup_iff, List.nodup_append]
    refine ⟨hring ▸ hpinned.filter _, hnews ▸ Finset.sort_nodup _ _, ?_⟩
    intro genre hold _ hgenre heq
    subst heq
    exact ((hmem genre).mp hgenre).2 hold
  · intro genre
    rw [hperm.mem_iff, List.mem_append, hmem, hsurvivor]
    tauto
  · rw [hfilter, ← hring, List.filter_filter]
    apply List.filter_congr
    intro genre hgenre
    simp [hgenre]

end

end AnalyticsEngine.StyleAtlas
