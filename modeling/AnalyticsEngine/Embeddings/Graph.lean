import AnalyticsEngine.Embeddings.Csr
import AnalyticsEngine.Library.Scatter
import Mathlib.Data.Finset.Sort
import Mathlib.Data.List.Sort
import Mathlib.Data.List.Zip

/-!
# insights/embeddings/graph.py

Node positions are the ranks of the keys. The builder collects directed entries in blocks,
counting-sorts them into the rows of a CSR matrix and lets `sum_duplicates` sort and merge each
row. `build_entries` says which matrix that is: row `r` holds `1 / degree` at every neighbour of
`r`, in ascending order, whatever order and blocks the edges came in.
-/

namespace AnalyticsEngine.Embeddings
open Library

/- Shortcut instances for sorting keys. -/
instance trans_u64 : IsTrans U64 (· ≤ ·) := inferInstance

instance antisymm_u64 : Std.Antisymm fun a b : U64 => a ≤ b := inferInstance

instance total_u64 : Std.Total fun a b : U64 => a ≤ b := inferInstance

def maxNodes : ℕ := 2 ^ 31 - 1

/-- Where `np.searchsorted` finds a key. -/
def searchPosition (keys : List U64) (key : U64) : ℕ := (keys.takeWhile (· < key)).length

structure NodeIndex where
  keys : List U64
  ordered : keys.Pairwise (· < ·)
  bounded : keys.length ≤ maxNodes

inductive GraphError where
  | tooMany (size : ℕ)
  | duplicates (size : ℕ) (first : U64)
  | notNodes (count : ℕ) (first : U64)
  | alreadyBuilt
  | shape
  | endpointRange

/-- `{value:#018x}`. -/
def hexKey (key : U64) : String :=
  let digits := Nat.toDigits 16 key.val
  "0x" ++ String.ofList (List.replicate (16 - digits.length) '0' ++ digits)

def GraphError.message : GraphError → String
  | .tooMany size => Nat.repr size ++ " nodes exceed the int32 position range"
  | .duplicates size first => Nat.repr size ++ " duplicate node keys, e.g. " ++ hexKey first
  | .notNodes count first => Nat.repr count ++ " keys are not nodes, e.g. " ++ hexKey first
  | .alreadyBuilt => "the adjacency has already been built"
  | .shape => "sources and targets must be one-dimensional and the same length"
  | .endpointRange => "edge endpoint outside the node range"

def repeats (ordered : List U64) : List U64 :=
  ((ordered.zip ordered.tail).filter fun p => p.1 = p.2).map Prod.snd

theorem pairwise_lt_of_repeats {ordered : List U64} (hsorted : ordered.Pairwise (· ≤ ·))
    (hnone : repeats ordered = []) : ordered.Pairwise (· < ·) := by
  induction ordered with
  | nil => exact List.Pairwise.nil
  | cons a l ih =>
    obtain ⟨ha, hl⟩ := List.pairwise_cons.mp hsorted
    cases l with
    | nil => exact List.pairwise_singleton _ _
    | cons b l =>
      have hzip : (a :: b :: l).zip (a :: b :: l).tail = (a, b) :: (b :: l).zip (b :: l).tail := rfl
      unfold repeats at hnone ih
      rw [hzip, List.filter_cons] at hnone
      have hne : ¬a = b := by
        intro hab
        rw [if_pos (decide_eq_true hab), List.map_cons] at hnone
        cases hnone
      rw [if_neg (by simpa using hne)] at hnone
      have hlater := ih hl hnone
      have hab : a < b := lt_of_le_of_ne (ha b List.mem_cons_self) hne
      refine List.pairwise_cons.mpr ⟨?_, hlater⟩
      intro c hc
      rcases List.mem_cons.mp hc with rfl | hc
      · exact hab
      · exact hab.trans ((List.pairwise_cons.mp hlater).1 c hc)

def NodeIndex.new (keys : List U64) : Except GraphError NodeIndex :=
  let ordered := keys.insertionSort (· ≤ ·)
  if hsize : maxNodes < ordered.length then .error (.tooMany ordered.length)
  else
    if hnone : repeats ordered = [] then
      .ok ⟨ordered, pairwise_lt_of_repeats (List.pairwise_insertionSort _ _) hnone, not_lt.mp hsize⟩
    else
      .error (.duplicates (repeats ordered).dedup.length ((repeats ordered).head hnone))

def NodeIndex.positions (nodes : NodeIndex) (wanted : List U64) : Except GraphError (List ℕ) :=
  let missing := wanted.filter fun key =>
    nodes.keys[searchPosition nodes.keys key]? ≠ some key
  match missing with
  | [] => .ok (wanted.map (searchPosition nodes.keys))
  | first :: later => .error (.notNodes (later.length + 1) first)

structure Adjacency (F : Type*) where
  nodes : NodeIndex
  transition : Csr F
  degree : ℕ → ℕ
  valid : transition.Valid
  square : transition.rows = nodes.keys.length

/-! ### AdjacencyBuilder -/

def EdgeBlocks (n : ℕ) (blocks : List (List ℕ × List ℕ)) : Prop :=
  ∀ b ∈ blocks, b.1.length = b.2.length ∧ ∀ e ∈ b.1.zip b.2, e.1 < n ∧ e.2 < n ∧ e.1 ≠ e.2

structure AdjacencyBuilder where
  nodes : NodeIndex
  blocks : List (List ℕ × List ℕ)
  built : Bool
  edges : EdgeBlocks nodes.keys.length blocks

def AdjacencyBuilder.new (nodes : NodeIndex) : AdjacencyBuilder :=
  ⟨nodes, [], false, fun b hb => by cases hb⟩

/-- The kept entries of `add_edge_positions`. -/
def keptBlock (src dst : List ℤ) : List ℕ × List ℕ :=
  let keep := (src.zip dst).filter fun e => e.1 ≠ e.2
  (keep.map (·.1.toNat), keep.map (·.2.toNat))

theorem keptBlock_zip (src dst : List ℤ) : (keptBlock src dst).1.zip (keptBlock src dst).2 =
    ((src.zip dst).filter fun e => e.1 ≠ e.2).map fun e => (e.1.toNat, e.2.toNat) := by
  unfold keptBlock
  exact List.zip_map'

theorem edgeBlocks_append {n : ℕ} {blocks : List (List ℕ × List ℕ)} (h : EdgeBlocks n blocks)
    {src dst : List ℤ} (hrange : ∀ p ∈ src ++ dst, ¬(p < 0 ∨ (n : ℤ) ≤ p)) :
    EdgeBlocks n (blocks ++ [keptBlock src dst]) := by
  intro b hb
  rcases List.mem_append.mp hb with hold | hnew
  · exact h b hold
  · obtain rfl := List.mem_singleton.mp hnew
    refine ⟨by simp [keptBlock], ?_⟩
    intro e he
    rw [keptBlock_zip, List.mem_map] at he
    obtain ⟨⟨x, y⟩, hxy, rfl⟩ := he
    obtain ⟨hmem, hne⟩ := List.mem_filter.mp hxy
    obtain ⟨hx, hy⟩ := List.of_mem_zip hmem
    have hx' := hrange x (List.mem_append_left _ hx)
    have hy' := hrange y (List.mem_append_right _ hy)
    have hne' : x ≠ y := of_decide_eq_true hne
    simp only
    omega

def AdjacencyBuilder.addEdgePositions (builder : AdjacencyBuilder) (src dst : List ℤ) :
    Except GraphError AdjacencyBuilder :=
  if builder.built then .error .alreadyBuilt
  else if src.length ≠ dst.length then .error .shape
  else if hrange : ∃ p ∈ src ++ dst, p < 0 ∨ (builder.nodes.keys.length : ℤ) ≤ p then
    .error .endpointRange
  else
    .ok { builder with
      blocks := builder.blocks ++ [keptBlock src dst]
      edges := edgeBlocks_append builder.edges fun p hp hout => hrange ⟨p, hp, hout⟩ }

def AdjacencyBuilder.addEdges (builder : AdjacencyBuilder) (sourceKeys targetKeys : List U64) :
    Except GraphError AdjacencyBuilder :=
  match builder.nodes.positions sourceKeys with
  | .error e => .error e
  | .ok src =>
    match builder.nodes.positions targetKeys with
    | .error e => .error e
    | .ok dst => builder.addEdgePositions (src.map Int.ofNat) (dst.map Int.ofNat)

/-- `cursor` and `indices` of `build`. -/
structure Slots where
  cursor : ℕ → ℕ
  indices : ℕ → ℕ

def scatterEntries (slots : Slots) (entries : List (ℕ × ℕ)) : Slots :=
  let ordered := entries.insertionSort fun e f => e.1 ≤ f.1
  let sortedRows := ordered.map Prod.fst
  { cursor := fun r => slots.cursor r + sortedRows.count r
    indices := scatter (fun r t => slots.cursor r + t) (runStart sortedRows) ordered slots.indices }

/- The batches of directed entries, in the order in which `build` pops the blocks. -/
def directed (blocks : List (List ℕ × List ℕ)) : List (List (ℕ × ℕ)) :=
  blocks.reverse.flatMap fun b => [b.1.zip b.2, b.2.zip b.1]

def rowCounts (blocks : List (List ℕ × List ℕ)) (r : ℕ) : ℕ :=
  (blocks.map fun b => b.1.count r + b.2.count r).sum

/-- `indptr` before `sum_duplicates`. -/
def rowStarts (blocks : List (List ℕ × List ℕ)) (r : ℕ) : ℕ :=
  ((List.range r).map (rowCounts blocks)).sum

/- The column indices of a row after `sum_duplicates`; `junk` is what `np.empty` allocated. -/
def buildColumns (junk : ℕ → ℕ) (blocks : List (List ℕ × List ℕ)) (r : ℕ) : List ℕ :=
  let slots := (directed blocks).foldl scatterEntries ⟨rowStarts blocks, junk⟩
  ((List.range (rowCounts blocks r)).map fun t =>
    slots.indices (rowStarts blocks r + t)).toFinset.sort (· ≤ ·)

/-! ### What the counting sort leaves in a row -/

section
variable {α : Type*}

theorem valuesOf_append (r : ℕ) (l l' : List (ℕ × α)) :
    valuesOf r (l ++ l') = valuesOf r l ++ valuesOf r l' := by
  simp [valuesOf]

theorem valuesOf_perm {l l' : List (ℕ × α)} (h : l.Perm l') (r : ℕ) :
    (valuesOf r l).Perm (valuesOf r l') :=
  (h.filter _).map _

theorem mem_valuesOf {r : ℕ} {a : α} {l : List (ℕ × α)} : a ∈ valuesOf r l ↔ (r, a) ∈ l := by
  simp [valuesOf]

theorem mem_zip_swap {l : List ℕ} {l' : List α} {r : ℕ} {a : α} :
    (a, r) ∈ l'.zip l ↔ (r, a) ∈ l.zip l' := by
  rw [← List.zip_swap l l', List.mem_map]
  constructor
  · intro hfound
    obtain ⟨⟨r', a'⟩, hmem, heq⟩ := hfound
    cases heq
    exact hmem
  · exact fun hmem => ⟨_, hmem, rfl⟩

end

/-- The entries in `done` have been written: each row's slots hold its columns in some order. -/
structure Filled (starts : ℕ → ℕ) (done : List (ℕ × ℕ)) (slots : Slots) : Prop where
  cursor : ∀ r, slots.cursor r = starts r + (valuesOf r done).length
  rows : ∀ r, ((List.range (valuesOf r done).length).map fun t =>
    slots.indices (starts r + t)).Perm (valuesOf r done)

theorem row_of_slot {starts : ℕ → ℕ} (h : ∀ r, starts r ≤ starts (r + 1)) {r q x : ℕ}
    (hr : starts r ≤ x) (hr' : x < starts (r + 1)) (hq : starts q ≤ x) (hq' : x < starts (q + 1)) :
    r = q := by
  rcases Nat.lt_trichotomy r q with hlt | heq | hlt
  · have := monotone_nat_of_le_succ h (show r + 1 ≤ q from hlt)
    omega
  · exact heq
  · have := monotone_nat_of_le_succ h (show q + 1 ≤ r from hlt)
    omega

theorem sortedEntries_spec (entries : List (ℕ × ℕ)) :
    (entries.insertionSort fun e f => e.1 ≤ f.1).Perm entries ∧
      ((entries.insertionSort fun e f => e.1 ≤ f.1).map Prod.fst).Pairwise (· ≤ ·) := by
  refine ⟨List.perm_insertionSort _ _, ?_⟩
  have : Std.Total fun e f : ℕ × ℕ => e.1 ≤ f.1 := ⟨fun e f => le_total e.1 f.1⟩
  have : IsTrans (ℕ × ℕ) fun e f => e.1 ≤ f.1 := ⟨fun _ _ _ hef hfg => le_trans hef hfg⟩
  rw [List.pairwise_map]
  exact List.pairwise_insertionSort _ _

/-- With room left in every row no two entries of a batch get the same slot. -/
theorem addrInj_of_room {starts cursor : ℕ → ℕ} {entries : List (ℕ × ℕ)}
    (hcursor : ∀ r, starts r ≤ cursor r)
    (hroom : ∀ r, cursor r + (valuesOf r entries).length ≤ starts (r + 1)) :
    AddrInj (fun r t => cursor r + t) entries := by
  have hmono : ∀ r, starts r ≤ starts (r + 1) := fun r =>
    (hcursor r).trans ((Nat.le_add_right _ _).trans (hroom r))
  intro r t r' t' ht ht' heq
  simp only at heq
  have hstart := hcursor r
  have hstart' := hcursor r'
  have hend := hroom r
  have hend' := hroom r'
  obtain rfl : r = r' := row_of_slot hmono (x := cursor r + t) (by omega) (by omega) (by omega)
    (by omega)
  exact ⟨rfl, by omega⟩

theorem scatterEntries_filled {starts : ℕ → ℕ} {done batch : List (ℕ × ℕ)} {slots : Slots}
    (h : Filled starts done slots)
    (hroom : ∀ r, starts r + (valuesOf r (done ++ batch)).length ≤ starts (r + 1)) :
    Filled starts (done ++ batch) (scatterEntries slots batch) := by
  obtain ⟨hperm, hsorted⟩ := sortedEntries_spec batch
  generalize hordered : (batch.insertionSort fun e f : ℕ × ℕ => e.1 ≤ f.1) = ordered at hperm hsorted
  have hcount : ∀ r, (valuesOf r ordered).length = (valuesOf r batch).length := fun r =>
    (valuesOf_perm hperm r).length_eq
  have hmono : ∀ r, starts r ≤ starts (r + 1) := fun r => (Nat.le_add_right _ _).trans (hroom r)
  -- a row's slots end before the next row's start
  have hend : ∀ r, slots.cursor r + (valuesOf r ordered).length ≤ starts (r + 1) := by
    intro r
    have := hroom r
    rw [valuesOf_append, List.length_append, ← hcount] at this
    rw [h.cursor]
    omega
  have hinj : AddrInj (fun r t => slots.cursor r + t) ordered :=
    addrInj_of_room (fun r => by rw [h.cursor]; exact Nat.le_add_right _ _) hend
  have hslots : scatterEntries slots batch =
      { cursor := fun r => slots.cursor r + (ordered.map Prod.fst).count r
        indices := scatter (fun r t => slots.cursor r + t) (runStart (ordered.map Prod.fst)) ordered
          slots.indices } := by
    unfold scatterEntries
    rw [hordered]
  rw [hslots]
  constructor
  · intro r
    simp only
    rw [h.cursor, ← length_valuesOf, hcount, valuesOf_append, List.length_append, Nat.add_assoc]
  · intro r
    simp only
    rw [valuesOf_append, List.length_append, List.range_add, List.map_append]
    refine List.Perm.append ?_ ?_
    · -- the slots before the cursor are not written to
      refine List.Perm.trans (List.Perm.of_eq (List.map_congr_left ?_)) (h.rows r)
      intro t ht
      rw [List.mem_range] at ht
      apply scatter_frame _ _ _ hsorted
      intro r' t' ht' heq
      have hr := hroom r
      rw [valuesOf_append, List.length_append] at hr
      have hr' := hend r'
      have hc' := h.cursor r'
      obtain rfl : r = r' :=
        row_of_slot hmono (Nat.le_add_right _ t) (by omega) (by omega) (by omega)
      omega
    · have hread : ((List.range (valuesOf r batch).length).map fun t =>
          scatter (fun r t => slots.cursor r + t) (runStart (ordered.map Prod.fst)) ordered
            slots.indices (slots.cursor r + t)) = valuesOf r ordered := by
        apply List.ext_getElem
        · simp [hcount]
        · intro t ht ht'
          rw [List.getElem_map, List.getElem_range]
          exact scatter_read _ _ _ hsorted hinj r t _ (List.getElem?_eq_getElem ht')
      rw [List.map_map]
      refine List.Perm.trans (List.Perm.of_eq ?_) (valuesOf_perm hperm r)
      rw [← hread]
      apply List.map_congr_left
      intro t _
      simp only [Function.comp_apply]
      rw [h.cursor, Nat.add_assoc]

theorem filled_nil (starts junk : ℕ → ℕ) : Filled starts [] ⟨starts, junk⟩ where
  cursor _ := rfl
  rows _ := List.Perm.nil

theorem foldl_scatterEntries_filled {starts : ℕ → ℕ} {done : List (ℕ × ℕ)}
    {batches : List (List (ℕ × ℕ))} {slots : Slots} (h : Filled starts done slots)
    (hroom : ∀ r, starts r + (valuesOf r (done ++ batches.flatten)).length ≤ starts (r + 1)) :
    Filled starts (done ++ batches.flatten) (batches.foldl scatterEntries slots) := by
  induction batches generalizing done slots with
  | nil =>
    rw [List.flatten_nil, List.append_nil]
    exact h
  | cons batch later ih =>
    rw [List.flatten_cons, ← List.append_assoc] at hroom ⊢
    apply ih _ hroom
    apply scatterEntries_filled h
    intro r
    have := hroom r
    rw [valuesOf_append, List.length_append] at this
    omega

theorem rowCounts_eq {blocks : List (List ℕ × List ℕ)} (hlength : ∀ b ∈ blocks, b.1.length = b.2.length)
    (r : ℕ) : (valuesOf r (directed blocks).flatten).length = rowCounts blocks r := by
  unfold directed rowCounts
  rw [length_valuesOf, ← List.sum_reverse, ← List.map_reverse]
  have hlength' : ∀ b ∈ blocks.reverse, b.1.length = b.2.length := fun b hb =>
    hlength b (List.mem_reverse.mp hb)
  generalize blocks.reverse = bs at hlength' ⊢
  induction bs with
  | nil => rfl
  | cons b bs ih =>
    have hb := hlength' b List.mem_cons_self
    have hrest := ih fun c hc => hlength' c (List.mem_cons_of_mem _ hc)
    rw [List.flatMap_cons, List.flatten_append, List.map_append, List.count_append, hrest,
      List.map_cons, List.sum_cons]
    simp [List.map_fst_zip, hb.le, hb.ge]

theorem mem_buildColumns {junk : ℕ → ℕ} {blocks : List (List ℕ × List ℕ)}
    (hlength : ∀ b ∈ blocks, b.1.length = b.2.length) {r c : ℕ} :
    c ∈ buildColumns junk blocks r ↔
      ∃ b ∈ blocks, (r, c) ∈ b.1.zip b.2 ∨ (c, r) ∈ b.1.zip b.2 := by
  have hroom : ∀ q, rowStarts blocks q + (valuesOf q ([] ++ (directed blocks).flatten)).length ≤
      rowStarts blocks (q + 1) := by
    intro q
    rw [List.nil_append, rowCounts_eq hlength]
    unfold rowStarts
    rw [List.range_succ, List.map_append, List.sum_append]
    simp
  have hfilled := foldl_scatterEntries_filled (filled_nil (rowStarts blocks) junk) hroom
  rw [List.nil_append] at hfilled
  unfold buildColumns
  rw [Finset.mem_sort, List.mem_toFinset, ← rowCounts_eq hlength, (hfilled.rows r).mem_iff,
    mem_valuesOf]
  unfold directed
  simp only [List.mem_flatten, List.mem_flatMap, List.mem_reverse, List.mem_cons,
    List.not_mem_nil, or_false]
  constructor
  · intro hfound
    rcases hfound with ⟨l, ⟨b, hb, rfl | rfl⟩, hmem⟩
    · exact ⟨b, hb, Or.inl hmem⟩
    · exact ⟨b, hb, Or.inr (mem_zip_swap.mp hmem)⟩
  · intro hfound
    rcases hfound with ⟨b, hb, hmem | hmem⟩
    · exact ⟨_, ⟨b, hb, Or.inl rfl⟩, hmem⟩
    · exact ⟨_, ⟨b, hb, Or.inr rfl⟩, mem_zip_swap.mp hmem⟩

/-! ### The adjacency -/

variable {F D O : Type*}

def inverseDegree (ar : Arithmetic F D O) (degree : ℕ) : F :=
  ar.narrow (ar.div64 ar.one64 (ar.ofNat64 (max degree 1)))

def buildRows (ar : Arithmetic F D O) (junk : ℕ → ℕ) (builder : AdjacencyBuilder) :
    List (List (ℕ × F)) :=
  (List.range builder.nodes.keys.length).map fun r =>
    let columns := buildColumns junk builder.blocks r
    columns.map fun c => (c, inverseDegree ar columns.length)

theorem buildRows_columns (ar : Arithmetic F D O) (junk : ℕ → ℕ) (builder : AdjacencyBuilder) :
    ∀ row ∈ buildRows ar junk builder, ∀ e ∈ row, e.1 < (buildRows ar junk builder).length := by
  have hlength : (buildRows ar junk builder).length = builder.nodes.keys.length := by
    simp [buildRows]
  intro row hrow e he
  obtain ⟨r, _, rfl⟩ := List.mem_map.mp hrow
  obtain ⟨c, hc, rfl⟩ := List.mem_map.mp he
  rw [hlength]
  obtain ⟨b, hb, hmem | hmem⟩ := (mem_buildColumns fun b hb => (builder.edges b hb).1).mp hc
  · exact ((builder.edges b hb).2 _ hmem).2.1
  · exact ((builder.edges b hb).2 _ hmem).1

def AdjacencyBuilder.build (ar : Arithmetic F D O) (junk : ℕ → ℕ) (builder : AdjacencyBuilder) :
    Except GraphError (Adjacency F) :=
  if builder.built then .error .alreadyBuilt
  else
    .ok { nodes := builder.nodes
          transition := Csr.ofRows (buildRows ar junk builder)
          degree := fun r => (buildColumns junk builder.blocks r).length
          valid := Csr.valid_ofRows (buildRows_columns ar junk builder)
          square := by simp [Csr.ofRows, buildRows] }

end AnalyticsEngine.Embeddings
