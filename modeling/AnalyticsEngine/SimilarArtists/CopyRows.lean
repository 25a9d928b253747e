import AnalyticsEngine.Library.Slices
import AnalyticsEngine.SimilarArtists.Recovery

/-!
# The COPY of a finished spool

`copyRows_exact`: over a finished spool `_copy_rows` emits one row per artist, in artist order,
with the artist's exact list and no unfilled slot.
-/

namespace AnalyticsEngine.SimilarArtists
open Library ExactTopK

section
variable {β γ : Type*}

theorem mapM_map {δ : Type*} {f : β → Option γ} {g : γ → δ} {h : β → δ} {l : List β}
    (hgh : ∀ b c, f b = some c → g c = h b) {out : List γ} (hout : l.mapM f = some out) :
    out.map g = l.map h := by
  induction l generalizing out with
  | nil =>
    rw [List.mapM_nil] at hout
    cases hout
    rfl
  | cons b l ih =>
    rw [List.mapM_cons] at hout
    obtain ⟨c, hc, hlater⟩ := Option.bind_eq_some_iff.mp hout
    obtain ⟨later, hlater', hcons⟩ := Option.bind_eq_some_iff.mp hlater
    cases hcons
    rw [List.map_cons, List.map_cons, hgh b c hc, ih hlater']

theorem readRows_held {cfg : Config γ} {row : ℕ → List β} (hrow : ∀ r, (row r).length = cfg.k)
    (hk : 0 < cfg.k) (hB : 0 < cfg.blockRows) {file : Option (List β)}
    (h : Held cfg row cfg.nBlocks file) (hsome : file.isSome) {start d : ℕ}
    (hd : start + d ≤ cfg.n) :
    readRows file cfg.k start (start + d) = some ((List.range d).map fun r => row (start + r)) := by
  obtain ⟨cells, rfl⟩ := Option.isSome_iff_exists.mp hsome
  obtain ⟨hlen, hrows⟩ := h cells rfl
  have hall : cfg.n ≤ cfg.nBlocks * cfg.blockRows := by
    unfold Config.nBlocks
    have hmod := Nat.div_add_mod (cfg.n + cfg.blockRows - 1) cfg.blockRows
    have hlt := Nat.mod_lt (cfg.n + cfg.blockRows - 1) hB
    rw [Nat.mul_comm] at hmod
    omega
  rw [Nat.min_eq_left hall] at hrows
  unfold readRows
  rw [Option.bind_some, Nat.add_sub_cancel_left]
  exact reshape_read hrow hk hrows hlen hd

end

variable {α : Type*} [LinearOrder α]

def exactRow (n k : ℕ) (score : ℕ → ℕ → α) (artistIds : ℕ → String) (releaseId : ℤ) (r : ℕ) :
    CopyRow α :=
  ⟨releaseId, artistIds r, ((neighbours n score r).take k).map artistIds,
    ((neighbours n score r).take k).map fun c => real (score r c)⟩

theorem toInt_toInt32 {c : ℕ} (h : c < 2 ^ 31) : (toInt32 c).toInt = c := by
  have hnat : (toInt32 c).toNat = c := Config.toNat_toInt32 (by omega)
  rw [BitVec.toInt_eq_toNat_of_lt (by omega), hnat]

theorem artistAt_toInt32 (artistIds : ℕ → String) {n c : ℕ} (hc : c < n) (hn : n ≤ 2 ^ 31 - 1) :
    artistAt ((List.range n).map artistIds) (toInt32 c) = some (artistIds c) := by
  unfold artistAt
  rw [toInt_toInt32 (by omega), if_pos (Int.natCast_nonneg c), Int.toNat_natCast,
    List.getElem?_map, List.getElem?_range hc, Option.map_some]

theorem toInt32_ne_emptyPosition {c : ℕ} (h : c < 2 ^ 31) : toInt32 c ≠ emptyPosition := by
  intro heq
  have hint := congrArg BitVec.toInt heq
  rw [toInt_toInt32 h] at hint
  have hempty : emptyPosition.toInt = -1 := by decide
  omega

theorem valid_slots (cfg : Config α) (hn : cfg.n ≤ 2 ^ 31 - 1) (r : ℕ) :
    (((positionRow cfg r).zip (scoreRow cfg r)).filter fun slot => slot.1 ≠ emptyPosition) =
      ((neighbours cfg.n cfg.score r).take cfg.k).map fun c =>
        (toInt32 c, real (cfg.score r c)) := by
  have hzip : (positionRow cfg r).zip (scoreRow cfg r) =
      (exactList cfg.n cfg.k cfg.score r).map fun e => (e.position, e.score) := by
    unfold positionRow scoreRow
    exact List.zip_map'
  rw [hzip]
  unfold exactList
  rw [List.map_append, List.filter_append, List.map_map, List.map_replicate]
  have hkeep : ((((neighbours cfg.n cfg.score r).take cfg.k).map
      ((fun e : Entry α => (e.position, e.score)) ∘
        fun c => ⟨real (cfg.score r c), toInt32 c⟩)).filter fun slot => slot.1 ≠ emptyPosition) =
      ((neighbours cfg.n cfg.score r).take cfg.k).map fun c =>
        (toInt32 c, real (cfg.score r c)) := by
    apply List.filter_eq_self.mpr
    intro slot hslot
    obtain ⟨c, hc, rfl⟩ := List.mem_map.mp hslot
    have hlt := (mem_neighbours.mp (List.mem_of_mem_take hc)).1
    exact decide_eq_true (toInt32_ne_emptyPosition (by omega))
  rw [hkeep]
  have hdrop : ((List.replicate (cfg.k - (neighbours cfg.n cfg.score r).length)
      ((emptyEntry : Entry α).position, (emptyEntry : Entry α).score)).filter
        fun slot => slot.1 ≠ emptyPosition) = [] := by
    apply List.filter_eq_nil_iff.mpr
    intro slot hslot
    obtain rfl := List.eq_of_mem_replicate hslot
    simp [emptyEntry]
  rw [hdrop, List.append_nil]

theorem copyRow_exact (cfg : Config α) (hn : cfg.n ≤ 2 ^ 31 - 1) (artistIds : ℕ → String)
    (releaseId : ℤ) {r : ℕ} (hr : r < cfg.n) :
    copyRow ((List.range cfg.n).map artistIds) releaseId r (positionRow cfg r) (scoreRow cfg r) =
      some (exactRow cfg.n cfg.k cfg.score artistIds releaseId r) := by
  unfold copyRow
  have hids : ((((neighbours cfg.n cfg.score r).take cfg.k).map fun c =>
      (toInt32 c, real (cfg.score r c))).mapM fun slot =>
        artistAt ((List.range cfg.n).map artistIds) slot.1) =
      some (((neighbours cfg.n cfg.score r).take cfg.k).map artistIds) := by
    rw [List.mapM_map]
    apply mapM_eq_pure (m := Option)
    intro c hc
    exact artistAt_toInt32 artistIds (mem_neighbours.mp (List.mem_of_mem_take hc)).1 hn
  simp only [valid_slots cfg hn r, hids]
  rw [List.getElem?_map, List.getElem?_range hr, Option.map_some, Option.bind_some,
    Option.map_some, List.map_map]
  rfl

theorem copyChunk_exact {cfg : Config α} {files : Files α} (h : Finished cfg files)
    (hn : cfg.n ≤ 2 ^ 31 - 1) (artistIds : ℕ → String) (releaseId : ℤ)
    {start : ℕ} (hstart : start ≤ cfg.n) :
    copyChunk files cfg.n cfg.k ((List.range cfg.n).map artistIds) releaseId start =
      some ((List.range (min (cfg.n - start) copyChunkArtists)).map fun row =>
        exactRow cfg.n cfg.k cfg.score artistIds releaseId (start + row)) := by
  have hstop : min (start + copyChunkArtists) cfg.n =
      start + min (cfg.n - start) copyChunkArtists := by omega
  simp only [copyChunk, readSpool]
  rw [hstop, Nat.add_sub_cancel_left,
    readRows_held (length_positionRow cfg) h.k_pos h.rows_pos h.held.1 h.present.1 (by omega),
    readRows_held (length_scoreRow cfg) h.k_pos h.rows_pos h.held.2 h.present.2 (by omega)]
  simp only [Option.bind_some, Option.map_some]
  apply mapM_eq_pure (m := Option)
  intro row hrow
  have hlt := List.mem_range.mp hrow
  simp only [List.getElem?_map, List.getElem?_range hlt, Option.map_some, Option.bind_some]
  exact copyRow_exact cfg hn artistIds releaseId (by omega)

/-- The COPY of a finished spool. -/
theorem copyRows_exact {cfg : Config α} {files : Files α} (h : 0 < cfg.n → Finished cfg files)
    (hn : cfg.n ≤ 2 ^ 31 - 1) (artistIds : ℕ → String)
    (releaseId : ℤ) :
    copyRows files cfg.n cfg.k ((List.range cfg.n).map artistIds) releaseId =
      some ((List.range cfg.n).map (exactRow cfg.n cfg.k cfg.score artistIds releaseId)) := by
  unfold copyRows
  have hchunks : ((List.range ((cfg.n + copyChunkArtists - 1) / copyChunkArtists)).mapM fun chunk =>
      copyChunk files cfg.n cfg.k ((List.range cfg.n).map artistIds) releaseId
        (chunk * copyChunkArtists)) =
      some ((List.range ((cfg.n + copyChunkArtists - 1) / copyChunkArtists)).map fun chunk =>
        (List.range (min (cfg.n - chunk * copyChunkArtists) copyChunkArtists)).map fun row =>
          exactRow cfg.n cfg.k cfg.score artistIds releaseId (chunk * copyChunkArtists + row)) := by
    apply mapM_eq_pure (m := Option)
    intro chunk hchunk
    have hlt := List.mem_range.mp hchunk
    have hstart : chunk * copyChunkArtists ≤ cfg.n := by
      unfold copyChunkArtists at *
      omega
    have hpos : 0 < cfg.n := by
      unfold copyChunkArtists at *
      omega
    exact copyChunk_exact (h hpos) hn artistIds releaseId hstart
  rw [hchunks, Option.map_some, Option.some.injEq, ← List.flatMap_def]
  have hrows := congrArg (List.map (exactRow cfg.n cfg.k cfg.score artistIds releaseId))
    (range_blocks cfg.n copyChunkArtists ((cfg.n + copyChunkArtists - 1) / copyChunkArtists))
  rw [List.map_flatMap] at hrows
  simp only [List.map_map] at hrows
  have hall : min cfg.n ((cfg.n + copyChunkArtists - 1) / copyChunkArtists * copyChunkArtists) =
      cfg.n := by
    unfold copyChunkArtists
    omega
  rw [hall] at hrows
  exact hrows

/-! ### The rows of any spool -/

section
omit [LinearOrder α]
variable {files : Files α} {n k : ℕ} {artistIds : List String} {releaseId : ℤ}

theorem copyChunk_ids {start : ℕ} {rows : List (CopyRow α)}
    (h : copyChunk files n k artistIds releaseId start = some rows) :
    (rows.map fun row => some (row.releaseId, row.artistId)) =
      (List.range (min (n - start) copyChunkArtists)).map fun row =>
        artistIds[start + row]?.map fun id => (releaseId, id) := by
  unfold copyChunk at h
  obtain ⟨spooled, _, hrows⟩ := Option.bind_eq_some_iff.mp h
  have hstop : min (start + copyChunkArtists) n - start = min (n - start) copyChunkArtists := by
    omega
  rw [hstop] at hrows
  apply mapM_map _ hrows
  intro row copied hcopied
  obtain ⟨positions, _, hcopied⟩ := Option.bind_eq_some_iff.mp hcopied
  obtain ⟨scores, _, hcopied⟩ := Option.bind_eq_some_iff.mp hcopied
  unfold copyRow at hcopied
  obtain ⟨id, hid, hcopied⟩ := Option.bind_eq_some_iff.mp hcopied
  obtain ⟨similar, _, rfl⟩ := Option.map_eq_some_iff.mp hcopied
  rw [hid]
  rfl

/-- Whatever the spool holds, a COPY that is not cut emits one row per artist id. -/
theorem copyRows_ids (hlength : artistIds.length = n) {rows : List (CopyRow α)}
    (h : copyRows files n k artistIds releaseId = some rows) :
    (rows.map fun row => (row.releaseId, row.artistId)) =
      artistIds.map fun id => (releaseId, id) := by
  unfold copyRows at h
  obtain ⟨chunks, hchunks, rfl⟩ := Option.map_eq_some_iff.mp h
  have hids := mapM_map (fun _ _ hchunk => copyChunk_ids hchunk) hchunks
  have hflat := congrArg List.flatten hids
  have hblocks := congrArg (List.map fun row => artistIds[row]?.map fun id => (releaseId, id))
    (range_blocks n copyChunkArtists ((n + copyChunkArtists - 1) / copyChunkArtists))
  have hall : min n ((n + copyChunkArtists - 1) / copyChunkArtists * copyChunkArtists) = n := by
    unfold copyChunkArtists
    omega
  rw [List.map_flatMap, hall] at hblocks
  simp only [List.map_map] at hblocks
  apply List.map_injective_iff.mpr (Option.some_injective _)
  rw [List.map_map, List.map_map, List.map_flatten]
  refine hflat.trans ((List.flatMap_def ..).symm.trans (hblocks.trans ?_))
  apply List.ext_getElem
  · simp [hlength]
  · intro i hi hi'
    have hlt : i < artistIds.length := by simpa using hi'
    simp [List.getElem?_eq_getElem hlt]

theorem copyRows_artistIds (hlength : artistIds.length = n) {rows : List (CopyRow α)}
    (h : copyRows files n k artistIds releaseId = some rows) :
    rows.map CopyRow.artistId = artistIds := by
  have hids := congrArg (List.map Prod.snd) (copyRows_ids hlength h)
  rw [List.map_map, List.map_map] at hids
  exact hids.trans (List.map_id _)

theorem copyRows_releaseId (hlength : artistIds.length = n) {rows : List (CopyRow α)}
    (h : copyRows files n k artistIds releaseId = some rows) :
    ∀ row ∈ rows, row.releaseId = releaseId := by
  intro row hrow
  have hmem : (row.releaseId, row.artistId) ∈ artistIds.map fun id => (releaseId, id) :=
    copyRows_ids hlength h ▸ List.mem_map.mpr ⟨row, hrow, rfl⟩
  obtain ⟨id, _, heq⟩ := List.mem_map.mp hmem
  exact (congrArg Prod.fst heq).symm

end

end AnalyticsEngine.SimilarArtists
