import AnalyticsEngine.Library.Words
import Mathlib.Data.List.GetD

/-!
# Binary halfvec blocks (insights/similar_artists.py, `_parse_halfvec_block`)

The decoder joins all payloads and cuts the joined words by the first payload's length. It takes
every block of well-formed payloads of one dimension for what it is, and every list of byte
strings that is such a block cut elsewhere for that block (`decodesExactly_iff`).
-/

namespace AnalyticsEngine.SimilarArtists
open Library

/- `_HALFVEC_HEADER_HALFWORDS`. -/
def halfvecHeaderHalfwords : ℕ := 2

inductive DecodeError where
  | valueError (message : String)
  | indexError
deriving DecidableEq

/-- `_parse_halfvec_block`, the rows as bit patterns. A negative number of dimensions is cut off
at 0, which is refused as well. -/
def parseHalfvecBlock (blobs : List (List Byte)) : Except DecodeError (List (List Word)) :=
  match wordsOf blobs.flatten, blobs with
  | none, _ => .error (.valueError "buffer size must be a multiple of element size")
  | some _, [] => .error .indexError
  | some words, blob :: _ =>
    let dimensions := blob.length / 2 - halfvecHeaderHalfwords
    if dimensions < 1 ∨ words.length ≠ blobs.length * (dimensions + halfvecHeaderHalfwords) then
      .error (.valueError "binary halfvec block has rows of different lengths")
    else
      let rows := cut (dimensions + halfvecHeaderHalfwords) blobs.length words
      if (rows.any fun row => (row.getD 0 0).toNat ≠ dimensions) ||
          (rows.any fun row => row.getD 1 0 ≠ 0) then
        .error (.valueError "binary halfvec block has an unexpected header")
      else .ok (rows.map (List.drop halfvecHeaderHalfwords))

/-! ### Well-formed payloads -/

def wordAt (blob : List Byte) (i : ℕ) : Word :=
  wordOf (blob.getD (2 * i) 0) (blob.getD (2 * i + 1) 0)

/-- A `halfvec_send` payload of dimension `d`. -/
structure WellFormed (d : ℕ) (blob : List Byte) : Prop where
  length : blob.length = 2 * (d + 2)
  dimensions : (wordAt blob 0).toNat = d
  unused : wordAt blob 1 = 0

/-- The bit patterns a payload of dimension `d` holds. -/
def patterns (d : ℕ) (blob : List Byte) : List Word :=
  (List.range d).map fun c => wordAt blob (c + 2)

/-- The block decodes to the patterns of its payloads if these are well formed of one dimension,
and raises `ValueError` if they are not. -/
def DecodesExactly (blobs : List (List Byte)) : Prop :=
  match parseHalfvecBlock blobs with
  | .ok rows => ∃ d, 1 ≤ d ∧ (∀ blob ∈ blobs, WellFormed d blob) ∧ rows = blobs.map (patterns d)
  | .error error => (∃ message, error = .valueError message) ∧
      ¬∃ d, 1 ≤ d ∧ ∀ blob ∈ blobs, WellFormed d blob

/-- The byte strings are a block of as many well-formed payloads, cut elsewhere. -/
def Recut (blobs : List (List Byte)) : Prop :=
  ∃ payloads : List (List Byte), payloads ≠ blobs ∧ payloads.length = blobs.length ∧
    payloads.flatten = blobs.flatten ∧
      ∃ d, 1 ≤ d ∧ (blobs.headD []).length / 2 = d + 2 ∧ ∀ blob ∈ payloads, WellFormed d blob

/-! ### Payloads as words -/

/-- A header and its values. -/
structure HeaderRow (d : ℕ) (row : List Word) : Prop where
  length : row.length = d + 2
  dimensions : (row.getD 0 0).toNat = d
  unused : row.getD 1 0 = 0

theorem wordAt_bytesOf (row : List Word) (i : ℕ) : wordAt (bytesOf row) i = row.getD i 0 := by
  unfold wordAt
  induction row generalizing i with
  | nil =>
    simp only [bytesOf, List.flatMap_nil, List.getD_nil]
    rfl
  | cons w row ih =>
    rw [bytesOf_cons]
    cases i with
    | zero => exact wordOf_bytes w
    | succ i =>
      have hlow : 2 * (i + 1) + 1 = 2 * i + 1 + 1 + 1 := by omega
      have hhigh : 2 * (i + 1) = 2 * i + 1 + 1 := by omega
      rw [hlow, hhigh]
      simp only [List.getD_cons_succ]
      exact ih i

theorem wellFormed_bytesOf {d : ℕ} {row : List Word} :
    WellFormed d (bytesOf row) ↔ HeaderRow d row := by
  constructor
  · intro h
    have hlength := h.length
    have hdimensions := h.dimensions
    have hunused := h.unused
    rw [length_bytesOf] at hlength
    rw [wordAt_bytesOf] at hdimensions hunused
    exact ⟨by omega, hdimensions, hunused⟩
  · intro h
    have hlength := length_bytesOf row
    rw [h.length] at hlength
    refine ⟨hlength, ?_, ?_⟩
    · rw [wordAt_bytesOf]
      exact h.dimensions
    · rw [wordAt_bytesOf]
      exact h.unused

theorem WellFormed.row {d : ℕ} {blob : List Byte} (h : WellFormed d blob) :
    ∃ row, HeaderRow d row ∧ bytesOf row = blob := by
  have hlength := h.length
  obtain ⟨row, rfl⟩ : ∃ row, blob = bytesOf row := wordsOf_of_even (by omega)
  exact ⟨row, wellFormed_bytesOf.mp h, rfl⟩

theorem patterns_bytesOf {d : ℕ} {row : List Word} (h : HeaderRow d row) :
    patterns d (bytesOf row) = row.drop 2 := by
  have hlength := h.length
  unfold patterns
  apply List.ext_getElem
  · rw [List.length_map, List.length_range, List.length_drop]
    omega
  · intro c hc hc'
    rw [List.length_map, List.length_range] at hc
    rw [List.getElem_map, List.getElem_range, wordAt_bytesOf, List.getElem_drop,
      List.getD_eq_getElem _ _ (by omega)]
    congr 1
    omega

/-- A block of well-formed payloads is a list of rows of words. -/
theorem rows_of_payloads {d : ℕ} {payloads : List (List Byte)}
    (h : ∀ blob ∈ payloads, WellFormed d blob) :
    ∃ rows : List (List Word), (∀ row ∈ rows, HeaderRow d row) ∧ rows.map bytesOf = payloads := by
  induction payloads with
  | nil => exact ⟨[], by simp, rfl⟩
  | cons blob payloads ih =>
    obtain ⟨row, hrow, rfl⟩ := (h blob List.mem_cons_self).row
    obtain ⟨rows, hrows, rfl⟩ := ih fun b hb => h b (List.mem_cons_of_mem _ hb)
    exact ⟨row :: rows, List.forall_mem_cons.mpr ⟨hrow, hrows⟩, rfl⟩

/-! ### What the decoder accepts -/

section
variable {blob : List Byte} {rest : List (List Byte)}

theorem parseHalfvecBlock_rows {d : ℕ} {rows : List (List Word)} (hd : 1 ≤ d)
    (hhead : blob.length / 2 = d + 2) (hcount : rows.length = (blob :: rest).length)
    (hrows : ∀ row ∈ rows, HeaderRow d row)
    (hflat : bytesOf rows.flatten = (blob :: rest).flatten) :
    parseHalfvecBlock (blob :: rest) = .ok (rows.map (List.drop 2)) := by
  have hwidth : ∀ row ∈ rows, row.length = d + 2 := fun row hrow => (hrows row hrow).length
  have hdimensions : blob.length / 2 - halfvecHeaderHalfwords = d := by
    rw [hhead]
    rfl
  have hsize : rows.flatten.length = (blob :: rest).length * (d + halfvecHeaderHalfwords) := by
    rw [length_flatten_rows hwidth, hcount]
    rfl
  have hcut : cut (d + halfvecHeaderHalfwords) (blob :: rest).length rows.flatten = rows := by
    rw [← hcount]
    exact cut_flatten_rows hwidth
  unfold parseHalfvecBlock
  rw [← hflat, wordsOf_bytesOf]
  dsimp only
  rw [hdimensions, if_neg (by omega), hcut, if_neg]
  · rfl
  · simp only [Bool.or_eq_true, List.any_eq_true, decide_eq_true_eq]
    rintro (⟨row, hrow, hne⟩ | ⟨row, hrow, hne⟩)
    · exact hne (hrows row hrow).dimensions
    · exact hne (hrows row hrow).unused

theorem rows_of_parseHalfvecBlock {out : List (List Word)}
    (h : parseHalfvecBlock (blob :: rest) = .ok out) :
    ∃ (d : ℕ) (rows : List (List Word)), 1 ≤ d ∧ blob.length / 2 = d + 2 ∧
      rows.length = (blob :: rest).length ∧
      (∀ row ∈ rows, HeaderRow d row) ∧ bytesOf rows.flatten = (blob :: rest).flatten ∧
        out = rows.map (List.drop 2) := by
  unfold parseHalfvecBlock at h
  cases hwords : wordsOf (blob :: rest).flatten with
  | none =>
    rw [hwords] at h
    cases h
  | some words =>
    rw [hwords] at h
    dsimp only at h
    split at h
    · cases h
    · rename_i hsize
      split at h
      · cases h
      · rename_i hheader
        obtain ⟨hd, hlength⟩ := not_or.mp hsize
        rw [ne_eq, not_not] at hlength
        rw [Bool.not_eq_true, Bool.or_eq_false_iff, List.any_eq_false, List.any_eq_false] at hheader
        have htwo : halfvecHeaderHalfwords = 2 := rfl
        refine ⟨blob.length / 2 - halfvecHeaderHalfwords, cut _ _ words, by omega, by omega,
          length_cut _ _ _, ?_, ?_, (Except.ok.inj h).symm⟩
        · intro row hrow
          have hdimensions := hheader.1 row hrow
          have hunused := hheader.2 row hrow
          rw [decide_eq_true_eq, not_not] at hdimensions hunused
          exact ⟨length_of_mem_cut hlength hrow, hdimensions, hunused⟩
        · rw [cut_flatten hlength.le]
          exact bytesOf_wordsOf hwords

theorem parseHalfvecBlock_payloads {d : ℕ} {payloads : List (List Byte)} (hd : 1 ≤ d)
    (hhead : blob.length / 2 = d + 2) (hcount : payloads.length = (blob :: rest).length)
    (hpayloads : ∀ payload ∈ payloads, WellFormed d payload)
    (hflat : payloads.flatten = (blob :: rest).flatten) :
    parseHalfvecBlock (blob :: rest) = .ok (payloads.map (patterns d)) := by
  obtain ⟨rows, hrows, rfl⟩ := rows_of_payloads hpayloads
  rw [List.length_map] at hcount
  rw [← bytesOf_flatten] at hflat
  rw [parseHalfvecBlock_rows hd hhead hcount hrows hflat, List.map_map]
  congr 1
  apply List.map_congr_left
  intro row hrow
  exact (patterns_bytesOf (hrows row hrow)).symm

theorem payloads_of_parseHalfvecBlock {out : List (List Word)}
    (h : parseHalfvecBlock (blob :: rest) = .ok out) :
    ∃ (d : ℕ) (payloads : List (List Byte)), 1 ≤ d ∧ blob.length / 2 = d + 2 ∧
      payloads.length = (blob :: rest).length ∧
      (∀ payload ∈ payloads, WellFormed d payload) ∧ payloads.flatten = (blob :: rest).flatten ∧
        out = payloads.map (patterns d) := by
  obtain ⟨d, rows, hd, hhead, hcount, hrows, hflat, rfl⟩ := rows_of_parseHalfvecBlock h
  refine ⟨d, rows.map bytesOf, hd, hhead, ?_, ?_, ?_, ?_⟩
  · rw [List.length_map, hcount]
  · intro payload hpayload
    obtain ⟨row, hrow, rfl⟩ := List.mem_map.mp hpayload
    exact wellFormed_bytesOf.mpr (hrows row hrow)
  · rw [← bytesOf_flatten, hflat]
  · rw [List.map_map]
    apply List.map_congr_left
    intro row hrow
    exact (patterns_bytesOf (hrows row hrow)).symm

theorem parseHalfvecBlock_error {error : DecodeError}
    (h : parseHalfvecBlock (blob :: rest) = .error error) :
    ∃ message, error = .valueError message := by
  unfold parseHalfvecBlock at h
  split at h
  · exact ⟨_, (Except.error.inj h).symm⟩
  · rename_i heq
    cases heq
  · dsimp only at h
    split at h
    · exact ⟨_, (Except.error.inj h).symm⟩
    · split at h
      · exact ⟨_, (Except.error.inj h).symm⟩
      · cases h

theorem payloads_head {d : ℕ} (h : WellFormed d blob) : blob.length / 2 = d + 2 := by
  have hlength := h.length
  omega

/-- The decoder is exact on a block unless the block is one of well-formed payloads cut
elsewhere. -/
theorem decodesExactly_iff (blob : List Byte) (rest : List (List Byte)) :
    DecodesExactly (blob :: rest) ↔ ¬Recut (blob :: rest) := by
  unfold DecodesExactly
  constructor
  · rintro hexact ⟨payloads, hne, hcount, hflat, d, hd, hhead, hpayloads⟩
    rw [List.headD_cons] at hhead
    rw [parseHalfvecBlock_payloads hd hhead hcount hpayloads hflat] at hexact
    obtain ⟨d', _, hblobs, _⟩ := hexact
    have hhead' := payloads_head (hblobs blob List.mem_cons_self)
    obtain rfl : d' = d := by omega
    exact hne (rows_unique (fun b hb => (hpayloads b hb).length) (fun b hb => (hblobs b hb).length)
      hcount hflat)
  · intro hrecut
    cases hparse : parseHalfvecBlock (blob :: rest) with
    | ok out =>
      obtain ⟨d, payloads, hd, hhead, hcount, hpayloads, hflat, rfl⟩ :=
        payloads_of_parseHalfvecBlock hparse
      have hsame : payloads = blob :: rest := by
        by_contra hne
        exact hrecut ⟨payloads, hne, hcount, hflat, d, hd, hhead, hpayloads⟩
      rw [hsame] at hpayloads
      exact ⟨d, hd, hpayloads, by rw [hsame]⟩
    | error error =>
      refine ⟨parseHalfvecBlock_error hparse, ?_⟩
      rintro ⟨d, hd, hblobs⟩
      have hhead := payloads_head (hblobs blob List.mem_cons_self)
      have hok := parseHalfvecBlock_payloads hd hhead rfl hblobs rfl
      rw [hparse] at hok
      cases hok

end

/- Two payloads of dimension 1, the first one byte too long and the second one too short. -/
theorem recut_decoded :
    parseHalfvecBlock [[0, 1, 0, 0, 0x3c, 0, 0], [1, 0, 0, 0x40, 0]] =
      .ok [[0x3c00], [0x4000]] ∧
    ¬DecodesExactly [[0, 1, 0, 0, 0x3c, 0, 0], [1, 0, 0, 0x40, 0]] := by
  have hok : parseHalfvecBlock [[0, 1, 0, 0, 0x3c, 0, 0], [1, 0, 0, 0x40, 0]] =
      .ok [[0x3c00], [0x4000]] := by decide
  refine ⟨hok, ?_⟩
  unfold DecodesExactly
  rw [hok]
  rintro ⟨d, _, hblobs, _⟩
  have hlength := (hblobs [0, 1, 0, 0, 0x3c, 0, 0] (by simp)).length
  simp only [List.length_cons, List.length_nil] at hlength
  omega

end AnalyticsEngine.SimilarArtists
