import AnalyticsEngine.Embeddings.FastRP
import AnalyticsEngine.Library.SignificantDigits

/-!
# insights/embedding_pipeline.py: the stored model version

`stored_model_version` writes every parameter of the method, the edge set and the dump into one text.
Its separators cannot come up inside a parameter, so the text determines each of them up to its
six-digit `:g` rendering, and no further.
-/

namespace AnalyticsEngine.EmbeddingPipeline
open Library Embeddings

/-! ### Python floats -/

/-- The finite non-negative doubles, each in its one normal or subnormal form. -/
structure Magnitude where
  mantissa : ℕ
  exponent : ℤ
  format : (mantissa < 2 ^ 52 ∧ exponent = -1074) ∨
    (2 ^ 52 ≤ mantissa ∧ mantissa < 2 ^ 53 ∧ -1074 ≤ exponent ∧ exponent ≤ 971)
deriving DecidableEq

def Magnitude.value (m : Magnitude) : ℚ := m.mantissa * 2 ^ m.exponent

inductive Float64 where
  | nan
  | infinite (negative : Bool)
  | finite (negative : Bool) (magnitude : Magnitude)
deriving DecidableEq

/-- Truthiness is that a number is not zero. -/
def Float64.isZero : Float64 → Bool
  | .finite _ magnitude => magnitude.mantissa = 0
  | _ => false

/-- A float rounded to six significant digits. -/
inductive Rounded where
  | nan
  | infinite (negative : Bool)
  | zero (negative : Bool)
  | digits (negative : Bool) (number : Significant 6)
deriving DecidableEq

theorem Magnitude.value_pos {m : Magnitude} (h : m.mantissa ≠ 0) : 0 < m.value := by
  have hpos : (0 : ℚ) < m.mantissa := Nat.cast_pos.mpr (Nat.pos_of_ne_zero h)
  unfold Magnitude.value
  positivity

def Float64.sixDigits : Float64 → Rounded
  | .nan => .nan
  | .infinite negative => .infinite negative
  | .finite negative magnitude =>
    if h : magnitude.mantissa = 0 then .zero negative
    else .digits negative (significant (by decide) magnitude.value (Magnitude.value_pos h))

def Rounded.negative : Rounded → Bool
  | .nan => false
  | .infinite negative => negative
  | .zero negative => negative
  | .digits negative _ => negative

def Rounded.unsigned : Rounded → List Char
  | .nan => ['n', 'a', 'n']
  | .infinite _ => ['i', 'n', 'f']
  | .zero _ => ['0']
  | .digits _ number => number.text

def Rounded.text (x : Rounded) : List Char :=
  if x.negative then '-' :: x.unsigned else x.unsigned

/-- `f"{x:g}"`. -/
def formatG (x : Float64) : String := String.ofList x.sixDigits.text

/-! ### The version text -/

def fastrpAlgorithmVersion : ℕ := 2

def edgeSetVersion : String := "edges-v3"

def storedVersionSeparator : Char := '@'

section
variable {F O : Type*} {ar : Arithmetic F Float64 O}

def modelVersion (config : FastRPConfig ar) : String :=
  "fastrp-v" ++ Nat.repr fastrpAlgorithmVersion ++ ":dim=" ++ Nat.repr config.dim ++
    ":weights=" ++ ",".intercalate (config.weights.map formatG) ++ ":beta=" ++ formatG config.beta ++
    ":self=" ++ formatG config.selfWeight ++
    ":proj=achlioptas-s3:rows=splitmix64(blake2b64(kind,key)):seed=" ++ Int.repr config.seed

inductive VersionError where
  | separator (dumpId : String)

def storedModelVersion (config : FastRPConfig ar) (dumpId : String) : Except VersionError String :=
  if storedVersionSeparator ∈ dumpId.toList then .error (.separator dumpId)
  else .ok (modelVersion config ++ ":" ++ edgeSetVersion ++ String.singleton storedVersionSeparator ++
    dumpId)

/-! ### What a text determines -/

/-- Two configurations name the same method. -/
def SameMethod (c₁ c₂ : FastRPConfig ar) : Prop :=
  c₁.dim = c₂.dim ∧ c₁.weights = c₂.weights ∧ c₁.beta = c₂.beta ∧ c₁.selfWeight = c₂.selfWeight ∧
    c₁.seed = c₂.seed

def SameToSixDigits (c₁ c₂ : FastRPConfig ar) : Prop :=
  c₁.dim = c₂.dim ∧ c₁.weights.map Float64.sixDigits = c₂.weights.map Float64.sixDigits ∧
    c₁.beta.sixDigits = c₂.beta.sixDigits ∧ c₁.selfWeight.sixDigits = c₂.selfWeight.sixDigits ∧
    c₁.seed = c₂.seed

theorem head_isDigit {number : Significant 6} {c : Char} {rest : List Char}
    (h : number.text = c :: rest) : c.isDigit := by
  obtain ⟨⟨d, hd, hdigit⟩, _⟩ := number.text_isNumeral (by decide)
  rw [h] at hd
  exact Option.some.inj hd ▸ hdigit

theorem zero_ne_text (number : Significant 6) : ['0'] ≠ number.text := by
  intro h
  have hzero : readText ['0'] = 0 := by decide +kernel
  have hread := number.readText_text (by decide)
  rw [← h, hzero] at hread
  have hpos : (0 : ℚ) < 10 ^ number.exponent := by positivity
  exact absurd (number.value_bounds (by decide)).1 (not_le.mpr (hread ▸ hpos))

theorem Rounded.unsigned_head (x : Rounded) : ∃ c rest, x.unsigned = c :: rest ∧ c ≠ '-' := by
  cases x with
  | nan => exact ⟨_, _, rfl, by decide⟩
  | infinite negative => exact ⟨_, _, rfl, by decide⟩
  | zero negative => exact ⟨_, _, rfl, by decide⟩
  | digits negative number =>
    obtain ⟨⟨c, hc, _⟩, _⟩ := number.text_isNumeral (by decide)
    obtain ⟨rest, hrest⟩ := List.head?_eq_some_iff.mp hc
    refine ⟨c, rest, hrest, ?_⟩
    intro heq
    exact absurd (head_isDigit hrest) (heq ▸ by decide)

theorem Rounded.text_chars (x : Rounded) : ∀ c ∈ x.text, c ≠ ',' ∧ c ≠ ':' := by
  have hunsigned : ∀ c ∈ x.unsigned, c ≠ ',' ∧ c ≠ ':' := by
    cases x with
    | nan => simp [Rounded.unsigned]
    | infinite negative => simp [Rounded.unsigned]
    | zero negative => simp [Rounded.unsigned]
    | digits negative number =>
      intro c hc
      rcases (number.text_isNumeral (by decide)).2 c hc with hdigit | hother
      · constructor
        · intro heq
          rw [heq] at hdigit
          exact absurd hdigit (by decide)
        · intro heq
          rw [heq] at hdigit
          exact absurd hdigit (by decide)
      · have hall : ∀ d ∈ ['.', 'e', '+', '-'], d ≠ ',' ∧ d ≠ ':' := by simp
        exact hall c hother
  intro c hc
  unfold Rounded.text at hc
  split_ifs at hc
  · rcases List.mem_cons.mp hc with rfl | hc
    · decide
    · exact hunsigned c hc
  · exact hunsigned c hc

theorem Rounded.unsigned_inj {x y : Rounded} (hsign : x.negative = y.negative)
    (h : x.unsigned = y.unsigned) : x = y := by
  cases x with
  | nan =>
    cases y with
    | nan => rfl
    | infinite negative => cases h
    | zero negative => cases h
    | digits negative number => exact absurd (head_isDigit h.symm) (by decide)
  | infinite negative =>
    cases y with
    | nan => cases h
    | infinite negative' => exact congrArg Rounded.infinite hsign
    | zero negative' => cases h
    | digits negative' number => exact absurd (head_isDigit h.symm) (by decide)
  | zero negative =>
    cases y with
    | nan => cases h
    | infinite negative' => cases h
    | zero negative' => exact congrArg Rounded.zero hsign
    | digits negative' number => exact absurd h (zero_ne_text number)
  | digits negative number =>
    cases y with
    | nan => exact absurd (head_isDigit h) (by decide)
    | infinite negative' => exact absurd (head_isDigit h) (by decide)
    | zero negative' => exact absurd h.symm (zero_ne_text number)
    | digits negative' number' =>
      exact congrArg₂ Rounded.digits hsign (Significant.text_inj (by decide) h)

theorem Rounded.text_inj {x y : Rounded} (h : x.text = y.text) : x = y := by
  obtain ⟨c, rest, hx, hc⟩ := x.unsigned_head
  obtain ⟨d, rest', hy, hd⟩ := y.unsigned_head
  unfold Rounded.text at h
  cases hsign : x.negative with
  | true =>
    cases hsign' : y.negative with
    | true =>
      rw [hsign, hsign'] at h
      exact Rounded.unsigned_inj (hsign.trans hsign'.symm) (List.cons.inj h).2
    | false =>
      rw [hsign, hsign', hy] at h
      exact absurd (List.cons.inj h).1.symm hd
  | false =>
    cases hsign' : y.negative with
    | true =>
      rw [hsign, hsign', hx] at h
      exact absurd (List.cons.inj h).1 hc
    | false =>
      rw [hsign, hsign'] at h
      exact Rounded.unsigned_inj (hsign.trans hsign'.symm) h

theorem modelVersion_toList (config : FastRPConfig ar) (dumpId : String) :
    (modelVersion config ++ ":" ++ edgeSetVersion ++ String.singleton storedVersionSeparator ++
      dumpId).toList =
      "fastrp-v2:dim=".toList ++ (Nat.toDigits 10 config.dim ++ ':' :: ("weights=".toList ++
        (List.intercalate [','] (config.weights.map fun w => w.sixDigits.text) ++
          ':' :: ("beta=".toList ++ (config.beta.sixDigits.text ++ ':' :: ("self=".toList ++
            (config.selfWeight.sixDigits.text ++
              ':' :: ("proj=achlioptas-s3:rows=splitmix64(blake2b64(kind,key)):seed=".toList ++
                ((Int.repr config.seed).toList ++ ':' :: ("edges-v3@".toList ++
                  dumpId.toList)))))))))) := by
  unfold modelVersion edgeSetVersion fastrpAlgorithmVersion storedVersionSeparator formatG
  have htwo : Nat.toDigits 10 2 = ['2'] := rfl
  simp [htwo, Function.comp_def]

/-- The text determines the dump and the parameters to six digits, and reads no more of them. -/
theorem storedModelVersion_eq_iff (c₁ c₂ : FastRPConfig ar) {d₁ d₂ : String}
    (h₁ : storedVersionSeparator ∉ d₁.toList) (h₂ : storedVersionSeparator ∉ d₂.toList) :
    storedModelVersion c₁ d₁ = storedModelVersion c₂ d₂ ↔ d₁ = d₂ ∧ SameToSixDigits c₁ c₂ := by
  unfold storedModelVersion
  rw [if_neg h₁, if_neg h₂, Except.ok.injEq, ← String.toList_inj, modelVersion_toList,
    modelVersion_toList]
  constructor
  · intro h
    have hdim : ∀ c : FastRPConfig ar, ':' ∉ Nat.toDigits 10 c.dim := by
      intro c hc
      exact absurd (isDigit_toDigits ':' hc) (by decide)
    have hnumber : ∀ x : Float64, ':' ∉ x.sixDigits.text := fun x hc =>
      (x.sixDigits.text_chars ':' hc).2 rfl
    have hseed : ∀ c : FastRPConfig ar, ':' ∉ (Int.repr c.seed).toList := by
      intro c hc
      rcases int_repr_chars c.seed ':' hc with hdigit | hdash
      · exact absurd hdigit (by decide)
      · exact absurd hdash (by decide)
    have hweights : ∀ c : FastRPConfig ar,
        ':' ∉ List.intercalate [','] (c.weights.map fun w => w.sixDigits.text) := by
      intro c hc
      rcases mem_intercalate hc with hsep | ⟨text, htext, hc⟩
      · exact absurd hsep (by decide)
      · obtain ⟨w, _, rfl⟩ := List.mem_map.mp htext
        exact hnumber w hc
    -- the parameters are cut off one by one, each at the colon behind it
    obtain ⟨hd, h⟩ := name_cancel (hdim c₁) (hdim c₂) (Or.inr ⟨_, rfl⟩) (Or.inr ⟨_, rfl⟩)
      (List.append_cancel_left h)
    obtain ⟨hw, h⟩ := name_cancel (hweights c₁) (hweights c₂) (Or.inr ⟨_, rfl⟩) (Or.inr ⟨_, rfl⟩)
      (List.append_cancel_left (List.cons.inj h).2)
    obtain ⟨hb, h⟩ := name_cancel (hnumber c₁.beta) (hnumber c₂.beta) (Or.inr ⟨_, rfl⟩)
      (Or.inr ⟨_, rfl⟩) (List.append_cancel_left (List.cons.inj h).2)
    obtain ⟨hs, h⟩ := name_cancel (hnumber c₁.selfWeight) (hnumber c₂.selfWeight)
      (Or.inr ⟨_, rfl⟩) (Or.inr ⟨_, rfl⟩) (List.append_cancel_left (List.cons.inj h).2)
    obtain ⟨hz, h⟩ := name_cancel (hseed c₁) (hseed c₂) (Or.inr ⟨_, rfl⟩) (Or.inr ⟨_, rfl⟩)
      (List.append_cancel_left (List.cons.inj h).2)
    refine ⟨String.toList_inj.mp (List.append_cancel_left (List.cons.inj h).2), toDigits_inj hd, ?_,
      Rounded.text_inj hb, Rounded.text_inj hs, int_repr_inj hz⟩
    have hne : ∀ c : FastRPConfig ar, (c.weights.map fun w => w.sixDigits.text) ≠ [] := by
      intro c hnil
      obtain ⟨w, hw, _⟩ := c.some_weight
      rw [List.map_eq_nil_iff] at hnil
      rw [hnil] at hw
      cases hw
    have hcomma : ∀ c : FastRPConfig ar, ∀ text ∈ c.weights.map fun w => w.sixDigits.text,
        ',' ∉ text := by
      intro c text htext hc
      obtain ⟨w, _, rfl⟩ := List.mem_map.mp htext
      exact (w.sixDigits.text_chars ',' hc).1 rfl
    have htexts := intercalate_inj (hne c₁) (hne c₂) (hcomma c₁) (hcomma c₂) hw
    apply List.map_injective_iff.mpr fun _ _ => Rounded.text_inj
    rw [List.map_map, List.map_map]
    exact htexts
  · intro h
    obtain ⟨rfl, hdim, hweights, hbeta, hself, hseed⟩ := h
    have htexts : (c₁.weights.map fun w => w.sixDigits.text) =
        c₂.weights.map fun w => w.sixDigits.text := by
      have := congrArg (List.map Rounded.text) hweights
      rw [List.map_map, List.map_map] at this
      exact this
    rw [hdim, htexts, hbeta, hself, hseed]

/-- Two different methods that agree to six digits. -/
def DifferPastSixDigits (c₁ c₂ : FastRPConfig ar) : Prop :=
  SameToSixDigits c₁ c₂ ∧ ¬SameMethod c₁ c₂

/-- Two stored versions name one dump and one method unless the methods differ past the sixth digit. -/
theorem storedModelVersion_names_iff (c₁ c₂ : FastRPConfig ar) {d₁ d₂ : String}
    (h₁ : storedVersionSeparator ∉ d₁.toList) (h₂ : storedVersionSeparator ∉ d₂.toList) :
    (storedModelVersion c₁ d₁ = storedModelVersion c₂ d₂ → d₁ = d₂ ∧ SameMethod c₁ c₂) ↔
      ¬(d₁ = d₂ ∧ DifferPastSixDigits c₁ c₂) := by
  rw [storedModelVersion_eq_iff c₁ c₂ h₁ h₂]
  unfold DifferPastSixDigits
  tauto

end

/-! ### Weights that differ in the seventh digit -/

/- The version text reads the parameters alone, so no operation matters here. -/
def noArithmetic : Arithmetic Unit Float64 Unit where
  zero := ()
  add _ _ := ()
  mul _ _ := ()
  mul_comm _ _ := rfl
  sqrt3 := ()
  neg _ := ()
  zero64 := .nan
  one64 := .nan
  add64 _ _ := .nan
  mul64 _ _ := .nan
  div64 _ _ := .nan
  pow64 _ _ := .nan
  sqrt64 _ := .nan
  ofNat64 _ := .nan
  isZero := Float64.isZero
  widen _ := .nan
  narrow _ := ()
  store _ := ()

def oneWeight (w : Float64) (h : w.isZero = false) : FastRPConfig noArithmetic where
  dim := 128
  weights := [w]
  beta := .finite false ⟨0, -1074, by decide⟩
  selfWeight := .finite false ⟨0, -1074, by decide⟩
  seed := 20260924
  dim_pos := by decide
  some_weight := ⟨w, List.mem_singleton_self w, h⟩

/-- `0.1234567` -/
def seventhSeven : Float64 := .finite false ⟨8895992769862258, -56, by decide⟩

/-- `0.1234568` -/
def seventhEight : Float64 := .finite false ⟨8895999975621662, -56, by decide⟩

theorem storedModelVersion_names_iff_weights :
    (storedModelVersion (oneWeight seventhSeven rfl) "2026-09" =
        storedModelVersion (oneWeight seventhEight rfl) "2026-09" →
      "2026-09" = "2026-09" ∧ SameMethod (oneWeight seventhSeven rfl) (oneWeight seventhEight rfl)) ↔
      ¬("2026-09" = "2026-09" ∧
        DifferPastSixDigits (oneWeight seventhSeven rfl) (oneWeight seventhEight rfl)) :=
  storedModelVersion_names_iff _ _ (by decide) (by decide)

theorem storedModelVersion_collision :
    storedModelVersion (oneWeight seventhSeven rfl) "2026-09" =
        storedModelVersion (oneWeight seventhEight rfl) "2026-09" ∧
      ¬SameMethod (oneWeight seventhSeven rfl) (oneWeight seventhEight rfl) := by
  have hdigits : seventhSeven.sixDigits = seventhEight.sixDigits := by decide +kernel
  constructor
  · apply (storedModelVersion_eq_iff _ _ (by decide) (by decide)).mpr
    exact ⟨rfl, rfl, congrArg (fun x => [x]) hdigits, rfl, rfl, rfl⟩
  · intro hsame
    have hweights : seventhSeven = seventhEight := (List.cons.inj hsame.2.1).1
    exact absurd hweights (by decide)

end AnalyticsEngine.EmbeddingPipeline
