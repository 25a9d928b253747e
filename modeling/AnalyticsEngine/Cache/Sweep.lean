import AnalyticsEngine.Cache.Keys
import AnalyticsEngine.Library.Words
import Mathlib.Data.List.TakeWhile
import Mathlib.Logic.Function.Basic

/-!
# The sweep of invalidate_all (insights/cache.py)

One increment of the counter, then SCAN pages until the cursor is back at 0, each with a deletion
of its stale keys. Other clients write in between, and every call may raise, with or without
effect. A key is stale iff it names a superseded generation (`isStale_iff`).
-/

namespace AnalyticsEngine.Cache
open Library

/-- What `\d` matches. -/
structure DecimalDigits where
  contains : Char → Bool
  ascii : ∀ c, c.isDigit = true → contains c = true
  colon : contains ':' = false

def asciiDigits : DecimalDigits where
  contains := Char.isDigit
  ascii := fun _ h => h
  colon := by decide

/-- A key of the store: the text its bytes decode to, and the bytes from the first that does not
decode on. -/
structure Key where
  text : String
  invalid : List Byte
deriving DecidableEq

def counterKey (keyPrefix : String) : Key := ⟨generationKey keyPrefix, []⟩

/-- A key as the client returns it. -/
inductive Reply where
  | str (text : String)
  | bytes (key : Key)
deriving DecidableEq

def Reply.key : Reply → Key
  | .str text => ⟨text, []⟩
  | .bytes key => key

/-- `_as_str`, `none` where decoding raises. -/
def asStr : Reply → Option String
  | .str text => some text
  | .bytes key => if key.invalid = [] then some key.text else none

variable (d : DecimalDigits) (keyPrefix : String)

/-- `_is_versioned`. -/
def isVersionedKey (key : String) : Bool :=
  let rest := key.toList.drop keyPrefix.toList.length
  let tail := rest.drop "insights:g".toList.length
  let digits := tail.takeWhile d.contains
  "insights:g".toList.isPrefixOf rest && !digits.isEmpty &&
    (tail.drop digits.length).head? == some ':'

/-- `current_prefix`; the counter may hold any integer. -/
def sweepPrefix (generation : ℤ) : String :=
  valkeyKey keyPrefix ["insights", "g" ++ Int.repr generation] ++ ":"

def isStale (generation : ℤ) (key : String) : Bool :=
  isVersionedKey d keyPrefix key && !(sweepPrefix keyPrefix generation).toList.isPrefixOf key.toList

/-- `stale`, `none` where a key does not decode. -/
def staleReplies (generation : ℤ) : List Reply → Option (List Reply)
  | [] => some []
  | reply :: replies => do
    let key ← asStr reply
    let stale ← staleReplies generation replies
    return if isStale d keyPrefix generation key then reply :: stale else stale

/-! ### Superseded generations -/

/-- `prefix + "insights:g" + digits + ":" + anything`. -/
def Names (digits : List Char) (key : Key) : Prop :=
  digits ≠ [] ∧ (∀ c ∈ digits, d.contains c = true) ∧
    ∃ rest, key.text.toList = keyPrefix.toList ++ ("insights:g".toList ++ (digits ++ ':' :: rest))

/-- The key names a generation other than the given one. -/
def Superseded (generation : ℤ) (key : Key) : Prop :=
  ∃ digits, Names d keyPrefix digits key ∧ digits ≠ (Int.repr generation).toList

/-- The pattern of the SCAN. -/
def Matches (key : Key) : Prop := keyPrefix.toList ++ "insights:g".toList <+: key.text.toList

section
variable {d keyPrefix}

theorem colon_notMem_repr (n : ℤ) : ':' ∉ (Int.repr n).toList := by
  have hnat : ∀ m : ℕ, ':' ∉ (Nat.repr m).toList := by
    intro m hmem
    rw [Nat.toList_repr] at hmem
    have hdigit := isDigit_toDigits ':' hmem
    cases hdigit
  cases n with
  | ofNat m => exact hnat m
  | negSucc m =>
    unfold Int.repr
    rw [String.toList_append, List.mem_append, not_or]
    exact ⟨by decide, hnat (m + 1)⟩

theorem colon_notMem_digits {digits : List Char} (h : ∀ c ∈ digits, d.contains c = true) :
    ':' ∉ digits := by
  intro hmem
  have hcolon := h ':' hmem
  rw [d.colon] at hcolon
  cases hcolon

theorem colon_cancel {xs ys us vs : List Char} (hxs : ':' ∉ xs) (hys : ':' ∉ ys)
    (h : xs ++ ':' :: us = ys ++ ':' :: vs) : xs = ys :=
  (name_cancel hxs hys (Or.inr ⟨us, rfl⟩) (Or.inr ⟨vs, rfl⟩) h).1

theorem sweepPrefix_toList (generation : ℤ) :
    (sweepPrefix keyPrefix generation).toList =
      keyPrefix.toList ++ ("insights:g".toList ++ ((Int.repr generation).toList ++ [':'])) := by
  unfold sweepPrefix valkeyKey
  simp

theorem takeWhile_colon {digits rest : List Char} (h : ∀ c ∈ digits, d.contains c = true) :
    (digits ++ ':' :: rest).takeWhile d.contains = digits := by
  rw [List.takeWhile_append_of_pos h, List.takeWhile_cons_of_neg (by simp [d.colon]),
    List.append_nil]

/-- For a key of the pattern the regular expression says that it names a generation. -/
theorem isVersionedKey_iff {key : Key} (h : Matches keyPrefix key) :
    isVersionedKey d keyPrefix key.text = true ↔ ∃ digits, Names d keyPrefix digits key := by
  obtain ⟨tail, htail⟩ := h
  rw [List.append_assoc] at htail
  have hversioned : isVersionedKey d keyPrefix key.text =
      (!(tail.takeWhile d.contains).isEmpty &&
        (tail.drop (tail.takeWhile d.contains).length).head? == some ':') := by
    have hname : "insights:g".toList.isPrefixOf ("insights:g".toList ++ tail) = true :=
      List.isPrefixOf_iff_prefix.mpr (List.prefix_append _ _)
    unfold isVersionedKey
    rw [← htail]
    simp only [List.drop_left, hname, Bool.true_and]
  rw [hversioned, Bool.and_eq_true, Bool.not_eq_true', List.isEmpty_eq_false_iff, beq_iff_eq]
  constructor
  · rintro ⟨hne, hhead⟩
    obtain ⟨rest, hrest⟩ := List.head?_eq_some_iff.mp hhead
    refine ⟨tail.takeWhile d.contains, hne, fun c hc => List.mem_takeWhile_imp hc, rest, ?_⟩
    rw [← htail, ← hrest]
    congr 2
    exact (List.prefix_iff_eq_append.mp (List.takeWhile_prefix _)).symm
  · rintro ⟨digits, hne, hdigits, rest, hkey⟩
    rw [← htail] at hkey
    have hcut := List.append_cancel_left (List.append_cancel_left hkey)
    rw [hcut, takeWhile_colon hdigits, List.drop_left]
    exact ⟨hne, rfl⟩

theorem startsWith_iff {key : Key} {digits : List Char} (hnames : Names d keyPrefix digits key)
    (generation : ℤ) :
    (sweepPrefix keyPrefix generation).toList.isPrefixOf key.text.toList = true ↔
      digits = (Int.repr generation).toList := by
  obtain ⟨_, hdigits, rest, hkey⟩ := hnames
  rw [List.isPrefixOf_iff_prefix, sweepPrefix_toList, hkey, List.prefix_append_right_inj,
    List.prefix_append_right_inj]
  constructor
  · rintro ⟨later, hlater⟩
    rw [List.append_assoc] at hlater
    exact (colon_cancel (colon_notMem_repr generation) (colon_notMem_digits hdigits) hlater).symm
  · rintro rfl
    refine ⟨rest, ?_⟩
    rw [List.append_assoc]
    rfl

theorem isStale_iff {key : Key} (h : Matches keyPrefix key) (generation : ℤ) :
    isStale d keyPrefix generation key.text = true ↔ Superseded d keyPrefix generation key := by
  unfold isStale Superseded
  rw [Bool.and_eq_true, Bool.not_eq_true', isVersionedKey_iff h]
  constructor
  · rintro ⟨⟨digits, hnames⟩, hskip⟩
    refine ⟨digits, hnames, ?_⟩
    intro heq
    rw [(startsWith_iff hnames generation).mpr heq] at hskip
    cases hskip
  · rintro ⟨digits, hnames, hne⟩
    refine ⟨⟨digits, hnames⟩, ?_⟩
    rw [← Bool.not_eq_true, startsWith_iff hnames]
    exact hne

theorem Superseded.matches {key : Key} {generation : ℤ}
    (h : Superseded d keyPrefix generation key) : Matches keyPrefix key := by
  obtain ⟨digits, ⟨_, _, rest, hkey⟩, _⟩ := h
  unfold Matches
  rw [hkey, ← List.append_assoc]
  exact List.prefix_append _ _

theorem not_superseded_counterKey (generation : ℤ) :
    ¬Superseded d keyPrefix generation (counterKey keyPrefix) := by
  intro h
  have hmatches := h.matches
  have hlist : (generationKey keyPrefix).toList = keyPrefix.toList ++ generationKeyName.toList := by
    unfold generationKey valkeyKey
    simp
  unfold Matches counterKey at hmatches
  rw [hlist, List.prefix_append_right_inj] at hmatches
  revert hmatches
  decide

end

end AnalyticsEngine.Cache
