import AnalyticsEngine.Library.Decimal

/-!
# The keys of insights/cache.py

Every key is the configured prefix and a suffix of parts joined by `:`. A versioned key names
its generation in its second part, so it determines the generation and the unversioned key
(`versionedKey_inj`).
-/

namespace AnalyticsEngine.Cache
open Library

def valkeyKey (keyPrefix : String) (parts : List String) : String :=
  keyPrefix ++ ":".intercalate parts

def generationKeyName : String := "insights-generation"

def generationKey (keyPrefix : String) : String := valkeyKey keyPrefix [generationKeyName]

def removeprefix (s pre : String) : String :=
  if pre.toList <+: s.toList then String.ofList (s.toList.drop pre.toList.length) else s

def versionedKey (keyPrefix key : String) (generation : ℕ) : String :=
  valkeyKey keyPrefix ["insights", "g" ++ Nat.repr generation, removeprefix key "insights:"]

/- `_is_versioned`: `insights:g\d+:` behind the prefix. The digits of this cache's own keys are
ASCII. -/
def isVersioned (keyPrefix key : String) : Bool :=
  let rest := key.toList.drop keyPrefix.toList.length
  let tail := rest.drop "insights:g".toList.length
  let digits := tail.takeWhile Char.isDigit
  "insights:g".toList.isPrefixOf rest && !digits.isEmpty &&
    (tail.drop digits.length).head? == some ':'

/-- `current_prefix` of `invalidate_all`. -/
def currentPrefix (keyPrefix : String) (generation : ℕ) : String :=
  valkeyKey keyPrefix ["insights", "g" ++ Nat.repr generation] ++ ":"

/-- The keys of one SCAN page that `invalidate_all` deletes. -/
def staleKeys (keyPrefix : String) (generation : ℕ) (page : List String) : List String :=
  page.filter fun key => isVersioned keyPrefix key &&
    !(currentPrefix keyPrefix generation).toList.isPrefixOf key.toList

/-! ### What a versioned key determines -/

theorem versionedKey_toList (keyPrefix key : String) (generation : ℕ) :
    (versionedKey keyPrefix key generation).toList =
      keyPrefix.toList ++ ("insights:g".toList ++ (Nat.toDigits 10 generation ++
        ':' :: ( removeprefix key "insights:").toList)) := by
  unfold versionedKey valkeyKey
  simp

/-- A versioned key determines its generation and the key behind it. -/
theorem versionedKey_inj {keyPrefix key key' : String} {g g' : ℕ}
    (h : versionedKey keyPrefix key g = versionedKey keyPrefix key' g') :
    g = g' ∧ removeprefix key "insights:" = removeprefix key' "insights:" := by
  have hlist := congrArg String.toList h
  rw [versionedKey_toList, versionedKey_toList] at hlist
  obtain ⟨hg, hkey⟩ := digits_cancel isDigit_toDigits isDigit_toDigits (by decide)
    (List.append_cancel_left (List.append_cancel_left hlist))
  exact ⟨toDigits_inj hg, String.toList_inj.mp hkey⟩

theorem removeprefix_append (pre s : String) : removeprefix (pre ++ s) pre = s := by
  unfold removeprefix
  rw [String.toList_append, if_pos (List.prefix_append _ _), List.drop_left, String.ofList_toList]

end AnalyticsEngine.Cache
