import Mathlib.Data.List.DropRight
import Mathlib.Data.List.Infix

/-!
# First and last occurrences

`find` and `rfind` of a byte string, and `strip`. The first occurrence is found whatever follows it
(`find_first`), and behind the last one there is no other (`rfind_some`).
-/

namespace AnalyticsEngine.Library

section
variable {α : Type*} [DecidableEq α] {sub data : List α}

def find (sub : List α) : List α → Option ℕ
  | [] => if sub = [] then some 0 else none
  | a :: rest => if sub <+: a :: rest then some 0 else (find sub rest).map (· + 1)

def rfind (sub : List α) : List α → Option ℕ
  | [] => if sub = [] then some 0 else none
  | a :: rest =>
    match rfind sub rest with
    | some i => some (i + 1)
    | none => if sub <+: a :: rest then some 0 else none

theorem find_first {x : List α} (h : ¬sub <:+: (x ++ sub).dropLast) (y : List α) :
    find sub (x ++ sub ++ y) = some x.length := by
  have hne : sub ≠ [] := by
    rintro rfl
    exact h (List.nil_infix)
  induction x with
  | nil =>
    obtain ⟨a, rest, rfl⟩ := List.exists_cons_of_ne_nil hne
    show find (a :: rest) (a :: (rest ++ y)) = some 0
    unfold find
    exact if_pos (List.prefix_append (a :: rest) y)
  | cons b x ih =>
    have hdrop : (b :: x ++ sub).dropLast = b :: (x ++ sub).dropLast :=
      List.dropLast_cons_of_ne_nil (List.append_ne_nil_of_right_ne_nil x hne)
    have hlater : ¬sub <:+: (x ++ sub).dropLast := by
      intro hin
      apply h
      rw [hdrop]
      exact hin.trans (List.suffix_cons b _).isInfix
    have hhere : ¬sub <+: b :: (x ++ sub ++ y) := by
      intro hstart
      apply h
      have hlonger : (b :: x ++ sub).dropLast <+: b :: (x ++ sub ++ y) :=
        (List.dropLast_prefix _).trans (List.prefix_append (b :: x ++ sub) y)
      refine (List.prefix_of_prefix_length_le hstart hlonger ?_).isInfix
      rw [List.length_dropLast, List.length_append, List.length_cons]
      omega
    show find sub (b :: (x ++ sub ++ y)) = some (x.length + 1)
    unfold find
    rw [if_neg hhere, ih hlater, Option.map_some]

theorem rfind_none : rfind sub data = none ↔ ¬sub <:+: data := by
  induction data with
  | nil =>
    unfold rfind
    rw [List.infix_nil]
    split_ifs with hsub <;> simp [hsub]
  | cons a rest ih =>
    unfold rfind
    rw [List.infix_cons_iff, not_or, ← ih]
    cases rfind sub rest with
    | some i => simp
    | none => simp

theorem rfind_some (hne : sub ≠ []) {i : ℕ} (h : rfind sub data = some i) :
    ∃ x y, data = x ++ sub ++ y ∧ x.length = i ∧ ¬sub <:+: y := by
  induction data generalizing i with
  | nil =>
    unfold rfind at h
    rw [if_neg hne] at h
    cases h
  | cons a rest ih =>
    unfold rfind at h
    cases hrest : rfind sub rest with
    | some j =>
      rw [hrest] at h
      obtain rfl := Option.some.inj h
      obtain ⟨x, y, rfl, rfl, hy⟩ := ih hrest
      exact ⟨a :: x, y, rfl, rfl, hy⟩
    | none =>
      rw [hrest] at h
      dsimp only at h
      split_ifs at h with hstart
      obtain rfl := Option.some.inj h
      obtain ⟨y, hy⟩ := hstart
      refine ⟨[], y, hy.symm, rfl, fun hin => rfind_none.mp hrest (hin.trans ?_)⟩
      obtain ⟨b, sub', rfl⟩ := List.exists_cons_of_ne_nil hne
      obtain ⟨_, rfl⟩ := List.cons.inj hy
      exact (List.suffix_append sub' y).isInfix

end

section
variable {α : Type*} (blank : α → Bool)

def strip (l : List α) : List α := (l.dropWhile blank).rdropWhile blank

theorem strip_split (l : List α) :
    ∃ lead trail, l = lead ++ strip blank l ++ trail ∧ lead.all blank ∧ trail.all blank := by
  refine ⟨l.takeWhile blank, (l.dropWhile blank).rtakeWhile blank, ?_, List.all_takeWhile, ?_⟩
  · unfold strip
    rw [List.append_assoc, List.rdropWhile_append_rtakeWhile, List.takeWhile_append_dropWhile]
  · apply List.all_eq_true.mpr
    intro a ha
    exact List.mem_rtakeWhile_imp ha

end

end AnalyticsEngine.Library
