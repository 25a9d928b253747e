import Mathlib.Data.List.Basic

/-!
# Decimal numerals inside a text

A run of digits ends at the first character that is not one, so a numeral followed by a
separator can be read back.
-/

namespace AnalyticsEngine.Library

def padded (w n : Nat) : List Char :=
  List.replicate (w - (Nat.toDigits 10 n).length) '0' ++ Nat.toDigits 10 n

theorem isDigit_toDigits {n : Nat} : ∀ c ∈ Nat.toDigits 10 n, c.isDigit :=
  fun _ hc => Nat.isDigit_of_mem_toDigits (by decide) (by decide) hc

theorem isDigit_padded {w n : Nat} : ∀ c ∈ padded w n, c.isDigit := by
  intro c hc
  rcases List.mem_append.mp hc with hzero | hdigit
  · obtain rfl := List.eq_of_mem_replicate hzero
    decide
  · exact isDigit_toDigits c hdigit

theorem toDigits_inj {m n : Nat} (h : Nat.toDigits 10 m = Nat.toDigits 10 n) : m = n := by
  have hvalue := congrArg (fun digits => Nat.ofDigitChars 10 digits 0) h
  simpa only [Nat.ofDigitChars_ten_toDigits] using hvalue

theorem padded_inj {w m n : Nat} (h : padded w m = padded w n) : m = n := by
  have hvalue := congrArg (fun digits => Nat.ofDigitChars 10 digits 0) h
  simpa only [padded, Nat.ofDigitChars_append, Nat.ofDigitChars_replicate_zero, Nat.mul_zero,
    Nat.ofDigitChars_ten_toDigits] using hvalue

theorem takeWhile_digits {digits rest : List Char} {sep : Char} (h : ∀ c ∈ digits, c.isDigit)
    (hsep : sep.isDigit = false) :
    (digits ++ sep :: rest).takeWhile Char.isDigit = digits := by
  rw [List.takeWhile_append_of_pos h, List.takeWhile_cons_of_neg (by simp [hsep]),
    List.append_nil]

/-- Two texts that agree up to a separator behind digits agree in the digits and behind them. -/
theorem digits_cancel {ds es xs ys : List Char} {sep : Char} (hds : ∀ c ∈ ds, c.isDigit)
    (hes : ∀ c ∈ es, c.isDigit) (hsep : sep.isDigit = false)
    (h : ds ++ sep :: xs = es ++ sep :: ys) : ds = es ∧ xs = ys := by
  have hdigits := congrArg (List.takeWhile Char.isDigit) h
  rw [takeWhile_digits hds hsep, takeWhile_digits hes hsep] at hdigits
  subst hdigits
  have htail := List.append_cancel_left h
  cases htail
  exact ⟨rfl, rfl⟩

theorem name_cancel {xs ys us vs : List Char} {sep : Char} (hxs : sep ∉ xs) (hys : sep ∉ ys)
    (hus : us = [] ∨ ∃ rest, us = sep :: rest) (hvs : vs = [] ∨ ∃ rest, vs = sep :: rest)
    (h : xs ++ us = ys ++ vs) : xs = ys ∧ us = vs := by
  have hname : ∀ {name rest : List Char}, sep ∉ name → (rest = [] ∨ ∃ r, rest = sep :: r) →
      (name ++ rest).takeWhile (· != sep) = name := by
    intro name rest hmem hrest
    have hpos : ∀ c ∈ name, (c != sep) = true := fun c hc =>
      bne_iff_ne.mpr fun heq => hmem (heq ▸ hc)
    rw [List.takeWhile_append_of_pos hpos]
    rcases hrest with rfl | ⟨r, rfl⟩
    · rw [List.takeWhile_nil, List.append_nil]
    · rw [List.takeWhile_cons_of_neg (by simp), List.append_nil]
  have hnames := congrArg (List.takeWhile (· != sep)) h
  rw [hname hxs hus, hname hys hvs] at hnames
  subst hnames
  exact ⟨rfl, List.append_cancel_left h⟩

/-- Words without the separator can be read back from their join. -/
theorem intercalate_inj {sep : Char} {words words' : List (List Char)} (hne : words ≠ [])
    (hne' : words' ≠ []) (hwords : ∀ w ∈ words, sep ∉ w) (hwords' : ∀ w ∈ words', sep ∉ w)
    (h : List.intercalate [sep] words = List.intercalate [sep] words') : words = words' := by
  induction words generalizing words' with
  | nil => exact absurd rfl hne
  | cons w later ih =>
    obtain ⟨w', later', rfl⟩ := List.exists_cons_of_ne_nil hne'
    have hw := hwords w List.mem_cons_self
    have hw' := hwords' w' List.mem_cons_self
    have hshape : ∀ (u : List Char) (us : List (List Char)), ∃ behind,
        List.intercalate [sep] (u :: us) = u ++ behind ∧
          (us = [] ∧ behind = [] ∨ us ≠ [] ∧ behind = sep :: List.intercalate [sep] us) := by
      intro u us
      cases us with
      | nil => exact ⟨[], by simp, Or.inl ⟨rfl, rfl⟩⟩
      | cons v vs => exact ⟨_, by simp [List.intercalate_cons_cons], Or.inr ⟨by simp, rfl⟩⟩
    obtain ⟨behind, hjoin, hbehind⟩ := hshape w later
    obtain ⟨behind', hjoin', hbehind'⟩ := hshape w' later'
    have hends : ∀ {us : List (List Char)} {b : List Char},
        (us = [] ∧ b = [] ∨ us ≠ [] ∧ b = sep :: List.intercalate [sep] us) →
          b = [] ∨ ∃ rest, b = sep :: rest := by
      intro us b hb
      rcases hb with ⟨_, rfl⟩ | ⟨_, rfl⟩
      · exact Or.inl rfl
      · exact Or.inr ⟨_, rfl⟩
    rw [hjoin, hjoin'] at h
    obtain ⟨rfl, hrest⟩ := name_cancel hw hw' (hends hbehind) (hends hbehind') h
    rcases hbehind with ⟨rfl, rfl⟩ | ⟨hmore, rfl⟩
    · rcases hbehind' with ⟨rfl, _⟩ | ⟨_, rfl⟩
      · rfl
      · cases hrest
    · rcases hbehind' with ⟨_, rfl⟩ | ⟨hmore', rfl⟩
      · cases hrest
      · rw [ih hmore hmore' (fun u hu => hwords u (List.mem_cons_of_mem _ hu))
          (fun u hu => hwords' u (List.mem_cons_of_mem _ hu)) (List.cons.inj hrest).2]

theorem mem_intercalate {sep c : Char} {words : List (List Char)}
    (h : c ∈ List.intercalate [sep] words) : c = sep ∨ ∃ w ∈ words, c ∈ w := by
  induction words with
  | nil => cases h
  | cons w later ih =>
    cases later with
    | nil =>
      rw [List.intercalate_singleton] at h
      exact Or.inr ⟨w, List.mem_cons_self, h⟩
    | cons w' later =>
      rw [List.intercalate_cons_cons] at h
      rcases List.mem_append.mp h with h | h
      · rcases List.mem_append.mp h with h | h
        · exact Or.inr ⟨w, List.mem_cons_self, h⟩
        · exact Or.inl (List.mem_singleton.mp h)
      · rcases ih h with hsep | ⟨u, hu, hc⟩
        · exact Or.inl hsep
        · exact Or.inr ⟨u, List.mem_cons_of_mem _ hu, hc⟩

theorem int_repr_chars (n : Int) : ∀ c ∈ (Int.repr n).toList, c.isDigit ∨ c = '-' := by
  cases n with
  | ofNat m =>
    intro c hc
    rw [Int.repr, Nat.toList_repr] at hc
    exact Or.inl (isDigit_toDigits c hc)
  | negSucc m =>
    intro c hc
    rw [Int.repr, String.toList_append, Nat.toList_repr] at hc
    rcases List.mem_cons.mp hc with rfl | hc
    · exact Or.inr rfl
    · exact Or.inl (isDigit_toDigits c hc)

theorem int_repr_inj {m n : Int} (h : (Int.repr m).toList = (Int.repr n).toList) : m = n := by
  have hdash : ∀ k rest, Nat.toDigits 10 k ≠ '-' :: rest := by
    intro k rest heq
    have hdigit : '-'.isDigit := isDigit_toDigits (n := k) '-' (heq ▸ List.mem_cons_self)
    exact absurd hdigit (by decide)
  cases m with
  | ofNat m =>
    cases n with
    | ofNat n =>
      rw [Int.repr, Int.repr, Nat.toList_repr, Nat.toList_repr] at h
      rw [toDigits_inj h]
    | negSucc n =>
      rw [Int.repr, Int.repr, String.toList_append, Nat.toList_repr] at h
      exact absurd h (hdash m _)
  | negSucc m =>
    cases n with
    | ofNat n =>
      rw [Int.repr, Int.repr, String.toList_append] at h
      simp only [Nat.toList_repr] at h
      exact absurd h.symm (hdash n _)
    | negSucc n =>
      rw [Int.repr, Int.repr, String.toList_append, String.toList_append, Nat.toList_repr,
        Nat.toList_repr] at h
      have hdigits := toDigits_inj (List.append_cancel_left h)
      rw [Nat.succ.inj hdigits]

end AnalyticsEngine.Library
