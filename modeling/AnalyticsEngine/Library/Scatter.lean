import Mathlib.Algebra.GroupWithZero.Nat
import Mathlib.Data.List.Count
import Mathlib.Data.List.Nodup
import Mathlib.Logic.Function.Basic
import Mathlib.Algebra.BigOperators.Group.List.Basic
import Mathlib.Tactic.Tauto

/-!
# Scattering a list into runs

Array code groups a list by key without a loop: sort by key, subtract from each index the index
where its key's run starts, and write every value to the slot that difference names. `slotted`
is that arithmetic and `ranked` its meaning: the slot of an entry is the number of earlier
entries with the same key. `scatter_read` and `scatter_frame` are the two halves of the effect
of the writes: a run reads back as its entries in order, and nothing else is touched.
-/

namespace AnalyticsEngine.Library

variable {α A : Type*}

/-! ### Writes -/

/-- A sequence of single-cell writes, the last one to a cell winning. -/
def applyWrites [DecidableEq A] (ws : List (A × α)) (m : A → α) : A → α :=
  ws.foldl (fun m w => Function.update m w.1 w.2) m

section
variable [DecidableEq A]

@[simp] theorem applyWrites_nil (m : A → α) : applyWrites [] m = m := rfl

@[simp] theorem applyWrites_cons (w : A × α) (ws : List (A × α)) (m : A → α) :
    applyWrites (w :: ws) m = applyWrites ws (Function.update m w.1 w.2) := rfl

theorem applyWrites_frame (ws : List (A × α)) (m : A → α) (a : A) (h : a ∉ ws.map Prod.fst) :
    applyWrites ws m a = m a := by
  induction ws generalizing m with
  | nil => rfl
  | cons w ws ih =>
    simp only [List.map_cons, List.mem_cons, not_or] at h
    rw [applyWrites_cons, ih _ h.2, Function.update_of_ne h.1]

theorem applyWrites_read (ws : List (A × α)) (m : A → α) (a : A) (v : α)
    (hnd : (ws.map Prod.fst).Nodup) (h : (a, v) ∈ ws) : applyWrites ws m a = v := by
  induction ws generalizing m with
  | nil => simp at h
  | cons w ws ih =>
    rw [List.map_cons, List.nodup_cons] at hnd
    rw [applyWrites_cons]
    rcases List.mem_cons.mp h with rfl | h
    · rw [applyWrites_frame _ _ _ hnd.1, Function.update_self]
    · exact ih _ hnd.2 h

end

/-! ### Ranks within runs -/

def valuesOf (r : ℕ) (l : List (ℕ × α)) : List α := (l.filter (·.1 = r)).map Prod.snd

/-- Every entry with the number of earlier entries of its key, `seen` counting those before. -/
def ranked : (ℕ → ℕ) → List (ℕ × α) → List ((ℕ × ℕ) × α)
  | _, [] => []
  | seen, (r, a) :: l => ((r, seen r), a) :: ranked (Function.update seen r (seen r + 1)) l

theorem valuesOf_cons_self (r : ℕ) (a : α) (l : List (ℕ × α)) :
    valuesOf r ((r, a) :: l) = a :: valuesOf r l := by
  simp [valuesOf]

theorem valuesOf_cons_ne {r q : ℕ} (h : q ≠ r) (a : α) (l : List (ℕ × α)) :
    valuesOf r ((q, a) :: l) = valuesOf r l := by
  simp [valuesOf, h]

theorem length_valuesOf (r : ℕ) (l : List (ℕ × α)) :
    (valuesOf r l).length = (l.map Prod.fst).count r := by
  unfold valuesOf
  rw [List.length_map, ← List.countP_eq_length_filter, List.count, List.countP_map]
  rfl

theorem mem_ranked (seen : ℕ → ℕ) (l : List (ℕ × α)) (r t : ℕ) (v : α) :
    ((r, t), v) ∈ ranked seen l ↔ seen r ≤ t ∧ (valuesOf r l)[t - seen r]? = some v := by
  induction l generalizing seen with
  | nil => simp [ranked, valuesOf]
  | cons e l ih =>
    obtain ⟨q, a⟩ := e
    rw [ranked, List.mem_cons, ih]
    by_cases hq : q = r
    · subst hq
      rw [valuesOf_cons_self, Function.update_self]
      constructor
      · intro hcases
        rcases hcases with h | ⟨hle, hget⟩
        · cases h
          simp
        · refine ⟨by omega, ?_⟩
          rw [show t - seen q = (t - (seen q + 1)) + 1 by omega, List.getElem?_cons_succ]
          exact hget
      · intro hfound
        obtain ⟨hle, hget⟩ := hfound
        rcases Nat.eq_or_lt_of_le hle with heq | hlt
        · subst heq
          rw [Nat.sub_self, List.getElem?_cons_zero, Option.some.injEq] at hget
          exact Or.inl (by rw [hget])
        · refine Or.inr ⟨hlt, ?_⟩
          rw [show t - seen q = (t - (seen q + 1)) + 1 by omega, List.getElem?_cons_succ] at hget
          exact hget
    · rw [valuesOf_cons_ne hq, Function.update_of_ne (Ne.symm hq)]
      constructor
      · intro hcases
        rcases hcases with h | h
        · simp only [Prod.mk.injEq] at h
          exact absurd h.1.1.symm hq
        · exact h
      · exact Or.inr

theorem nodup_ranked (seen : ℕ → ℕ) (l : List (ℕ × α)) :
    ((ranked seen l).map Prod.fst).Nodup := by
  induction l generalizing seen with
  | nil => simp [ranked]
  | cons e l ih =>
    obtain ⟨q, a⟩ := e
    rw [ranked, List.map_cons, List.nodup_cons]
    refine ⟨?_, ih _⟩
    intro hmem
    obtain ⟨⟨⟨r, t⟩, v⟩, hin, heq⟩ := List.mem_map.mp hmem
    simp only [Prod.mk.injEq] at heq
    obtain ⟨rfl, rfl⟩ := heq
    have h := ((mem_ranked _ _ _ _ _).mp hin).1
    rw [Function.update_self] at h
    omega

/-- The first index of key `r`'s run in the sorted key list. -/
def runStart (keys : List ℕ) (r : ℕ) : ℕ := keys.countP (· < r)

/-- Every entry with the distance of its index to the start of its run, from index `i` on. -/
def slotted (starts : ℕ → ℕ) : ℕ → List (ℕ × α) → List ((ℕ × ℕ) × α)
  | _, [] => []
  | i, (r, a) :: l => ((r, i - starts r), a) :: slotted starts (i + 1) l

theorem countP_lt_add_count (p : List ℕ) (r : ℕ) (h : ∀ q ∈ p, q ≤ r) :
    p.countP (· < r) + p.count r = p.length := by
  induction p with
  | nil => rfl
  | cons q p ih =>
    have hih := ih fun x hx => h x (List.mem_cons_of_mem _ hx)
    have hq := h q (List.mem_cons_self ..)
    simp only [List.countP_cons, List.count_cons, List.length_cons, decide_eq_true_eq,
      beq_iff_eq]
    split_ifs <;> omega

/-- On a list sorted by key, the slot of an entry is its rank within its run. -/
theorem slotted_eq_ranked (p s : List (ℕ × α))
    (hs : ((p ++ s).map Prod.fst).Pairwise (· ≤ ·)) :
    slotted (runStart ((p ++ s).map Prod.fst)) p.length s =
      ranked (fun r => (p.map Prod.fst).count r) s := by
  induction s generalizing p with
  | nil => rfl
  | cons e s ih =>
    obtain ⟨r, a⟩ := e
    have hsplit : p ++ (r, a) :: s = (p ++ [(r, a)]) ++ s := by simp
    have hslot : p.length - runStart ((p ++ (r, a) :: s).map Prod.fst) r =
        (p.map Prod.fst).count r := by
      rw [List.map_append, List.map_cons] at hs ⊢
      obtain ⟨_, htail, hcross⟩ := List.pairwise_append.mp hs
      have hlow : ∀ q ∈ p.map Prod.fst, q ≤ r := fun q hq => hcross q hq r (List.mem_cons_self ..)
      have hhigh : ((r :: s.map Prod.fst).countP (· < r)) = 0 := by
        rw [List.countP_eq_zero]
        intro q hq
        rcases List.mem_cons.mp hq with rfl | hq
        · simp
        · simpa using (List.pairwise_cons.mp htail).1 q hq
      have hcount := countP_lt_add_count (p.map Prod.fst) r hlow
      rw [List.length_map] at hcount
      rw [runStart, List.countP_append, hhigh]
      omega
    rw [slotted, ranked, hslot]
    congr 1
    have hrec := ih (p ++ [(r, a)]) (by rwa [hsplit] at hs)
    rw [← hsplit, List.length_append, List.length_singleton] at hrec
    rw [hrec]
    congr 1
    funext q
    by_cases hq : q = r
    · subst hq
      simp
    · rw [Function.update_of_ne hq]
      have hqr : ¬r = q := fun h => hq h.symm
      simp [hqr]

/-! ### The effect of a scatter -/

/-- Write every entry of a sorted list to the cell that its key and its slot name. -/
def scatter [DecidableEq A] (addr : ℕ → ℕ → A) (starts : ℕ → ℕ) (l : List (ℕ × α)) (m : A → α) : A → α :=
  applyWrites ((slotted starts 0 l).map fun w => (addr w.1.1 w.1.2, w.2)) m

theorem slotted_zero (l : List (ℕ × α)) (hs : (l.map Prod.fst).Pairwise (· ≤ ·)) :
    slotted (runStart (l.map Prod.fst)) 0 l = ranked (fun _ => 0) l := by
  have h := slotted_eq_ranked [] l (by simpa using hs)
  simpa using h

def AddrInj (addr : ℕ → ℕ → A) (l : List (ℕ × α)) : Prop :=
  ∀ r t r' t', t < (valuesOf r l).length → t' < (valuesOf r' l).length →
    addr r t = addr r' t' → r = r' ∧ t = t'

theorem mem_ranked_zero (l : List (ℕ × α)) (r t : ℕ) (v : α) :
    ((r, t), v) ∈ ranked (fun _ => 0) l ↔ (valuesOf r l)[t]? = some v := by
  rw [mem_ranked]
  simp

theorem nodup_addresses (addr : ℕ → ℕ → A) (l : List (ℕ × α)) (hinj : AddrInj addr l) :
    (((ranked (fun _ => 0) l).map fun w => (addr w.1.1 w.1.2, w.2)).map Prod.fst).Nodup := by
  rw [List.map_map]
  have hnd := nodup_ranked (fun _ => 0) l
  have hbound : ∀ w ∈ ranked (fun _ => 0) l, w.1.2 < (valuesOf w.1.1 l).length := by
    intro w hw
    exact (List.getElem?_eq_some_iff.mp ((mem_ranked_zero l w.1.1 w.1.2 w.2).mp hw)).1
  rw [List.Nodup, List.pairwise_map] at hnd ⊢
  apply hnd.imp_of_mem
  intro w w' hw hw' hne heq
  obtain ⟨h1, h2⟩ := hinj _ _ _ _ (hbound w hw) (hbound w' hw') heq
  exact hne (Prod.ext h1 h2)

section
variable [DecidableEq A]

/-- A run reads back as its entries, in list order. -/
theorem scatter_read (addr : ℕ → ℕ → A) (l : List (ℕ × α)) (m : A → α)
    (hs : (l.map Prod.fst).Pairwise (· ≤ ·)) (hinj : AddrInj addr l) (r t : ℕ) (v : α)
    (hv : (valuesOf r l)[t]? = some v) :
    scatter addr (runStart (l.map Prod.fst)) l m (addr r t) = v := by
  rw [scatter, slotted_zero l hs]
  refine applyWrites_read _ _ _ _ (nodup_addresses addr l hinj) ?_
  rw [List.mem_map]
  exact ⟨((r, t), v), (mem_ranked_zero l r t v).mpr hv, rfl⟩

theorem scatter_frame (addr : ℕ → ℕ → A) (l : List (ℕ × α)) (m : A → α)
    (hs : (l.map Prod.fst).Pairwise (· ≤ ·)) (a : A)
    (ha : ∀ r t, t < (valuesOf r l).length → a ≠ addr r t) :
    scatter addr (runStart (l.map Prod.fst)) l m a = m a := by
  rw [scatter, slotted_zero l hs]
  refine applyWrites_frame _ _ _ ?_
  rw [List.map_map, List.mem_map]
  intro hfound
  obtain ⟨⟨⟨r, t⟩, v⟩, hin, heq⟩ := hfound
  exact ha r t (List.getElem?_eq_some_iff.mp ((mem_ranked_zero l r t v).mp hin)).1 heq.symm

end

theorem runStart_succ (keys : List ℕ) (r : ℕ) :
    runStart keys (r + 1) = runStart keys r + keys.count r := by
  simp only [runStart]
  induction keys with
  | nil => rfl
  | cons q keys ih =>
    simp only [List.countP_cons, List.count_cons, decide_eq_true_eq, beq_iff_eq]
    split_ifs <;> omega

theorem sum_counts_eq_runStart (keys : List ℕ) (r : ℕ) :
    ((List.range r).map fun q => keys.count q).sum = runStart keys r := by
  induction r with
  | zero => simp [runStart]
  | succ r ih =>
    rw [List.range_succ, List.map_append, List.sum_append, ih, runStart_succ]
    simp

end AnalyticsEngine.Library
