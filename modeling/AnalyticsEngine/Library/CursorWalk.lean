import Mathlib.Data.List.Count
import Mathlib.Data.List.Nodup
import Mathlib.Order.Nat

/-!
# Walking a chain of pages

A reader asks for the page at a cursor, again after a failure that may pass, takes the page in, and
goes on at the cursor it names until one names none. `replies n` is how the `n`-th request of the
run ends. Over a finite chain the walk ends, each page is asked for at most `retries + 1` times
and taken in once (`walk_spec`).
-/

namespace AnalyticsEngine.Library

variable {ε κ π σ : Type*}

inductive Reply (ε : Type*) where
  | arrived
  | again (error : ε)
  | ended (error : ε)

/-- The requests made for one page, `made` being those before it. -/
def attempts (replies : ℕ → Reply ε) : ℕ → ℕ → ℕ × Except ε Unit
  | retries, made =>
    match replies made with
    | .arrived => (1, .ok ())
    | .ended error => (1, .error error)
    | .again error =>
      match retries with
      | 0 => (1, .error error)
      | retries + 1 =>
        let rest := attempts replies retries (made + 1)
        (rest.1 + 1, rest.2)

/-- The cursors asked for, one for each request, and the state after the last page. -/
def walk (fetch : ℕ → ℕ × Except ε Unit) (serve : κ → π) (next : π → Option κ)
    (consume : σ → π → Except ε σ) : ℕ → κ → σ → ℕ → Option (List κ × Except ε σ)
  | 0, _, _, _ => none
  | fuel + 1, after, state, made =>
    let tried := fetch made
    let sent := List.replicate tried.1 after
    match tried.2 with
    | .error error => some (sent, .error error)
    | .ok () =>
      match consume state (serve after) with
      | .error error => some (sent, .error error)
      | .ok state =>
        match next (serve after) with
        | none => some (sent, .ok state)
        | some after =>
          (walk fetch serve next consume fuel after state (made + tried.1)).map fun rest =>
            (sent ++ rest.1, rest.2)

/-- The pages from a cursor on, up to the first that names no next one. -/
inductive Chain (serve : κ → π) (next : π → Option κ) : κ → List π → Prop where
  | last {after : κ} (hnext : next (serve after) = none) : Chain serve next after [serve after]
  | more {after follow : κ} {pages : List π} (hnext : next (serve after) = some follow)
      (hrest : Chain serve next follow pages) : Chain serve next after (serve after :: pages)

def cursors (next : π → Option κ) (after : κ) (pages : List π) : List κ :=
  after :: pages.filterMap next

/-- From request `made` on, `count` pages arrive, each within its tries; `after` is the next
request. -/
inductive Arrive (replies : ℕ → Reply ε) (retries : ℕ) : ℕ → ℕ → ℕ → Prop where
  | none {made : ℕ} : Arrive replies retries 0 made made
  | page {count made after tries : ℕ} (htries : tries ≤ retries)
      (hagain : ∀ j < tries, ∃ error, replies (made + j) = .again error)
      (harrived : replies (made + tries) = .arrived)
      (hrest : Arrive replies retries count (made + tries + 1) after) :
      Arrive replies retries (count + 1) made after

section Chains
variable {serve : κ → π} {next : π → Option κ} {after c : κ} {pages : List π}

theorem cursors_more {follow : κ} {page : π} (hnext : next page = some follow) :
    cursors next after (page :: pages) = after :: cursors next follow pages := by
  unfold cursors
  rw [List.filterMap_cons_some hnext]

theorem cursors_last {page : π} (hnext : next page = none) : cursors next after [page] = [after] := by
  unfold cursors
  rw [List.filterMap_cons_none hnext, List.filterMap_nil]

theorem Chain.unique {others : List π} (h : Chain serve next after pages)
    (h' : Chain serve next after others) : pages = others := by
  induction h generalizing others with
  | last hnext =>
    cases h' with
    | last => rfl
    | more hnext' _ =>
      rw [hnext] at hnext'
      cases hnext'
  | more hnext _ ih =>
    cases h' with
    | last hnext' =>
      rw [hnext] at hnext'
      cases hnext'
    | more hnext' hrest =>
      rw [hnext] at hnext'
      cases hnext'
      rw [ih hrest]

theorem Chain.suffix (h : Chain serve next after pages) (hc : c ∈ cursors next after pages) :
    ∃ rest, Chain serve next c rest ∧ rest.length ≤ pages.length := by
  induction h with
  | @last after hnext =>
    rw [cursors_last hnext, List.mem_singleton] at hc
    subst hc
    exact ⟨_, .last hnext, Nat.le_refl _⟩
  | @more after follow pages hnext hrest ih =>
    rw [cursors_more hnext, List.mem_cons] at hc
    rcases hc with rfl | hc
    · exact ⟨_, .more hnext hrest, Nat.le_refl _⟩
    · obtain ⟨rest, hrest, hlength⟩ := ih hc
      exact ⟨rest, hrest, hlength.trans (Nat.le_succ _)⟩

/-- A cursor that came back would never let the chain end. -/
theorem Chain.nodup (h : Chain serve next after pages) : (cursors next after pages).Nodup := by
  induction h with
  | last hnext =>
    rw [cursors_last hnext]
    exact List.nodup_singleton _
  | @more after follow pages hnext hrest ih =>
    rw [cursors_more hnext, List.nodup_cons]
    refine ⟨fun hback => ?_, ih⟩
    obtain ⟨rest, hagain, hlength⟩ := hrest.suffix hback
    have := (Chain.more hnext hrest).unique hagain
    rw [← this, List.length_cons] at hlength
    omega

end Chains

section Walk
variable {replies : ℕ → Reply ε} {retries : ℕ} {serve : κ → π} {next : π → Option κ}
  {consume : σ → π → Except ε σ} {after : κ} {pages : List π} {made : ℕ}

theorem attempts_le : (attempts replies retries made).1 ≤ retries + 1 := by
  induction retries generalizing made with
  | zero =>
    unfold attempts
    split <;> exact Nat.le_refl _
  | succ retries ih =>
    unfold attempts
    split
    · exact Nat.le_add_left _ _
    · exact Nat.le_add_left _ _
    · exact Nat.succ_le_succ ih

theorem attempts_pos : 0 < (attempts replies retries made).1 := by
  unfold attempts
  split
  · exact Nat.zero_lt_one
  · exact Nat.zero_lt_one
  · split
    · exact Nat.zero_lt_one
    · exact Nat.succ_pos _

theorem attempts_first {error : ε} (hended : replies made = .ended error) :
    attempts replies retries made = (1, .error error) := by
  unfold attempts
  rw [hended]

/-- A reply that is final is the last one asked for. -/
theorem attempts_ended {i : ℕ} {error : ε} (hi : i < (attempts replies retries made).1)
    (hended : replies (made + i) = .ended error) :
    i + 1 = (attempts replies retries made).1 ∧
      (attempts replies retries made).2 = .error error := by
  induction retries generalizing made i with
  | zero =>
    have hle : (attempts replies 0 made).1 ≤ 1 := attempts_le
    obtain rfl : i = 0 := by omega
    have hfirst : replies made = .ended error := hended
    rw [attempts_first hfirst]
    exact ⟨rfl, rfl⟩
  | succ retries ih =>
    cases i with
    | zero =>
      have hfirst : replies made = .ended error := hended
      rw [attempts_first hfirst]
      exact ⟨rfl, rfl⟩
    | succ i =>
      unfold attempts at hi ⊢
      cases hreply : replies made with
      | arrived =>
        simp only [hreply] at hi
        omega
      | ended error' =>
        simp only [hreply] at hi
        omega
      | again error' =>
        simp only [hreply] at hi ⊢
        have hshift : made + (i + 1) = made + 1 + i := by omega
        rw [hshift] at hended
        obtain ⟨hlast, herror⟩ := ih (Nat.lt_of_succ_lt_succ hi) hended
        exact ⟨congrArg (· + 1) hlast, herror⟩

/-- No try comes before a reply that is not tried again. -/
theorem tries_none {tries : ℕ} (hfirst : ∀ error, replies made ≠ .again error)
    (hagain : ∀ j < tries, ∃ error, replies (made + j) = .again error) : tries = 0 := by
  rcases Nat.eq_zero_or_pos tries with hzero | hpos
  · exact hzero
  · obtain ⟨error, herror⟩ := hagain 0 hpos
    exact absurd herror (hfirst error)

/-- A first reply that is tried again leaves the later tries as they are. -/
theorem tries_succ {tries : ℕ} {error : ε} (hreply : replies made = .again error) :
    (∀ j < tries + 1, ∃ e, replies (made + j) = .again e) ↔
      ∀ j < tries, ∃ e, replies (made + 1 + j) = .again e := by
  constructor
  · intro h j hj
    rw [← Nat.add_right_comm made j 1]
    exact h (j + 1) (Nat.succ_lt_succ hj)
  · intro h j hj
    cases j with
    | zero => exact ⟨error, hreply⟩
    | succ j =>
      rw [← Nat.add_assoc, Nat.add_right_comm made j 1]
      exact h j (Nat.lt_of_succ_lt_succ hj)

/-- The tries of a page that arrives. -/
theorem attempts_ok_iff {sent : ℕ} : attempts replies retries made = (sent, .ok ()) ↔
    ∃ tries, sent = tries + 1 ∧ tries ≤ retries ∧
      (∀ j < tries, ∃ error, replies (made + j) = .again error) ∧
      replies (made + tries) = .arrived := by
  induction retries generalizing made sent with
  | zero =>
    unfold attempts
    constructor
    · intro h
      cases hreply : replies made <;> simp only [hreply, Prod.mk.injEq, reduceCtorEq, and_false] at h
      exact ⟨0, h.1.symm, Nat.le_refl _, fun j hj => absurd hj (Nat.not_lt_zero j), hreply⟩
    · rintro ⟨tries, rfl, htries, -, harrived⟩
      obtain rfl := Nat.le_zero.mp htries
      have hreply : replies made = .arrived := harrived
      rw [hreply]
  | succ retries ih =>
    unfold attempts
    cases hreply : replies made with
    | arrived =>
      have hfirst : ∀ error, replies made ≠ .again error := by simp [hreply]
      constructor
      · intro h
        exact ⟨0, (congrArg Prod.fst h).symm, Nat.zero_le _,
          fun j hj => absurd hj (Nat.not_lt_zero j), hreply⟩
      · rintro ⟨tries, rfl, -, hagain, -⟩
        rw [tries_none hfirst hagain]
    | ended error =>
      have hfirst : ∀ error, replies made ≠ .again error := by simp [hreply]
      refine iff_of_false (fun h => by cases congrArg Prod.snd h) ?_
      rintro ⟨tries, -, -, hagain, harrived⟩
      rw [tries_none hfirst hagain, Nat.add_zero, hreply] at harrived
      cases harrived
    | again error =>
      simp only
      constructor
      · intro h
        obtain ⟨hsent, hok⟩ := Prod.mk.inj h
        have hrest : attempts replies retries (made + 1) = (sent - 1, .ok ()) :=
          Prod.ext (by simp only; omega) hok
        obtain ⟨tries, hlast, hle, hagain, harrived⟩ := ih.mp hrest
        refine ⟨tries + 1, by omega, Nat.succ_le_succ hle, (tries_succ hreply).mpr hagain, ?_⟩
        rw [← Nat.add_assoc, Nat.add_right_comm]
        exact harrived
      · rintro ⟨tries, rfl, hle, hagain, harrived⟩
        cases tries with
        | zero =>
          rw [Nat.add_zero, hreply] at harrived
          cases harrived
        | succ tries =>
          rw [← Nat.add_assoc, Nat.add_right_comm] at harrived
          rw [ih.mpr ⟨tries, rfl, Nat.le_of_succ_le_succ hle, (tries_succ hreply).mp hagain, harrived⟩]

/-- The walk at one page: it fails there, or the page was asked for and taken in. -/
theorem walk_page (replies : ℕ → Reply ε) (retries : ℕ) (serve : κ → π) (next : π → Option κ)
    (consume : σ → π → Except ε σ) (after : κ) (state : σ) (made : ℕ) :
    (∃ error, (∀ e, (attempts replies retries made).2 = .error e → error = e) ∧
      ∀ fuel, walk (attempts replies retries) serve next consume (fuel + 1) after state made =
        some (List.replicate (attempts replies retries made).1 after, .error error)) ∨
    ∃ taken, consume state (serve after) = .ok taken ∧
      (attempts replies retries made).2 = .ok () ∧
      ∀ fuel, walk (attempts replies retries) serve next consume (fuel + 1) after state made =
        match next (serve after) with
        | none => some (List.replicate (attempts replies retries made).1 after, .ok taken)
        | some follow =>
          (walk (attempts replies retries) serve next consume fuel follow taken
              (made + (attempts replies retries made).1)).map
            fun rest => (List.replicate (attempts replies retries made).1 after ++ rest.1,
              rest.2) := by
  cases htried : (attempts replies retries made).2 with
  | error error =>
    refine Or.inl ⟨error, fun e he => ?_, fun fuel => ?_⟩
    · cases he
      rfl
    · simp only [walk, htried]
  | ok _ =>
    cases hconsume : consume state (serve after) with
    | error error =>
      refine Or.inl ⟨error, nofun, fun fuel => ?_⟩
      simp only [walk, htried, hconsume]
    | ok taken =>
      refine Or.inr ⟨taken, rfl, rfl, fun fuel => ?_⟩
      simp only [walk, htried, hconsume]

/- What a walk over `pages` asked for and left, from its `made`-th request on. -/
structure Walked [DecidableEq κ] (replies : ℕ → Reply ε) (retries : ℕ)
    (consume : σ → π → Except ε σ) (state : σ) (pages : List π) (cs : List κ) (made : ℕ)
    (sent : List κ) (result : Except ε σ) : Prop where
  bounded : ∀ c, sent.count c ≤ retries + 1
  within : ∀ c ∈ sent, c ∈ cs
  ended : ∀ i < sent.length, ∀ error, replies (made + i) = .ended error →
    i + 1 = sent.length ∧ result = .error error
  whole : ∀ final, result = .ok final →
    pages.foldlM consume state = .ok final ∧ ∀ c ∈ cs, c ∈ sent

variable [DecidableEq κ] {state : σ} {cs : List κ} {result : Except ε σ}

theorem count_attempts (c : κ) :
    (List.replicate (attempts replies retries made).1 after).count c ≤ retries + 1 := by
  refine (List.count_le_length).trans ?_
  rw [List.length_replicate]
  exact attempts_le

/-- A walk that fails at its first page. -/
theorem walked_failed (hafter : after ∈ cs) {error : ε} (hresult : result = .error error)
    (htried : ∀ e, (attempts replies retries made).2 = .error e → result = .error e) :
    Walked replies retries consume state pages cs made
      (List.replicate (attempts replies retries made).1 after) result := by
  refine ⟨count_attempts, ?_, ?_, ?_⟩
  · intro c hc
    rw [List.eq_of_mem_replicate hc]
    exact hafter
  · intro i hi e hended
    rw [List.length_replicate] at hi ⊢
    obtain ⟨hlast, herror⟩ := attempts_ended hi hended
    exact ⟨hlast, htried e herror⟩
  · intro final hfinal
    rw [hresult] at hfinal
    cases hfinal

theorem walk_failed {serve : κ → π} {next : π → Option κ} (hafter : after ∈ cs)
    (hpages : pages ≠ []) {error : ε}
    (htried : ∀ e, (attempts replies retries made).2 = .error e → error = e)
    (hwalk : ∀ fuel, walk (attempts replies retries) serve next consume (fuel + 1) after state made =
      some (List.replicate (attempts replies retries made).1 after, .error error)) :
    ∃ sent result, (∀ fuel, pages.length ≤ fuel →
        walk (attempts replies retries) serve next consume fuel after state made = some (sent, result)) ∧
      Walked replies retries consume state pages cs made sent result := by
  refine ⟨_, .error error, fun fuel hfuel => ?_, walked_failed hafter rfl fun e he => ?_⟩
  · have hpos := List.length_pos_iff.mpr hpages
    obtain ⟨less, rfl⟩ : ∃ less, fuel = less + 1 := ⟨fuel - 1, by omega⟩
    exact hwalk less
  · rw [htried e he]

/-- The first page was taken in, and the rest of the chain walked. -/
theorem Walked.more {page : π} {sent : List κ} {taken : σ}
    (hnodup : (after :: cs).Nodup) (hconsume : consume state page = .ok taken)
    (htried : (attempts replies retries made).2 = .ok ())
    (hrest : Walked replies retries consume taken pages cs
      (made + (attempts replies retries made).1) sent result) :
    Walked replies retries consume state (page :: pages) (after :: cs) made
      (List.replicate (attempts replies retries made).1 after ++ sent) result := by
  have hlength : (List.replicate (attempts replies retries made).1 after).length =
      (attempts replies retries made).1 := List.length_replicate
  refine ⟨?_, ?_, ?_, ?_⟩
  · intro c
    rw [List.count_append]
    by_cases hc : c = after
    · have hnone : sent.count c = 0 := by
        rw [List.count_eq_zero, hc]
        exact fun hmem => (List.nodup_cons.mp hnodup).1 (hrest.within _ hmem)
      rw [hnone, Nat.add_zero]
      exact count_attempts c
    · have hnone : (List.replicate (attempts replies retries made).1 after).count c = 0 := by
        rw [List.count_eq_zero]
        exact fun hmem => hc (List.eq_of_mem_replicate hmem)
      rw [hnone, Nat.zero_add]
      exact hrest.bounded c
  · intro c hc
    rcases List.mem_append.mp hc with hc | hc
    · rw [List.eq_of_mem_replicate hc]
      exact List.mem_cons_self
    · exact List.mem_cons_of_mem _ (hrest.within c hc)
  · intro i hi error hended
    rw [List.length_append, hlength] at hi ⊢
    by_cases hfirst : i < (attempts replies retries made).1
    · have herror := (attempts_ended hfirst hended).2
      rw [htried] at herror
      cases herror
    · have hshift : made + i = made + (attempts replies retries made).1 +
          (i - (attempts replies retries made).1) := by omega
      rw [hshift] at hended
      obtain ⟨hlast, herror⟩ := hrest.ended _ (by omega) error hended
      exact ⟨by omega, herror⟩
  · intro final hfinal
    obtain ⟨hfold, hall⟩ := hrest.whole final hfinal
    refine ⟨?_, ?_⟩
    · rw [List.foldlM_cons, hconsume]
      exact hfold
    · intro c hc
      rcases List.mem_cons.mp hc with rfl | hc
      · refine List.mem_append_left _ (List.mem_replicate.mpr ⟨?_, rfl⟩)
        exact attempts_pos.ne'
      · exact List.mem_append_right _ (hall c hc)

theorem walk_spec (replies : ℕ → Reply ε) (retries : ℕ) (consume : σ → π → Except ε σ)
    (hchain : Chain serve next after pages) (state : σ) (made : ℕ) :
    ∃ sent result, (∀ fuel, pages.length ≤ fuel →
        walk (attempts replies retries) serve next consume fuel after state made = some (sent, result)) ∧
      Walked replies retries consume state pages (cursors next after pages) made sent result := by
  have hfuel : ∀ {page : π} {rest : List π} {fuel : ℕ}, (page :: rest).length ≤ fuel →
      ∃ less, fuel = less + 1 ∧ rest.length ≤ less := by
    intro page rest fuel h
    rw [List.length_cons] at h
    exact ⟨fuel - 1, by omega, by omega⟩
  induction hchain generalizing state made with
  | @last after hnext =>
    rcases walk_page replies retries serve next consume after state made with
      ⟨error, htried, hwalk⟩ | ⟨taken, hconsume, htried, hwalk⟩
    · exact walk_failed List.mem_cons_self (List.cons_ne_nil _ _) htried hwalk
    · refine ⟨List.replicate (attempts replies retries made).1 after ++ [], .ok taken,
        fun fuel h => ?_, ?_⟩
      · obtain ⟨less, rfl, -⟩ := hfuel h
        rw [hwalk less, hnext]
        exact congrArg (fun l => some (l, _)) (List.append_nil _).symm
      · rw [cursors_last hnext]
        refine Walked.more (List.nodup_singleton after) hconsume htried ⟨?_, ?_, ?_, ?_⟩
        · intro c
          exact Nat.zero_le _
        · intro c hc
          cases hc
        · intro i hi
          exact absurd hi (Nat.not_lt_zero _)
        · intro final hfinal
          cases hfinal
          exact ⟨rfl, nofun⟩
  | @more after follow pages hnext hrest ih =>
    rcases walk_page replies retries serve next consume after state made with
      ⟨error, htried, hwalk⟩ | ⟨taken, hconsume, htried, hwalk⟩
    · exact walk_failed List.mem_cons_self (List.cons_ne_nil _ _) htried hwalk
    · obtain ⟨sent, result, hrun, hwalked⟩ := ih taken (made + (attempts replies retries made).1)
      refine ⟨List.replicate (attempts replies retries made).1 after ++ sent, result,
        fun fuel h => ?_, ?_⟩
      · obtain ⟨less, rfl, hless⟩ := hfuel h
        rw [hwalk less, hnext]
        simp only [hrun less hless, Option.map_some]
      · have hnodup := (Chain.more hnext hrest).nodup
        rw [cursors_more hnext] at hnodup ⊢
        exact Walked.more hnodup hconsume htried hwalked

end Walk

section Arrival
variable {replies : ℕ → Reply ε} {retries : ℕ} {serve : κ → π} {next : π → Option κ}
  {consume : σ → π → Except ε σ} {after : κ} {pages : List π}

theorem foldlM_cons_ok {page : π} {state final : σ} :
    (page :: pages).foldlM consume state = .ok final ↔
      ∃ taken, consume state page = .ok taken ∧ pages.foldlM consume taken = .ok final := by
  rw [List.foldlM_cons]
  cases consume state page with
  | error error => exact iff_of_false nofun nofun
  | ok taken =>
    constructor
    · intro h
      exact ⟨taken, rfl, h⟩
    · rintro ⟨_, htaken, h⟩
      cases htaken
      exact h

/-- A page that is walked well arrives and is taken in. -/
theorem walk_page_ok {fuel : ℕ} {state final : σ} {made : ℕ} {sent : List κ} :
    walk (attempts replies retries) serve next consume (fuel + 1) after state made =
        some (sent, .ok final) ↔
      ∃ tries taken, attempts replies retries made = (tries, .ok ()) ∧
        consume state (serve after) = .ok taken ∧
        match next (serve after) with
        | none => sent = List.replicate tries after ∧ taken = final
        | some follow => ∃ later, walk (attempts replies retries) serve next consume fuel follow
            taken (made + tries) = some (later, .ok final) ∧
              sent = List.replicate tries after ++ later := by
  rcases htried : attempts replies retries made with ⟨tries, error | _⟩
  · simp [walk, htried]
  · cases hconsume : consume state (serve after) with
    | error error => simp [walk, htried, hconsume]
    | ok taken =>
      cases hnext : next (serve after) with
      | none => simp [walk, htried, hconsume, hnext, eq_comm]
      | some follow =>
        simp only [walk, htried, hconsume, hnext, Option.map_eq_some_iff, Prod.mk.injEq,
          Except.ok.injEq]
        constructor
        · rintro ⟨⟨later, result⟩, hlater, rfl, rfl⟩
          exact ⟨tries, taken, ⟨rfl, trivial⟩, rfl, later, hlater, rfl⟩
        · rintro ⟨_, _, ⟨rfl, -⟩, rfl, later, hlater, rfl⟩
          exact ⟨(later, .ok final), hlater, rfl, rfl⟩

/-- The walk ends well when every page arrives and is taken in, and only then. -/
theorem walk_ok_iff (hchain : Chain serve next after pages) {fuel : ℕ} (hfuel : pages.length ≤ fuel)
    {state final : σ} {made last : ℕ} :
    (∃ sent, walk (attempts replies retries) serve next consume fuel after state made =
        some (sent, .ok final) ∧ made + sent.length = last) ↔
      Arrive replies retries pages.length made last ∧ pages.foldlM consume state = .ok final := by
  induction hchain generalizing fuel state made with
  | @last after hnext =>
    obtain ⟨less, rfl⟩ : ∃ less, fuel = less + 1 := Nat.exists_eq_add_of_le' hfuel
    simp only [walk_page_ok, hnext, foldlM_cons_ok]
    constructor
    · rintro ⟨sent, ⟨k, taken, htried, hconsume, rfl, rfl⟩, rfl⟩
      obtain ⟨tries, rfl, hle, hagain, harrived⟩ := attempts_ok_iff.mp htried
      rw [List.length_replicate]
      exact ⟨.page hle hagain harrived .none, taken, hconsume, rfl⟩
    · rintro ⟨harrive, taken, hconsume, hfold⟩
      cases hfold
      cases harrive with
      | @page count made' after' tries hle hagain harrived hrest =>
        cases hrest
        have htried := attempts_ok_iff.mpr ⟨_, rfl, hle, hagain, harrived⟩
        refine ⟨_, ⟨_, _, htried, hconsume, rfl, rfl⟩, ?_⟩
        rw [List.length_replicate]
        rfl
  | @more after follow pages hnext hrest ih =>
    obtain ⟨less, rfl⟩ : ∃ less, fuel = less + 1 :=
      Nat.exists_eq_add_of_le' ((Nat.le_add_left 1 _).trans hfuel)
    have hless : pages.length ≤ less := Nat.le_of_succ_le_succ hfuel
    simp only [walk_page_ok, hnext, foldlM_cons_ok]
    constructor
    · rintro ⟨sent, ⟨k, taken, htried, hconsume, later, hlater, rfl⟩, rfl⟩
      obtain ⟨tries, rfl, hle, hagain, harrived⟩ := attempts_ok_iff.mp htried
      have hlast : made + (tries + 1) + later.length =
          made + (List.replicate (tries + 1) after ++ later).length := by
        rw [List.length_append, List.length_replicate, Nat.add_assoc]
      obtain ⟨harrive, hfold⟩ := (ih hless).mp ⟨later, hlater, hlast⟩
      exact ⟨.page hle hagain harrived harrive, taken, hconsume, hfold⟩
    · rintro ⟨harrive, taken, hconsume, hfold⟩
      cases harrive with
      | @page count made' after' tries hle hagain harrived hrest =>
        have htried := attempts_ok_iff.mpr ⟨_, rfl, hle, hagain, harrived⟩
        obtain ⟨later, hlater, rfl⟩ := (ih hless).mpr ⟨hrest, hfold⟩
        refine ⟨_, ⟨_, taken, htried, hconsume, later, hlater, rfl⟩, ?_⟩
        rw [List.length_append, List.length_replicate]
        omega

end Arrival

end AnalyticsEngine.Library
