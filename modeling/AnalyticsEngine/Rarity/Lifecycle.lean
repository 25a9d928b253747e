import Mathlib.Algebra.Ring.Int.Defs
import AnalyticsEngine.Computations.Log
import AnalyticsEngine.Rarity.Replacement

/-!
# The computation of release rarity (insights/computations.py, `compute_and_store_rarity`)

`_record_lifecycle` writes the outcome of the operation to the log after the operation has
committed, and a statement of that write may raise. `Commits` says on which inputs the operation
replaces the table.
-/

namespace AnalyticsEngine.Rarity
open Library

variable {ν φ τ : Type*}

/-! ### When the operation commits -/

def transactionStatements (pages : ℕ) : List Statement :=
  openingStatements ++ (List.range pages).flatMap (fun page => [.copy page, .copyDone page]) ++ [.commit]

/- Every page arrives within its tries, no statement raises, and neither a key of an item nor a
release is missing. -/
structure Commits [LinearOrder ν] [Zero φ] [DecidableEq φ] (api : Api ν φ) (script : Script)
    (distributions : Distributions ν) (rows : List (Row φ)) : Prop where
  summed : Summed api.countsPages distributions
  arrive : ∃ made last,
    Arrive (fun n => (script.requests n).reply) (rarityRequestAttempts - 1)
      api.countsPages.length 0 made ∧
    Arrive (fun n => (script.requests n).reply) (rarityRequestAttempts - 1)
      (api.scoredPages distributions).length made last
  nonempty : (api.counts "").releaseTotal ≠ 0
  statements : ∀ statement ∈ transactionStatements (api.scoredPages distributions).length,
    script.database statement = false
  items : ((api.scoredPages distributions).flatMap ScoredPage.items).mapM rarityCopyRow = some rows
  whole : (api.counts "").releaseTotal ≤ rows.length

section Committed
variable [LinearOrder ν] {api : Api ν φ} {script : Script}

def sums (pages : List (CountsPage ν)) : Distributions ν := fun signal =>
  sortedItems (tally (pages.flatMap fun page => page.counts signal) [])

/-- The sums of the counts and their order leave one list a signal. -/
theorem Summed.eq_sums {pages : List (CountsPage ν)} {distributions : Distributions ν}
    (h : Summed pages distributions) : distributions = sums pages := by
  funext signal
  obtain ⟨hordered, hmem⟩ := h signal
  obtain ⟨hordered', hmem'⟩ := summed_tally pages signal
  have hnodup : ∀ l : List (ν × ℤ), l.Pairwise (fun a b => a.1 < b.1) → l.Nodup := by
    intro l hl
    exact hl.imp fun {a b} hlt heq => absurd (congrArg Prod.fst heq) hlt.ne
  have hperm : (distributions signal).Perm (sums pages signal) := by
    refine (List.perm_ext_iff_of_nodup (hnodup _ hordered) (hnodup _ hordered')).mpr ?_
    rintro ⟨value, count⟩
    rw [hmem]
    exact (hmem' value count).symm
  refine hperm.eq_of_pairwise (fun a b _ _ hab hba => absurd hab hba.asymm) hordered hordered'

theorem sumRarityQualityCounts_ok_iff (api : Api ν φ) (script : Script) {fuel : ℕ}
    (hfuel : api.countsPages.length ≤ fuel) {made : ℕ} {distributions : Distributions ν}
    {releaseTotal : ℤ} :
    (∃ requests, sumRarityQualityCounts script api.counts fuel =
        some (requests, .ok (distributions, releaseTotal)) ∧ requests.length = made) ↔
      Arrive (fun n => (script.requests n).reply) (rarityRequestAttempts - 1)
        api.countsPages.length 0 made ∧
      distributions = sums api.countsPages ∧ releaseTotal = (api.counts "").releaseTotal := by
  have hhead := chain_head api.counts_chain
  unfold sumRarityQualityCounts
  constructor
  · rintro ⟨requests, hrun, rfl⟩
    obtain ⟨⟨sent, result⟩, hwalk, hrun⟩ := Option.map_eq_some_iff.mp hrun
    cases result with
    | error error => cases hrun
    | ok totals =>
      cases hrun
      obtain ⟨harrive, hfold⟩ := (walk_ok_iff api.counts_chain hfuel).mp ⟨sent, hwalk, rfl⟩
      rw [sumPage_fold] at hfold
      cases hfold
      rw [List.length_map, ← Nat.zero_add sent.length]
      exact ⟨harrive, rfl, by simp [hhead]⟩
  · rintro ⟨harrive, rfl, rfl⟩
    have hfold := sumPage_fold api.countsPages ⟨fun _ => [], none⟩
    obtain ⟨sent, hwalk, rfl⟩ := (walk_ok_iff api.counts_chain hfuel).mpr ⟨harrive, hfold⟩
    refine ⟨sent.map countsRequest, ?_, by rw [List.length_map, Nat.zero_add]⟩
    unfold rarityRequest
    rw [hwalk]
    simp only [Option.map_some, Except.map, hhead, Option.none_or, Option.getD_some]
    rfl

variable [Zero φ] [DecidableEq φ]

omit [LinearOrder ν] in
theorem copyRarityPages_ok_iff (api : Api ν φ) (script : Script) (distributions : Distributions ν)
    {fuel : ℕ} (hfuel : (api.scoredPages distributions).length ≤ fuel) {made : ℕ}
    {copied : Copied φ} :
    (∃ requests, copyRarityPages script (api.scored distributions) distributions fuel made =
        some (requests, .ok copied)) ↔
      (∃ last, Arrive (fun n => (script.requests n).reply) (rarityRequestAttempts - 1)
        (api.scoredPages distributions).length made last) ∧
      (∀ i < (api.scoredPages distributions).length, script.database (.copy i) = false ∧
        script.database (.copyDone i) = false) ∧
      ∃ rows, ((api.scoredPages distributions).flatMap ScoredPage.items).mapM rarityCopyRow =
          some rows ∧
        copied = ⟨rows, rows.length, (api.scoredPages distributions).length⟩ := by
  have hfold : (api.scoredPages distributions).foldlM (copyPage script) ⟨[], 0, 0⟩ = .ok copied ↔ _ :=
    copyPage_fold_iff
  simp only [Nat.zero_add, List.nil_append] at hfold
  rw [← hfold]
  unfold copyRarityPages
  constructor
  · rintro ⟨requests, hrun⟩
    obtain ⟨⟨sent, result⟩, hwalk, hrun⟩ := Option.map_eq_some_iff.mp hrun
    cases hrun
    obtain ⟨harrive, hpages⟩ :=
      (walk_ok_iff (api.scored_chain distributions) hfuel).mp ⟨sent, hwalk, rfl⟩
    exact ⟨⟨_, harrive⟩, hpages⟩
  · rintro ⟨⟨last, harrive⟩, hpages⟩
    obtain ⟨sent, hwalk, -⟩ :=
      (walk_ok_iff (api.scored_chain distributions) hfuel).mpr ⟨harrive, hpages⟩
    refine ⟨sent.map (pageRequest distributions), ?_⟩
    unfold rarityRequest
    rw [hwalk]
    rfl

omit [LinearOrder ν] in
theorem mem_transactionStatements {pages : ℕ} :
    (∀ statement ∈ transactionStatements pages, script.database statement = false) ↔
      openingStatements.find? script.database = none ∧
      (∀ i < pages, script.database (.copy i) = false ∧ script.database (.copyDone i) = false) ∧
      script.database .commit = false := by
  unfold transactionStatements
  simp only [List.mem_append, List.mem_flatMap, List.mem_range, List.mem_cons, List.not_mem_nil,
    or_false, List.find?_eq_none, Bool.not_eq_true]
  constructor
  · intro h
    exact ⟨fun s hs => h s (Or.inl (Or.inl hs)),
      fun i hi => ⟨h _ (Or.inl (Or.inr ⟨i, hi, Or.inl rfl⟩)),
        h _ (Or.inl (Or.inr ⟨i, hi, Or.inr rfl⟩))⟩, h _ (Or.inr rfl)⟩
  · rintro ⟨hopening, hpages, hcommit⟩ statement ((hs | ⟨i, hi, rfl | rfl⟩) | rfl)
    · exact hopening statement hs
    · exact (hpages i hi).1
    · exact (hpages i hi).2
    · exact hcommit

omit [LinearOrder ν] [Zero φ] [DecidableEq φ] in
theorem finish_ok_iff {table rows : List (Row φ)} {requests sent : List (Request ν)}
    {releaseTotal : ℤ} {result : Except Error (Copied φ)} {written : ℕ} :
    finish script table requests releaseTotal result = ⟨rows, sent, .ok written⟩ ↔
      requests = sent ∧ ∃ pages, result = .ok ⟨rows, written, pages⟩ ∧ releaseTotal ≤ written ∧
        script.database .commit = false := by
  cases result with
  | error error => simp [finish]
  | ok copied =>
    obtain ⟨copiedRows, copiedWritten, pages⟩ := copied
    unfold finish
    simp only
    by_cases hshort : (copiedWritten : ℤ) < releaseTotal
    · simp only [hshort, if_true, Run.mk.injEq, reduceCtorEq, and_false, false_iff, not_and,
        not_exists, Except.ok.injEq, Copied.mk.injEq]
      rintro - pages' ⟨-, rfl, -⟩ hlong
      exact absurd hlong (not_le.mpr hshort)
    · cases hcommit : script.database .commit with
      | true => simp [hshort]
      | false =>
        simp only [hshort, Bool.false_eq_true, if_false, Run.mk.injEq, Except.ok.injEq,
          Copied.mk.injEq, and_true]
        constructor
        · rintro ⟨rfl, rfl, rfl⟩
          exact ⟨rfl, pages, ⟨rfl, rfl, rfl⟩, not_lt.mp hshort⟩
        · rintro ⟨rfl, -, ⟨rfl, rfl, -⟩, -⟩
          exact ⟨rfl, rfl, rfl⟩

/-- The rows the operation leaves in place of others are those it commits. -/
theorem rarityOperation_commits_iff (api : Api ν φ) (script : Script) {table rows : List (Row φ)}
    (hnew : rows ≠ table) {fuel : ℕ} (hcounts : api.countsPages.length ≤ fuel)
    (hpages : (api.scoredPages (sums api.countsPages)).length ≤ fuel) :
    (∃ requests written,
        rarityOperation api script table fuel = some ⟨rows, requests, .ok written⟩) ↔
      ∃ distributions, Commits api script distributions rows := by
  constructor
  · rintro ⟨requests, written, hrun⟩
    unfold rarityOperation at hrun
    rcases hsum : sumRarityQualityCounts script api.counts fuel with
      _ | ⟨sent, error | ⟨distributions, releaseTotal⟩⟩
    · simp [hsum] at hrun
    · simp [hsum] at hrun
    · obtain ⟨harrive, rfl, rfl⟩ := (sumRarityQualityCounts_ok_iff api script hcounts).mp
        ⟨sent, hsum, rfl⟩
      rw [hsum] at hrun
      simp only at hrun
      by_cases hempty : (api.counts "").releaseTotal = 0
      · rw [if_pos hempty] at hrun
        cases hrun
        exact absurd rfl hnew
      · rw [if_neg hempty] at hrun
        cases hopen : openingStatements.find? script.database with
        | some statement => simp [hopen] at hrun
        | none =>
          rw [hopen] at hrun
          obtain ⟨⟨pages, result⟩, hcopy, hfinish⟩ := Option.map_eq_some_iff.mp hrun
          obtain ⟨-, copied, rfl, hlong, hcommit⟩ := finish_ok_iff.mp hfinish
          obtain ⟨⟨last, hlast⟩, hquiet, rows', hrows, hcopied⟩ :=
            (copyRarityPages_ok_iff api script _ hpages).mp ⟨pages, hcopy⟩
          cases hcopied
          exact ⟨_, summed_tally api.countsPages, ⟨_, last, harrive, hlast⟩, hempty,
            mem_transactionStatements.mpr ⟨hopen, hquiet, hcommit⟩, hrows, hlong⟩
  · rintro ⟨distributions, h⟩
    obtain rfl := h.summed.eq_sums
    obtain ⟨made, last, harrive, hlast⟩ := h.arrive
    obtain ⟨hopen, hquiet, hcommit⟩ := mem_transactionStatements.mp h.statements
    obtain ⟨requests, hsum, rfl⟩ := (sumRarityQualityCounts_ok_iff api script hcounts).mpr
      ⟨harrive, rfl, rfl⟩
    obtain ⟨pages, hcopy⟩ := (copyRarityPages_ok_iff api script _ hpages).mpr
      ⟨⟨last, hlast⟩, hquiet, rows, h.items, rfl⟩
    have hfinish : finish script table (requests ++ pages) (api.counts "").releaseTotal
        (.ok ⟨rows, rows.length, (api.scoredPages (sums api.countsPages)).length⟩) =
          ⟨rows, requests ++ pages, .ok rows.length⟩ :=
      finish_ok_iff.mpr ⟨rfl, _, rfl, h.whole, hcommit⟩
    refine ⟨requests ++ pages, rows.length, ?_⟩
    unfold rarityOperation
    simp only [hsum, if_neg h.nonempty, hopen, hcopy, Option.map_some, hfinish]

end Committed

/-! ### The decorated function -/

/- The clock of a call, and what its work and its log writes meet. -/
structure Faults (τ : Type*) where
  startedAt : τ
  durationMs : τ → ℤ
  work : Script
  start : Computations.Statement
  removed : List ℕ
  completed : Computations.Write τ
  failed : Computations.Write τ
  interrupted : Computations.Write τ

def Faults.run (faults : Faults τ) : Computations.Run τ where
  insightType := "release_rarity"
  startedAt := faults.startedAt
  durationMs := faults.durationMs

def Faults.lifecycle (faults : Faults τ) (operation : Computations.Outcome) :
    Computations.Script τ where
  start := faults.start
  operation := operation
  removed := faults.removed
  completed := faults.completed
  failed := faults.failed
  interrupted := faults.interrupted

/- The tables a call leaves, its requests in order, and what it returns or raises. -/
structure Call (ν φ τ : Type*) where
  table : List (Row φ)
  log : Computations.Log τ
  requests : List (Request ν)
  outcome : Computations.Outcome

def operationOutcome (describeException : Error → String) :
    Except Error ℕ → Computations.Outcome
  | .ok written => .returned written
  | .error error => .stopped (.raised (describeException error))

/-- `compute_and_store_rarity`, as `_record_lifecycle` wraps it. -/
def computeAndStoreRarity [LinearOrder ν] [Zero φ] [DecidableEq φ]
    (describeException : Error → String) (api : Api ν φ) (faults : Faults τ)
    (table : List (Row φ)) (log : Computations.Log τ) (fuel : ℕ) : Option (Call ν φ τ) :=
  match Computations.startComputation log faults.run faults.start with
  -- The operation is not called.
  | (started, .error failure) => some ⟨table, started, [], .stopped failure⟩
  | (_, .ok _) =>
    (rarityOperation api faults.work table fuel).map fun ran =>
      let recorded := Computations.recordLifecycle faults.run log
        (faults.lifecycle (operationOutcome describeException ran.result))
      ⟨ran.table, recorded.1, ran.requests, recorded.2⟩

/- What the log has of the run when it writes its outcome. -/
def Faults.target (faults : Faults τ) (log : Computations.Log τ) : Computations.Target :=
  (faults.lifecycle (.stopped .cancelled)).target log

/- The table is as before, or it is the scored pages and their number is returned. -/
structure AllOrNothing [LinearOrder ν] [Zero φ] [DecidableEq φ]
    (describeException : Error → String) (api : Api ν φ) (faults : Faults τ)
    (table : List (Row φ)) (call : Call ν φ τ) : Prop where
  outcome : (call.table = table ∧ ((∃ failure, call.outcome = .stopped failure) ∨
      (call.outcome = .returned 0 ∧ (api.counts "").releaseTotal = 0))) ∨
    ∃ written : ℕ, call.outcome = .returned written ∧
      Replaced api ⟨call.table, call.requests, .ok written⟩
  requested : Requested api faults.work call.requests fun status =>
    call.outcome = .stopped (.raised (describeException (.httpStatus status))) ∨
      call.outcome = .stopped .cancelled

section Calls
variable [LinearOrder ν] [Zero φ] [DecidableEq φ] {describeException : Error → String}
  {api : Api ν φ} {faults : Faults τ} {table : List (Row φ)} {log : Computations.Log τ}
  {ran : Run ν φ}

omit [LinearOrder ν] [Zero φ] [DecidableEq φ] in
theorem start_ok (hstart : faults.start.fault ≠ some .cancelled) : ∃ started runId,
    Computations.startComputation log faults.run faults.start = (started, .ok runId) := by
  unfold Computations.startComputation
  rcases hfault : faults.start.fault with _ | _ | _
  · exact ⟨_, _, rfl⟩
  · exact ⟨_, _, rfl⟩
  · exact absurd hfault hstart

/-- What the decorator makes of the run of its operation. -/
def Faults.record (faults : Faults τ) (describeException : Error → String)
    (log : Computations.Log τ) (ran : Run ν φ) : Call ν φ τ :=
  let recorded := Computations.recordLifecycle faults.run log
    (faults.lifecycle (operationOutcome describeException ran.result))
  ⟨ran.table, recorded.1, ran.requests, recorded.2⟩

theorem computeAndStoreRarity_record {fuel : ℕ} (hstart : faults.start.fault ≠ some .cancelled)
    (hran : rarityOperation api faults.work table fuel = some ran) :
    computeAndStoreRarity describeException api faults table log fuel =
      some (faults.record describeException log ran) := by
  obtain ⟨started, runId, hok⟩ : ∃ started runId,
      Computations.startComputation log faults.run faults.start = (started, .ok runId) :=
    start_ok hstart
  unfold computeAndStoreRarity
  rw [hok, hran]
  rfl

theorem commits_iff {bound : ℕ} (hran : ∀ fuel, bound ≤ fuel →
      rarityOperation api faults.work table fuel = some ran) :
    (∃ distributions rows, Commits api faults.work distributions rows ∧ rows ≠ table) ↔
      (∃ written, ran.result = .ok written) ∧ ran.table ≠ table := by
  have hiff : ∀ rows, rows ≠ table → ((∃ distributions, Commits api faults.work distributions rows) ↔
      ran.table = rows ∧ ∃ written, ran.result = .ok written) := by
    intro rows hnew
    let fuel := max bound (max api.countsPages.length (api.scoredPages (sums api.countsPages)).length)
    have hfuel : max api.countsPages.length (api.scoredPages (sums api.countsPages)).length ≤ fuel :=
      le_max_right _ _
    rw [← rarityOperation_commits_iff api faults.work hnew ((le_max_left _ _).trans hfuel)
      ((le_max_right _ _).trans hfuel), hran fuel (le_max_left _ _)]
    obtain ⟨ranTable, ranRequests, ranResult⟩ := ran
    simp only [Option.some.injEq, Run.mk.injEq]
    constructor
    · rintro ⟨requests, written, rfl, -, rfl⟩
      exact ⟨rfl, written, rfl⟩
    · rintro ⟨rfl, written, rfl⟩
      exact ⟨_, written, rfl, rfl, rfl⟩
  constructor
  · rintro ⟨distributions, rows, hcommits, hnew⟩
    obtain ⟨rfl, hok⟩ := (hiff rows hnew).mp ⟨distributions, hcommits⟩
    exact ⟨hok, hnew⟩
  · rintro ⟨hok, hnew⟩
    obtain ⟨distributions, hcommits⟩ := (hiff _ hnew).mpr ⟨rfl, hok⟩
    exact ⟨distributions, _, hcommits, hnew⟩

omit [Zero φ] [DecidableEq φ] in
theorem Requested.imp {script : Script} {requests : List (Request ν)}
    {stopped stopped' : HttpStatus → Prop} (h : Requested api script requests stopped)
    (himp : ∀ status, stopped status → stopped' status) :
    Requested api script requests stopped' where
  bounded := h.bounded
  refused := fun i hi status hrefused =>
    ⟨(h.refused i hi status hrefused).1, himp status (h.refused i hi status hrefused).2⟩
  scored := h.scored

omit [LinearOrder ν] [Zero φ] [DecidableEq φ] in
/-- An operation that raises is not recorded as anything else. -/
theorem record_error {error : Error} (hstart : faults.start.fault ≠ some .cancelled)
    (herror : ran.result = .error error) :
    (faults.record describeException log ran).outcome =
        .stopped (.raised (describeException error)) ∨
      (faults.record describeException log ran).outcome = .stopped .cancelled := by
  have hop : (faults.lifecycle (operationOutcome describeException ran.result)).operation =
      .stopped (.raised (describeException error)) := by
    rw [herror]
    rfl
  exact Computations.recordLifecycle_raised hstart hop

/-- A call that records the run of its operation is all or nothing, unless the table is another one
and the `completed` write is cut. -/
theorem record_allOrNothing_iff (hstart : faults.start.fault ≠ some .cancelled)
    (hreplacement : Replacement api faults.work table ran) :
    AllOrNothing describeException api faults table (faults.record describeException log ran) ↔
      ¬ (faults.completed.fault (faults.target log) ≠ none ∧
        (∃ written, ran.result = .ok written) ∧ ran.table ≠ table) := by
  have hrequested : Requested api faults.work ran.requests fun status =>
      (faults.record describeException log ran).outcome =
          .stopped (.raised (describeException (.httpStatus status))) ∨
        (faults.record describeException log ran).outcome = .stopped .cancelled :=
    hreplacement.requested.imp fun status herror => record_error hstart herror
  cases hresult : ran.result with
  | error error =>
    have htable : ran.table = table := by
      rcases hreplacement.outcome with ⟨htable, -⟩ | ⟨-, -, -, hok, -⟩
      · exact htable
      · rw [hresult] at hok
        cases hok
    have hstopped : ∃ failure, (faults.record describeException log ran).outcome =
        .stopped failure := by
      have hraised : (faults.record describeException log ran).outcome =
            .stopped (.raised (describeException error)) ∨
          (faults.record describeException log ran).outcome = .stopped .cancelled :=
        record_error hstart hresult
      rcases hraised with h | h
      · exact ⟨_, h⟩
      · exact ⟨_, h⟩
    refine iff_of_true ⟨Or.inl ⟨htable, Or.inl hstopped⟩, hrequested⟩ ?_
    rintro ⟨-, ⟨written, hok⟩, -⟩
    cases hok
  | ok written =>
    have hop : (faults.lifecycle (operationOutcome describeException ran.result)).operation =
        .returned written := by
      rw [hresult]
      rfl
    cases hfault : faults.completed.fault (faults.target log) with
    | none =>
      have hreturned : (faults.record describeException log ran).outcome = .returned written :=
        Computations.recordLifecycle_returned hstart hop hfault
      refine iff_of_true ⟨?_, hrequested⟩ fun h => h.1 rfl
      rcases hreplacement.outcome with ⟨htable, ⟨error, herror⟩ | ⟨hzero, htotal⟩⟩ | hreplaced
      · rw [hresult] at herror
        cases herror
      · rw [hresult] at hzero
        cases hzero
        exact Or.inl ⟨htable, Or.inr ⟨hreturned, htotal⟩⟩
      · refine Or.inr ⟨written, hreturned, ?_⟩
        have hran : ran = ⟨ran.table, ran.requests, .ok written⟩ := by rw [← hresult]
        rw [hran] at hreplaced
        exact hreplaced
    | some failure =>
      obtain ⟨stop, hstopped⟩ : ∃ stop, (faults.record describeException log ran).outcome =
          .stopped stop := Computations.recordLifecycle_cut hstart hop hfault
      by_cases htable : ran.table = table
      · exact iff_of_true ⟨Or.inl ⟨htable, Or.inl ⟨stop, hstopped⟩⟩, hrequested⟩
          fun h => h.2.2 htable
      · refine iff_of_false ?_ (not_not.mpr ⟨nofun, ⟨written, rfl⟩, htable⟩)
        rintro ⟨⟨hsame, -⟩ | ⟨number, hreturned, -⟩, -⟩
        · exact htable hsame
        · rw [hstopped] at hreturned
          cases hreturned

end Calls

/-! ### A walk over two pages -/

def twoCounts : CountsPage ℤ where
  counts
    | .artist => [(3, 2)]
    | .label => [(1, 2)]
    | .genre => [(5, 1), (4, 1)]
  releaseTotal := 2
  nextAfter := none

def rareItem (release : ℤ) : Item ℤ :=
  [("release_id", .int release), ("rarity_score", .int 80), ("tier", .str "rare")]

def rareRow (release : ℤ) : Row ℤ where
  releaseId := .int release
  title := .str ""
  artistName := .str ""
  year := .null
  rarityScore := .int 80
  tier := .str "rare"
  hiddenGemScore := .null
  pressingScarcity := .null
  labelCatalog := .null
  formatRarity := .null
  temporalScarcity := .null
  graphIsolation := .null
  collectionPrevalence := .null
  mediaFamilies := .arr []
  familySignals := .obj []
  mediumRarity := .null
  labelIds := .null
  artistIds := .null

def twoPages : Api ℤ ℤ where
  counts _ := twoCounts
  scored _ after := if after = "" then ⟨[rareItem 1], some "1"⟩ else ⟨[rareItem 2], none⟩
  countsPages := [twoCounts]
  scoredPages _ := [⟨[rareItem 1], some "1"⟩, ⟨[rareItem 2], none⟩]
  counts_chain := .last rfl
  scored_chain _ := .more rfl (.last rfl)

/- The first request for a scored page is dropped. -/
def droppedOnce : Script where
  requests n := if n = 1 then .dropped else .response ⟨200, by decide⟩ true
  database _ := false

def twoPageFaults (completed : Computations.Write ℕ) : Faults ℕ where
  startedAt := 0
  durationMs := Int.ofNat
  work := droppedOnce
  start := .done
  removed := []
  completed := completed
  failed := ⟨3, .done, .done⟩
  interrupted := ⟨3, .done, .done⟩

def emptyLog : Computations.Log ℕ := ⟨[], 1, List.forall_mem_nil _⟩

def twoPageRun : Run ℤ ℤ :=
  let distributions := fun signal => sortedItems (tally (twoCounts.counts signal) [])
  { table := [rareRow 1, rareRow 2]
    requests :=
      [countsRequest "", pageRequest distributions "", pageRequest distributions "",
        pageRequest distributions "1"]
    result := .ok 2 }

theorem rarityOperation_twoPages (table : List (Row ℤ)) {fuel : ℕ} (hfuel : 2 ≤ fuel) :
    rarityOperation twoPages droppedOnce table fuel = some twoPageRun := by
  obtain ⟨less, rfl⟩ := Nat.exists_eq_add_of_le' hfuel
  rfl

theorem computeAndStoreRarity_twoPages (completed : Computations.Write ℕ) {fuel : ℕ}
    (hfuel : 2 ≤ fuel) :
    computeAndStoreRarity (fun _ => "") twoPages (twoPageFaults completed) [rareRow 7] emptyLog fuel =
      some ((twoPageFaults completed).record (fun _ => "") emptyLog twoPageRun) := by
  have hstart : (twoPageFaults completed).start.fault ≠ some .cancelled :=
    (Option.some_ne_none _).symm
  exact computeAndStoreRarity_record hstart (rarityOperation_twoPages [rareRow 7] hfuel)

end AnalyticsEngine.Rarity
