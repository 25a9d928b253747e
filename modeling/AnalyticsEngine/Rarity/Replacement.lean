import AnalyticsEngine.Library.Counter
import AnalyticsEngine.Library.CursorWalk
import AnalyticsEngine.Library.Json

/-!
# The rarity replacement (insights/computations.py, the body of `compute_and_store_rarity`)

A first walk over the API sums the counts every page is scored against; a second one copies the
scored pages into one transaction that also deletes the old rows.
-/

namespace AnalyticsEngine.Rarity
open Library

def rarityQualityCountsPath : String := "/api/internal/insights/rarity-scores/quality-counts"

def rarityPagePath : String := "/api/internal/insights/rarity-scores/page"

def rarityPageSize : ℕ := 20000

def rarityRequestAttempts : ℕ := 10

inductive Signal where
  | artist
  | label
  | genre
deriving DecidableEq, Repr

abbrev Distributions (ν : Type*) := Signal → List (ν × ℤ)

/- `ν` are the numbers of JSON, which has no NaN. -/
structure CountsPage (ν : Type*) where
  counts : Distributions ν
  releaseTotal : ℤ
  nextAfter : Option String

abbrev Item (φ : Type*) := List (String × Json φ)

structure ScoredPage (φ : Type*) where
  items : List (Item φ)
  nextAfter : Option String

structure Request (ν : Type*) where
  method : String
  path : String
  after : String
  limit : ℕ
  body : Option (Distributions ν)

/- The API, and its finite chains of pages. -/
structure Api (ν φ : Type*) where
  counts : String → CountsPage ν
  scored : Distributions ν → String → ScoredPage φ
  countsPages : List (CountsPage ν)
  scoredPages : Distributions ν → List (ScoredPage φ)
  counts_chain : Chain counts CountsPage.nextAfter "" countsPages
  scored_chain : ∀ distributions,
    Chain (scored distributions) ScoredPage.nextAfter "" (scoredPages distributions)

/-! ### Faults -/

/- A status code of HTTP. -/
structure HttpStatus where
  code : ℕ
  valid : 100 ≤ code ∧ code ≤ 599

def HttpStatus.success (status : HttpStatus) : Bool := 200 ≤ status.code && status.code < 300

/- `dropped` is an `httpx.TransportError`. A body that is not `readable` raises as it is parsed or
as a field of it is read. -/
inductive Attempt where
  | dropped
  | response (status : HttpStatus) (readable : Bool)

inductive Statement where
  | checkout
  | setAutocommit
  | openTransaction
  | lockTimeout
  | delete
  | copy (page : ℕ)
  | copyDone (page : ℕ)
  | commit
deriving DecidableEq, Repr

inductive Error where
  | transport
  | httpStatus (status : HttpStatus)
  | body
  | database (statement : Statement)
  | walkShort (message : String)

/- How the `n`-th request of the run ends, and which statements raise. A statement that raises
has no effect. -/
structure Script where
  requests : ℕ → Attempt
  database : Statement → Bool

/-! ### The run -/

variable {ν φ : Type*}

def Attempt.reply : Attempt → Reply Error
  | .dropped => .again .transport
  | .response status readable =>
    if status.success then if readable then .arrived else .ended .body
    else if status.code ≠ 429 ∧ status.code < 500 then .ended (.httpStatus status)
    else .again (.httpStatus status)

/-- `_rarity_request`: the requests it makes for a page, and whether the page arrives. -/
def rarityRequest (script : Script) (made : ℕ) : ℕ × Except Error Unit :=
  attempts (fun n => (script.requests n).reply) (rarityRequestAttempts - 1) made

def countsRequest (after : String) : Request ν where
  method := "GET"
  path := rarityQualityCountsPath
  after := after
  limit := rarityPageSize
  body := none

def pageRequest (distributions : Distributions ν) (after : String) : Request ν where
  method := "POST"
  path := rarityPagePath
  after := after
  limit := rarityPageSize
  body := some distributions

structure Totals (ν : Type*) where
  counters : Distributions ν
  releaseTotal : Option ℤ

def sumPage [DecidableEq ν] (totals : Totals ν) (page : CountsPage ν) : Except Error (Totals ν) :=
  .ok {
    counters := fun signal => tally (page.counts signal) (totals.counters signal)
    releaseTotal := some (totals.releaseTotal.getD page.releaseTotal) }

/-- `_sum_rarity_quality_counts`. -/
def sumRarityQualityCounts [LinearOrder ν] (script : Script) (serve : String → CountsPage ν)
    (fuel : ℕ) : Option (List (Request ν) × Except Error (Distributions ν × ℤ)) :=
  (walk (rarityRequest script) serve CountsPage.nextAfter sumPage fuel "" ⟨fun _ => [], none⟩
    0).map fun run =>
      (run.1.map countsRequest, run.2.map fun totals =>
        (fun signal => sortedItems (totals.counters signal), totals.releaseTotal.getD 0))

structure Row (φ : Type*) where
  releaseId : Json φ
  title : Json φ
  artistName : Json φ
  year : Json φ
  rarityScore : Json φ
  tier : Json φ
  hiddenGemScore : Json φ
  pressingScarcity : Json φ
  labelCatalog : Json φ
  formatRarity : Json φ
  temporalScarcity : Json φ
  graphIsolation : Json φ
  collectionPrevalence : Json φ
  mediaFamilies : Json φ
  familySignals : Json φ
  mediumRarity : Json φ
  labelIds : Json φ
  artistIds : Json φ

/- `row.get(key) or default`. -/
def orDefault [Zero φ] [DecidableEq φ] (value : Option (Json φ)) (default : Json φ) : Json φ :=
  match value with
  | none => default
  | some value => if value.truthy then value else default

/-- `_rarity_copy_row`, `none` where it raises a `KeyError`. -/
def rarityCopyRow [Zero φ] [DecidableEq φ] (row : Item φ) : Option (Row φ) := do
  let releaseId ← row.lookup "release_id"
  let rarityScore ← row.lookup "rarity_score"
  let tier ← row.lookup "tier"
  return {
    releaseId := releaseId
    title := (row.lookup "title").getD (.str "")
    artistName := (row.lookup "artist_name").getD (.str "")
    year := (row.lookup "year").getD .null
    rarityScore := rarityScore
    tier := tier
    hiddenGemScore := (row.lookup "hidden_gem_score").getD .null
    pressingScarcity := (row.lookup "pressing_scarcity").getD .null
    labelCatalog := (row.lookup "label_catalog").getD .null
    formatRarity := (row.lookup "format_rarity").getD .null
    temporalScarcity := (row.lookup "temporal_scarcity").getD .null
    graphIsolation := (row.lookup "graph_isolation").getD .null
    collectionPrevalence := (row.lookup "collection_prevalence").getD .null
    mediaFamilies := orDefault (row.lookup "media_families") (.arr [])
    familySignals := orDefault (row.lookup "family_signals") (.obj [])
    mediumRarity := (row.lookup "medium_rarity").getD .null
    labelIds := (row.lookup "label_ids").getD .null
    artistIds := (row.lookup "artist_ids").getD .null }

/- The table as the open transaction sees it, and the two counts of the loop. -/
structure Copied (φ : Type*) where
  rows : List (Row φ)
  written : ℕ
  pages : ℕ

def copyPage [Zero φ] [DecidableEq φ] (script : Script) (copied : Copied φ) (page : ScoredPage φ) :
    Except Error (Copied φ) :=
  if script.database (.copy copied.pages) then .error (.database (.copy copied.pages))
  else
    match page.items.mapM rarityCopyRow with
    | none => .error .body
    | some rows =>
      if script.database (.copyDone copied.pages) then .error (.database (.copyDone copied.pages))
      else .ok ⟨copied.rows ++ rows, copied.written + page.items.length, copied.pages + 1⟩

/-- `_copy_rarity_pages`, after the deletion. -/
def copyRarityPages [Zero φ] [DecidableEq φ] (script : Script) (serve : String → ScoredPage φ)
    (distributions : Distributions ν) (fuel made : ℕ) :
    Option (List (Request ν) × Except Error (Copied φ)) :=
  (walk (rarityRequest script) serve ScoredPage.nextAfter (copyPage script) fuel "" ⟨[], 0, 0⟩
    made).map fun run => (run.1.map (pageRequest distributions), run.2)

/- The committed table, the requests in order, and what the run returns or raises. -/
structure Run (ν φ : Type*) where
  table : List (Row φ)
  requests : List (Request ν)
  result : Except Error ℕ

def openingStatements : List Statement :=
  [.checkout, .setAutocommit, .openTransaction, .lockTimeout, .delete]

def walkShortMessage (written : ℕ) (releaseTotal : ℤ) : String :=
  s!"rarity walk wrote {written} rows of {releaseTotal} releases"

/- The end of the transaction: the rows copied are the table's only when it commits. -/
def finish (script : Script) (table : List (Row φ)) (requests : List (Request ν))
    (releaseTotal : ℤ) : Except Error (Copied φ) → Run ν φ
  | .error error => ⟨table, requests, .error error⟩
  | .ok copied =>
    if copied.written < releaseTotal then
      ⟨table, requests, .error (.walkShort (walkShortMessage copied.written releaseTotal))⟩
    else if script.database .commit then ⟨table, requests, .error (.database .commit)⟩
    else ⟨copied.rows, requests, .ok copied.written⟩

/-- The body of `compute_and_store_rarity`, which its decorator calls `operation`. -/
def rarityOperation [LinearOrder ν] [Zero φ] [DecidableEq φ] (api : Api ν φ)
    (script : Script) (table : List (Row φ)) (fuel : ℕ) : Option (Run ν φ) :=
  match sumRarityQualityCounts script api.counts fuel with
  | none => none
  | some (requests, .error error) => some ⟨table, requests, .error error⟩
  | some (requests, .ok (distributions, releaseTotal)) =>
    if releaseTotal = 0 then some ⟨table, requests, .ok 0⟩
    else
      match openingStatements.find? script.database with
      | some statement => some ⟨table, requests, .error (.database statement)⟩
      | none =>
        (copyRarityPages script (api.scored distributions) distributions fuel
            requests.length).map fun run =>
          finish script table (requests ++ run.1) releaseTotal run.2

/-! ### The two walks -/

/- One entry for each value of the pages, in increasing order, with the sum of its counts. -/
def Summed [LinearOrder ν] (pages : List (CountsPage ν)) (distributions : Distributions ν) : Prop :=
  ∀ signal, (distributions signal).Pairwise (fun a b => a.1 < b.1) ∧
    ∀ value count, (value, count) ∈ distributions signal ↔
      value ∈ (pages.flatMap fun page => page.counts signal).map Prod.fst ∧
        count = total (pages.flatMap fun page => page.counts signal) value

section Walks
variable [LinearOrder ν] [Zero φ] [DecidableEq φ] {script : Script}

theorem sumPage_fold (pages : List (CountsPage ν)) (totals : Totals ν) :
    pages.foldlM sumPage totals = .ok
      { counters := fun signal =>
          tally (pages.flatMap fun page => page.counts signal) (totals.counters signal)
        releaseTotal := totals.releaseTotal.or (pages.head?.map (·.releaseTotal)) } := by
  induction pages generalizing totals with
  | nil => simp [tally, pure, Except.pure]
  | cons page rest ih =>
    show rest.foldlM sumPage _ = _
    rw [ih]
    congr 2
    · funext signal
      simp [tally, List.foldl_append]
    · cases totals.releaseTotal <;> simp

theorem summed_tally (pages : List (CountsPage ν)) :
    Summed pages fun signal =>
      sortedItems (tally (pages.flatMap fun page => page.counts signal) []) := by
  intro signal
  refine ⟨sortedItems_ordered (nodup_tally List.nodup_nil), fun value count => ?_⟩
  rw [mem_sortedItems, mem_tally]

theorem copyPage_ok_iff {copied after : Copied φ} {page : ScoredPage φ} :
    copyPage script copied page = .ok after ↔
      (script.database (.copy copied.pages) = false ∧
        script.database (.copyDone copied.pages) = false) ∧
      ∃ rows, page.items.mapM rarityCopyRow = some rows ∧
        after = ⟨copied.rows ++ rows, copied.written + page.items.length, copied.pages + 1⟩ := by
  unfold copyPage
  cases hcopy : script.database (.copy copied.pages) with
  | true => simp
  | false =>
    cases hrows : page.items.mapM rarityCopyRow with
    | none => simp
    | some rows =>
      cases hdone : script.database (.copyDone copied.pages) with
      | true => simp
      | false => simp [eq_comm]

theorem mapM_append {xs ys : List (Item φ)} {rows more : List (Row φ)}
    (hxs : xs.mapM rarityCopyRow = some rows) (hys : ys.mapM rarityCopyRow = some more) :
    (xs ++ ys).mapM rarityCopyRow = some (rows ++ more) := by
  rw [List.mapM_append, hxs, hys]
  rfl

theorem mapM_length {items : List (Item φ)} {rows : List (Row φ)}
    (h : items.mapM rarityCopyRow = some rows) : rows.length = items.length := by
  induction items generalizing rows with
  | nil =>
    cases h
    rfl
  | cons item rest ih =>
    rw [List.mapM_cons] at h
    obtain ⟨row, -, h⟩ := Option.bind_eq_some_iff.mp h
    obtain ⟨more, hmore, h⟩ := Option.bind_eq_some_iff.mp h
    cases h
    rw [List.length_cons, List.length_cons, ih hmore]

/-- Pages are taken in when their statements return and their items have their keys; they leave
one row for each item. -/
theorem copyPage_fold_iff {pages : List (ScoredPage φ)} {copied final : Copied φ} :
    pages.foldlM (copyPage script) copied = .ok final ↔
      (∀ i < pages.length, script.database (.copy (copied.pages + i)) = false ∧
        script.database (.copyDone (copied.pages + i)) = false) ∧
      ∃ rows, (pages.flatMap ScoredPage.items).mapM rarityCopyRow = some rows ∧
        final = ⟨copied.rows ++ rows, copied.written + rows.length,
          copied.pages + pages.length⟩ := by
  induction pages generalizing copied with
  | nil =>
    constructor
    · intro h
      cases h
      exact ⟨fun i hi => absurd hi (Nat.not_lt_zero i), [], rfl, by simp⟩
    · rintro ⟨-, rows, hrows, rfl⟩
      cases hrows
      simp [pure, Except.pure]
  | cons page rest ih =>
    rw [List.foldlM_cons, List.flatMap_cons]
    constructor
    · intro h
      cases hpage : copyPage script copied page with
      | error error =>
        rw [hpage] at h
        cases h
      | ok after =>
        rw [hpage] at h
        obtain ⟨hfirst, rows, hrows, rfl⟩ := copyPage_ok_iff.mp hpage
        obtain ⟨hquiet, more, hmore, rfl⟩ := ih.mp h
        refine ⟨fun i hi => ?_, rows ++ more, mapM_append hrows hmore, ?_⟩
        · cases i with
          | zero => exact hfirst
          | succ i =>
            have hrest := hquiet i (Nat.lt_of_succ_lt_succ hi)
            rwa [Nat.add_assoc, Nat.add_comm 1 i] at hrest
        · simp only [List.append_assoc, List.length_append, mapM_length hrows, List.length_cons,
            Copied.mk.injEq, true_and]
          omega
    · rintro ⟨hquiet, both, hboth, rfl⟩
      rw [List.mapM_append] at hboth
      obtain ⟨rows, hrows, hboth⟩ := Option.bind_eq_some_iff.mp hboth
      obtain ⟨more, hmore, hboth⟩ := Option.bind_eq_some_iff.mp hboth
      cases hboth
      have hpage : copyPage script copied page = .ok
          ⟨copied.rows ++ rows, copied.written + page.items.length, copied.pages + 1⟩ :=
        copyPage_ok_iff.mpr ⟨hquiet 0 (Nat.succ_pos _), rows, hrows, rfl⟩
      rw [hpage]
      refine ih.mpr ⟨fun i hi => ?_, more, hmore, ?_⟩
      · have hrest := hquiet (i + 1) (Nat.succ_lt_succ hi)
        rwa [Nat.add_comm i 1, ← Nat.add_assoc] at hrest
      · simp only [List.append_assoc, List.length_append, mapM_length hrows, List.length_cons,
          Copied.mk.injEq, true_and]
        omega

end Walks

/-! ### The whole run -/

/- The `i`-th request is answered with a status that is not asked again. -/
def Refused (script : Script) (i : ℕ) (status : HttpStatus) : Prop :=
  ∃ readable, script.requests i = .response status readable ∧ status.success = false ∧
    status.code ≠ 429 ∧ ¬ (500 ≤ status.code ∧ status.code ≤ 599)

/- What holds of the requests of a run that ends as `stopped` says when one is refused. -/
structure Requested [LinearOrder ν] (api : Api ν φ) (script : Script) (requests : List (Request ν))
    (stopped : HttpStatus → Prop) : Prop where
  bounded : ∀ path after, (requests.countP fun request =>
    request.path = path ∧ request.after = after) ≤ rarityRequestAttempts
  refused : ∀ i < requests.length, ∀ status, Refused script i status →
    i + 1 = requests.length ∧ stopped status
  scored : ∀ request ∈ requests, request.path = rarityPagePath →
    ∃ distributions, request.body = some distributions ∧ Summed api.countsPages distributions

/- The table is the scored pages, one row for each item, every page asked for. -/
def Replaced [LinearOrder ν] [Zero φ] [DecidableEq φ] (api : Api ν φ) (run : Run ν φ) : Prop :=
  ∃ distributions, Summed api.countsPages distributions ∧
    ((api.scoredPages distributions).flatMap ScoredPage.items).mapM rarityCopyRow =
      some run.table ∧
    run.result = .ok run.table.length ∧ (api.counts "").releaseTotal ≤ run.table.length ∧
    ∀ after ∈ cursors ScoredPage.nextAfter "" (api.scoredPages distributions),
      pageRequest distributions after ∈ run.requests

structure Replacement [LinearOrder ν] [Zero φ] [DecidableEq φ] (api : Api ν φ) (script : Script)
    (table : List (Row φ)) (run : Run ν φ) : Prop where
  outcome : (run.table = table ∧ ((∃ error, run.result = .error error) ∨
      (run.result = .ok 0 ∧ (api.counts "").releaseTotal = 0))) ∨ Replaced api run
  requested : Requested api script run.requests fun status =>
    run.result = .error (.httpStatus status)

section Runs
variable [LinearOrder ν] {api : Api ν φ} {script : Script}

theorem reply_of_refused {i : ℕ} {status : HttpStatus} (h : Refused script i status) :
    (script.requests i).reply = .ended (.httpStatus status) := by
  obtain ⟨readable, hrequest, hsuccess, h429, h5xx⟩ := h
  have hvalid := status.valid
  have hcode : status.code ≠ 429 ∧ status.code < 500 := ⟨h429, by omega⟩
  unfold Attempt.reply
  rw [hrequest]
  simp only
  rw [hsuccess, if_neg Bool.false_ne_true, if_pos hcode]

theorem chain_head {κ π : Type*} {serve : κ → π} {next : π → Option κ} {after : κ}
    {pages : List π} (h : Chain serve next after pages) : pages.head? = some (serve after) := by
  cases h <;> rfl

theorem paths_ne : rarityQualityCountsPath ≠ rarityPagePath := by decide

omit [LinearOrder ν] in
theorem countP_requests (make : String → Request ν) (made : String) {path : String}
    (sent : List String) (hpath : ∀ c, (make c).path = made) (hafter : ∀ c, (make c).after = c) (after : String) :
    (sent.map make).countP (fun request => request.path = path ∧ request.after = after) =
      if made = path then sent.count after else 0 := by
  rw [List.countP_map]
  by_cases h : made = path
  · rw [if_pos h, List.count]
    refine List.countP_congr fun c _ => ?_
    simp [hpath, hafter, h]
  · rw [if_neg h, List.countP_eq_zero]
    intro c _
    simp [hpath, h]

/-- The first walk: what it asked for, and the sums it returns. -/
theorem sumRarityQualityCounts_spec (api : Api ν φ) (script : Script) :
    ∃ (sent : List String) (result : Except Error (Distributions ν × ℤ)),
      (∀ fuel, api.countsPages.length ≤ fuel →
        sumRarityQualityCounts script api.counts fuel = some (sent.map countsRequest, result)) ∧
      (∀ c, sent.count c ≤ rarityRequestAttempts) ∧
      (∀ i < sent.length, ∀ error, (script.requests i).reply = .ended error →
        i + 1 = sent.length ∧ result = .error error) ∧
      ∀ distributions releaseTotal, result = .ok (distributions, releaseTotal) →
        Summed api.countsPages distributions ∧ releaseTotal = (api.counts "").releaseTotal := by
  obtain ⟨sent, result, hwalk, hwalked⟩ := walk_spec (fun n => (script.requests n).reply)
    (rarityRequestAttempts - 1) sumPage api.counts_chain ⟨fun _ => [], none⟩ 0
  refine ⟨sent, result.map fun totals =>
    (fun signal => sortedItems (totals.counters signal), totals.releaseTotal.getD 0),
    fun fuel hfuel => ?_, hwalked.bounded, ?_, ?_⟩
  · exact congrArg _ (hwalk fuel hfuel)
  · intro i hi error hended
    have hshift : 0 + i = i := Nat.zero_add i
    obtain ⟨hlast, hresult⟩ := hwalked.ended i hi error (by rw [hshift]; exact hended)
    exact ⟨hlast, by rw [hresult]; rfl⟩
  · intro distributions releaseTotal hresult
    cases result with
    | error error => cases hresult
    | ok totals =>
      have hfold := (hwalked.whole totals rfl).1
      rw [sumPage_fold] at hfold
      cases hfold
      cases hresult
      refine ⟨summed_tally api.countsPages, ?_⟩
      simp [chain_head api.counts_chain]

omit [LinearOrder ν] in
/-- Only a run that commits replaces the table. -/
theorem finish_cases (script : Script) (table : List (Row φ)) (requests : List (Request ν))
    (releaseTotal : ℤ) (result : Except Error (Copied φ)) :
    ((finish script table requests releaseTotal result).table = table ∧
      ∃ error, (finish script table requests releaseTotal result).result = .error error) ∨
    ∃ copied, result = .ok copied ∧ releaseTotal ≤ copied.written ∧
      finish script table requests releaseTotal result =
        ⟨copied.rows, requests, .ok copied.written⟩ := by
  cases result with
  | error error => exact Or.inl ⟨rfl, error, rfl⟩
  | ok copied =>
    simp only [finish]
    by_cases hshort : (copied.written : ℤ) < releaseTotal
    · rw [if_pos hshort]
      exact Or.inl ⟨rfl, _, rfl⟩
    · rw [if_neg hshort]
      cases script.database .commit with
      | true => exact Or.inl ⟨rfl, _, rfl⟩
      | false => exact Or.inr ⟨copied, rfl, Int.not_lt.mp hshort, rfl⟩

omit [LinearOrder ν] in
theorem finish_requests (script : Script) (table : List (Row φ)) (requests : List (Request ν))
    (releaseTotal : ℤ) (result : Except Error (Copied φ)) :
    (finish script table requests releaseTotal result).requests = requests := by
  unfold finish
  split
  · rfl
  · split
    · rfl
    · split <;> rfl

/-- The requests of the first walk alone. -/
theorem requested_counts {sent : List String} {stopped : HttpStatus → Prop}
    (hbounded : ∀ c, sent.count c ≤ rarityRequestAttempts)
    (hended : ∀ i < sent.length, ∀ status, (script.requests i).reply = .ended (.httpStatus status) →
      i + 1 = sent.length ∧ stopped status) :
    Requested api script (sent.map countsRequest) stopped := by
  refine ⟨?_, ?_, ?_⟩
  · intro path after
    rw [countP_requests countsRequest rarityQualityCountsPath sent (fun _ => rfl)
      fun _ => rfl]
    split
    · exact hbounded after
    · exact Nat.zero_le _
  · intro i hi status hrefused
    rw [List.length_map] at hi ⊢
    exact hended i hi status (reply_of_refused hrefused)
  · intro request hrequest hpath
    obtain ⟨after, -, rfl⟩ := List.mem_map.mp hrequest
    exact absurd hpath paths_ne

/-- The requests of both walks, when the first one returned. -/
theorem requested_pages {sent pages : List String} {distributions : Distributions ν}
    {stopped : HttpStatus → Prop} (hsummed : Summed api.countsPages distributions)
    (hsent : ∀ c, sent.count c ≤ rarityRequestAttempts)
    (hpages : ∀ c, pages.count c ≤ rarityRequestAttempts)
    (hcounts : ∀ i < sent.length, ∀ error, (script.requests i).reply ≠ .ended error)
    (hended : ∀ i < pages.length, ∀ status,
      (script.requests (sent.length + i)).reply = .ended (.httpStatus status) →
        i + 1 = pages.length ∧ stopped status) :
    Requested api script (sent.map countsRequest ++ pages.map (pageRequest distributions))
      stopped := by
  refine ⟨?_, ?_, ?_⟩
  · intro path after
    rw [List.countP_append, countP_requests countsRequest rarityQualityCountsPath sent (fun _ => rfl)
      fun _ => rfl,
      countP_requests (pageRequest distributions) rarityPagePath pages (fun _ => rfl) fun _ => rfl]
    by_cases hcountsPath : rarityQualityCountsPath = path
    · have hpath : ¬ rarityPagePath = path := fun h => paths_ne (hcountsPath.trans h.symm)
      rw [if_pos hcountsPath, if_neg hpath]
      exact hsent after
    · rw [if_neg hcountsPath, Nat.zero_add]
      split
      · exact hpages after
      · exact Nat.zero_le _
  · intro i hi status hrefused
    rw [List.length_append, List.length_map, List.length_map] at hi ⊢
    have hreply := reply_of_refused hrefused
    by_cases hfirst : i < sent.length
    · exact absurd hreply (hcounts i hfirst _)
    · obtain ⟨j, rfl⟩ := Nat.exists_eq_add_of_le (Nat.le_of_not_lt hfirst)
      obtain ⟨hlast, hstopped⟩ := hended j (by omega) status hreply
      exact ⟨by omega, hstopped⟩
  · intro request hrequest hpath
    rcases List.mem_append.mp hrequest with hrequest | hrequest
    · obtain ⟨after, -, rfl⟩ := List.mem_map.mp hrequest
      exact absurd hpath paths_ne
    · obtain ⟨after, -, rfl⟩ := List.mem_map.mp hrequest
      exact ⟨distributions, rfl, hsummed⟩

variable [Zero φ] [DecidableEq φ]

omit [LinearOrder ν] in
/-- The second walk: what it asked for, and the rows of a whole chain. -/
theorem copyRarityPages_spec (api : Api ν φ) (script : Script) (distributions : Distributions ν)
    (made : ℕ) :
    ∃ (sent : List String) (result : Except Error (Copied φ)),
      (∀ fuel, (api.scoredPages distributions).length ≤ fuel →
        copyRarityPages script (api.scored distributions) distributions fuel made =
          some (sent.map (pageRequest distributions), result)) ∧
      (∀ c, sent.count c ≤ rarityRequestAttempts) ∧
      (∀ i < sent.length, ∀ error, (script.requests (made + i)).reply = .ended error →
        i + 1 = sent.length ∧ result = .error error) ∧
      ∀ copied, result = .ok copied →
        ((api.scoredPages distributions).flatMap ScoredPage.items).mapM rarityCopyRow =
          some copied.rows ∧ copied.written = copied.rows.length ∧
        ∀ after ∈ cursors ScoredPage.nextAfter "" (api.scoredPages distributions),
          after ∈ sent := by
  obtain ⟨sent, result, hwalk, hwalked⟩ := walk_spec (fun n => (script.requests n).reply)
    (rarityRequestAttempts - 1) (copyPage script) (api.scored_chain distributions) ⟨[], 0, 0⟩ made
  refine ⟨sent, result, fun fuel hfuel => ?_, hwalked.bounded, hwalked.ended, ?_⟩
  · exact congrArg _ (hwalk fuel hfuel)
  · intro copied hcopied
    obtain ⟨hfold, hall⟩ := hwalked.whole copied hcopied
    obtain ⟨-, rows, hrows, rfl⟩ := copyPage_fold_iff.mp hfold
    exact ⟨hrows, Nat.zero_add _, hall⟩

/-- Whatever fails, the table is the old one or one row for each item of the scored pages, and the
run ends, given the fuel for its two chains. -/
theorem rarity_replacement (api : Api ν φ) (script : Script) (table : List (Row φ)) :
    ∃ run : Run ν φ, (∃ bound, ∀ fuel, bound ≤ fuel →
        rarityOperation api script table fuel = some run) ∧
      Replacement api script table run := by
  obtain ⟨sent, result, hcounts, hsent, hended, hsums⟩ := sumRarityQualityCounts_spec api script
  cases result with
  | error error =>
    refine ⟨⟨table, sent.map countsRequest, .error error⟩,
      ⟨api.countsPages.length, fun fuel hfuel => ?_⟩, ⟨Or.inl ⟨rfl, Or.inl ⟨error, rfl⟩⟩, ?_⟩⟩
    · simp only [rarityOperation, hcounts fuel hfuel]
    · refine requested_counts hsent fun i hi status hreply => ?_
      obtain ⟨hlast, herror⟩ := hended i hi _ hreply
      cases herror
      exact ⟨hlast, rfl⟩
  | ok sums =>
    obtain ⟨distributions, releaseTotal⟩ := sums
    obtain ⟨hsummed, htotal⟩ := hsums distributions releaseTotal rfl
    have harrived : ∀ i < sent.length, ∀ error, (script.requests i).reply ≠ .ended error := by
      intro i hi error hreply
      cases (hended i hi error hreply).2
    have hquiet : ∀ stopped, Requested api script (sent.map countsRequest) stopped := by
      intro stopped
      exact requested_counts hsent fun i hi status hreply => absurd hreply (harrived i hi _)
    by_cases hempty : releaseTotal = 0
    · refine ⟨⟨table, sent.map countsRequest, .ok 0⟩,
        ⟨api.countsPages.length, fun fuel hfuel => ?_⟩,
        ⟨Or.inl ⟨rfl, Or.inr ⟨rfl, htotal.symm.trans hempty⟩⟩, hquiet _⟩⟩
      simp only [rarityOperation, hcounts fuel hfuel, if_pos hempty]
    cases hopen : openingStatements.find? script.database with
    | some statement =>
      refine ⟨⟨table, sent.map countsRequest, .error (.database statement)⟩,
        ⟨api.countsPages.length, fun fuel hfuel => ?_⟩,
        ⟨Or.inl ⟨rfl, Or.inl ⟨_, rfl⟩⟩, hquiet _⟩⟩
      simp only [rarityOperation, hcounts fuel hfuel, if_neg hempty, hopen]
    | none =>
      obtain ⟨pages, result, hcopy, hpages, hpageOver, hwhole⟩ :=
        copyRarityPages_spec api script distributions sent.length
      have hcopy' : ∀ fuel, (api.scoredPages distributions).length ≤ fuel →
          copyRarityPages script (api.scored distributions) distributions fuel
            (sent.map countsRequest : List (Request ν)).length =
              some (pages.map (pageRequest distributions), result) := by
        intro fuel hfuel
        rw [List.length_map]
        exact hcopy fuel hfuel
      have hbound : ∃ bound, ∀ fuel, bound ≤ fuel →
          rarityOperation api script table fuel =
            some (finish script table (sent.map countsRequest ++
              pages.map (pageRequest distributions)) releaseTotal result) := by
        refine ⟨max api.countsPages.length (api.scoredPages distributions).length,
          fun fuel hfuel => ?_⟩
        have hcountsFuel := (le_max_left _ _).trans hfuel
        have hpagesFuel := (le_max_right _ _).trans hfuel
        simp only [rarityOperation, hcounts fuel hcountsFuel, if_neg hempty, hopen,
          hcopy' fuel hpagesFuel, Option.map_some]
      refine ⟨_, hbound, ?_, ?_⟩
      · rcases finish_cases script table (sent.map countsRequest ++
            pages.map (pageRequest distributions)) releaseTotal result with
          ⟨htable, herror⟩ | ⟨copied, hcopied, hlong, hfinish⟩
        · exact Or.inl ⟨htable, Or.inl herror⟩
        · obtain ⟨hrows, hwritten, hall⟩ := hwhole copied hcopied
          rw [hfinish]
          refine Or.inr ⟨distributions, hsummed, hrows, ?_, ?_, fun after hafter => ?_⟩
          · exact congrArg Except.ok hwritten
          · show (api.counts "").releaseTotal ≤ copied.rows.length
            rw [← htotal, ← hwritten]
            exact hlong
          · exact List.mem_append_right _ (List.mem_map_of_mem (hall after hafter))
      · rw [finish_requests]
        refine requested_pages hsummed hsent hpages harrived fun i hi status hreply => ?_
        obtain ⟨hlast, herror⟩ := hpageOver i hi _ hreply
        refine ⟨hlast, ?_⟩
        rw [herror]
        rfl

end Runs

end AnalyticsEngine.Rarity
