import AnalyticsEngine.Cache.Protocol

/-!
# No stale body after an increment

Everything in namespace `g`, and everything a request of generation `g` reads, was read after
the first `g` increments (`Fresh`). For a generation read that succeeded the increments before
it are among the first `g`; for the fallback `0` nothing is promised, and nothing is needed.
`Inv` says this of every entry and every request, each action preserves it, and no step of
another party can undo it because increments are only ever appended.
-/

namespace AnalyticsEngine.Cache
open Library

variable {ρ δ β : Type*} {api : Api ρ δ β} {keyPrefix : String} {tables : δ}

/-- The query ran after the first `g` increments. -/
def Fresh (s : State ρ δ β) (g : ℕ) (snap : Snapshot δ) : Prop :=
  ∀ m i, m < g → s.increments[m]? = some i → i.time < snap.time ∧ i.commits ≤ snap.commits

def ReadsOk (tables : δ) (s : State ρ δ β) (g : ℕ) (reads : List (Snapshot δ)) : Prop :=
  ∀ snap ∈ reads, Fresh s g snap ∧ (tables :: s.log)[snap.commits]? = some snap.tables

structure EntryOk (api : Api ρ δ β) (keyPrefix : String) (tables : δ) (s : State ρ δ β)
    (key : String) (e : Entry ρ δ β) (g : ℕ) : Prop where
  key_eq : key = versionedKey keyPrefix (api.cacheKey e.origin) g
  generation : g ≤ s.increments.length
  body : api.respond e.origin (tablesOf e.reads) = some e.body
  reads : ReadsOk tables s g e.reads

structure AnswerOk (api : Api ρ δ β) (tables : δ) (s : State ρ δ β) (request : ρ) (g : ℕ)
    (body : β) (origin : ρ) (reads : List (Snapshot δ)) : Prop where
  body : api.respond origin (tablesOf reads) = some body
  key : removeprefix (api.cacheKey origin) "insights:" =
    removeprefix (api.cacheKey request) "insights:"
  reads : ReadsOk tables s g reads

def StageOk (api : Api ρ δ β) (tables : δ) (s : State ρ δ β) (request : ρ) (g : ℕ) :
    Stage ρ δ β → Prop
  | .looking => True
  | .reading reads => ReadsOk tables s g reads
  | .answered body origin reads => AnswerOk api tables s request g body origin reads

structure SessionOk (api : Api ρ δ β) (tables : δ) (s : State ρ δ β)
    (session : Session ρ δ β) : Prop where
  generation : session.generation ≤ s.increments.length
  fetched : ∀ t, session.fetched = some t → t < s.clock ∧ ∀ m i, s.increments[m]? = some i →
    i.time < t → m < session.generation
  stage : StageOk api tables s session.request session.generation session.stage

/-- What holds in every reachable state. -/
structure Inv (api : Api ρ δ β) (keyPrefix : String) (tables : δ) (s : State ρ δ β) : Prop where
  counter : s.counter.getD 0 = s.increments.length
  times : ∀ i ∈ s.increments, i.time < s.clock ∧ i.commits ≤ s.log.length
  current : (tables :: s.log)[s.log.length]? = some s.tables
  entries : ∀ key e, s.entries key = some e → ∃ g, EntryOk api keyPrefix tables s key e g
  sessions : ∀ id session, s.sessions id = some session → SessionOk api tables s session

theorem inv_initial : Inv api keyPrefix tables (State.initial tables) where
  counter := rfl
  times i hi := by cases hi
  current := rfl
  entries key e h := by cases h
  sessions id session h := by cases h

/-! ### What a step leaves alone -/

structure Grows (s t : State ρ δ β) : Prop where
  clock : s.clock ≤ t.clock
  log : ∃ later, t.log = s.log ++ later
  increments : ∃ later, t.increments = s.increments ++ later ∧ ∀ i ∈ later, s.clock ≤ i.time

theorem ReadsOk.mono {s t : State ρ δ β} {g : ℕ} {reads : List (Snapshot δ)}
    (h : ReadsOk tables s g reads) (hg : g ≤ s.increments.length) (hst : Grows s t) :
    ReadsOk tables t g reads := by
  obtain ⟨commits, hlog⟩ := hst.log
  obtain ⟨later, hincrements, _⟩ := hst.increments
  intro snap hsnap
  obtain ⟨hfresh, htables⟩ := h snap hsnap
  constructor
  · intro m i hm hi
    rw [hincrements, List.getElem?_append_left (by omega)] at hi
    exact hfresh m i hm hi
  · obtain ⟨hlt, _⟩ := List.getElem?_eq_some_iff.mp htables
    rw [hlog, ← List.cons_append, List.getElem?_append_left hlt]
    exact htables

theorem EntryOk.mono {s t : State ρ δ β} {key : String} {e : Entry ρ δ β} {g : ℕ}
    (h : EntryOk api keyPrefix tables s key e g) (hst : Grows s t) :
    EntryOk api keyPrefix tables t key e g := by
  obtain ⟨later, hincrements, _⟩ := hst.increments
  refine ⟨h.key_eq, ?_, h.body, h.reads.mono h.generation hst⟩
  rw [hincrements, List.length_append]
  exact h.generation.trans (Nat.le_add_right _ _)

theorem SessionOk.mono {s t : State ρ δ β} {session : Session ρ δ β}
    (h : SessionOk api tables s session) (hst : Grows s t) : SessionOk api tables t session := by
  obtain ⟨later, hincrements, hlater⟩ := hst.increments
  refine ⟨?_, ?_, ?_⟩
  · rw [hincrements, List.length_append]
    exact h.generation.trans (Nat.le_add_right _ _)
  · intro time hfetched
    obtain ⟨hclock, hbefore⟩ := h.fetched time hfetched
    refine ⟨hclock.trans_le hst.clock, ?_⟩
    intro m i hi htime
    rw [hincrements] at hi
    by_cases hm : m < s.increments.length
    · rw [List.getElem?_append_left hm] at hi
      exact hbefore m i hi htime
    · rw [List.getElem?_append_right (by omega)] at hi
      have hnew := hlater i (List.mem_of_getElem? hi)
      omega
  · cases hstage : session.stage with
    | looking => trivial
    | reading reads =>
      have hreads := h.stage
      rw [hstage] at hreads
      exact ReadsOk.mono hreads h.generation hst
    | answered body origin reads =>
      have hanswer := h.stage
      rw [hstage] at hanswer
      exact ⟨hanswer.body, hanswer.key, hanswer.reads.mono h.generation hst⟩

/-- What is left to show of a step: the counters, and the one entry or request it wrote. -/
theorem Inv.of_grows {s t : State ρ δ β} (h : Inv api keyPrefix tables s) (hst : Grows s t)
    (hcounter : t.counter.getD 0 = t.increments.length)
    (htimes : ∀ i ∈ t.increments, i.time < t.clock ∧ i.commits ≤ t.log.length)
    (hcurrent : (tables :: t.log)[t.log.length]? = some t.tables)
    (hentries : ∀ key e, t.entries key = some e →
      s.entries key = some e ∨ ∃ g, EntryOk api keyPrefix tables t key e g)
    (hsessions : ∀ id session, t.sessions id = some session →
      s.sessions id = some session ∨ SessionOk api tables t session) :
    Inv api keyPrefix tables t where
  counter := hcounter
  times := htimes
  current := hcurrent
  entries key e he := by
    rcases hentries key e he with hold | hnew
    · obtain ⟨g, hentry⟩ := h.entries key e hold
      exact ⟨g, hentry.mono hst⟩
    · exact hnew
  sessions id session hsession := by
    rcases hsessions id session hsession with hold | hnew
    · exact (h.sessions id session hold).mono hst
    · exact hnew

theorem Grows.tick_put (s : State ρ δ β) (id : ℕ) (session : Session ρ δ β) :
    Grows s (s.tick.put id session) :=
  ⟨Nat.le_succ _, ⟨[], (List.append_nil _).symm⟩, ⟨[], (List.append_nil _).symm, by simp⟩⟩

theorem Inv.times_tick {s : State ρ δ β} (h : Inv api keyPrefix tables s) :
    ∀ i ∈ s.increments, i.time < s.clock + 1 ∧ i.commits ≤ s.log.length :=
  fun i hi => ⟨(h.times i hi).1.trans (Nat.lt_succ_self _), (h.times i hi).2⟩

theorem Inv.tick_put {s : State ρ δ β} (h : Inv api keyPrefix tables s) {id : ℕ}
    {session : Session ρ δ β} (hsession : SessionOk api tables (s.tick.put id session) session) :
    Inv api keyPrefix tables (s.tick.put id session) := by
  refine h.of_grows (Grows.tick_put s id session) h.counter h.times_tick h.current ?_ ?_
  · exact fun key e he => Or.inl he
  · intro id' session' h'
    rcases put_cases h' with ⟨_, rfl⟩ | hold
    · exact Or.inr hsession
    · exact Or.inl hold

/-! ### Steps -/

theorem generation_inv {s : State ρ δ β} (h : Inv api keyPrefix tables s) (id : ℕ) (request : ρ)
    (raises : Bool) : Inv api keyPrefix tables (s.tick.put id
      { request := request
        started := s.clock
        fetched := if raises then none else some s.clock
        generation := s.generation raises
        stage := .looking }) := by
  apply h.tick_put
  cases raises with
  | true =>
    refine ⟨Nat.zero_le _, ?_, trivial⟩
    intro t ht
    cases ht
  | false =>
    have hcounter : s.generation false = s.increments.length := h.counter
    refine ⟨hcounter.le, ?_, trivial⟩
    intro t ht
    cases ht
    refine ⟨Nat.lt_succ_self _, ?_⟩
    intro m i hi _
    rw [hcounter]
    exact (List.getElem?_eq_some_iff.mp hi).1

theorem get_inv {s t : State ρ δ β} {id : ℕ} {raises : Bool} (h : Inv api keyPrefix tables s)
    (hstep : s.step api keyPrefix (.get id raises) = some t) : Inv api keyPrefix tables t := by
  obtain ⟨request, started, fetched, g, hsession, hcase⟩ := step_get hstep
  have hold := h.sessions _ _ hsession
  rcases hcase with ⟨e, hget, rfl⟩ | ⟨_, rfl⟩
  · apply h.tick_put
    have hst := Grows.tick_put s id ⟨request, started, fetched, g, .answered e.body e.origin e.reads⟩
    obtain ⟨hgeneration, hfetched, _⟩ := hold.mono hst
    refine ⟨hgeneration, hfetched, ?_⟩
    unfold State.get at hget
    split_ifs at hget
    obtain ⟨g', hkey, hg, hrespond, hreads⟩ := h.entries _ _ hget
    obtain ⟨rfl, hname⟩ := versionedKey_inj hkey
    exact ⟨hrespond, hname.symm, hreads.mono hg hst⟩
  · apply h.tick_put
    obtain ⟨hgeneration, hfetched, _⟩ := hold.mono (Grows.tick_put s id
      ⟨request, started, fetched, g, .reading []⟩)
    refine ⟨hgeneration, hfetched, ?_⟩
    intro snap hsnap
    cases hsnap

theorem query_inv {s t : State ρ δ β} {id : ℕ} (h : Inv api keyPrefix tables s)
    (hstep : s.step api keyPrefix (.query id) = some t) : Inv api keyPrefix tables t := by
  obtain ⟨request, started, fetched, g, reads, hsession, rfl⟩ := step_query hstep
  apply h.tick_put
  have hst := Grows.tick_put s id
    ⟨request, started, fetched, g, .reading (reads ++ [s.snapshot id])⟩
  obtain ⟨hgeneration, hfetched, hreads⟩ := (h.sessions _ _ hsession).mono hst
  refine ⟨hgeneration, hfetched, ?_⟩
  intro snap hsnap
  rcases List.mem_append.mp hsnap with hold | hnew
  · exact hreads snap hold
  · obtain rfl := List.mem_singleton.mp hnew
    refine ⟨fun m i _ hi => ?_, h.current⟩
    exact h.times i (List.mem_of_getElem? hi)

theorem Grows.of_eq {s t : State ρ δ β} (hclock : s.clock ≤ t.clock) (hlog : t.log = s.log)
    (hincrements : t.increments = s.increments) : Grows s t :=
  ⟨hclock, ⟨[], by rw [hlog, List.append_nil]⟩,
    ⟨[], by rw [hincrements, List.append_nil], fun i hi => by cases hi⟩⟩

/-- A landed set, however late: its queries are of its own namespace. -/
theorem Inv.store {s : State ρ δ β} (h : Inv api keyPrefix tables s) {request : ρ} {g : ℕ}
    {reads : List (Snapshot δ)} {body : β} (hg : g ≤ s.increments.length)
    (hreads : ReadsOk tables s g reads) (hbody : api.respond request (tablesOf reads) = some body) :
    Inv api keyPrefix tables (s.store (versionedKey keyPrefix (api.cacheKey request) g)
      ⟨body, request, reads⟩) := by
  refine h.of_grows (Grows.of_eq ?_ rfl rfl) h.counter h.times h.current ?_ ?_
  · exact le_rfl
  · intro key e he
    rcases store_cases he with ⟨rfl, rfl⟩ | hold
    · exact Or.inr ⟨g, rfl, hg, hbody, hreads⟩
    · exact Or.inl hold
  · exact fun id session hsession => Or.inl hsession

theorem set_inv {s t : State ρ δ β} {id : ℕ} {lands : Bool} (h : Inv api keyPrefix tables s)
    (hstep : s.step api keyPrefix (.set id lands) = some t) : Inv api keyPrefix tables t := by
  obtain ⟨request, started, fetched, g, reads, body, hsession, hbody, stored, hstored, rfl⟩ :=
    step_set hstep
  have hold := h.sessions _ _ hsession
  have hinv : Inv api keyPrefix tables stored ∧ Grows s stored := by
    rcases hstored with rfl | rfl
    · exact ⟨h, Grows.of_eq le_rfl rfl rfl⟩
    · exact ⟨h.store hold.generation hold.stage hbody, Grows.of_eq le_rfl rfl rfl⟩
  apply hinv.1.tick_put
  have hst := Grows.tick_put stored id
    ⟨request, started, fetched, g, .answered body request reads⟩
  obtain ⟨hgeneration, hfetched, hreads⟩ := (hold.mono hinv.2).mono hst
  exact ⟨hgeneration, hfetched, hbody, rfl, hreads⟩

theorem commit_inv {s : State ρ δ β} (h : Inv api keyPrefix tables s) (new : δ) :
    Inv api keyPrefix tables { s.tick with tables := new, log := s.log ++ [new] } := by
  refine h.of_grows ⟨?_, ⟨[new], rfl⟩, ⟨[], ?_, ?_⟩⟩ h.counter ?_ ?_ ?_ ?_
  · exact Nat.le_succ _
  · exact (List.append_nil _).symm
  · exact fun i hi => by cases hi
  · intro i hi
    obtain ⟨htime, hcommits⟩ := h.times_tick i hi
    refine ⟨htime, ?_⟩
    rw [List.length_append]
    exact hcommits.trans (Nat.le_add_right _ _)
  · simp
  · exact fun key e he => Or.inl he
  · exact fun id session hsession => Or.inl hsession

theorem incr_inv {s : State ρ δ β} (h : Inv api keyPrefix tables s) (sweeps : ℕ → Option ℕ) :
    Inv api keyPrefix tables { s.tick with
      counter := some (s.counter.getD 0 + 1)
      increments := s.increments ++ [⟨s.clock, s.log.length⟩]
      sweeps := sweeps } := by
  refine h.of_grows ⟨?_, ⟨[], ?_⟩, ⟨_, rfl, ?_⟩⟩ ?_ ?_ h.current ?_ ?_
  · exact Nat.le_succ _
  · exact (List.append_nil _).symm
  · intro i hi
    obtain rfl := List.mem_singleton.mp hi
    exact le_rfl
  · rw [Option.getD_some, h.counter, List.length_append]
    rfl
  · intro i hi
    rcases List.mem_append.mp hi with hold | hnew
    · exact h.times_tick i hold
    · obtain rfl := List.mem_singleton.mp hnew
      exact ⟨Nat.lt_succ_self _, le_rfl⟩
  · exact fun key e he => Or.inl he
  · exact fun id session hsession => Or.inl hsession

theorem drop_inv {s : State ρ δ β} (h : Inv api keyPrefix tables s)
    (entries : String → Option (Entry ρ δ β))
    (hdrop : ∀ key e, entries key = some e → s.entries key = some e) :
    Inv api keyPrefix tables { s.tick with entries := entries } := by
  refine h.of_grows (Grows.of_eq ?_ rfl rfl) h.counter h.times_tick h.current ?_ ?_
  · exact Nat.le_succ _
  · exact fun key e he => Or.inl (hdrop key e he)
  · exact fun id session hsession => Or.inl hsession

theorem step_inv {s t : State ρ δ β} {a : Action ρ δ} (h : Inv api keyPrefix tables s)
    (hstep : s.step api keyPrefix a = some t) : Inv api keyPrefix tables t := by
  cases a with
  | generation id request raises =>
    rw [(step_generation hstep).2]
    exact generation_inv h id request raises
  | get id raises => exact get_inv h hstep
  | query id => exact query_inv h hstep
  | set id lands => exact set_inv h hstep
  | commit new =>
    cases hstep
    exact commit_inv h new
  | incr cycle raises =>
    cases hstep
    exact incr_inv h _
  | sweep cycle page =>
    obtain ⟨generation, _, rfl⟩ := Option.map_eq_some_iff.mp hstep
    apply drop_inv h
    intro key e he
    split_ifs at he
    exact he
  | expire key =>
    cases hstep
    apply drop_inv h
    intro key' e he
    by_cases hkey : key' = key
    · subst hkey
      rw [Function.update_self] at he
      cases he
    · rwa [Function.update_of_ne hkey] at he

theorem reachable_inv {s : State ρ δ β}
    (h : Reachable (State.step api keyPrefix) (State.initial tables) s) :
    Inv api keyPrefix tables s :=
  h.invariant inv_initial fun _ _ _ hinv hstep => step_inv hinv hstep

/-- A request whose generation read succeeded after an increment answers with a body computed
from queries that ran after that increment and saw every commit before it. -/
theorem answered_after_increment {s : State ρ δ β}
    (h : Reachable (State.step api keyPrefix) (State.initial tables) s) {id : ℕ}
    {request origin : ρ} {started t g : ℕ} {body : β} {reads : List (Snapshot δ)}
    (hsession : s.sessions id = some ⟨request, started, some t, g, .answered body origin reads⟩)
    {i : Increment} (hi : i ∈ s.increments) (htime : i.time < t) :
    removeprefix (api.cacheKey origin) "insights:" =
        removeprefix (api.cacheKey request) "insights:" ∧
      api.respond origin (tablesOf reads) = some body ∧ reads ≠ [] ∧
      ∀ snap ∈ reads, i.time < snap.time ∧ i.commits ≤ snap.commits ∧
        (tables :: s.log)[snap.commits]? = some snap.tables := by
  obtain ⟨_, hfetched, hanswer⟩ := (reachable_inv h).sessions id _ hsession
  obtain ⟨m, hm⟩ := List.mem_iff_getElem?.mp hi
  have hbefore := (hfetched t rfl).2 m i hm htime
  refine ⟨hanswer.key, hanswer.body, ?_, ?_⟩
  · intro hnil
    have hbody := hanswer.body
    rw [hnil] at hbody
    change api.respond origin [] = some body at hbody
    rw [api.respond_nil] at hbody
    cases hbody
  · intro snap hsnap
    obtain ⟨hfresh, htables⟩ := hanswer.reads snap hsnap
    obtain ⟨hlater, hcommits⟩ := hfresh m i hbefore hm
    exact ⟨hlater, hcommits, htables⟩

def runActions (api : Api ρ δ β) (keyPrefix : String) (s : State ρ δ β) :
    List (Action ρ δ) → Option (State ρ δ β)
  | [] => some s
  | a :: rest => (s.step api keyPrefix a).bind fun t => runActions api keyPrefix t rest

theorem runActions_reachable {start s t : State ρ δ β} {actions : List (Action ρ δ)}
    (h : Reachable (State.step api keyPrefix) start s)
    (hrun : runActions api keyPrefix s actions = some t) :
    Reachable (State.step api keyPrefix) start t := by
  induction actions generalizing s with
  | nil =>
    cases hrun
    exact h
  | cons a rest ih =>
    obtain ⟨u, hstep, hrest⟩ := Option.bind_eq_some_iff.mp hrun
    exact ih (h.step hstep) hrest

def numberApi : Api Unit ℕ ℕ where
  cacheKey := fun _ => "insights:top-artists:10"
  respond := fun _ reads => reads.head?
  respond_nil := fun _ => rfl
  caches := fun _ _ => true

/- Request 1 straddles a recompute and sets late; request 2 comes after the increment. -/
def lateSet : List (Action Unit ℕ) :=
  [.generation 1 () false, .get 1 false, .query 1, .commit 8, .incr 0 false, .set 1 true,
    .sweep 0 [], .generation 2 () false, .get 2 false, .query 2, .set 2 true]

theorem answered_after_increment_lateSet : ∃ s : State Unit ℕ ℕ,
    runActions numberApi "groovemap:" (State.initial 7) lateSet = some s ∧
    ∃ reads, s.sessions 2 = some ⟨(), 7, some 7, 1, .answered 8 () reads⟩ ∧
      ∀ snap ∈ reads, 4 < snap.time ∧ 1 ≤ snap.commits := by
  have hlate : ∃ s : State Unit ℕ ℕ, runActions numberApi "groovemap:" (State.initial 7) lateSet = some s ∧
      s.increments = [⟨4, 1⟩] ∧
      ∃ reads, s.sessions 2 = some ⟨(), 7, some 7, 1, .answered 8 () reads⟩ :=
    ⟨_, rfl, rfl, _, rfl⟩
  obtain ⟨s, hs, hincrements, reads, hsession⟩ := hlate
  refine ⟨s, hs, reads, hsession, ?_⟩
  intro snap hsnap
  have hmem : (⟨4, 1⟩ : Increment) ∈ s.increments := by
    rw [hincrements]
    exact List.mem_singleton.mpr rfl
  obtain ⟨htime, hcommits, _⟩ := (answered_after_increment (runActions_reachable .start hs)
    hsession hmem (show 4 < 7 by decide)).2.2.2 snap hsnap
  exact ⟨htime, hcommits⟩

end AnalyticsEngine.Cache
