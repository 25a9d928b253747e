import AnalyticsEngine.Cache.Freshness

/-!
# A failed generation read

A generation read that raises falls back to `0`, which is a namespace like any other: requests
write it before the first increment, late, or after a failed read of their own. So a request
falls through to its own queries exactly when its get raises or finds nothing under its key in
namespace `0` (`failed_generation_read`), and otherwise it is answered with another request's
body, of any age (`superseded_answer`).
-/

namespace AnalyticsEngine.Cache
open Library

variable {ρ δ β : Type*} {api : Api ρ δ β} {keyPrefix : String} {tables : δ}

/-- The request has made its get. -/
def Begun (s : State ρ δ β) (id : ℕ) : Prop :=
  ∃ session, s.sessions id = some session ∧ session.stage ≠ .looking

def Own (id started : ℕ) (reads : List (Snapshot δ)) : Prop :=
  ∀ snap ∈ reads, snap.reader = id ∧ started < snap.time

/-- Who read what. -/
structure Readers (s : State ρ δ β) : Prop where
  entries : ∀ key e, s.entries key = some e → e.reads ≠ [] ∧ ∀ snap ∈ e.reads, Begun s snap.reader
  fallback : ∀ id session, s.sessions id = some session →
    session.started < s.clock ∧ (session.fetched = none → session.generation = 0)
  own : ∀ id request started fetched g reads,
    s.sessions id = some ⟨request, started, fetched, g, .reading reads⟩ → Own id started reads

theorem readers_initial : Readers (State.initial tables : State ρ δ β) where
  entries key e h := by cases h
  fallback id session h := by cases h
  own id request started fetched g reads h := by cases h

theorem begun_put {s : State ρ δ β} {id id' : ℕ} {session : Session ρ δ β} (h : Begun s id')
    (hstage : Begun s id → session.stage ≠ .looking) : Begun (s.tick.put id session) id' := by
  by_cases hid : id' = id
  · subst hid
    exact ⟨session, put_self _ _ _, hstage h⟩
  · obtain ⟨old, hold, hlooking⟩ := h
    exact ⟨old, (put_ne hid _ _).trans hold, hlooking⟩

theorem Readers.tick_put {s : State ρ δ β} (h : Readers s) {id : ℕ} {session : Session ρ δ β}
    (hstage : Begun s id → session.stage ≠ .looking) (hstarted : session.started ≤ s.clock)
    (hfallback : session.fetched = none → session.generation = 0)
    (hown : ∀ reads, session.stage = .reading reads → Own id session.started reads) :
    Readers (s.tick.put id session) where
  entries key e he := by
    obtain ⟨hne, hbegun⟩ := h.entries key e he
    exact ⟨hne, fun snap hsnap => begun_put (hbegun snap hsnap) hstage⟩
  fallback id' session' h' := by
    rcases put_cases h' with ⟨_, rfl⟩ | hold
    · exact ⟨Nat.lt_succ_of_le hstarted, hfallback⟩
    · obtain ⟨hlt, hzero⟩ := h.fallback id' session' hold
      exact ⟨hlt.trans (Nat.lt_succ_self _), hzero⟩
  own id' request started fetched g reads h' := by
    rcases put_cases h' with ⟨rfl, rfl⟩ | hold
    · exact hown reads rfl
    · exact h.own id' request started fetched g reads hold

theorem Readers.drop {s t : State ρ δ β} (h : Readers s) (hclock : s.clock ≤ t.clock)
    (hsessions : t.sessions = s.sessions)
    (hentries : ∀ key e, t.entries key = some e → s.entries key = some e) : Readers t := by
  refine ⟨?_, ?_, ?_⟩
  · intro key e he
    obtain ⟨hne, hbegun⟩ := h.entries key e (hentries key e he)
    refine ⟨hne, ?_⟩
    unfold Begun
    rw [hsessions]
    exact hbegun
  · rw [hsessions]
    intro id session hsession
    obtain ⟨hlt, hzero⟩ := h.fallback id session hsession
    exact ⟨hlt.trans_le hclock, hzero⟩
  · rw [hsessions]
    exact h.own

theorem Readers.store {s : State ρ δ β} (h : Readers s) {id : ℕ} {key : String}
    {e : Entry ρ δ β} (hne : e.reads ≠ []) (hbegun : Begun s id) {started : ℕ}
    (hown : Own id started e.reads) : Readers (s.store key e) where
  entries key' e' he := by
    rcases store_cases he with ⟨_, rfl⟩ | hold
    · refine ⟨hne, fun snap hsnap => ?_⟩
      rw [(hown snap hsnap).1]
      exact hbegun
    · exact h.entries key' e' hold
  fallback := h.fallback
  own := h.own

theorem reads_ne_nil {request : ρ} {reads : List (Snapshot δ)} {body : β}
    (h : api.respond request (tablesOf reads) = some body) : reads ≠ [] := by
  intro heq
  subst heq
  change api.respond request [] = some body at h
  rw [api.respond_nil] at h
  cases h

theorem readers_step {s t : State ρ δ β} {a : Action ρ δ} (h : Readers s)
    (hstep : s.step api keyPrefix a = some t) : Readers t := by
  cases a with
  | generation id request raises =>
    obtain ⟨hnone, rfl⟩ := step_generation hstep
    apply h.tick_put
    · intro hfound
      obtain ⟨session, hsession, _⟩ := hfound
      rw [hnone] at hsession
      cases hsession
    · exact le_rfl
    · cases raises with
      | true => exact fun _ => rfl
      | false => exact fun hfetched => by cases hfetched
    · exact fun reads hreads => by cases hreads
  | get id raises =>
    obtain ⟨request, started, fetched, g, hsession, hcase⟩ := step_get hstep
    obtain ⟨hlt, hzero⟩ := h.fallback _ _ hsession
    rcases hcase with ⟨e, _, rfl⟩ | ⟨_, rfl⟩
    · refine h.tick_put (fun _ hlooking => ?_) hlt.le hzero fun reads hreads => ?_
      · cases hlooking
      · cases hreads
    · refine h.tick_put (fun _ hlooking => ?_) hlt.le hzero fun reads hreads snap hsnap => ?_
      · cases hlooking
      · cases hreads
        cases hsnap
  | query id =>
    obtain ⟨request, started, fetched, g, reads, hsession, rfl⟩ := step_query hstep
    obtain ⟨hlt, hzero⟩ := h.fallback _ _ hsession
    refine h.tick_put (fun _ hlooking => ?_) hlt.le hzero fun reads' hreads snap hsnap => ?_
    · cases hlooking
    · cases hreads
      rcases List.mem_append.mp hsnap with hold | hnew
      · exact h.own _ _ _ _ _ _ hsession snap hold
      · obtain rfl := List.mem_singleton.mp hnew
        exact ⟨rfl, hlt⟩
  | set id lands =>
    obtain ⟨request, started, fetched, g, reads, body, hsession, hbody, stored, hstored, rfl⟩ :=
      step_set hstep
    obtain ⟨hlt, hzero⟩ := h.fallback _ _ hsession
    have hreaders : Readers stored ∧ stored.clock = s.clock := by
      rcases hstored with rfl | rfl
      · exact ⟨h, rfl⟩
      · refine ⟨h.store (reads_ne_nil hbody) ⟨_, hsession, ?_⟩ (h.own _ _ _ _ _ _ hsession), rfl⟩
        exact fun hlooking => by cases hlooking
    refine hreaders.1.tick_put (fun _ hlooking => ?_) (hreaders.2 ▸ hlt.le) hzero
      fun reads' hreads => ?_
    · cases hlooking
    · cases hreads
  | commit new =>
    cases hstep
    exact h.drop (Nat.le_succ _) rfl fun key e he => he
  | incr cycle raises =>
    cases hstep
    exact h.drop (Nat.le_succ _) rfl fun key e he => he
  | sweep cycle page =>
    obtain ⟨generation, _, rfl⟩ := Option.map_eq_some_iff.mp hstep
    refine h.drop (Nat.le_succ _) rfl fun key e he => ?_
    simp only at he
    split_ifs at he
    exact he
  | expire key =>
    cases hstep
    refine h.drop (Nat.le_succ _) rfl fun key' e he => ?_
    by_cases hkey : key' = key
    · subst hkey
      simp only [Function.update_self] at he
      cases he
    · simpa only [Function.update_of_ne hkey] using he

theorem reachable_readers {s : State ρ δ β}
    (h : Reachable (State.step api keyPrefix) (State.initial tables) s) : Readers s :=
  h.invariant readers_initial fun _ _ _ hinv hstep => readers_step hinv hstep

/-! ### From the get on -/

/-- A property of a request past its get that its own queries and its own answer keep. -/
structure Kept (id started : ℕ) (P : Stage ρ δ β → Prop) : Prop where
  looking : ¬P .looking
  query : ∀ reads (snap : Snapshot δ), P (.reading reads) → snap.reader = id →
    started < snap.time → P (.reading (reads ++ [snap]))
  set : ∀ reads body request, P (.reading reads) → P (.answered body request reads)

def AnsweredFrom (reads : List (Snapshot δ)) (stage : Stage ρ δ β) : Prop :=
  ∃ body origin, stage = .answered body origin reads

def OwnStage (id started : ℕ) (stage : Stage ρ δ β) : Prop :=
  ∃ reads, Own id started reads ∧ (stage = .reading reads ∨ AnsweredFrom reads stage)

theorem answeredFrom_kept (id started : ℕ) (reads : List (Snapshot δ)) :
    Kept id started (AnsweredFrom reads : Stage ρ δ β → Prop) where
  looking := by
    intro hfound
    obtain ⟨body, origin, h⟩ := hfound
    cases h
  query := by
    intro _ _ hfound
    obtain ⟨body, origin, h⟩ := hfound
    cases h
  set := by
    intro _ _ _ hfound
    obtain ⟨body, origin, h⟩ := hfound
    cases h

theorem ownStage_kept (id started : ℕ) :
    Kept id started (OwnStage id started : Stage ρ δ β → Prop) where
  looking := by
    rintro ⟨_, _, h | ⟨body, origin, h⟩⟩ <;> cases h
  query := by
    intro _ snap hfound hreader htime
    rcases hfound with ⟨_, hown, h | ⟨body, origin, h⟩⟩
    · cases h
      refine ⟨_, fun snap' hsnap' => ?_, Or.inl rfl⟩
      rcases List.mem_append.mp hsnap' with hold | hnew
      · exact hown snap' hold
      · exact List.mem_singleton.mp hnew ▸ ⟨hreader, htime⟩
    · cases h
  set := by
    intro _ body request hfound
    rcases hfound with ⟨_, hown, h | ⟨_, _, h⟩⟩
    · cases h
      exact ⟨_, hown, Or.inr ⟨body, request, rfl⟩⟩
    · cases h

theorem request_keeps {P : Stage ρ δ β → Prop} {id started : ℕ} (hkept : Kept id started P)
    {s t : State ρ δ β} {a : Action ρ δ}
    (hlt : started < s.clock)
    (h : ∃ session, s.sessions id = some session ∧ P session.stage)
    (hstep : s.step api keyPrefix a = some t) :
    started < t.clock ∧ ∃ session, t.sessions id = some session ∧ P session.stage := by
  obtain ⟨session, hsession, hP⟩ := h
  have hput : ∀ (u : State ρ δ β) id' new, u.sessions = s.sessions → u.clock = s.clock →
      (id' = id → P new.stage) → started < (u.tick.put id' new).clock ∧
      ∃ session, (u.tick.put id' new).sessions id = some session ∧ P session.stage := by
    intro u id' new hu hclock hnew
    constructor
    · change started < u.clock + 1
      omega
    · by_cases hid : id = id'
      · subst hid
        exact ⟨new, put_self _ _ _, hnew rfl⟩
      · refine ⟨session, ?_, hP⟩
        rw [put_ne hid]
        change u.sessions id = some session
        rw [hu]
        exact hsession
  cases a with
  | generation id' request raises =>
    obtain ⟨hnone, rfl⟩ := step_generation hstep
    apply hput s id' _ rfl rfl
    intro heq
    subst heq
    rw [hsession] at hnone
    cases hnone
  | get id' raises =>
    obtain ⟨request, started', fetched, g, hs, hcase⟩ := step_get hstep
    have hother : id' = id → False := by
      intro heq
      subst heq
      rw [hsession, Option.some.injEq] at hs
      subst hs
      exact hkept.looking hP
    rcases hcase with ⟨e, _, rfl⟩ | ⟨_, rfl⟩
    · exact hput s id' _ rfl rfl fun hid => (hother hid).elim
    · exact hput s id' _ rfl rfl fun hid => (hother hid).elim
  | query id' =>
    obtain ⟨request, started', fetched, g, reads, hs, rfl⟩ := step_query hstep
    apply hput s id' _ rfl rfl
    intro heq
    subst heq
    rw [hsession, Option.some.injEq] at hs
    subst hs
    exact hkept.query reads _ hP rfl hlt
  | set id' lands =>
    obtain ⟨request, started', fetched, g, reads, body, hs, _, stored, hstored, rfl⟩ :=
      step_set hstep
    have hfields : stored.sessions = s.sessions ∧ stored.clock = s.clock := by
      rcases hstored with rfl | rfl <;> exact ⟨rfl, rfl⟩
    apply hput stored id' _ hfields.1 hfields.2
    intro heq
    subst heq
    rw [hsession, Option.some.injEq] at hs
    subst hs
    exact hkept.set reads body request hP
  | commit new =>
    cases hstep
    exact ⟨hlt.trans (Nat.lt_succ_self _), session, hsession, hP⟩
  | incr cycle raises =>
    cases hstep
    exact ⟨hlt.trans (Nat.lt_succ_self _), session, hsession, hP⟩
  | sweep cycle page =>
    obtain ⟨generation, _, rfl⟩ := Option.map_eq_some_iff.mp hstep
    exact ⟨hlt.trans (Nat.lt_succ_self _), session, hsession, hP⟩
  | expire key =>
    cases hstep
    exact ⟨hlt.trans (Nat.lt_succ_self _), session, hsession, hP⟩

theorem request_run_keeps {P : Stage ρ δ β → Prop} {id started : ℕ} (hkept : Kept id started P)
    {s t : State ρ δ β} (hrun : Reachable (State.step api keyPrefix) s t)
    (hlt : started < s.clock) (h : ∃ session, s.sessions id = some session ∧ P session.stage)
    {session : Session ρ δ β} (hsession : t.sessions id = some session) : P session.stage := by
  have hinv := hrun.invariant (I := fun u => started < u.clock ∧
      ∃ session, u.sessions id = some session ∧ P session.stage) ⟨hlt, h⟩
    fun _ _ _ hinv hstep => request_keeps hkept hinv.1 hinv.2 hstep
  obtain ⟨_, session', hsession', hP⟩ := hinv
  rw [hsession, Option.some.injEq] at hsession'
  exact hsession' ▸ hP

/-- A hit is another request's queries, which ran before or beside this request. -/
theorem hit_not_own {s : State ρ δ β}
    (h : Reachable (State.step api keyPrefix) (State.initial tables) s) {id : ℕ}
    {session : Session ρ δ β} (hsession : s.sessions id = some session)
    (hlooking : session.stage = .looking) {key : String} {e : Entry ρ δ β}
    (he : s.entries key = some e) {started : ℕ} : ¬Own id started e.reads := by
  intro hown
  obtain ⟨hne, hbegun⟩ := (reachable_readers h).entries key e he
  obtain ⟨snap, hsnap⟩ := List.exists_mem_of_ne_nil _ hne
  obtain ⟨session', hsession', hstage⟩ := hbegun snap hsnap
  rw [(hown snap hsnap).1, hsession, Option.some.injEq] at hsession'
  exact hstage (hsession' ▸ hlooking)

/-- The answer of a request whose generation read raised comes from its own queries exactly when
its get raises or finds nothing under its key in namespace `0`. -/
theorem failed_generation_read {s t u : State ρ δ β}
    (h : Reachable (State.step api keyPrefix) (State.initial tables) s) {id : ℕ}
    {request request' origin : ρ} {started started' g g' : ℕ} {fetched' : Option ℕ}
    {raises : Bool} {body : β} {reads : List (Snapshot δ)}
    (hsession : s.sessions id = some ⟨request, started, none, g, .looking⟩)
    (hget : s.step api keyPrefix (.get id raises) = some t)
    (hrun : Reachable (State.step api keyPrefix) t u)
    (hanswer : u.sessions id = some ⟨request', started', fetched', g', .answered body origin reads⟩) :
    (∀ snap ∈ reads, snap.reader = id ∧ started < snap.time) ↔
      (raises = true ∨
        s.entries (versionedKey keyPrefix (api.cacheKey request) 0) = none) := by
  obtain ⟨hclock, hzero⟩ := (reachable_readers h).fallback id _ hsession
  obtain ⟨request₀, started₀, fetched₀, g₀, hs, hcase⟩ := step_get hget
  rw [hsession, Option.some.injEq] at hs
  cases hs
  obtain rfl : g = 0 := hzero rfl
  have hlt : started < s.clock + 1 := hclock.trans (Nat.lt_succ_self _)
  rcases hcase with ⟨e, hhit, rfl⟩ | ⟨hmiss, rfl⟩
  · -- a hit: the answer stays that of the entry
    have hkept := request_run_keeps (answeredFrom_kept id started e.reads) hrun hlt
      ⟨⟨request, started, none, 0, .answered e.body e.origin e.reads⟩, put_self _ _ _,
        e.body, e.origin, rfl⟩ hanswer
    obtain ⟨_, _, hstage⟩ := hkept
    cases hstage
    unfold State.get at hhit
    split_ifs at hhit with hraises
    constructor
    · exact fun hown => absurd hown (hit_not_own h hsession rfl hhit)
    · intro hcases
      rcases hcases with hraise | hnone
      · exact absurd hraise hraises
      · rw [hhit] at hnone
        cases hnone
  · -- a miss: from here on the request reads for itself
    have hown : OwnStage id started (.reading [] : Stage ρ δ β) := by
      refine ⟨[], fun snap hsnap => ?_, Or.inl rfl⟩
      cases hsnap
    have hkept := request_run_keeps (ownStage_kept id started) hrun hlt
      ⟨⟨request, started, none, 0, .reading []⟩, put_self _ _ _, hown⟩ hanswer
    obtain ⟨reads', hown, hstage | ⟨_, _, hstage⟩⟩ := hkept
    · cases hstage
    · cases hstage
      refine ⟨fun _ => ?_, fun _ => hown⟩
      unfold State.get at hmiss
      split_ifs at hmiss with hraises
      · exact Or.inl hraises
      · exact Or.inr hmiss

/- Request 1 reads before the recompute and sets after the sweep, in namespace `0`; request 2
fails to read the generation. -/
def staleFallback : List (Action Unit ℕ) :=
  [.generation 1 () false, .get 1 false, .query 1, .commit 8, .incr 0 false,
    .sweep 0 ["groovemap:insights:g0:top-artists:10"], .set 1 true, .generation 2 () true,
    .get 2 false]

/-- Request 2 is answered with the superseded tables that request 1 read before the increment. -/
theorem superseded_answer : ∃ s : State Unit ℕ ℕ,
    runActions numberApi "groovemap:" (State.initial 7) staleFallback = some s ∧ s.tables = 8 ∧
    s.increments = [⟨4, 1⟩] ∧
    s.sessions 2 = some ⟨(), 7, none, 0, .answered 7 () [⟨1, 2, 0, 7⟩]⟩ :=
  ⟨_, rfl, rfl, rfl, rfl⟩

theorem failed_generation_read_missing : ∃ s : State Unit ℕ ℕ,
    runActions numberApi "groovemap:" (State.initial 7)
      [.generation 2 () true, .get 2 false, .query 2, .set 2 true] = some s ∧
    ∃ reads, s.sessions 2 = some ⟨(), 0, none, 0, .answered 7 () reads⟩ ∧
      ∀ snap ∈ reads, snap.reader = 2 ∧ 0 < snap.time := by
  have hbefore : ∃ s t : State Unit ℕ ℕ,
      runActions numberApi "groovemap:" (State.initial 7) [.generation 2 () true] = some s ∧
      s.sessions 2 = some ⟨(), 0, none, 0, .looking⟩ ∧
      s.entries (versionedKey "groovemap:" "insights:top-artists:10" 0) = none ∧
      s.step numberApi "groovemap:" (.get 2 false) = some t ∧
      ∃ u reads, runActions numberApi "groovemap:" t [.query 2, .set 2 true] = some u ∧
        runActions numberApi "groovemap:" (State.initial 7)
          [.generation 2 () true, .get 2 false, .query 2, .set 2 true] = some u ∧
        u.sessions 2 = some ⟨(), 0, none, 0, .answered 7 () reads⟩ :=
    ⟨_, _, rfl, rfl, rfl, rfl, _, _, rfl, rfl, rfl⟩
  obtain ⟨s, t, hs, hsession, hnone, hget, u, reads, hu, hall, hanswer⟩ := hbefore
  exact ⟨u, hall, reads, hanswer, (failed_generation_read (runActions_reachable .start hs) hsession
    hget (runActions_reachable .start hu) hanswer).mpr (Or.inr hnone)⟩

end AnalyticsEngine.Cache
