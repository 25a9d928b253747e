import AnalyticsEngine.Cache.Sweep

/-!
# Runs of invalidate_all (insights/cache.py)

One call of `invalidate_all` and any writes of other clients, in any order. The store is followed
beside the one that only the others' writes and the increment act on: the two agree but for keys
of superseded generations (`Agree.run`), and a sweep that comes to its end has deleted every such
key (`swept`).
-/

namespace AnalyticsEngine.Cache
open Library

/- A stored value; the counter's is an integer. -/
inductive Value (β : Type*) where
  | integer (n : ℤ)
  | body (body : β)

abbrev Store (β : Type*) := Key → Option (Value β)

variable {β : Type*}

def Store.put (store : Store β) (key : Key) (value : Option (Value β)) : Store β :=
  Function.update store key value

theorem Store.put_self (store : Store β) (key : Key) (value : Option (Value β)) :
    store.put key value key = value := Function.update_self _ _ _

theorem Store.put_ne {key other : Key} (h : other ≠ key) (store : Store β)
    (value : Option (Value β)) : store.put key value other = store other :=
  Function.update_of_ne h _ _

/-- INCR: 64-bit integers only, an absent key counting as 0. -/
def Store.incr (store : Store β) (key : Key) : Option (ℤ × Store β) :=
  match store key with
  | none => some (1, store.put key (some (.integer 1)))
  | some (.integer n) =>
    if n < 2 ^ 63 - 1 then some (n + 1, store.put key (some (.integer (n + 1)))) else none
  | some (.body _) => none

def Store.delete (store : Store β) (keys : List Key) : Store β :=
  fun key => if key ∈ keys then none else store key

inductive Phase where
  | starting
  | scanning (generation : ℤ) (cursor deleted : ℕ)
  | deleting (generation : ℤ) (cursor : ℕ) (stale : List Reply) (deleted : ℕ)
  | finished (generation : ℤ) (deleted : ℕ)
  -- The bump failed, and the reclamation did.
  | failed
  | stopped (generation : ℤ)

structure Sweep (β : Type*) where
  store : Store β
  phase : Phase

/- What another client does to a key, and what the calls give: a call that raises may have taken
effect. -/
inductive SweepAction (β : Type*) where
  | other (key : Key) (value : Option (Value β))
  | incr
  | incrRaises (lands : Bool)
  | scan (cursor : ℕ) (replies : List Reply)
  | scanRaises
  | delete
  | deleteRaises (lands : Bool)

/-- The loop goes on unless the cursor is back at 0. -/
def nextPhase (generation : ℤ) (cursor deleted : ℕ) : Phase :=
  if cursor = 0 then .finished generation deleted else .scanning generation cursor deleted

variable (d : DecimalDigits) (keyPrefix : String)

/-- What the increment and the other clients do to the store. -/
def kept (store : Store β) : SweepAction β → Store β
  | .other key value => store.put key value
  | .incr => match store.incr (counterKey keyPrefix) with
    | some (_, store') => store'
    | none => store
  | .incrRaises lands => match store.incr (counterKey keyPrefix) with
    | some (_, store') => if lands then store' else store
    | none => store
  | _ => store

/-- The steps, `none` where an action is not enabled. -/
def sweepStep (s : Sweep β) : SweepAction β → Option (Sweep β)
  | .other key value => some { s with store := s.store.put key value }
  | .incr =>
    match s.phase with
    | .starting =>
      match s.store.incr (counterKey keyPrefix) with
      | some (generation, store) => some ⟨store, .scanning generation 0 0⟩
      | none => some ⟨s.store, .failed⟩
    | _ => none
  | .incrRaises lands =>
    match s.phase with
    | .starting =>
      match s.store.incr (counterKey keyPrefix) with
      | some (_, store) => some ⟨if lands then store else s.store, .failed⟩
      | none => some ⟨s.store, .failed⟩
    | _ => none
  | .scan cursor replies =>
    match s.phase with
    | .scanning generation _ deleted =>
      match staleReplies d keyPrefix generation replies with
      | none => some ⟨s.store, .stopped generation⟩
      | some [] => some ⟨s.store, nextPhase generation cursor deleted⟩
      | some stale => some ⟨s.store, .deleting generation cursor stale deleted⟩
    | _ => none
  | .scanRaises =>
    match s.phase with
    | .scanning generation _ _ => some ⟨s.store, .stopped generation⟩
    | _ => none
  | .delete =>
    match s.phase with
    | .deleting generation cursor stale deleted =>
      some ⟨s.store.delete (stale.map Reply.key),
        nextPhase generation cursor (deleted + stale.length)⟩
    | _ => none
  | .deleteRaises lands =>
    match s.phase with
    | .deleting generation _ stale _ =>
      some ⟨if lands then s.store.delete (stale.map Reply.key) else s.store, .stopped generation⟩
    | _ => none

def sweepRun (s : Sweep β) (actions : List (SweepAction β)) : Option (Sweep β) :=
  actions.foldlM (sweepStep d keyPrefix) s

/-- The store that only the increment and the other clients act on. -/
def keptRun (store : Store β) (actions : List (SweepAction β)) : Store β :=
  actions.foldl (kept keyPrefix) store

def Phase.generation : Phase → Option ℤ
  | .scanning generation _ _ => some generation
  | .deleting generation _ _ _ => some generation
  | .finished generation _ => some generation
  | .stopped generation => some generation
  | _ => none

/- Between two SCAN calls. -/
def Phase.Sweeping : Phase → Prop
  | .scanning _ _ _ => True
  | .deleting _ _ _ _ => True
  | _ => False

/-- SCAN returns keys of the pattern only. -/
def ScansPattern (actions : List (SweepAction β)) : Prop :=
  ∀ cursor replies, .scan cursor replies ∈ actions → ∀ reply ∈ replies, Matches keyPrefix reply.key

/-- A key of the pattern that is there throughout is returned. -/
def ScansAll (store : Store β) (actions : List (SweepAction β)) : Prop :=
  ∀ key, Matches keyPrefix key →
    (∀ earlier later s, actions = earlier ++ later →
      sweepRun d keyPrefix ⟨store, .starting⟩ earlier = some s → s.phase.Sweeping →
        s.store key ≠ none) →
    ∃ cursor replies, .scan cursor replies ∈ actions ∧ ∃ reply ∈ replies, reply.key = key

/-- What a step can do. -/
inductive SweepMove : Sweep β → SweepAction β → Sweep β → Prop where
  | other (store : Store β) (phase : Phase) (key : Key) (value : Option (Value β)) :
      SweepMove ⟨store, phase⟩ (.other key value) ⟨store.put key value, phase⟩
  | bump (store : Store β) {generation : ℤ} {store' : Store β}
      (hincr : store.incr (counterKey keyPrefix) = some (generation, store')) :
      SweepMove ⟨store, .starting⟩ .incr ⟨store', .scanning generation 0 0⟩
  | unbumped (store : Store β) (a : SweepAction β) :
      SweepMove ⟨store, .starting⟩ a ⟨kept keyPrefix store a, .failed⟩
  | page (store : Store β) (generation : ℤ) (cursor cursor' deleted : ℕ) {replies : List Reply}
      (hstale : staleReplies d keyPrefix generation replies = some []) :
      SweepMove ⟨store, .scanning generation cursor deleted⟩ (.scan cursor' replies)
        ⟨store, nextPhase generation cursor' deleted⟩
  | stalePage (store : Store β) (generation : ℤ) (cursor cursor' deleted : ℕ)
      {replies stale : List Reply}
      (hstale : staleReplies d keyPrefix generation replies = some stale) :
      SweepMove ⟨store, .scanning generation cursor deleted⟩ (.scan cursor' replies)
        ⟨store, .deleting generation cursor' stale deleted⟩
  | scanFault (store : Store β) (generation : ℤ) (cursor deleted : ℕ) (a : SweepAction β)
      (hkept : ∀ other, kept keyPrefix other a = other) :
      SweepMove ⟨store, .scanning generation cursor deleted⟩ a ⟨store, .stopped generation⟩
  | delete (store : Store β) (generation : ℤ) (cursor : ℕ) (stale : List Reply) (deleted : ℕ) :
      SweepMove ⟨store, .deleting generation cursor stale deleted⟩ .delete
        ⟨store.delete (stale.map Reply.key),
          nextPhase generation cursor (deleted + stale.length)⟩
  | deleteFault (store : Store β) (generation : ℤ) (cursor : ℕ) (stale : List Reply) (deleted : ℕ)
      (lands : Bool) :
      SweepMove ⟨store, .deleting generation cursor stale deleted⟩ (.deleteRaises lands)
        ⟨if lands then store.delete (stale.map Reply.key) else store, .stopped generation⟩

section
variable {d keyPrefix}

theorem sweepStep_move {s t : Sweep β} {a : SweepAction β}
    (h : sweepStep d keyPrefix s a = some t) : SweepMove d keyPrefix s a t := by
  obtain ⟨store, phase⟩ := s
  cases a with
  | other key value =>
    cases h
    exact .other store phase key value
  | incr =>
    simp only [sweepStep] at h
    split at h
    · split at h
      · rename_i hincr
        cases h
        exact .bump store hincr
      · rename_i hincr
        cases h
        have hkept : kept keyPrefix store .incr = store := by
          simp only [kept, hincr]
        have hmove := @SweepMove.unbumped β d keyPrefix store .incr
        rwa [hkept] at hmove
    · cases h
  | incrRaises lands =>
    simp only [sweepStep] at h
    have hmove := @SweepMove.unbumped β d keyPrefix store (.incrRaises lands)
    simp only [kept] at hmove
    split at h
    · split at h
      · rename_i hincr
        cases h
        rwa [hincr] at hmove
      · rename_i hincr
        cases h
        rwa [hincr] at hmove
    · cases h
  | scan cursor' replies =>
    simp only [sweepStep] at h
    split at h
    · split at h
      · cases h
        exact .scanFault store _ _ _ _ fun _ => rfl
      · rename_i hstale
        cases h
        exact .page store _ _ _ _ hstale
      · rename_i hstale
        cases h
        exact .stalePage store _ _ _ _ hstale
    · cases h
  | scanRaises =>
    simp only [sweepStep] at h
    split at h
    · cases h
      exact .scanFault store _ _ _ _ fun _ => rfl
    · cases h
  | delete =>
    simp only [sweepStep] at h
    split at h
    · cases h
      exact .delete store _ _ _ _
    · cases h
  | deleteRaises lands =>
    simp only [sweepStep] at h
    split at h
    · cases h
      exact .deleteFault store _ _ _ _ lands
    · cases h

end

/-! ### What is left alone -/

/-- The stores agree but for the keys that are, or are about to be, deleted. -/
structure Agree (s : Sweep β) (store : Store β) : Prop where
  same : ∀ key, (∀ generation, s.phase.generation = some generation →
    ¬Superseded d keyPrefix generation key) → s.store key = store key
  stale : ∀ generation cursor stale deleted, s.phase = .deleting generation cursor stale deleted →
    ∀ reply ∈ stale, Superseded d keyPrefix generation reply.key

section
variable {d keyPrefix}

theorem asStr_eq {reply : Reply} {text : String} (h : asStr reply = some text) :
    reply.key.text = text := by
  cases reply with
  | str key =>
    cases h
    rfl
  | bytes key =>
    rw [asStr] at h
    split at h
    · exact Option.some.inj h
    · cases h

theorem mem_staleReplies {generation : ℤ} {replies stale : List Reply}
    (h : staleReplies d keyPrefix generation replies = some stale) {reply : Reply} :
    reply ∈ stale ↔ reply ∈ replies ∧ isStale d keyPrefix generation reply.key.text = true := by
  induction replies generalizing stale with
  | nil =>
    cases h
    simp
  | cons first replies ih =>
    rw [staleReplies] at h
    obtain ⟨text, htext, hrest⟩ := Option.bind_eq_some_iff.mp h
    obtain ⟨later, hlater, heq⟩ := Option.bind_eq_some_iff.mp hrest
    have hkey := asStr_eq htext
    have hih := ih hlater
    rw [← Option.some.inj heq]
    split
    · rename_i hstale
      rw [List.mem_cons, List.mem_cons, hih]
      constructor
      · rintro (rfl | ⟨hmem, hs⟩)
        · exact ⟨Or.inl rfl, by rw [hkey]; exact hstale⟩
        · exact ⟨Or.inr hmem, hs⟩
      · rintro ⟨rfl | hmem, hs⟩
        · exact Or.inl rfl
        · exact Or.inr ⟨hmem, hs⟩
    · rename_i hstale
      rw [List.mem_cons, hih]
      constructor
      · rintro ⟨hmem, hs⟩
        exact ⟨Or.inr hmem, hs⟩
      · rintro ⟨rfl | hmem, hs⟩
        · rw [hkey] at hs
          exact absurd hs hstale
        · exact ⟨hmem, hs⟩

theorem nextPhase_ne_deleting {generation g : ℤ} {cursor deleted c n : ℕ} {stale : List Reply} :
    nextPhase generation cursor deleted ≠ .deleting g c stale n := by
  unfold nextPhase
  split <;> exact Phase.noConfusion

theorem nextPhase_generation (generation : ℤ) (cursor deleted : ℕ) :
    (nextPhase generation cursor deleted).generation = some generation := by
  unfold nextPhase
  split <;> rfl

variable {s t : Sweep β} {store : Store β}

theorem Agree.before (h : Agree d keyPrefix s store) (hnone : s.phase.generation = none) :
    s.store = store := by
  funext key
  apply h.same key
  intro generation hgeneration
  rw [hnone] at hgeneration
  cases hgeneration

/-- A step of the sweep that leaves the store alone. -/
theorem Agree.rephase (h : Agree d keyPrefix s store) {generation : ℤ} {phase : Phase}
    (hold : s.phase.generation = some generation) (hnew : phase.generation = some generation)
    (hstale : ∀ g cursor stale deleted, phase = .deleting g cursor stale deleted →
      ∀ reply ∈ stale, Superseded d keyPrefix g reply.key) :
    Agree d keyPrefix ⟨s.store, phase⟩ store where
  same := by
    intro key hkey
    apply h.same key
    rw [hold, ← hnew]
    exact hkey
  stale := hstale

theorem Agree.deleted (h : Agree d keyPrefix s store) {generation : ℤ} {cursor deleted : ℕ}
    {stale : List Reply} (hphase : s.phase = .deleting generation cursor stale deleted)
    {phase : Phase} (hnew : phase.generation = some generation)
    (hne : ∀ g cursor stale deleted, phase ≠ .deleting g cursor stale deleted) :
    Agree d keyPrefix ⟨s.store.delete (stale.map Reply.key), phase⟩ store where
  same := by
    intro key hkey
    have hnot := hkey generation hnew
    have hmiss : key ∉ stale.map Reply.key := by
      intro hmem
      obtain ⟨reply, hreply, rfl⟩ := List.mem_map.mp hmem
      exact hnot (h.stale generation cursor stale deleted hphase reply hreply)
    change (if key ∈ stale.map Reply.key then none else s.store key) = _
    rw [if_neg hmiss]
    apply h.same key
    rw [hphase]
    intro g hg
    cases hg
    exact hnot
  stale := fun g cursor stale deleted hdeleting => absurd hdeleting (hne g cursor stale deleted)

theorem agree_self (store : Store β) {phase : Phase}
    (hne : ∀ g cursor stale deleted, phase ≠ .deleting g cursor stale deleted) :
    Agree d keyPrefix ⟨store, phase⟩ store where
  same := fun _ _ => rfl
  stale := fun g cursor stale deleted hdeleting => absurd hdeleting (hne g cursor stale deleted)

theorem Agree.other (h : Agree d keyPrefix s store) (key : Key) (value : Option (Value β)) :
    Agree d keyPrefix { s with store := s.store.put key value } (store.put key value) where
  same := by
    intro other hother
    by_cases heq : other = key
    · subst heq
      exact (s.store.put_self other value).trans (store.put_self other value).symm
    · have hsame := h.same other hother
      rw [Store.put_ne heq, ← hsame]
      exact Store.put_ne heq s.store value
  stale := h.stale

/-- A step keeps the stores in agreement. -/
theorem Agree.step (h : Agree d keyPrefix s store) {a : SweepAction β}
    (hstep : sweepStep d keyPrefix s a = some t)
    (hpattern : ∀ cursor replies, a = .scan cursor replies →
      ∀ reply ∈ replies, Matches keyPrefix reply.key) :
    Agree d keyPrefix t (kept keyPrefix store a) := by
  cases sweepStep_move hstep with
  | other _ _ key value => exact h.other key value
  | bump _ hincr =>
    obtain rfl := h.before rfl
    simp only [kept, hincr]
    exact agree_self _ fun _ _ _ _ => Phase.noConfusion
  | unbumped _ a =>
    obtain rfl := h.before rfl
    exact agree_self _ fun _ _ _ _ => Phase.noConfusion
  | page _ generation cursor cursor' deleted hstale =>
    exact h.rephase rfl (nextPhase_generation _ _ _) fun _ _ _ _ hdeleting =>
      absurd hdeleting nextPhase_ne_deleting
  | @stalePage _ generation cursor cursor' deleted replies stale hstale =>
    apply h.rephase rfl rfl
    intro g c stale' n hdeleting reply hreply
    cases hdeleting
    obtain ⟨hmem, hs⟩ := (mem_staleReplies hstale).mp hreply
    exact (isStale_iff (hpattern cursor' replies rfl reply hmem) generation).mp hs
  | scanFault _ generation cursor deleted a hkept =>
    rw [hkept]
    exact h.rephase rfl rfl fun _ _ _ _ hdeleting => Phase.noConfusion hdeleting
  | delete _ generation cursor stale deleted =>
    exact h.deleted rfl (nextPhase_generation _ _ _) fun _ _ _ _ => nextPhase_ne_deleting
  | deleteFault _ generation cursor stale deleted lands =>
    cases lands with
    | false => exact h.rephase rfl rfl fun _ _ _ _ hdeleting => Phase.noConfusion hdeleting
    | true => exact h.deleted rfl rfl fun _ _ _ _ => Phase.noConfusion

theorem Agree.run (h : Agree d keyPrefix s store) {actions : List (SweepAction β)}
    (hrun : sweepRun d keyPrefix s actions = some t) (hpattern : ScansPattern keyPrefix actions) :
    Agree d keyPrefix t (keptRun keyPrefix store actions) := by
  induction actions generalizing s store with
  | nil =>
    cases hrun
    exact h
  | cons a actions ih =>
    unfold sweepRun at hrun
    rw [List.foldlM_cons] at hrun
    obtain ⟨s', hstep, hlater⟩ := Option.bind_eq_some_iff.mp hrun
    have hfirst : ∀ cursor replies, a = .scan cursor replies →
        ∀ reply ∈ replies, Matches keyPrefix reply.key := by
      rintro cursor replies rfl
      exact hpattern cursor replies List.mem_cons_self
    have hrest : ScansPattern keyPrefix actions := fun cursor replies hmem =>
      hpattern cursor replies (List.mem_cons_of_mem _ hmem)
    exact ih (h.step hstep hfirst) hlater hrest

/-! ### What is deleted -/

theorem sweepRun_append (s : Sweep β) (earlier later : List (SweepAction β)) :
    sweepRun d keyPrefix s (earlier ++ later) =
      (sweepRun d keyPrefix s earlier).bind fun t => sweepRun d keyPrefix t later := by
  unfold sweepRun
  exact List.foldlM_append

theorem sweepRun_cons (s : Sweep β) (a : SweepAction β) (actions : List (SweepAction β)) :
    sweepRun d keyPrefix s (a :: actions) =
      (sweepStep d keyPrefix s a).bind fun t => sweepRun d keyPrefix t actions := by
  unfold sweepRun
  rw [List.foldlM_cons]
  rfl

/-- A call that has raised goes no further. -/
theorem sweepRun_over {actions : List (SweepAction β)} (hrun : sweepRun d keyPrefix s actions = some t)
    (hover : s.phase = .failed ∨ ∃ generation, s.phase = .stopped generation) :
    t.phase = s.phase := by
  induction actions generalizing s with
  | nil =>
    cases hrun
    rfl
  | cons a actions ih =>
    rw [sweepRun_cons] at hrun
    obtain ⟨s', hstep, hlater⟩ := Option.bind_eq_some_iff.mp hrun
    have hsame : s'.phase = s.phase := by
      cases sweepStep_move hstep with
      | other => rfl
      | _ =>
        rcases hover with hover | ⟨generation, hover⟩
        · cases hover
        · cases hover
    rw [← hsame] at hover
    rw [ih hlater hover, hsame]

/-- A sweep keeps its generation. -/
theorem sweepRun_generation {actions : List (SweepAction β)} {generation : ℤ}
    (hrun : sweepRun d keyPrefix s actions = some t)
    (hs : s.phase.generation = some generation) : t.phase.generation = some generation := by
  induction actions generalizing s with
  | nil =>
    cases hrun
    exact hs
  | cons a actions ih =>
    rw [sweepRun_cons] at hrun
    obtain ⟨s', hstep, hlater⟩ := Option.bind_eq_some_iff.mp hrun
    apply ih hlater
    cases sweepStep_move hstep with
    | other => exact hs
    | bump => cases hs
    | unbumped => cases hs
    | page => exact (nextPhase_generation _ _ _).trans hs
    | stalePage => exact hs
    | scanFault => exact hs
    | delete => exact (nextPhase_generation _ _ _).trans hs
    | deleteFault => exact hs

variable {generation : ℤ} {total : ℕ}

/-- A sweep that comes to its end performs the deletion it is at. -/
theorem sweepRun_deletes {actions : List (SweepAction β)} {cursor deleted : ℕ}
    {stale : List Reply} (hrun : sweepRun d keyPrefix s actions = some t)
    (hphase : s.phase = .deleting generation cursor stale deleted)
    (hend : t.phase = .finished generation total) :
    ∃ earlier later m, actions = earlier ++ later ∧ sweepRun d keyPrefix s earlier = some m ∧
      m.phase.generation = some generation ∧ ∀ reply ∈ stale, m.store reply.key = none := by
  induction actions generalizing s with
  | nil =>
    cases hrun
    rw [hphase] at hend
    cases hend
  | cons a actions ih =>
    rw [sweepRun_cons] at hrun
    obtain ⟨s', hstep, hlater⟩ := Option.bind_eq_some_iff.mp hrun
    have hmove := sweepStep_move hstep
    cases hmove with
    | other store phase key value =>
      obtain ⟨earlier, later, m, rfl, hm, hgeneration, hgone⟩ := ih hlater hphase
      refine ⟨_ :: earlier, later, m, rfl, ?_, hgeneration, hgone⟩
      rw [sweepRun_cons, hstep]
      exact hm
    | bump => cases hphase
    | unbumped => cases hphase
    | page => cases hphase
    | stalePage => cases hphase
    | scanFault => cases hphase
    | delete store _ _ _ _ =>
      cases hphase
      refine ⟨[.delete], actions, ⟨store.delete (stale.map Reply.key),
        nextPhase generation cursor (deleted + stale.length)⟩, rfl, ?_,
          nextPhase_generation _ _ _, ?_⟩
      · rw [sweepRun_cons, hstep]
        rfl
      · intro reply hreply
        exact if_pos (List.mem_map.mpr ⟨reply, hreply, rfl⟩)
    | deleteFault =>
      cases hphase
      have hsame := sweepRun_over hlater (Or.inr ⟨_, rfl⟩)
      rw [hend] at hsame
      cases hsame

/-- A stale key of a page is deleted by a sweep that comes to its end. -/
theorem scan_deletes {actions : List (SweepAction β)} {cursor : ℕ} {replies : List Reply}
    (hrun : sweepRun d keyPrefix s (.scan cursor replies :: actions) = some t)
    (hend : t.phase = .finished generation total) {reply : Reply} (hreply : reply ∈ replies)
    (hstale : isStale d keyPrefix generation reply.key.text = true) :
    ∃ earlier later m, actions = earlier ++ later ∧
      sweepRun d keyPrefix s (.scan cursor replies :: earlier) = some m ∧
        m.phase.generation = some generation ∧ m.store reply.key = none := by
  rw [sweepRun_cons] at hrun
  obtain ⟨s', hstep, hlater⟩ := Option.bind_eq_some_iff.mp hrun
  have hgeneration : ∀ g, s'.phase.generation = some g → g = generation := by
    intro g hg
    have hlast := sweepRun_generation hlater hg
    rw [hend] at hlast
    exact (Option.some.inj hlast).symm
  have hmove := sweepStep_move hstep
  cases hmove with
  | unbumped =>
    have hsame := sweepRun_over hlater (Or.inl rfl)
    rw [hend] at hsame
    cases hsame
  | page store g c _ n hnone =>
    obtain rfl := hgeneration g (nextPhase_generation _ _ _)
    have hmem := (mem_staleReplies hnone).mpr ⟨hreply, hstale⟩
    cases hmem
  | @stalePage store g c _ n _ stale hsome =>
    obtain rfl := hgeneration g rfl
    obtain ⟨earlier, later, m, rfl, hm, hg, hgone⟩ := sweepRun_deletes hlater rfl hend
    refine ⟨earlier, later, m, rfl, ?_, hg,
      hgone reply ((mem_staleReplies hsome).mpr ⟨hreply, hstale⟩)⟩
    rw [sweepRun_cons, hstep]
    exact hm
  | scanFault =>
    have hsame := sweepRun_over hlater (Or.inr ⟨_, rfl⟩)
    rw [hend] at hsame
    cases hsame

theorem Store.incr_ne {store store' : Store β} {counter key : Key} {n : ℤ} (hkey : key ≠ counter)
    (hincr : store.incr counter = some (n, store')) : store' key = store key := by
  unfold Store.incr at hincr
  split at hincr
  · cases hincr
    exact Store.put_ne hkey _ _
  · split at hincr
    · cases hincr
      exact Store.put_ne hkey _ _
    · cases hincr
  · cases hincr

theorem kept_absent {a : SweepAction β} {key : Key} (hkey : key ≠ counterKey keyPrefix)
    (hwrites : ∀ value, a ≠ .other key (some value)) (habsent : store key = none) :
    kept keyPrefix store a key = none := by
  cases a with
  | other written value =>
    by_cases heq : key = written
    · subst heq
      cases value with
      | none => exact store.put_self key none
      | some value => exact absurd rfl (hwrites value)
    · exact (Store.put_ne heq store value).trans habsent
  | incr =>
    cases hincr : store.incr (counterKey keyPrefix) with
    | none =>
      simp only [kept, hincr]
      exact habsent
    | some x =>
      simp only [kept, hincr]
      exact (Store.incr_ne hkey hincr).trans habsent
  | incrRaises lands =>
    cases hincr : store.incr (counterKey keyPrefix) with
    | none =>
      simp only [kept, hincr]
      exact habsent
    | some x =>
      simp only [kept, hincr]
      split
      · exact (Store.incr_ne hkey hincr).trans habsent
      · exact habsent
  | scan => exact habsent
  | scanRaises => exact habsent
  | delete => exact habsent
  | deleteRaises => exact habsent

theorem delete_absent {keys : List Key} {key : Key} (habsent : store key = none) :
    store.delete keys key = none := by
  unfold Store.delete
  split
  · rfl
  · exact habsent

/-- A key that is gone stays away unless another client writes it. -/
theorem sweepRun_absent {actions : List (SweepAction β)} {key : Key}
    (hrun : sweepRun d keyPrefix s actions = some t) (hkey : key ≠ counterKey keyPrefix)
    (hwrites : ∀ value, .other key (some value) ∉ actions) (habsent : s.store key = none) :
    t.store key = none := by
  induction actions generalizing s with
  | nil =>
    cases hrun
    exact habsent
  | cons a actions ih =>
    rw [sweepRun_cons] at hrun
    obtain ⟨s', hstep, hlater⟩ := Option.bind_eq_some_iff.mp hrun
    have hwrite : ∀ value, a ≠ .other key (some value) := by
      rintro value rfl
      exact hwrites value List.mem_cons_self
    have hkept := kept_absent hkey hwrite habsent
    apply ih hlater fun value hmem => hwrites value (List.mem_cons_of_mem _ hmem)
    cases sweepStep_move hstep with
    | other => exact hkept
    | bump store hincr => exact (Store.incr_ne hkey hincr).trans habsent
    | unbumped => exact hkept
    | page => exact habsent
    | stalePage => exact habsent
    | scanFault => exact habsent
    | delete => exact delete_absent habsent
    | deleteFault _ _ _ _ _ lands =>
      cases lands with
      | false => exact habsent
      | true => exact delete_absent habsent

/-- The keys of a sweep that comes to its end: each of a superseded generation is away at some
time. -/
theorem swept {actions : List (SweepAction β)}
    (hrun : sweepRun d keyPrefix ⟨store, .starting⟩ actions = some t)
    (hend : t.phase = .finished generation total) (hall : ScansAll d keyPrefix store actions)
    {key : Key} (hkey : Superseded d keyPrefix generation key) :
    ∃ earlier later m, actions = earlier ++ later ∧
      sweepRun d keyPrefix ⟨store, .starting⟩ earlier = some m ∧
        m.phase.generation = some generation ∧ m.store key = none := by
  by_cases hthere : ∀ earlier later m, actions = earlier ++ later →
      sweepRun d keyPrefix ⟨store, .starting⟩ earlier = some m → m.phase.Sweeping →
        m.store key ≠ none
  · obtain ⟨cursor, replies, hscan, reply, hreply, rfl⟩ := hall key hkey.matches hthere
    obtain ⟨earlier, later, rfl⟩ := List.append_of_mem hscan
    rw [sweepRun_append] at hrun
    obtain ⟨m, hm, hlater⟩ := Option.bind_eq_some_iff.mp hrun
    obtain ⟨first, last, m', rfl, hm', hgeneration, hgone⟩ :=
      scan_deletes hlater hend hreply ((isStale_iff hkey.matches generation).mpr hkey)
    refine ⟨earlier ++ .scan cursor replies :: first, last, m', ?_, ?_, hgeneration, hgone⟩
    · rw [List.append_assoc, List.cons_append]
    · rw [sweepRun_append, hm]
      exact hm'
  · push Not at hthere
    obtain ⟨earlier, later, m, hsplit, hm, hsweeping, hgone⟩ := hthere
    refine ⟨earlier, later, m, hsplit, hm, ?_, hgone⟩
    obtain ⟨g, hg⟩ : ∃ g, m.phase.generation = some g := by
      cases hphase : m.phase with
      | scanning g _ _ => exact ⟨g, rfl⟩
      | deleting g _ _ _ => exact ⟨g, rfl⟩
      | _ =>
        rw [hphase] at hsweeping
        exact hsweeping.elim
    have hrest := hrun
    rw [hsplit, sweepRun_append, hm] at hrest
    have hlast := sweepRun_generation hrest hg
    rw [hend] at hlast
    rw [hg]
    exact hlast.symm

theorem Store.incr_value {store store' : Store β} {key : Key} {n : ℤ}
    (h : store.incr key = some (n, store')) :
    store' key = some (.integer n) ∧
      (store key = none ∧ n = 1 ∨ ∃ old, store key = some (.integer old) ∧ n = old + 1) := by
  unfold Store.incr at h
  split at h
  · rename_i hkey
    cases h
    exact ⟨store.put_self key _, Or.inl ⟨hkey, rfl⟩⟩
  · rename_i old hkey
    split at h
    · cases h
      exact ⟨store.put_self key _, Or.inr ⟨old, hkey, rfl⟩⟩
    · cases h
  · cases h

/-- Once the call is past its increment it does nothing but delete. -/
theorem keptRun_same {actions : List (SweepAction β)} {key : Key} (kept : Store β)
    (hrun : sweepRun d keyPrefix s actions = some t) (hs : s.phase.generation = some generation)
    (hwrites : ∀ value, .other key value ∉ actions) :
    keptRun keyPrefix kept actions key = kept key := by
  induction actions generalizing s kept with
  | nil => rfl
  | cons a actions ih =>
    rw [sweepRun_cons] at hrun
    obtain ⟨s', hstep, hlater⟩ := Option.bind_eq_some_iff.mp hrun
    have hrest : ∀ value, .other key value ∉ actions := fun value hmem =>
      hwrites value (List.mem_cons_of_mem _ hmem)
    have hgeneration : sweepRun d keyPrefix s [a] = some s' := by
      rw [sweepRun_cons, hstep]
      rfl
    have hlast := ih (AnalyticsEngine.Cache.kept keyPrefix kept a) hlater
      (sweepRun_generation hgeneration hs) hrest
    refine hlast.trans ?_
    cases sweepStep_move hstep with
    | other store phase written value =>
      apply Store.put_ne
      rintro rfl
      exact hwrites value List.mem_cons_self
    | bump => cases hs
    | unbumped => cases hs
    | scanFault _ _ _ _ _ hkept => rw [hkept]
    | _ => rfl

/-- The increment of a call that reaches its scan. -/
theorem bumped {actions : List (SweepAction β)} (hs : s.phase = .starting)
    (hrun : sweepRun d keyPrefix s actions = some t)
    (hgeneration : t.phase.generation = some generation) :
    ∃ earlier later store' m, actions = earlier ++ .incr :: later ∧
      (keptRun keyPrefix s.store earlier).incr (counterKey keyPrefix) =
        some (generation, store') ∧
      m.phase.generation = some generation ∧ sweepRun d keyPrefix m later = some t := by
  induction actions generalizing s with
  | nil =>
    cases hrun
    rw [hs] at hgeneration
    cases hgeneration
  | cons a actions ih =>
    rw [sweepRun_cons] at hrun
    obtain ⟨s', hstep, hlater⟩ := Option.bind_eq_some_iff.mp hrun
    cases sweepStep_move hstep with
    | other store phase key value =>
      obtain rfl : phase = .starting := hs
      obtain ⟨earlier, later, store', m, rfl, hincr, hm⟩ := ih rfl hlater
      exact ⟨.other key value :: earlier, later, store', m, rfl, hincr, hm⟩
    | bump store hincr =>
      have hlast := sweepRun_generation hlater rfl
      rw [hgeneration] at hlast
      cases hlast
      exact ⟨[], actions, _, _, rfl, hincr, rfl, hlater⟩
    | unbumped =>
      have hsame := sweepRun_over hlater (Or.inl rfl)
      rw [hsame] at hgeneration
      cases hgeneration
    | _ => cases hs

end

/-- A call of `invalidate_all` beside any writes of other clients. It changes nothing but keys of
superseded generations and the counter. If nothing raises, the counter is one higher, and every
key of a superseded generation is gone, unless it has been written again. -/
theorem invalidateAll_sweeps (d : DecimalDigits) (keyPrefix : String) (store : Store β)
    (actions : List (SweepAction β)) (t : Sweep β)
    (hrun : sweepRun d keyPrefix ⟨store, .starting⟩ actions = some t)
    (hpattern : ScansPattern keyPrefix actions) :
    (∀ key, (∀ generation, t.phase.generation = some generation →
        ¬Superseded d keyPrefix generation key) →
      t.store key = keptRun keyPrefix store actions key) ∧
    ∀ generation total, t.phase = .finished generation total →
      ScansAll d keyPrefix store actions →
      (∃ earlier later, actions = earlier ++ .incr :: later ∧
        (keptRun keyPrefix store earlier (counterKey keyPrefix) = none ∧ generation = 1 ∨
          ∃ old, keptRun keyPrefix store earlier (counterKey keyPrefix) = some (.integer old) ∧
            generation = old + 1) ∧
        ((∀ value, .other (counterKey keyPrefix) value ∉ later) →
          t.store (counterKey keyPrefix) = some (.integer generation))) ∧
      ∀ key, Superseded d keyPrefix generation key →
        ∃ earlier later m, actions = earlier ++ later ∧
          sweepRun d keyPrefix ⟨store, .starting⟩ earlier = some m ∧
          m.phase.generation = some generation ∧ m.store key = none ∧
          ((∀ value, .other key (some value) ∉ later) → t.store key = none) := by
  have hstart : Agree d keyPrefix ⟨store, .starting⟩ store :=
    agree_self store fun _ _ _ _ => Phase.noConfusion
  have hagree := hstart.run hrun hpattern
  refine ⟨hagree.same, ?_⟩
  intro generation total hend hall
  have hgeneration : t.phase.generation = some generation := by
    rw [hend]
    rfl
  constructor
  · obtain ⟨earlier, later, store', m, hsplit, hincr, hm, hlater⟩ :=
      bumped rfl hrun hgeneration
    obtain ⟨hvalue, hold⟩ := Store.incr_value hincr
    refine ⟨earlier, later, hsplit, hold, ?_⟩
    intro hwrites
    rw [hagree.same _ fun g _ => not_superseded_counterKey g, hsplit]
    have hbump : keptRun keyPrefix store (earlier ++ .incr :: later) =
        keptRun keyPrefix store' later := by
      unfold keptRun at hincr ⊢
      rw [List.foldl_append, List.foldl_cons]
      simp only [kept, hincr]
    rw [hbump, keptRun_same store' hlater hm hwrites, hvalue]
  · intro key hkey
    obtain ⟨earlier, later, m, hsplit, hm, hg, hgone⟩ := swept hrun hend hall hkey
    refine ⟨earlier, later, m, hsplit, hm, hg, hgone, ?_⟩
    intro hwrites
    rw [hsplit, sweepRun_append, hm] at hrun
    apply sweepRun_absent hrun ?_ hwrites hgone
    rintro rfl
    exact not_superseded_counterKey generation hkey

/- A store with one key, of generation 0, and a call that increments the absent counter. -/
def oldKey : Key := ⟨"gm:insights:g0:x", []⟩

def oneKey : Store Unit := fun key => if key = oldKey then some (.body ()) else none

def oneSweep : List (SweepAction Unit) := [.incr, .scan 0 [.bytes oldKey], .delete]

def sweptOne : Sweep Unit :=
  ⟨(oneKey.put (counterKey "gm:") (some (.integer 1))).delete [oldKey], .finished 1 1⟩

theorem oneSweep_run : sweepRun asciiDigits "gm:" ⟨oneKey, .starting⟩ oneSweep = some sweptOne := rfl

theorem oneSweep_pattern : ScansPattern "gm:" oneSweep := by
  intro cursor replies hscan reply hreply
  have hreplies : replies = [.bytes oldKey] := by
    simp only [oneSweep, List.mem_cons, List.not_mem_nil, or_false, reduceCtorEq, false_or,
      SweepAction.scan.injEq] at hscan
    exact hscan.2
  rw [hreplies, List.mem_singleton] at hreply
  subst hreply
  unfold Matches
  decide

theorem oneSweep_scansAll : ScansAll asciiDigits "gm:" oneKey oneSweep := by
  intro key hmatches hthere
  have hpresent := hthere [.incr] [.scan 0 [.bytes oldKey], .delete]
    ⟨oneKey.put (counterKey "gm:") (some (.integer 1)), .scanning 1 0 0⟩ rfl rfl trivial
  have hkey : key = oldKey := by
    by_contra hne
    apply hpresent
    have hcounter : key ≠ counterKey "gm:" := by
      rintro rfl
      revert hmatches
      unfold Matches
      decide
    exact (Store.put_ne hcounter oneKey _).trans (if_neg hne)
  subst hkey
  exact ⟨0, [.bytes oldKey], by simp [oneSweep], .bytes oldKey, List.mem_cons_self, rfl⟩

theorem oldKey_superseded : Superseded asciiDigits "gm:" 1 oldKey :=
  ⟨['0'], ⟨by decide, List.forall_mem_singleton.mpr rfl, ['x'], rfl⟩, by decide⟩

theorem invalidateAll_sweeps_one :
    ∃ earlier later m, oneSweep = earlier ++ later ∧
      sweepRun asciiDigits "gm:" ⟨oneKey, .starting⟩ earlier = some m ∧
      m.phase.generation = some 1 ∧ m.store oldKey = none ∧
      ((∀ value, .other oldKey (some value) ∉ later) → sweptOne.store oldKey = none) :=
  ((invalidateAll_sweeps asciiDigits "gm:" oneKey oneSweep sweptOne oneSweep_run
    oneSweep_pattern).2 1 1 rfl oneSweep_scansAll).2 oldKey oldKey_superseded

end AnalyticsEngine.Cache
