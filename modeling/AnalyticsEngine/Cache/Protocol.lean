import AnalyticsEngine.Library.Transition
import AnalyticsEngine.Cache.Keys
import Mathlib.Order.Nat

/-!
# The generation protocol (insights/cache.py and its callers)

Requests, scheduler cycles and Valkey itself take steps in any order. A request reads the
generation, gets, queries PostgreSQL until its response is determined, sets and answers; a
cycle commits, increments the counter and sweeps. A command that raises may still have taken
effect: a set or an increment can land although its caller sees an error. Times, and the number
of commits and increments so far, are kept only to say which PostgreSQL state a body shows.
-/

namespace AnalyticsEngine.Cache
open Library

/- The endpoints: the key a request is cached under, its response from the tables its queries
saw (`none` while it needs another query), and whether the response to these is cached. -/
structure Api (ρ δ β : Type*) where
  cacheKey : ρ → String
  respond : ρ → List δ → Option β
  respond_nil : ∀ request, respond request [] = none
  caches : ρ → List δ → Bool

/-- One query of request `reader`. -/
structure Snapshot (δ : Type*) where
  reader : ℕ
  time : ℕ
  commits : ℕ
  tables : δ

/- One increment of the generation counter that took effect. -/
structure Increment where
  time : ℕ
  commits : ℕ

/- A stored body, with the request and the queries it came from. What `json.loads` makes of the
text that `json.dumps` wrote of a finite JSON value is that value. -/
structure Entry (ρ δ β : Type*) where
  body : β
  origin : ρ
  reads : List (Snapshot δ)

inductive Stage (ρ δ β : Type*) where
  | looking
  | reading (reads : List (Snapshot δ))
  | answered (body : β) (origin : ρ) (reads : List (Snapshot δ))

/- One request. `fetched` is the time of its generation read, unless that read raised. -/
structure Session (ρ δ β : Type*) where
  request : ρ
  started : ℕ
  fetched : Option ℕ
  generation : ℕ
  stage : Stage ρ δ β

/- PostgreSQL, Valkey, the requests by id and the sweeps by cycle. `log` holds the tables each
commit left, oldest first. -/
structure State (ρ δ β : Type*) where
  clock : ℕ
  tables : δ
  log : List δ
  counter : Option ℕ
  increments : List Increment
  entries : String → Option (Entry ρ δ β)
  sessions : ℕ → Option (Session ρ δ β)
  sweeps : ℕ → Option ℕ

def State.initial {ρ δ β : Type*} (tables : δ) : State ρ δ β where
  clock := 0
  tables := tables
  log := []
  counter := none
  increments := []
  entries := fun _ => none
  sessions := fun _ => none
  sweeps := fun _ => none

inductive Action (ρ δ : Type*) where
  | generation (id : ℕ) (request : ρ) (raises : Bool)
  | get (id : ℕ) (raises : Bool)
  | query (id : ℕ)
  | set (id : ℕ) (lands : Bool)
  | commit (tables : δ)
  | incr (cycle : ℕ) (raises : Bool)
  | sweep (cycle : ℕ) (page : List String)
  | expire (key : String)

variable {ρ δ β : Type*}

def State.tick (s : State ρ δ β) : State ρ δ β := { s with clock := s.clock + 1 }

def State.put (s : State ρ δ β) (id : ℕ) (session : Session ρ δ β) : State ρ δ β :=
  { s with sessions := Function.update s.sessions id (some session) }

def State.store (s : State ρ δ β) (key : String) (entry : Entry ρ δ β) : State ρ δ β :=
  { s with entries := Function.update s.entries key (some entry) }

/-- `InsightsCache.generation`: an unset counter and a raising read are both generation 0. -/
def State.generation (s : State ρ δ β) (raises : Bool) : ℕ :=
  if raises then 0 else s.counter.getD 0

/-- `InsightsCache.get`: a raising read is a miss. -/
def State.get (s : State ρ δ β) (keyPrefix : String) (key : String) (generation : ℕ)
    (raises : Bool) : Option (Entry ρ δ β) :=
  if raises then none else s.entries (versionedKey keyPrefix key generation)

def State.snapshot (s : State ρ δ β) (id : ℕ) : Snapshot δ := ⟨id, s.clock, s.log.length, s.tables⟩

def tablesOf (reads : List (Snapshot δ)) : List δ := reads.map Snapshot.tables

/-- The steps, `none` where an action is not enabled. -/
def State.step (api : Api ρ δ β) (keyPrefix : String) (s : State ρ δ β) :
    Action ρ δ → Option (State ρ δ β)
  | .generation id request raises =>
    match s.sessions id with
    | some _ => none
    | none => some (s.tick.put id
        { request := request
          started := s.clock
          fetched := if raises then none else some s.clock
          generation := s.generation raises
          stage := .looking })
  | .get id raises =>
    match s.sessions id with
    | some ⟨request, started, fetched, generation, .looking⟩ =>
      match s.get keyPrefix (api.cacheKey request) generation raises with
      | some e => some (s.tick.put id
          ⟨request, started, fetched, generation, .answered e.body e.origin e.reads⟩)
      | none => some (s.tick.put id ⟨request, started, fetched, generation, .reading []⟩)
    | _ => none
  | .query id =>
    match s.sessions id with
    | some ⟨request, started, fetched, generation, .reading reads⟩ =>
      match api.respond request (tablesOf reads) with
      | some _ => none
      | none => some (s.tick.put id
          ⟨request, started, fetched, generation, .reading (reads ++ [s.snapshot id])⟩)
    | _ => none
  | .set id lands =>
    match s.sessions id with
    | some ⟨request, started, fetched, generation, .reading reads⟩ =>
      match api.respond request (tablesOf reads) with
      | none => none
      | some body =>
        let key := versionedKey keyPrefix (api.cacheKey request) generation
        let stored := if lands && api.caches request (tablesOf reads) then
            s.store key ⟨body, request, reads⟩
          else s
        some (stored.tick.put id
          ⟨request, started, fetched, generation, .answered body request reads⟩)
    | _ => none
  | .commit tables => some { s.tick with tables := tables, log := s.log ++ [tables] }
  | .incr cycle raises =>
    let generation := s.counter.getD 0 + 1
    some { s.tick with
      counter := some generation
      increments := s.increments ++ [⟨s.clock, s.log.length⟩]
      sweeps := if raises then s.sweeps else Function.update s.sweeps cycle (some generation) }
  | .sweep cycle page =>
    (s.sweeps cycle).map fun generation =>
      { s.tick with entries := fun key =>
          if key ∈ staleKeys keyPrefix generation page then none else s.entries key }
  | .expire key => some { s.tick with entries := Function.update s.entries key none }

/-! ### What a step can do -/

section
variable {api : Api ρ δ β} {keyPrefix : String} {s t : State ρ δ β} {id : ℕ}

@[simp] theorem put_self (s : State ρ δ β) (id : ℕ) (session : Session ρ δ β) :
    (s.put id session).sessions id = some session := Function.update_self _ _ _

theorem put_ne {id' : ℕ} (h : id' ≠ id) (s : State ρ δ β) (session : Session ρ δ β) :
    (s.put id session).sessions id' = s.sessions id' := Function.update_of_ne h _ _

theorem put_cases {id' : ℕ} {session session' : Session ρ δ β}
    (h : (s.put id session).sessions id' = some session') :
    (id' = id ∧ session' = session) ∨ s.sessions id' = some session' := by
  by_cases hid : id' = id
  · subst hid
    rw [put_self, Option.some.injEq] at h
    exact Or.inl ⟨rfl, h.symm⟩
  · rw [put_ne hid] at h
    exact Or.inr h

theorem store_cases {key key' : String} {e e' : Entry ρ δ β}
    (h : (s.store key e).entries key' = some e') :
    (key' = key ∧ e' = e) ∨ s.entries key' = some e' := by
  unfold State.store at h
  by_cases hkey : key' = key
  · subst hkey
    simp only [Function.update_self, Option.some.injEq] at h
    exact Or.inl ⟨rfl, h.symm⟩
  · simp only [Function.update_of_ne hkey] at h
    exact Or.inr h

theorem step_generation {request : ρ} {raises : Bool}
    (h : s.step api keyPrefix (.generation id request raises) = some t) :
    s.sessions id = none ∧ t = s.tick.put id
      { request := request
        started := s.clock
        fetched := if raises then none else some s.clock
        generation := s.generation raises
        stage := .looking } := by
  simp only [State.step] at h
  cases hs : s.sessions id with
  | some session =>
    rw [hs] at h
    cases h
  | none =>
    rw [hs] at h
    exact ⟨rfl, (Option.some.inj h).symm⟩

theorem step_get {raises : Bool} (h : s.step api keyPrefix (.get id raises) = some t) :
    ∃ request started fetched g,
      s.sessions id = some ⟨request, started, fetched, g, .looking⟩ ∧
      ((∃ e, s.get keyPrefix (api.cacheKey request) g raises = some e ∧
          t = s.tick.put id ⟨request, started, fetched, g, .answered e.body e.origin e.reads⟩) ∨
        (s.get keyPrefix (api.cacheKey request) g raises = none ∧
          t = s.tick.put id ⟨request, started, fetched, g, .reading []⟩)) := by
  simp only [State.step] at h
  split at h
  · rename_i request started fetched g hs
    refine ⟨request, started, fetched, g, hs, ?_⟩
    split at h
    · rename_i e hget
      exact Or.inl ⟨e, hget, (Option.some.inj h).symm⟩
    · rename_i hget
      exact Or.inr ⟨hget, (Option.some.inj h).symm⟩
  · cases h

theorem step_query (h : s.step api keyPrefix (.query id) = some t) :
    ∃ request started fetched g reads,
      s.sessions id = some ⟨request, started, fetched, g, .reading reads⟩ ∧
      t = s.tick.put id ⟨request, started, fetched, g, .reading (reads ++ [s.snapshot id])⟩ := by
  simp only [State.step] at h
  split at h
  · rename_i request started fetched g reads hs
    split at h
    · cases h
    · exact ⟨request, started, fetched, g, reads, hs, (Option.some.inj h).symm⟩
  · cases h

theorem step_set {lands : Bool} (h : s.step api keyPrefix (.set id lands) = some t) :
    ∃ request started fetched g reads body,
      s.sessions id = some ⟨request, started, fetched, g, .reading reads⟩ ∧
      api.respond request (tablesOf reads) = some body ∧
      ∃ stored, (stored = s ∨ stored = s.store (versionedKey keyPrefix (api.cacheKey request) g)
          ⟨body, request, reads⟩) ∧
        t = stored.tick.put id ⟨request, started, fetched, g, .answered body request reads⟩ := by
  simp only [State.step] at h
  split at h
  · rename_i request started fetched g reads hs
    split at h
    · cases h
    · rename_i body hrespond
      refine ⟨request, started, fetched, g, reads, body, hs, hrespond, _, ?_,
        (Option.some.inj h).symm⟩
      split
      · exact Or.inr rfl
      · exact Or.inl rfl
  · cases h

end

end AnalyticsEngine.Cache
