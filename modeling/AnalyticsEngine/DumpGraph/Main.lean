import AnalyticsEngine.DumpGraph.Build
import AnalyticsEngine.DumpGraph.SameAs
import AnalyticsEngine.Embeddings.Exact
import AnalyticsEngine.Library.Transition

/-!
# Runs and restarts of main (scripts/embeddings_from_dump.py)

A process takes the graph from its checkpoint or builds it, with the map of pass 1 from its own
checkpoint where there is one; a pass that fails is taken again from the start. Processes come one
after the other and may be stopped anywhere. Unless one of them was told to read the first chunks only,
whichever of them comes to FastRP has the graph of the records (`main_ready`), and nothing that an
earlier one left behind keeps a later one from it (`reach_ready`) but dumps that are deleted
(`never_ready`).
-/

namespace AnalyticsEngine.DumpGraph
open Library Library.Xml Embeddings

/- What is the same for all processes: the dumps, and what the code takes from elsewhere. -/
structure Setting (F D O : Type*) where
  names : NameTable
  nodeKey : Char → Str → U64
  categorizeRole : Str → Str
  ar : Arithmetic F D O
  chunkBytes : ℕ
  releases : Bytes
  masters : Bytes
  -- and not a URL
  releasesPath : Bool

/- Whether `--same-as-checkpoint` and `--graph-checkpoint` are given, `--limit-chunks`, where 0 is no
limit, and `--delete-dumps-after-parse`. -/
structure Args where
  sameAsCheckpoint : Bool
  graphCheckpoint : Bool
  limitChunks : ℕ
  deleteDumpsAfterParse : Bool

inductive Dump where
  | releases
  | masters
deriving DecidableEq

def Args.deletes (args : Args) : List Dump :=
  if args.deleteDumpsAfterParse then [.releases, .masters] else []

section
variable {F D O τ : Type*}

/- Where a process is. The passes over the releases count their attempts. -/
inductive Point (F τ : Type*) where
  | pass1 (attempt : ℕ)
  | saving (sameAs : SameAs)
  | pass2 (sameAs : SameAs) (attempt : ℕ)
  | masters (releases : PoolResult)
  | building (releases masters : PoolResult)
  | storing (graph : Graph F (Scalars τ)) (call : Call F (Scalars τ))
  -- behind the parity report, with the next dump to delete and those after it
  | deleting (graph : Graph F (Scalars τ)) (dump : Dump) (left : List Dump)
  -- FastRP follows
  | ready (graph : Graph F (Scalars τ))

def Point.reported (graph : Graph F (Scalars τ)) : List Dump → Point F τ
  | [] => .ready graph
  | dump :: left => .deleting graph dump left

/- `dumps` are the dumps that are still there. -/
structure World (F τ : Type*) where
  sameAs : Option SameAsFile
  graph : Option (Directory F (Scalars τ))
  dumps : Dump → Bool
  process : Option (Args × Point F τ)

def World.initial : World F τ := ⟨none, none, fun _ => true, none⟩

/-- The checkpoint beside what is at the two names of this process. -/
def siblings {M : Type*} (path tmp bak : Option (Directory F M)) : Disk F M
  | .path => path
  | .tmp => tmp
  | .bak => bak

inductive Action (F τ : Type*) where
  | start (args : Args)
  -- an attempt of a pass raises what may be retried
  | failed
  | mapBuilt (arrived : List SameAs)
  | mapSaved (order : IdOrder)
  | releasesRead (orders : ℕ → SetOrder)
  | mastersRead
  | graphBuilt (junk : ℕ → ℕ) (releaseIds masterIds : List Str) (measured : τ)
      (tmp bak : Option (Directory F (Scalars τ)))
  | stored (op : Operation)
  | saved
  | deleted
  -- by its end, an error or a signal
  | stopped

/-- `max_attempts` of `_retry_whole_pass`. -/
def maxAttempts : ℕ := 5

variable (s : Setting F D O)

def partialMaps (limitChunks : ℕ) : List SameAs :=
  (limited limitChunks (chunks s.chunkBytes (ascii "release") s.releases)).map
    (pass1SameAsChunk s.names)

def releasesPool (limitChunks : ℕ) (sameAs : SameAs) (orders : ℕ → SetOrder) : PoolResult :=
  runPool s.chunkBytes (ascii "release")
    (fun i => parseReleaseChunk s.names s.nodeKey s.categorizeRole sameAs (orders i)) limitChunks
    s.releases

def mastersPool (limitChunks : ℕ) : PoolResult :=
  runPool s.chunkBytes (ascii "master") (fun _ => parseMasterChunk s.names s.nodeKey) limitChunks
    s.masters

/-- The start of `main`, and of `build_graph`. -/
def startPoint (w : World F τ) (args : Args) : Option (Point F τ) :=
  let disk := siblings w.graph none none
  if args.graphCheckpoint ∧ graphCheckpointExists disk then
    (loadGraphCheckpoint disk).map (.reported · args.deletes)
  else if args.sameAsCheckpoint then
    match w.sameAs with
    | some file => (loadSameAs file).map (.pass2 · 1)
    | none => some (.pass1 1)
  else some (.pass1 1)

def World.move (w : World F τ) (args : Args) (point : Point F τ) : World F τ :=
  { w with process := some (args, point) }

def World.stop (w : World F τ) : World F τ := { w with process := none }

/-- `dump_path.unlink()`, of a dump that is a path and is there. -/
def World.unlink (w : World F τ) (dump : Dump) : World F τ :=
  if dump = .releases ∧ s.releasesPath = false then w
  else { w with dumps := Function.update w.dumps dump false }

/-- What `_retry_whole_pass` does after a failure that may be retried. -/
def World.retry (w : World F τ) (args : Args) (attempt : ℕ) (point : ℕ → Point F τ) : World F τ :=
  if attempt < maxAttempts then w.move args (point (attempt + 1)) else w.stop

/- One step of `main`, `none` where it does not take it. -/
def World.step (w : World F τ) (action : Action F τ) : Option (World F τ) :=
  match action, w.process with
  | .start args, none => (startPoint w args).map (w.move args)
  | .failed, some (args, .pass1 attempt) => some (w.retry args attempt .pass1)
  | .mapBuilt arrived, some (args, .pass1 _) =>
    if w.dumps .releases ∧ arrived.Perm (partialMaps s args.limitChunks) then
      let sameAs := mergePartials arrived
      some (w.move args (if args.sameAsCheckpoint then .saving sameAs else .pass2 sameAs 1))
    else none
  | .mapSaved order, some (args, .saving sameAs) =>
    some ({ w with sameAs := some (saveSameAs order sameAs) }.move args (.pass2 sameAs 1))
  | .failed, some (args, .pass2 sameAs attempt) => some (w.retry args attempt (.pass2 sameAs))
  | .releasesRead orders, some (args, .pass2 sameAs _) =>
    if w.dumps .releases then
      some (w.move args (.masters (releasesPool s args.limitChunks sameAs orders)))
    else none
  | .mastersRead, some (args, .masters releases) =>
    if w.dumps .masters then
      some (w.move args (.building releases (mastersPool s args.limitChunks)))
    else none
  | .graphBuilt junk releaseIds masterIds measured tmp bak, some (args, .building releases masters) =>
    if (releaseIds : Multiset Str) = releases.artistIds.val ∧
        (masterIds : Multiset Str) = masters.artistIds.val then
      match buildGraph s.ar junk s.nodeKey releases masters releaseIds masterIds measured with
      | .ok graph =>
        some (w.move args (if args.graphCheckpoint then
          .storing graph (Call.start (siblings w.graph tmp bak)) else .reported graph args.deletes))
      | .error _ => some w.stop
    else none
  | .stored op, some (args, .storing graph call) =>
    (saveStep graph call op).map fun next =>
      { w with graph := next.disk .path }.move args (.storing graph next)
  | .saved, some (args, .storing graph call) =>
    match call.phase with
    | .returned => some (w.move args (.reported graph args.deletes))
    | _ => none
  | .deleted, some (args, .deleting graph dump left) =>
    some ((w.unlink s dump).move args (.reported graph left))
  | .stopped, some _ => some w.stop
  | _, _ => none

/- An action that starts no process over the first chunks only. -/
def Action.whole : Action F τ → Bool
  | .start args => args.limitChunks = 0
  | _ => true

/-- The steps of processes without a limit. -/
def World.wholeStep : World F τ → Action F τ → Option (World F τ) := permit Action.whole (World.step s)

end

/-! ### The records -/

section
variable {F D O : Type*} (s : Setting F D O)

/-- The map of the release records, read one after the other. -/
def recordSameAs (root : Element) : SameAs := (root.findall "release".toList).foldl addSameAs []

def releaseRecords (root : Element) (order : SetOrder) : ChunkResult :=
  (root.findall "release".toList).foldl
    (parseRelease s.nodeKey s.categorizeRole (recordSameAs root) order) .new

def masterRecords (root : Element) : ChunkResult :=
  (root.findall "master".toList).foldl (parseMaster s.nodeKey) .new

theorem get_recordSameAs (root : Element) (name : Str) :
    (recordSameAs root).get name =
      let ids := namedIds ((root.findall "release".toList).filter fun rel =>
        (rel.get "id".toList).isSome) name
      if ids = ∅ then none else some ids := by
  have hnone : ∀ id, ¬SameAs.Gives [] name id := fun id ⟨_, h, _⟩ => absurd h List.not_mem_nil
  unfold recordSameAs
  rw [foldl_addSameAs]
  refine get_eq (proper_upsertAll proper_nil fun row hrow => ?_) fun id => ?_
  · obtain ⟨rel, _, hrow⟩ := List.mem_flatMap.mp hrow
    exact sameAsRows_inhabited rel row hrow
  · rw [mem_namedIds, gives_upsertAll, or_iff_right (hnone id), gives_flatMap]

theorem resolvedIds_congr {categorizeRole : Str → Str} {a b : SameAs}
    (h : ∀ name, a.get name = b.get name) (credits : List Credit) :
    resolvedIds categorizeRole a credits = resolvedIds categorizeRole b credits := by
  unfold resolvedIds
  simp only [h]

/-- A record reads the map through its lookups only. -/
theorem parseRelease_congr {nodeKey : Char → Str → U64} {categorizeRole : Str → Str} {a b : SameAs}
    (h : ∀ name, a.get name = b.get name) (order : SetOrder) :
    parseRelease nodeKey categorizeRole a order = parseRelease nodeKey categorizeRole b order := by
  funext result rel
  unfold parseRelease
  simp only [resolvedIds_congr h]

variable {s} {lead lead' : Bytes} {root root' : Element}

theorem releasesPool_collected (hdump : RecordDump s.names (ascii "release") s.releases lead root)
    (hblock : (lead ++ openMarker (ascii "release")).length ≤ s.chunkBytes) {sameAs : SameAs}
    (hbuild : BuildsSameAsMap s.names s.chunkBytes 0 s.releases sameAs) (orders : ℕ → SetOrder)
    (order : SetOrder) :
    Collected (releasesPool s 0 sameAs orders) (releaseRecords s root order) := by
  have hget : ∀ name, (recordSameAs root).get name = sameAs.get name := by
    intro name
    rw [get_recordSameAs, buildSameAsMap_get hdump hblock hbuild]
  unfold releasesPool releaseRecords parseReleaseChunk
  rw [parseRelease_congr hget]
  exact runPool_exact (parseRelease s.nodeKey s.categorizeRole sameAs) (fun _ => parseRelease_append)
    (fun _ _ _ _ rel h => parseRelease_same h rel) hdump hblock _ orders order

theorem mastersPool_collected (hdump : RecordDump s.names (ascii "master") s.masters lead' root')
    (hblock : (lead' ++ openMarker (ascii "master")).length ≤ s.chunkBytes) :
    Collected (mastersPool s 0) (masterRecords s root') := by
  unfold mastersPool masterRecords parseMasterChunk
  exact runPool_exact (fun _ : Unit => parseMaster s.nodeKey) (fun _ => parseMaster_append)
    (fun _ _ _ _ rel h => parseMaster_same h rel) hdump hblock _ (fun _ => ()) ()

end

/-! ### Saving -/

section
variable {F M : Type*} {graph : Graph F M} {call next : Call F M} {op : Operation}

/- What a call has in its temporary directory. -/
inductive Saving (graph : Graph F M) : Call F M → Prop where
  | clearing (disk : Disk F M) : Saving graph ⟨disk, .clearing⟩
  | writing {disk : Disk F M} {left : List (String × Content F M)} : Written graph left disk →
      Saving graph ⟨disk, .writing left⟩
  | swapping {disk : Disk F M} : Written graph [] disk → Saving graph ⟨disk, .swapping⟩
  | finishing {call : Call F M} : Finishing call.phase → Saving graph call

/-- What is at `path` stays, goes, or is replaced by a whole checkpoint of the graph. -/
def Replaces (graph : Graph F M) (before after : Option (Directory F M)) : Prop :=
  after = before ∨ after = none ∨ ∃ d, after = some d ∧ Holds graph d

theorem path_set_tmp (disk : Disk F M) (d : Option (Directory F M)) :
    (disk.set .tmp d) .path = disk .path := Disk.set_ne disk d Place.noConfusion

theorem written_holds {disk : Disk F M} {d : Directory F M} (h : Written graph [] disk)
    (htmp : disk .tmp = some d) : Holds graph d := by
  obtain ⟨d', done, htmp', hfiles, hdone⟩ := h
  rw [htmp] at htmp'
  cases htmp'
  rw [List.append_nil] at hfiles
  intro file hfile
  exact hdone file (hfiles ▸ hfile)

theorem saving_writing {disk : Disk F M} {left : List (String × Content F M)}
    (hwritten : Written graph left disk) (hmove : Move graph ⟨disk, .writing left⟩ op next) :
    Saving graph next ∧ Replaces graph (disk .path) (next.disk .path) := by
  cases hmove with
  | remove _ _ hplace _ _ => cases hplace
  | @part _ d file left htmp =>
    obtain ⟨d', done, htmp', hfiles, hdone⟩ := hwritten
    rw [htmp] at htmp'
    cases htmp'
    refine ⟨.writing ⟨_, done, Disk.set_self _ _ _, hfiles, written_put hfiles hdone .unfinished⟩,
      Or.inl ?_⟩
    exact path_set_tmp disk (some (d.put file.1 .unfinished))
  | @rest _ d file left htmp =>
    obtain ⟨d', done, htmp', hfiles, hdone⟩ := hwritten
    rw [htmp] at htmp'
    cases htmp'
    refine ⟨.writing ⟨_, done ++ [file], Disk.set_self _ _ _, ?_, ?_⟩,
      Or.inl (path_set_tmp disk (some (d.put file.1 file.2)))⟩
    · rw [hfiles, List.append_assoc, List.singleton_append]
    · intro f hf
      rcases List.mem_append.mp hf with hf | hf
      · exact written_put hfiles hdone file.2 f hf
      · rw [List.mem_singleton.mp hf, lookup_put_self]
  | @away _ d _ =>
    have hpath : ((disk.set .path none).set .bak (some d)) .path = none := by
      rw [Disk.set_ne _ _ Place.noConfusion, Disk.set_self]
    obtain ⟨tmp, done, htmp, hfiles, hdone⟩ := hwritten
    refine ⟨.swapping ⟨tmp, done, ?_, hfiles, hdone⟩, Or.inr (Or.inl hpath)⟩
    rw [Disk.set_ne _ _ Place.noConfusion, Disk.set_ne _ _ Place.noConfusion]
    exact htmp
  | @first _ d _ htmp =>
    refine ⟨.finishing .dropping, Or.inr (Or.inr ⟨d, ?_, written_holds hwritten htmp⟩)⟩
    exact Disk.set_self (disk.set .tmp none) .path (some d)
  | late _ _ => exact ⟨.finishing (.stopping .handling), Or.inl rfl⟩

theorem saving_move (h : Saving graph call) (hmove : Move graph call op next) :
    Saving graph next ∧ Replaces graph (call.disk .path) (next.disk .path) := by
  cases h with
  | clearing disk =>
    cases hmove with
    | remove _ d hplace _ _ => exact ⟨.clearing _, Or.inl (Disk.set_ne _ d (removes_ne_path hplace))⟩
    | make =>
      refine ⟨.writing ⟨[], [], Disk.set_self _ _ _, rfl, fun _ hf => absurd hf List.not_mem_nil⟩,
        Or.inl ?_⟩
      exact path_set_tmp disk (some [])
    | early => exact ⟨.finishing (.stopping .raised), Or.inl rfl⟩
    | late _ hguarded => cases hguarded
  | writing hwritten => exact saving_writing hwritten hmove
  | @swapping disk hwritten =>
    cases hmove with
    | remove _ _ hplace _ _ => cases hplace
    | @into _ d htmp =>
      refine ⟨.finishing .dropping, Or.inr (Or.inr ⟨d, ?_, written_holds hwritten htmp⟩)⟩
      exact Disk.set_self (disk.set .tmp none) .path (some d)
    | late _ _ => exact ⟨.finishing (.stopping .handling), Or.inl rfl⟩
  | finishing hphase =>
    obtain ⟨hphase', hleaves⟩ := finishing_move hphase hmove
    exact ⟨.finishing hphase', Or.inl hleaves.path⟩

end

/-! ### What holds of every state -/

section
variable {F D O τ : Type*} (s : Setting F D O) (root root' : Element) (order : SetOrder)

/-- A graph of the records of both dumps. -/
def Exact (graph : Graph F (Scalars τ)) : Prop :=
  OfRecords s.ar s.nodeKey (releaseRecords s root order) (masterRecords s root') graph

def Builds (sameAs : SameAs) : Prop :=
  BuildsSameAsMap s.names s.chunkBytes 0 s.releases sameAs

/- What a process holds, with what is at the path of the graph checkpoint. -/
def Point.Sound (path : Option (Directory F (Scalars τ))) : Point F τ → Prop
  | .pass1 _ => True
  | .saving sameAs => Builds s sameAs
  | .pass2 sameAs _ => Builds s sameAs
  | .masters pool => Collected pool (releaseRecords s root order)
  | .building pool pool' =>
    Collected pool (releaseRecords s root order) ∧ Collected pool' (masterRecords s root')
  | .storing graph call => Exact s root root' order graph ∧ Saving graph call ∧ call.disk .path = path
  | .deleting graph _ _ => Exact s root root' order graph
  | .ready graph => Exact s root root' order graph

structure World.Sound (w : World F τ) : Prop where
  sameAs : ∀ file ∈ w.sameAs, ∃ sameAs order, Builds s sameAs ∧ file = saveSameAs order sameAs
  graph : ∀ d ∈ w.graph, ∃ graph, Exact s root root' order graph ∧ Holds graph d
  whole : ∀ args point, w.process = some (args, point) → args.limitChunks = 0
  process : ∀ args point, w.process = some (args, point) → point.Sound s root root' order w.graph

variable {s root root' order} {w next : World F τ} {args : Args}

theorem sound_initial : (World.initial : World F τ).Sound s root root' order where
  sameAs := fun _ h => by cases h
  graph := fun _ h => by cases h
  whole := fun _ _ h => by cases h
  process := fun _ _ h => by cases h

theorem sound_stop (h : w.Sound s root root' order) : w.stop.Sound s root root' order :=
  ⟨h.sameAs, h.graph, nofun, nofun⟩

theorem sound_at (h : w.Sound s root root' order) (hwhole : args.limitChunks = 0) {point : Point F τ}
    (hpoint : point.Sound s root root' order w.graph) :
    (w.move args point).Sound s root root' order := by
  refine ⟨h.sameAs, h.graph, fun _ _ hsome => ?_, fun _ _ hsome => ?_⟩
  · cases hsome
    exact hwhole
  · cases hsome
    exact hpoint

theorem sound_retry (h : w.Sound s root root' order) (hwhole : args.limitChunks = 0) (attempt : ℕ)
    {point : ℕ → Point F τ} (hpoint : ∀ n, (point n).Sound s root root' order w.graph) :
    (w.retry args attempt point).Sound s root root' order := by
  unfold World.retry
  split_ifs
  · exact sound_at h hwhole (hpoint _)
  · exact sound_stop h

theorem sound_reported {graph : Graph F (Scalars τ)} (h : Exact s root root' order graph)
    (path : Option (Directory F (Scalars τ))) (left : List Dump) :
    (Point.reported graph left).Sound s root root' order path := by
  cases left with
  | nil => exact h
  | cons dump left => exact h

theorem unlink_sameAs (s : Setting F D O) (w : World F τ) (dump : Dump) :
    (w.unlink s dump).sameAs = w.sameAs := by
  unfold World.unlink
  split <;> rfl

theorem unlink_graph (s : Setting F D O) (w : World F τ) (dump : Dump) :
    (w.unlink s dump).graph = w.graph := by
  unfold World.unlink
  split <;> rfl

theorem unlink_process (s : Setting F D O) (w : World F τ) (dump : Dump) :
    (w.unlink s dump).process = w.process := by
  unfold World.unlink
  split <;> rfl

theorem sound_unlink (h : w.Sound s root root' order) (dump : Dump) :
    (w.unlink s dump).Sound s root root' order := by
  refine ⟨?_, ?_, ?_, ?_⟩
  · rw [unlink_sameAs]
    exact h.sameAs
  · rw [unlink_graph]
    exact h.graph
  · rw [unlink_process]
    exact h.whole
  · rw [unlink_process, unlink_graph]
    exact h.process

theorem load_sameAs {file : SameAsFile} (h : w.Sound s root root' order) (hfile : w.sameAs = some file) :
    ∃ sameAs, loadSameAs file = some sameAs ∧ Builds s sameAs := by
  obtain ⟨sameAs, idOrder, hbuild, rfl⟩ := h.sameAs file hfile
  exact ⟨sameAs, load_save idOrder (buildsSameAsMap_proper hbuild) (buildsSameAsMap_sound hbuild), hbuild⟩

theorem load_graph (h : w.Sound s root root' order)
    (hexists : graphCheckpointExists (siblings w.graph none none) = true) :
    ∃ graph, loadGraphCheckpoint (siblings w.graph none none) = some graph ∧
      Exact s root root' order graph := by
  obtain ⟨d, hd⟩ := exists_path hexists
  obtain ⟨graph, hexact, hholds⟩ := h.graph d hd
  exact ⟨graph, load_of_holds hd hholds, hexact⟩

/-- A process always starts, at a sound point. -/
theorem startPoint_sound (h : w.Sound s root root' order) (args : Args) :
    ∃ point, startPoint w args = some point ∧ point.Sound s root root' order w.graph := by
  unfold startPoint
  dsimp only
  split_ifs with hgraph
  · obtain ⟨graph, hload, hexact⟩ := load_graph h hgraph.2
    rw [hload]
    exact ⟨_, rfl, sound_reported hexact _ _⟩
  · cases hfile : w.sameAs with
    | none => exact ⟨.pass1 1, rfl, trivial⟩
    | some file =>
      obtain ⟨sameAs, hload, hbuild⟩ := load_sameAs h hfile
      dsimp only
      rw [hload]
      exact ⟨.pass2 sameAs 1, rfl, hbuild⟩
  · exact ⟨.pass1 1, rfl, trivial⟩

variable {lead lead' : Bytes}

/- The dumps are record lists, and their first blocks reach the first record. -/
structure Readable (s : Setting F D O) (lead lead' : Bytes) (root root' : Element) : Prop where
  releases : RecordDump s.names (ascii "release") s.releases lead root
  releases_block : (lead ++ openMarker (ascii "release")).length ≤ s.chunkBytes
  masters : RecordDump s.names (ascii "master") s.masters lead' root'
  masters_block : (lead' ++ openMarker (ascii "master")).length ≤ s.chunkBytes

theorem seen_records (s : Setting F D O) (root root' : Element) (order : SetOrder) :
    Seen s.nodeKey (releaseRecords s root order) ∧ Seen s.nodeKey (masterRecords s root') :=
  ⟨foldl_seen (fun _ rel h => parseRelease_seen h rel) _,
    foldl_seen (fun _ master h => parseMaster_seen h master) _⟩

/-- What `build_graph` returns is exact. -/
theorem buildGraph_exact {releases masters : PoolResult} {releaseIds masterIds : List Str}
    (hr : Collected releases (releaseRecords s root order))
    (hm : Collected masters (masterRecords s root'))
    (hrIds : (releaseIds : Multiset Str) = releases.artistIds.val)
    (hmIds : (masterIds : Multiset Str) = masters.artistIds.val) {junk : ℕ → ℕ} {measured : τ}
    {graph : Graph F (Scalars τ)}
    (h : buildGraph s.ar junk s.nodeKey releases masters releaseIds masterIds measured = .ok graph) :
    Exact s root root' order graph := by
  obtain ⟨hrSeen, hmSeen⟩ := seen_records s root root' order
  have hbuilt := buildGraph_records s.ar hr hm hrSeen hmSeen hrIds hmIds junk measured
  split_ifs at hbuilt
  · rw [hbuilt] at h
    cases h
  · obtain ⟨graph', hgraph', hexact⟩ := hbuilt
    rw [hgraph'] at h
    cases h
    exact hexact

theorem sound_replaced (h : w.Sound s root root' order) {graph : Graph F (Scalars τ)}
    (hexact : Exact s root root' order graph) {path : Option (Directory F (Scalars τ))}
    (hpath : Replaces graph w.graph path) : ∀ d ∈ path, ∃ graph, Exact s root root' order graph ∧
      Holds graph d := by
  intro d hd
  rcases hpath with rfl | rfl | ⟨d', rfl, hholds⟩
  · exact h.graph d hd
  · cases hd
  · cases hd
    exact ⟨graph, hexact, hholds⟩

theorem step_sound (hread : Readable s lead lead' root root') (h : w.Sound s root root' order)
    {action : Action F τ} (hwhole : action.whole = true) (hstep : w.step s action = some next) :
    next.Sound s root root' order := by
  unfold World.step at hstep
  split at hstep
  · obtain ⟨point, hpoint, rfl⟩ := Option.map_eq_some_iff.mp hstep
    obtain ⟨point', hpoint', hsound⟩ := startPoint_sound h _
    rw [hpoint] at hpoint'
    cases hpoint'
    exact sound_at h (of_decide_eq_true hwhole) hsound
  · rename_i args attempt hprocess
    cases hstep
    exact sound_retry h (h.whole _ _ hprocess) _ fun _ => trivial
  · rename_i arrived args _ hprocess
    have hlimit := h.whole _ _ hprocess
    split at hstep
    · rename_i hperm
      rw [hlimit] at hperm
      have hbuild : Builds s (mergePartials arrived) := ⟨arrived, hperm.2, rfl⟩
      cases hstep
      apply sound_at h hlimit
      split_ifs
      · exact hbuild
      · exact hbuild
    · cases hstep
  · rename_i idOrder args sameAs hprocess
    have hbuild : Builds s sameAs := h.process _ _ hprocess
    have hlimit := h.whole _ _ hprocess
    cases hstep
    refine ⟨fun file hfile => ?_, h.graph, fun _ _ hsome => ?_, fun _ _ hsome => ?_⟩
    · cases hfile
      exact ⟨sameAs, idOrder, hbuild, rfl⟩
    · cases hsome
      exact hlimit
    · cases hsome
      exact hbuild
  · rename_i args sameAs attempt hprocess
    have hbuild : Builds s sameAs := h.process _ _ hprocess
    cases hstep
    exact sound_retry h (h.whole _ _ hprocess) _ fun _ => hbuild
  · rename_i orders args sameAs _ hprocess
    have hlimit := h.whole _ _ hprocess
    split at hstep
    · cases hstep
      rw [hlimit]
      exact sound_at h hlimit (releasesPool_collected hread.releases hread.releases_block
        (h.process _ _ hprocess) orders order)
    · cases hstep
  · rename_i args pool hprocess
    have hlimit := h.whole _ _ hprocess
    split at hstep
    · cases hstep
      rw [hlimit]
      exact sound_at h hlimit
        ⟨h.process _ _ hprocess, mastersPool_collected hread.masters hread.masters_block⟩
    · cases hstep
  · rename_i junk releaseIds masterIds measured tmp bak args pool pool' hprocess
    obtain ⟨hr, hm⟩ := h.process _ _ hprocess
    split at hstep
    · rename_i hids
      split at hstep
      · rename_i graph hgraph
        have hexact := buildGraph_exact hr hm hids.1 hids.2 hgraph
        cases hstep
        apply sound_at h (h.whole _ _ hprocess)
        split_ifs
        · exact ⟨hexact, .clearing _, rfl⟩
        · exact sound_reported hexact _ _
      · cases hstep
        exact sound_stop h
    · cases hstep
  · rename_i op args graph call hprocess
    obtain ⟨hexact, hsaving, hpath⟩ := h.process _ _ hprocess
    have hlimit := h.whole _ _ hprocess
    obtain ⟨after, hafter, rfl⟩ := Option.map_eq_some_iff.mp hstep
    obtain ⟨hsaving', hreplaces⟩ := saving_move hsaving (saveStep_move hafter)
    rw [hpath] at hreplaces
    refine ⟨h.sameAs, sound_replaced h hexact hreplaces, fun _ _ hsome => ?_, fun _ _ hsome => ?_⟩
    · cases hsome
      exact hlimit
    · cases hsome
      exact ⟨hexact, hsaving', rfl⟩
  · rename_i args graph call hprocess
    obtain ⟨hexact, _, _⟩ := h.process _ _ hprocess
    split at hstep
    · cases hstep
      exact sound_at h (h.whole _ _ hprocess) (sound_reported hexact _ _)
    · cases hstep
  · rename_i args graph dump left hprocess
    have hexact : Exact s root root' order graph := h.process _ _ hprocess
    cases hstep
    exact sound_at (sound_unlink h dump) (h.whole _ _ hprocess) (sound_reported hexact _ _)
  · cases hstep
    exact sound_stop h
  · cases hstep

theorem sound_reachable (hread : Readable s lead lead' root root')
    (h : Reachable (World.wholeStep s) .initial w) : w.Sound s root root' order := by
  refine h.invariant sound_initial fun _ _ _ hsound hstep => ?_
  obtain ⟨hwhole, hstep⟩ := permit_eq_some.mp hstep
  exact step_sound hread hsound hwhole hstep

/-! ### The way to the graph -/

variable {later : World F τ}

theorem reach_one {action : Action F τ} (hwhole : action.whole = true)
    (hstep : w.step s action = some next) (h : Reachable (World.wholeStep s) next later) :
    Reachable (World.wholeStep s) w later :=
  (Reachable.start.step (permit_eq_some.mpr ⟨hwhole, hstep⟩)).trans h

/-- The operations of a save are steps of the process. -/
theorem reach_saveRun {graph : Graph F (Scalars τ)} {call after : Call F (Scalars τ)}
    {ops : List Operation} (hprocess : w.process = some (args, .storing graph call))
    (hrun : saveRun graph call ops = some after) :
    ∃ later, Reachable (World.wholeStep s) w later ∧
      later.process = some (args, .storing graph after) := by
  induction ops generalizing w call with
  | nil =>
    cases hrun
    exact ⟨w, .start, hprocess⟩
  | cons op ops ih =>
    unfold saveRun at hrun
    rw [List.foldlM_cons] at hrun
    obtain ⟨middle, hop, hrest⟩ := Option.bind_eq_some_iff.mp hrun
    have hstep : w.step s (.stored op) =
        some ({ w with graph := middle.disk .path }.move args (.storing graph middle)) := by
      unfold World.step
      simp only [hprocess, hop, Option.map_some]
    obtain ⟨later, hlater, hat⟩ := ih (w := { w with graph := middle.disk .path }.move args _) rfl hrest
    exact ⟨later, reach_one rfl hstep hlater, hat⟩

/-- Dumps that are to go are deleted one after the other. -/
theorem reach_reported {graph : Graph F (Scalars τ)} {left : List Dump}
    (hprocess : w.process = some (args, .reported graph left)) :
    ∃ later, Reachable (World.wholeStep s) w later ∧ later.process = some (args, .ready graph) := by
  induction left generalizing w with
  | nil => exact ⟨w, .start, hprocess⟩
  | cons dump left ih =>
    have hat : w.process = some (args, .deleting graph dump left) := hprocess
    have hstep : w.step s .deleted =
        some ((w.unlink s dump).move args (.reported graph left)) := by
      unfold World.step
      simp only [hat]
    obtain ⟨later, hlater, hready⟩ := ih (w := (w.unlink s dump).move args (.reported graph left)) rfl
    exact ⟨later, reach_one rfl hstep hlater, hready⟩

/-- A save that nothing disturbs. -/
theorem saveRun_undisturbed (graph : Graph F (Scalars τ)) : ∃ call,
    saveRun graph (Call.start (siblings none none none))
      [.mkdir, .writeRest, .writeRest, .writeRest, .writeRest, .writeRest, .renameInto, .leave] =
        some call ∧ call.phase = .returned :=
  ⟨_, rfl, rfl⟩

theorem reach_building [Nonempty τ] {pool pool' : PoolResult} (h : w.Sound s root root' order)
    (hfits : (recordKeys (releaseRecords s root order) (masterRecords s root')).length ≤ maxNodes)
    (hpath : args.graphCheckpoint = true → w.graph = none)
    (hprocess : w.process = some (args, .building pool pool')) :
    ∃ later graph, Reachable (World.wholeStep s) w later ∧
      later.process = some (args, .ready graph) := by
  obtain ⟨measured⟩ := ‹Nonempty τ›
  obtain ⟨hr, hm⟩ := h.process _ _ hprocess
  obtain ⟨hrSeen, hmSeen⟩ := seen_records s root root' order
  have hlist := fun ids : Finset Str => ids.coe_toList
  have hbuilt := buildGraph_records s.ar hr hm hrSeen hmSeen (hlist _) (hlist _) id measured
  rw [if_neg (not_lt.mpr hfits)] at hbuilt
  obtain ⟨graph, hgraph, _⟩ := hbuilt
  have hstep : w.step s (.graphBuilt id pool.artistIds.toList pool'.artistIds.toList measured none
      none) = some (w.move args (if args.graphCheckpoint then
        .storing graph (Call.start (siblings w.graph none none))
        else .reported graph args.deletes)) := by
    unfold World.step
    simp only [hprocess, hlist, hgraph, true_and, if_true]
  by_cases hcheckpoint : args.graphCheckpoint = true
  · rw [if_pos hcheckpoint, hpath hcheckpoint] at hstep
    obtain ⟨call, hrun, hreturned⟩ := saveRun_undisturbed graph
    obtain ⟨saved, hsaved, hat⟩ := reach_saveRun (s := s) (w := w.move args _) rfl hrun
    have hreport : saved.step s .saved = some (saved.move args (.reported graph args.deletes)) := by
      unfold World.step
      simp only [hat, hreturned]
    obtain ⟨later, hlater, hready⟩ := reach_reported (s := s) (w := saved.move args _) rfl
    exact ⟨later, graph, reach_one rfl hstep (hsaved.trans (reach_one rfl hreport hlater)), hready⟩
  · rw [if_neg hcheckpoint] at hstep
    obtain ⟨later, hlater, hready⟩ := reach_reported (s := s) (w := w.move args _) rfl
    exact ⟨later, graph, reach_one rfl hstep hlater, hready⟩

theorem reach_pass2 [Nonempty τ] {sameAs : SameAs} {attempt : ℕ}
    (hread : Readable s lead lead' root root') (h : w.Sound s root root' order)
    (hfits : (recordKeys (releaseRecords s root order) (masterRecords s root')).length ≤ maxNodes)
    (hpath : args.graphCheckpoint = true → w.graph = none) (hdumps : ∀ dump, w.dumps dump = true)
    (hprocess : w.process = some (args, .pass2 sameAs attempt)) :
    ∃ later graph, Reachable (World.wholeStep s) w later ∧
      later.process = some (args, .ready graph) := by
  let releases := releasesPool s args.limitChunks sameAs fun _ => order
  let masters := mastersPool s args.limitChunks
  have hreleases : w.step s (.releasesRead fun _ => order) =
      some (w.move args (.masters releases)) := by
    unfold World.step
    simp only [hprocess, hdumps, if_true]
    rfl
  have hmasters : (w.move args (.masters releases)).step s .mastersRead =
      some (w.move args (.building releases masters)) := if_pos (hdumps .masters)
  have hsound := step_sound hread (step_sound hread h rfl hreleases) rfl hmasters
  obtain ⟨later, graph, hlater, hready⟩ := reach_building hsound hfits hpath rfl
  exact ⟨later, graph, reach_one rfl hreleases (reach_one rfl hmasters hlater), hready⟩

theorem reach_pass1 [Nonempty τ] {attempt : ℕ} (hread : Readable s lead lead' root root')
    (h : w.Sound s root root' order)
    (hfits : (recordKeys (releaseRecords s root order) (masterRecords s root')).length ≤ maxNodes)
    (hpath : args.graphCheckpoint = true → w.graph = none) (hdumps : ∀ dump, w.dumps dump = true)
    (hprocess : w.process = some (args, .pass1 attempt)) :
    ∃ later graph, Reachable (World.wholeStep s) w later ∧
      later.process = some (args, .ready graph) := by
  let sameAs := mergePartials (partialMaps s args.limitChunks)
  have hmap : w.step s (.mapBuilt (partialMaps s args.limitChunks)) = some (w.move args
      (if args.sameAsCheckpoint then .saving sameAs else .pass2 sameAs 1)) := by
    unfold World.step
    simp only [hprocess, hdumps, List.Perm.refl, and_self, if_true]
    rfl
  have hsound := step_sound hread h rfl hmap
  by_cases hcheckpoint : args.sameAsCheckpoint = true
  · rw [if_pos hcheckpoint] at hmap hsound
    have hsave : (w.move args (.saving sameAs)).step s (.mapSaved sortedIds) = some ({ w with
        sameAs := some (saveSameAs sortedIds sameAs) }.move args (.pass2 sameAs 1)) := rfl
    obtain ⟨later, graph, hlater, hready⟩ := reach_pass2 hread (step_sound hread hsound rfl hsave)
      hfits hpath hdumps rfl
    exact ⟨later, graph, reach_one rfl hmap (reach_one rfl hsave hlater), hready⟩
  · rw [if_neg hcheckpoint] at hmap hsound
    obtain ⟨later, graph, hlater, hready⟩ := reach_pass2 hread hsound hfits hpath hdumps rfl
    exact ⟨later, graph, reach_one rfl hmap hlater, hready⟩

/-- A process without a graph to load finds nothing at the path where it will save its own. -/
theorem startPoint_cases (h : w.Sound s root root' order) {point : Point F τ}
    (hpoint : startPoint w args = some point) :
    (∃ graph, point = .reported graph args.deletes ∧ args.graphCheckpoint = true ∧ w.graph ≠ none) ∨
      (args.graphCheckpoint = true → w.graph = none) ∧
        (point = .pass1 1 ∨ ∃ sameAs, point = .pass2 sameAs 1) := by
  unfold startPoint at hpoint
  dsimp only at hpoint
  have hnone : ¬(args.graphCheckpoint ∧ graphCheckpointExists (siblings w.graph none none)) →
      args.graphCheckpoint = true → w.graph = none := by
    intro hgraph hcheckpoint
    cases hpath : w.graph with
    | none => rfl
    | some d =>
      obtain ⟨graph, _, hholds⟩ := h.graph d hpath
      have hexists : graphCheckpointExists (siblings w.graph none none) = true :=
        exists_of_holds hpath hholds
      exact absurd ⟨hcheckpoint, hexists⟩ hgraph
  split_ifs at hpoint with hgraph
  · obtain ⟨graph, _, rfl⟩ := Option.map_eq_some_iff.mp hpoint
    obtain ⟨d, hd⟩ := exists_path hgraph.2
    have hpath : w.graph = some d := hd
    exact Or.inl ⟨graph, rfl, hgraph.1, by rw [hpath]; exact Option.some_ne_none d⟩
  · cases hfile : w.sameAs with
    | none =>
      rw [hfile] at hpoint
      cases hpoint
      exact Or.inr ⟨hnone hgraph, Or.inl rfl⟩
    | some file =>
      rw [hfile] at hpoint
      obtain ⟨sameAs, _, rfl⟩ := Option.map_eq_some_iff.mp hpoint
      exact Or.inr ⟨hnone hgraph, Or.inr ⟨sameAs, rfl⟩⟩
  · cases hpoint
    exact Or.inr ⟨hnone hgraph, Or.inl rfl⟩

/-- A process has a graph to load, or both dumps to read. -/
def World.Provided (w : World F τ) (args : Args) : Prop :=
  args.graphCheckpoint = true ∧ w.graph ≠ none ∨ ∀ dump, w.dumps dump = true

/-- Whatever files a process finds, it can come to FastRP. -/
theorem reach_ready [Nonempty τ] (hread : Readable s lead lead' root root')
    (hsound : w.Sound s root root' order)
    (hfits : (recordKeys (releaseRecords s root order) (masterRecords s root')).length ≤ maxNodes)
    (hidle : w.process = none) (hlimit : args.limitChunks = 0) (hprovided : w.Provided args) :
    ∃ (later : World F τ) (graph : Graph F (Scalars τ)), Reachable (World.wholeStep s) w later ∧
      later.process = some (args, .ready graph) := by
  obtain ⟨point, hpoint, hpointSound⟩ := startPoint_sound hsound args
  have hwhole : (Action.start args : Action F τ).whole = true := decide_eq_true hlimit
  have hstep : w.step s (.start args) = some (w.move args point) := by
    unfold World.step
    simp only [hidle, hpoint, Option.map_some]
  have hstarted : (w.move args point).Sound s root root' order := sound_at hsound hlimit hpointSound
  rcases startPoint_cases hsound hpoint with ⟨graph, rfl, -⟩ | ⟨hpath, hpass⟩
  · obtain ⟨later, hlater, hready⟩ := reach_reported (s := s) (w := w.move args _) rfl
    exact ⟨later, graph, reach_one hwhole hstep hlater, hready⟩
  · have hdumps : ∀ dump, w.dumps dump = true := by
      rcases hprovided with ⟨hcheckpoint, hgraph⟩ | hdumps
      · exact absurd (hpath hcheckpoint) hgraph
      · exact hdumps
    rcases hpass with rfl | ⟨sameAs, rfl⟩
    · obtain ⟨later, graph, hlater, hready⟩ := reach_pass1 hread hstarted hfits hpath hdumps rfl
      exact ⟨later, graph, reach_one hwhole hstep hlater, hready⟩
    · obtain ⟨later, graph, hlater, hready⟩ := reach_pass2 hread hstarted hfits hpath hdumps rfl
      exact ⟨later, graph, reach_one hwhole hstep hlater, hready⟩

/-! ### Deleted dumps -/

/- Still before the end of the passes, where a dump that is not there is not read. -/
def Point.Reading (dumps : Dump → Bool) : Point F τ → Prop
  | .pass1 _ => True
  | .saving _ => True
  | .pass2 _ _ => True
  | .masters _ => dumps .masters = false
  | _ => False

def Point.Loaded : Point F τ → Prop
  | .deleting _ _ _ => True
  | .ready _ => True
  | _ => False

theorem loaded_reported (graph : Graph F (Scalars τ)) (left : List Dump) :
    (Point.reported graph left : Point F τ).Loaded := by
  cases left with
  | nil => exact trivial
  | cons dump left => exact trivial

/-- Without one of the dumps no process comes behind the passes, and `path` is left alone. -/
structure World.Stuck (path : Option (Directory F (Scalars τ))) (w : World F τ) : Prop where
  gone : ∃ dump, w.dumps dump = false
  graph : w.graph = path
  process : ∀ args point, w.process = some (args, point) → point.Reading w.dumps ∨
    point.Loaded ∧ args.graphCheckpoint = true ∧ path ≠ none

variable {path : Option (Directory F (Scalars τ))}

theorem stuck_stop (h : w.Stuck path) : w.stop.Stuck path := ⟨h.gone, h.graph, nofun⟩

theorem stuck_at (h : w.Stuck path) {point : Point F τ} (hpoint : point.Reading w.dumps ∨
    point.Loaded ∧ args.graphCheckpoint = true ∧ path ≠ none) : (w.move args point).Stuck path := by
  refine ⟨h.gone, h.graph, fun _ _ hsome => ?_⟩
  cases hsome
  exact hpoint

theorem stuck_retry (h : w.Stuck path) (attempt : ℕ) {point : ℕ → Point F τ}
    (hpoint : ∀ n, (point n).Reading w.dumps) : (w.retry args attempt point).Stuck path := by
  unfold World.retry
  split_ifs
  · exact stuck_at h (Or.inl (hpoint _))
  · exact stuck_stop h

theorem stuck_unlink (h : w.Stuck path) {dump : Dump} {left : List Dump} {graph : Graph F (Scalars τ)}
    (hprocess : w.process = some (args, .deleting graph dump left)) :
    ((w.unlink s dump).move args (.reported graph left)).Stuck path := by
  have hloaded : args.graphCheckpoint = true ∧ path ≠ none := by
    rcases h.process _ _ hprocess with hreading | ⟨-, hloaded⟩
    · exact absurd hreading id
    · exact hloaded
  refine ⟨?_, (unlink_graph s w dump).trans h.graph, fun _ _ hsome => ?_⟩
  · obtain ⟨other, hother⟩ := h.gone
    refine ⟨other, ?_⟩
    show (w.unlink s dump).dumps other = false
    unfold World.unlink
    split_ifs
    · exact hother
    · dsimp only
      by_cases hsame : other = dump
      · rw [hsame, Function.update_self]
      · rw [Function.update_of_ne hsame]
        exact hother
  · cases hsome
    exact Or.inr ⟨loaded_reported _ _, hloaded⟩

theorem stuck_step (hsound : w.Sound s root root' order) (h : w.Stuck path) {action : Action F τ}
    (hstep : w.step s action = some next) : next.Stuck path := by
  -- Neither `building` nor `storing` is reached.
  have hpassed : ∀ args point, w.process = some (args, point) → ¬point.Reading w.dumps →
      ¬point.Loaded → False := by
    intro args point hprocess hreading hloaded
    rcases h.process args point hprocess with hpoint | ⟨hpoint, -⟩
    · exact hreading hpoint
    · exact hloaded hpoint
  unfold World.step at hstep
  split at hstep
  · obtain ⟨point, hpoint, rfl⟩ := Option.map_eq_some_iff.mp hstep
    rcases startPoint_cases hsound hpoint with
      ⟨graph, rfl, hcheckpoint, hgraph⟩ | ⟨-, rfl | ⟨sameAs, rfl⟩⟩
    · exact stuck_at h (Or.inr ⟨loaded_reported _ _, hcheckpoint, h.graph ▸ hgraph⟩)
    · exact stuck_at h (Or.inl trivial)
    · exact stuck_at h (Or.inl trivial)
  · cases hstep
    exact stuck_retry h _ fun _ => trivial
  · split at hstep
    · cases hstep
      apply stuck_at h
      split_ifs
      · exact Or.inl trivial
      · exact Or.inl trivial
    · cases hstep
  · cases hstep
    refine ⟨h.gone, h.graph, fun _ _ hsome => ?_⟩
    cases hsome
    exact Or.inl trivial
  · cases hstep
    exact stuck_retry h _ fun _ => trivial
  · split at hstep
    · rename_i hreleases
      cases hstep
      refine stuck_at h (Or.inl ?_)
      obtain ⟨dump, hdump⟩ := h.gone
      cases dump with
      | releases =>
        rw [hreleases] at hdump
        cases hdump
      | masters => exact hdump
    · cases hstep
  · rename_i args pool hprocess
    split at hstep
    · rename_i hmasters
      refine (hpassed _ _ hprocess (fun hgone => ?_) id).elim
      have hdump : w.dumps .masters = false := hgone
      rw [hmasters] at hdump
      cases hdump
    · cases hstep
  · rename_i hprocess
    exact (hpassed _ _ hprocess id id).elim
  · rename_i hprocess
    exact (hpassed _ _ hprocess id id).elim
  · rename_i hprocess
    exact (hpassed _ _ hprocess id id).elim
  · rename_i args graph dump left hprocess
    cases hstep
    exact stuck_unlink h hprocess
  · cases hstep
    exact stuck_stop h
  · cases hstep

/-- Once a dump is deleted, only a process that loads a graph comes to FastRP. -/
theorem never_ready (hread : Readable s lead lead' root root') (hsound : w.Sound s root root' order)
    (hidle : w.process = none) (h : Reachable (World.wholeStep s) w later)
    {graph : Graph F (Scalars τ)} (hready : later.process = some (args, .ready graph)) :
    w.Provided args := by
  by_contra hnot
  obtain ⟨hload, hdumps⟩ := not_or.mp hnot
  obtain ⟨dump, hdump⟩ := not_forall.mp hdumps
  have hstart : w.Stuck w.graph := by
    refine ⟨⟨dump, Bool.eq_false_iff.mpr hdump⟩, rfl, fun _ _ hsome => ?_⟩
    rw [hidle] at hsome
    cases hsome
  have hboth : later.Sound s root root' order ∧ later.Stuck w.graph := by
    refine h.invariant (I := fun x => x.Sound s root root' order ∧ x.Stuck w.graph)
      ⟨hsound, hstart⟩ fun _ _ _ hinv hstep => ?_
    obtain ⟨hwhole, hstep⟩ := permit_eq_some.mp hstep
    exact ⟨step_sound hread hinv.1 hwhole hstep, stuck_step hinv.1 hinv.2 hstep⟩
  rcases hboth.2.process _ _ hready with hreading | ⟨-, hloaded⟩
  · exact hreading
  · exact hload hloaded

/-- Whatever processes without a limit came before and wherever they were stopped, a process that comes
to FastRP has the graph of the records: its nodes, its matrix, the ids of its artists and what is
counted. -/
theorem main_ready (hread : Readable s lead lead' root root')
    (h : Reachable (World.wholeStep s) .initial w) {graph : Graph F (Scalars τ)}
    (hready : w.process = some (args, .ready graph)) (order : SetOrder) :
    OfRecords s.ar s.nodeKey (releaseRecords s root order) (masterRecords s root') graph :=
  (sound_reachable hread h).process args (.ready graph) hready

end

/-! ### One artist -/

/-- A dump of one record by one artist. -/
def artistRecord (tag : String) : Bytes :=
  ascii ("<d><" ++ tag ++ " id=\"1\"><artists><artist><id>7</id></artist></artists></" ++ tag ++ "></d>")

def artistRoot (tag : String) : Element :=
  .mk ['d'] [] [] [.mk tag.toList [(['i', 'd'], ['1'])] []
    [.mk "artists".toList [] [] [.mk "artist".toList [] [] [.mk ['i', 'd'] [] ['7'] []]]]]

theorem run_artistRelease : run asciiNames start
    (ascii "<d><release id=\"1\"><artists><artist><id>7</id></artist></artists></release>") =
    some ⟨.text [], .inside [] ⟨['d'], ['d'], [], [], [], (artistRoot "release").children⟩⟩ := by
  cbv

theorem recordDump_artistRelease : RecordDump asciiNames (ascii "release") (artistRecord "release")
    (ascii "<d>") (artistRoot "release") where
  parses := by
    have hdump : artistRecord "release" =
        ascii "<d><release id=\"1\"><artists><artist><id>7</id></artist></artists></release>" ++
          ascii "</d>" := by decide
    unfold fromstring
    rw [hdump, run_append, run_artistRelease]
    rfl
  first := ⟨ascii "id=\"1\"><artists><artist><id>7</id></artist></artists></release></d>", by decide,
    by decide⟩
  noEarlier := by decide
  opens := ⟨[], ⟨['d'], ['d'], [], [], [], []⟩, by cbv, rfl, rfl⟩
  closes := by
    intro before after h
    obtain ⟨rfl, rfl⟩ := split_once 65 (by decide +kernel) h
    exact ⟨_, run_artistRelease, fun _ => rfl⟩
  noDeclaration := by decide +kernel

def oneArtist : Setting ℤ ℤ ℤ where
  names := asciiNames
  nodeKey := kindKey
  categorizeRole := id
  ar := integerArithmetic
  chunkBytes := 16
  releases := artistRecord "release"
  masters := oneRecord "master"
  releasesPath := true

theorem oneArtist_readable :
    Readable oneArtist (ascii "<d>") (ascii "<d>") (artistRoot "release") (oneRoot "master") where
  releases := recordDump_artistRelease
  releases_block := by decide
  masters := recordDump_oneMaster
  masters_block := by decide

theorem oneArtist_keys : recordKeys (releaseRecords oneArtist (artistRoot "release") sortedOrder)
    (masterRecords oneArtist (oneRoot "master")) = [1, 2] := by
  cbv

theorem oneArtist_fits : (recordKeys (releaseRecords oneArtist (artistRoot "release") sortedOrder)
    (masterRecords oneArtist (oneRoot "master"))).length ≤ maxNodes := by
  rw [oneArtist_keys]
  decide

/- Both checkpoints are written, and the dumps are deleted before FastRP. -/
def checkpointsThenDelete : Args := ⟨true, true, 0, true⟩

theorem main_ready_oneArtist : ∃ (w : World ℤ Unit) (graph : Graph ℤ (Scalars Unit)),
    Reachable (World.wholeStep oneArtist) .initial w ∧
      w.process = some (checkpointsThenDelete, .ready graph) ∧
      graph.nodes.keys = [1, 2] ∧ graph.degree = [1, 1] := by
  have hinitial : (World.initial : World ℤ Unit).Sound oneArtist (artistRoot "release")
      (oneRoot "master") sortedOrder := sound_initial
  have hprovided : (World.initial : World ℤ Unit).Provided checkpointsThenDelete :=
    Or.inr fun _ => rfl
  obtain ⟨w, graph, hreach, hready⟩ := reach_ready oneArtist_readable hinitial oneArtist_fits rfl rfl
    hprovided
  have hexact := main_ready oneArtist_readable hreach hready sortedOrder
  refine ⟨w, graph, hreach, hready, hexact.keys.trans oneArtist_keys, ?_⟩
  rw [hexact.degree, oneArtist_keys]
  decide +kernel

end AnalyticsEngine.DumpGraph
