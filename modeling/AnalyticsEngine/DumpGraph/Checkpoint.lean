import AnalyticsEngine.Embeddings.Edges
import AnalyticsEngine.Library.Upsert

/-!
# Graph checkpoints (scripts/embeddings_from_dump.py)

One call of `save_graph_checkpoint` as its file operations on three sibling directories, any of
which may raise, with its handler. What is at `path` changes by the two renames only
(`path_step`), and between them nothing is there (`saveStep_standing`).
-/

namespace AnalyticsEngine.DumpGraph
open Library Embeddings

/- A dictionary in insertion order. -/
structure Dict (K V : Type*) where
  items : List (K × V)
  distinct : (items.map Prod.fst).Nodup

section
variable {K V : Type*} [DecidableEq K]

/-- A value given for a key that is there replaces the value, not the key. -/
def assign (old new : K × V) : K × V := (old.1, new.2)

omit [DecidableEq K] in
theorem assign_key (old new : K × V) : (assign old new).1 = old.1 := rfl

theorem nodup_assign (pairs : List (K × V)) :
    ((upsertAll Prod.fst assign pairs []).map Prod.fst).Nodup := by
  have hempty : (([] : List (K × V)).map Prod.fst).Nodup := List.nodup_nil
  exact nodup_upsertAll assign_key hempty pairs

/-- `dict(pairs)`. -/
def Dict.ofPairs (pairs : List (K × V)) : Dict K V :=
  ⟨upsertAll Prod.fst assign pairs [], nodup_assign pairs⟩

theorem Dict.ofPairs_items (d : Dict K V) : Dict.ofPairs d.items = d := by
  have hitems : upsertAll Prod.fst assign d.items [] = d.items := upsertAll_new d.distinct
  unfold Dict.ofPairs
  simp only [hitems]

end

/- What a checkpoint keeps of `build_graph`'s dictionary: the adjacency and its nodes, the artist
ids, and the scalars under the other keys. -/
structure Graph (F M : Type*) where
  nodes : NodeIndex
  transition : Csr F
  degree : List ℤ
  artistKeyToId : Dict U64 String
  scalars : M

/- A file: what its writer was given once the writer is done with it, and before that something
no reader accepts. -/
inductive Content (F M : Type*) where
  | matrix (transition : Csr F)
  | keys (array : List U64)
  | counts (array : List ℤ)
  | artists (keys : List U64) (ids : List String)
  | json (scalars : M)
  | unfinished

abbrev Directory (F M : Type*) := List (String × Content F M)

variable {F M : Type*}

def Directory.unlink (d : Directory F M) (name : String) : Directory F M :=
  d.filter fun file => file.1 ≠ name

def Directory.put (d : Directory F M) (name : String) (content : Content F M) : Directory F M :=
  (name, content) :: d.unlink name

/- `path`, `path.tmp-<pid>` and `path.replaced-<pid>`. -/
inductive Place where
  | path
  | tmp
  | bak
  deriving DecidableEq

abbrev Disk (F M : Type*) := Place → Option (Directory F M)

def graphCheckpointArrays : List String :=
  ["adjacency.npz", "node_keys.npy", "degree.npy", "artist_ids.npz", "meta.json"]

def graphCheckpointExists (disk : Disk F M) : Bool :=
  match disk .path with
  | none => false
  | some d => graphCheckpointArrays.all fun name => (d.lookup name).isSome

/-- `load_graph_checkpoint`, which raises where a file is missing or not readable as what it
should be. -/
def loadGraphCheckpoint (disk : Disk F M) : Option (Graph F M) := do
  let d ← disk .path
  let .matrix transition ← d.lookup "adjacency.npz" | none
  let .keys nodeKeys ← d.lookup "node_keys.npy" | none
  let .ok nodes := NodeIndex.new nodeKeys | none
  let .counts degree ← d.lookup "degree.npy" | none
  let .artists keys ids ← d.lookup "artist_ids.npz" | none
  if keys.length ≠ ids.length then none
  let .json scalars ← d.lookup "meta.json" | none
  return ⟨nodes, transition, degree, Dict.ofPairs (keys.zip ids), scalars⟩

/-- The files, in the order they are written. -/
def Graph.files (graph : Graph F M) : List (String × Content F M) :=
  [("adjacency.npz", .matrix graph.transition),
   ("node_keys.npy", .keys graph.nodes.keys),
   ("degree.npy", .counts graph.degree),
   ("artist_ids.npz", .artists (graph.artistKeyToId.items.map Prod.fst)
     (graph.artistKeyToId.items.map Prod.snd)),
   ("meta.json", .json graph.scalars)]

/-! ### One call -/

inductive Phase (F M : Type*) where
  -- `rmtree` of the temporary directory, then `mkdir`
  | clearing
  | writing (left : List (String × Content F M))
  -- between the two renames
  | swapping
  -- `rmtree` of the directory moved away
  | dropping
  | handling
  | returned
  | raised

structure Call (F M : Type*) where
  disk : Disk F M
  phase : Phase F M

/- The file operations. `unlink`, `rmdir` and `leave` are those of an `rmtree` that ignores
errors: it may leave anything behind. -/
inductive Operation where
  | unlink (name : String)
  | rmdir
  | leave
  | mkdir
  | writePart
  | writeRest
  | renameAway
  | renameInto
  | raises
  deriving DecidableEq

def Disk.set (disk : Disk F M) (place : Place) (d : Option (Directory F M)) : Disk F M :=
  Function.update disk place d

/-- The directory an `rmtree` is at work on. -/
def Phase.removes : Phase F M → Option Place
  | .clearing => some .tmp
  | .dropping => some .bak
  | .handling => some .tmp
  | _ => none

/-- A directory may be renamed onto nothing or onto an empty directory. -/
def renames (disk : Disk F M) (source target : Place) : Option (Disk F M) :=
  match disk source, disk target with
  | some d, none => some ((disk.set source none).set target (some d))
  | some d, some [] => some ((disk.set source none).set target (some d))
  | _, _ => none

/- One completed operation, `none` where the call does not perform it. -/
def saveStep (graph : Graph F M) (call : Call F M) : Operation → Option (Call F M)
  | .unlink name =>
    match call.phase.removes with
    | some place => (call.disk place).map fun d =>
      { call with disk := call.disk.set place (some (d.unlink name)) }
    | none => none
  | .rmdir =>
    match call.phase.removes with
    | some place => (call.disk place).bind fun d =>
      if d.isEmpty then some { call with disk := call.disk.set place none } else none
    | none => none
  | .leave =>
    match call.phase with
    | .dropping => some { call with phase := .returned }
    | .handling => some { call with phase := .raised }
    | _ => none
  | .mkdir =>
    match call.phase, call.disk .tmp with
    | .clearing, none => some ⟨call.disk.set .tmp (some []), .writing graph.files⟩
    | _, _ => none
  | .writePart =>
    match call.phase, call.disk .tmp with
    | .writing ((name, _) :: _), some d =>
      some { call with disk := call.disk.set .tmp (some (d.put name .unfinished)) }
    | _, _ => none
  | .writeRest =>
    match call.phase, call.disk .tmp with
    | .writing ((name, content) :: left), some d =>
      some ⟨call.disk.set .tmp (some (d.put name content)), .writing left⟩
    | _, _ => none
  | .renameAway =>
    match call.phase with
    | .writing [] => (renames call.disk .path .bak).map fun disk => ⟨disk, .swapping⟩
    | _ => none
  | .renameInto =>
    match call.phase with
    | .swapping => (renames call.disk .tmp .path).map fun disk => ⟨disk, .dropping⟩
    | .writing [] =>
      -- without a checkpoint at `path` there is nothing to move away
      if (call.disk .path).isSome then none
      else (renames call.disk .tmp .path).map fun disk => ⟨disk, .dropping⟩
    | _ => none
  | .raises =>
    match call.phase with
    | .clearing => some { call with phase := .raised }
    | .writing _ => some { call with phase := .handling }
    | .swapping => some { call with phase := .handling }
    | .dropping => some { call with phase := .handling }
    | _ => none

/-- The operations a call has completed when it is cut off, and where they leave it. -/
def saveRun (graph : Graph F M) (call : Call F M) (ops : List Operation) : Option (Call F M) :=
  ops.foldlM (saveStep graph) call

/-- `save_graph_checkpoint` is called. -/
def Call.start (disk : Disk F M) : Call F M := ⟨disk, .clearing⟩

/-! ### Reading back -/

section
variable {graph : Graph F M} {disk disk' : Disk F M}

theorem lookup_put_self (d : Directory F M) (name : String) (content : Content F M) :
    (d.put name content).lookup name = some content := by
  unfold Directory.put
  rw [List.lookup_cons, beq_self_eq_true]

theorem lookup_put_ne (d : Directory F M) {name other : String} (content : Content F M)
    (h : other ≠ name) : (d.put name content).lookup other = d.lookup other := by
  have hunlink : ∀ l : Directory F M, (l.unlink name).lookup other = l.lookup other := by
    intro l
    induction l with
    | nil => rfl
    | cons file l ih =>
      unfold Directory.unlink at ih ⊢
      rw [List.filter_cons, List.lookup_cons]
      by_cases hfile : file.1 = name
      · have hother : ¬other = file.1 := by
          rw [hfile]
          exact h
        simp only [hfile, ne_eq, not_true_eq_false, decide_false, Bool.false_eq_true, if_false, ih,
          beq_eq_false_iff_ne.mpr h]
      · rw [if_pos (decide_eq_true hfile), List.lookup_cons, ih]
  unfold Directory.put
  rw [List.lookup_cons, beq_eq_false_iff_ne.mpr h]
  exact hunlink d

/-- A directory that holds every file of the graph. -/
def Holds (graph : Graph F M) (d : Directory F M) : Prop :=
  ∀ file ∈ graph.files, d.lookup file.1 = some file.2

theorem holds_files (graph : Graph F M) : Holds graph graph.files := by
  unfold Holds Graph.files
  simp only [List.forall_mem_cons]
  exact ⟨rfl, rfl, rfl, rfl, rfl, fun _ hf => absurd hf List.not_mem_nil⟩

theorem exists_of_holds {d : Directory F M} (hdisk : disk .path = some d) (h : Holds graph d) :
    graphCheckpointExists disk = true := by
  unfold graphCheckpointExists
  rw [hdisk]
  dsimp only
  rw [List.all_eq_true]
  intro name hname
  have hfiles : graph.files.map Prod.fst = graphCheckpointArrays := rfl
  rw [← hfiles] at hname
  obtain ⟨file, hfile, rfl⟩ := List.mem_map.mp hname
  rw [h file hfile]
  rfl

theorem load_of_holds {d : Directory F M} (hdisk : disk .path = some d) (h : Holds graph d) :
    loadGraphCheckpoint disk = some graph := by
  unfold Holds Graph.files at h
  simp only [List.forall_mem_cons] at h
  obtain ⟨hmatrix, hkeys, hcounts, hartists, hjson, _⟩ := h
  have hnodes : NodeIndex.new graph.nodes.keys = .ok graph.nodes := by
    rw [NodeIndex.new_ordered graph.nodes.ordered, dif_neg (not_lt.mpr graph.nodes.bounded)]
  have hitems : (graph.artistKeyToId.items.map Prod.fst).zip
      (graph.artistKeyToId.items.map Prod.snd) = graph.artistKeyToId.items := by
    rw [List.zip_map', List.map_id']
  unfold loadGraphCheckpoint
  simp only [hdisk, hmatrix, hkeys, hcounts, hartists, hjson, hnodes, hitems, Dict.ofPairs_items,
    List.length_map, ne_eq, not_true_eq_false, if_false, Option.bind_eq_bind, Option.bind_some,
    Option.pure_def]

end

/-! ### What an operation does -/

/-- The phases the handler guards. -/
inductive Guarded : Phase F M → Prop where
  | writing (left : List (String × Content F M)) : Guarded (.writing left)
  | swapping : Guarded .swapping
  | dropping : Guarded .dropping

inductive Move (graph : Graph F M) : Call F M → Operation → Call F M → Prop where
  | remove {disk : Disk F M} {phase : Phase F M} {place : Place} (op : Operation)
      (d : Option (Directory F M)) : phase.removes = some place → op ≠ .renameAway →
      op ≠ .renameInto → Move graph ⟨disk, phase⟩ op ⟨disk.set place d, phase⟩
  | dropped (disk : Disk F M) : Move graph ⟨disk, .dropping⟩ .leave ⟨disk, .returned⟩
  | handled (disk : Disk F M) : Move graph ⟨disk, .handling⟩ .leave ⟨disk, .raised⟩
  | make (disk : Disk F M) :
      Move graph ⟨disk, .clearing⟩ .mkdir ⟨disk.set .tmp (some []), .writing graph.files⟩
  | part {disk : Disk F M} {d : Directory F M} (file : String × Content F M)
      (left : List (String × Content F M)) : disk .tmp = some d →
      Move graph ⟨disk, .writing (file :: left)⟩ .writePart
        ⟨disk.set .tmp (some (d.put file.1 .unfinished)), .writing (file :: left)⟩
  | rest {disk : Disk F M} {d : Directory F M} (file : String × Content F M)
      (left : List (String × Content F M)) : disk .tmp = some d →
      Move graph ⟨disk, .writing (file :: left)⟩ .writeRest
        ⟨disk.set .tmp (some (d.put file.1 file.2)), .writing left⟩
  | away {disk : Disk F M} {d : Directory F M} : disk .path = some d →
      Move graph ⟨disk, .writing []⟩ .renameAway
        ⟨(disk.set .path none).set .bak (some d), .swapping⟩
  | into {disk : Disk F M} {d : Directory F M} : disk .tmp = some d →
      Move graph ⟨disk, .swapping⟩ .renameInto
        ⟨(disk.set .tmp none).set .path (some d), .dropping⟩
  | first {disk : Disk F M} {d : Directory F M} : disk .path = none → disk .tmp = some d →
      Move graph ⟨disk, .writing []⟩ .renameInto
        ⟨(disk.set .tmp none).set .path (some d), .dropping⟩
  | early (disk : Disk F M) : Move graph ⟨disk, .clearing⟩ .raises ⟨disk, .raised⟩
  | late {phase : Phase F M} (disk : Disk F M) : Guarded phase →
      Move graph ⟨disk, phase⟩ .raises ⟨disk, .handling⟩

section
variable {graph : Graph F M} {call next : Call F M} {op : Operation}

theorem renames_some {disk disk' : Disk F M} {source target : Place}
    (h : renames disk source target = some disk') :
    ∃ d, disk source = some d ∧ disk' = (disk.set source none).set target (some d) := by
  unfold renames at h
  split at h
  · rename_i d hsource _
    exact ⟨d, hsource, (Option.some.inj h).symm⟩
  · rename_i d hsource _
    exact ⟨d, hsource, (Option.some.inj h).symm⟩
  · cases h

theorem saveStep_move (h : saveStep graph call op = some next) : Move graph call op next := by
  obtain ⟨disk, phase⟩ := call
  cases op with
  | unlink name =>
    simp only [saveStep] at h
    split at h
    · rename_i place hplace
      obtain ⟨d, _, rfl⟩ := Option.map_eq_some_iff.mp h
      exact .remove _ _ hplace Operation.noConfusion Operation.noConfusion
    · cases h
  | rmdir =>
    simp only [saveStep] at h
    split at h
    · rename_i place hplace
      obtain ⟨d, _, hempty⟩ := Option.bind_eq_some_iff.mp h
      split_ifs at hempty
      cases hempty
      exact .remove _ _ hplace Operation.noConfusion Operation.noConfusion
    · cases h
  | leave =>
    simp only [saveStep] at h
    split at h
    · cases h
      exact .dropped disk
    · cases h
      exact .handled disk
    · cases h
  | mkdir =>
    simp only [saveStep] at h
    split at h
    · cases h
      exact .make disk
    · cases h
  | writePart =>
    simp only [saveStep] at h
    split at h
    · rename_i name content left d htmp
      cases h
      exact .part (name, content) left htmp
    · cases h
  | writeRest =>
    simp only [saveStep] at h
    split at h
    · rename_i name content left d htmp
      cases h
      exact .rest (name, content) left htmp
    · cases h
  | renameAway =>
    simp only [saveStep] at h
    split at h
    · obtain ⟨disk', hrename, rfl⟩ := Option.map_eq_some_iff.mp h
      obtain ⟨d, hpath, rfl⟩ := renames_some hrename
      exact .away hpath
    · cases h
  | renameInto =>
    simp only [saveStep] at h
    split at h
    · obtain ⟨disk', hrename, rfl⟩ := Option.map_eq_some_iff.mp h
      obtain ⟨d, htmp, rfl⟩ := renames_some hrename
      exact .into htmp
    · split_ifs at h with hpath
      obtain ⟨disk', hrename, rfl⟩ := Option.map_eq_some_iff.mp h
      obtain ⟨d, htmp, rfl⟩ := renames_some hrename
      exact .first (by simpa using hpath) htmp
    · cases h
  | raises =>
    simp only [saveStep] at h
    split at h
    · cases h
      exact .early disk
    · cases h
      exact .late disk (.writing _)
    · cases h
      exact .late disk .swapping
    · cases h
      exact .late disk .dropping
    · cases h

end

/-! ### Runs -/

section
variable {graph : Graph F M} {old : Directory F M} {ops : List Operation} {call next : Call F M}

/-- The files written so far are in the temporary directory. -/
def Written (graph : Graph F M) (left : List (String × Content F M)) (disk : Disk F M) : Prop :=
  ∃ d done, disk .tmp = some d ∧ graph.files = done ++ left ∧
    ∀ file ∈ done, d.lookup file.1 = some file.2

theorem files_names (graph : Graph F M) : (graph.files.map Prod.fst).Nodup := by
  have hnames : graph.files.map Prod.fst = graphCheckpointArrays := rfl
  rw [hnames]
  decide

/-- A write to the next file leaves those before it. -/
theorem written_put {d : Directory F M} {file : String × Content F M}
    {done left : List (String × Content F M)} (hfiles : graph.files = done ++ file :: left)
    (hdone : ∀ f ∈ done, d.lookup f.1 = some f.2) (content : Content F M) :
    ∀ f ∈ done, (d.put file.1 content).lookup f.1 = some f.2 := by
  intro f hf
  have hnames := files_names graph
  rw [hfiles, List.map_append, List.map_cons] at hnames
  have hne : f.1 ≠ file.1 := by
    intro heq
    have hdisjoint := List.disjoint_of_nodup_append hnames (List.mem_map_of_mem hf)
    exact hdisjoint (by rw [heq]; exact List.mem_cons_self)
  rw [lookup_put_ne d content hne]
  exact hdone f hf

theorem Disk.set_self (disk : Disk F M) (place : Place) (d : Option (Directory F M)) :
    disk.set place d place = d := Function.update_self _ _ _

theorem Disk.set_ne (disk : Disk F M) {place other : Place} (d : Option (Directory F M))
    (h : other ≠ place) : disk.set place d other = disk other := Function.update_of_ne h _ _

/-- An `rmtree` is never at work on `path`. -/
theorem removes_ne_path {phase : Phase F M} {place : Place} (h : phase.removes = some place) :
    .path ≠ place := by
  rintro rfl
  cases phase <;> cases h

/- The phases after an operation has raised, and those after the second rename. -/
inductive Stopping : Phase F M → Prop where
  | handling : Stopping .handling
  | raised : Stopping .raised

inductive Finishing : Phase F M → Prop where
  | dropping : Finishing .dropping
  | returned : Finishing .returned
  | stopping {phase : Phase F M} : Stopping phase → Finishing phase

/- Operations that leave `path` as it is. -/
structure Leaves (call next : Call F M) (op : Operation) : Prop where
  path : next.disk .path = call.disk .path
  not_away : op ≠ .renameAway
  not_into : op ≠ .renameInto

theorem stopping_move {op : Operation} (hphase : Stopping call.phase)
    (hmove : Move graph call op next) : Stopping next.phase ∧ Leaves call next op := by
  obtain ⟨disk, phase⟩ := call
  dsimp only at hphase
  cases hphase with
  | handling =>
    cases hmove with
    | remove _ d hplace haway hinto =>
      exact ⟨.handling, Disk.set_ne _ d (removes_ne_path hplace), haway, hinto⟩
    | handled => exact ⟨.raised, rfl, Operation.noConfusion, Operation.noConfusion⟩
    | late _ hguarded => cases hguarded
  | raised =>
    cases hmove with
    | remove _ _ hplace _ _ => cases hplace
    | late _ hguarded => cases hguarded

theorem finishing_move {op : Operation} (hphase : Finishing call.phase)
    (hmove : Move graph call op next) : Finishing next.phase ∧ Leaves call next op := by
  obtain ⟨disk, phase⟩ := call
  dsimp only at hphase
  cases hphase with
  | dropping =>
    cases hmove with
    | remove _ d hplace haway hinto =>
      exact ⟨.dropping, Disk.set_ne _ d (removes_ne_path hplace), haway, hinto⟩
    | dropped => exact ⟨.returned, rfl, Operation.noConfusion, Operation.noConfusion⟩
    | late => exact ⟨.stopping .handling, rfl, Operation.noConfusion, Operation.noConfusion⟩
  | returned =>
    cases hmove with
    | remove _ _ hplace _ _ => cases hplace
    | late _ hguarded => cases hguarded
  | stopping hstopping =>
    obtain ⟨hstopping', hleaves⟩ := stopping_move hstopping hmove
    exact ⟨.stopping hstopping', hleaves⟩

/- Where a call stands after its first operations: before the first rename, between the two, or
after the second. -/
inductive Standing (graph : Graph F M) (old : Directory F M) (ops : List Operation) :
    Call F M → Prop where
  | clearing {disk : Disk F M} : .renameAway ∉ ops → .renameInto ∉ ops →
      disk .path = some old → Standing graph old ops ⟨disk, .clearing⟩
  | writing {disk : Disk F M} {left : List (String × Content F M)} : .renameAway ∉ ops →
      .renameInto ∉ ops → disk .path = some old → Written graph left disk →
      Standing graph old ops ⟨disk, .writing left⟩
  | kept {call : Call F M} : .renameAway ∉ ops → call.disk .path = some old →
      Stopping call.phase → Standing graph old ops call
  | swapping {disk : Disk F M} : .renameAway ∈ ops → .renameInto ∉ ops → disk .path = none →
      Written graph [] disk → Standing graph old ops ⟨disk, .swapping⟩
  | lost {call : Call F M} : .renameAway ∈ ops → .renameInto ∉ ops → call.disk .path = none →
      Stopping call.phase → Standing graph old ops call
  | replaced {call : Call F M} {d : Directory F M} : .renameInto ∈ ops →
      call.disk .path = some d → Holds graph d → Finishing call.phase → Standing graph old ops call

theorem not_mem_snoc {op op' : Operation} (h : op ∉ ops) (hne : op' ≠ op) : op ∉ ops ++ [op'] := by
  rw [List.mem_append, List.mem_singleton, not_or]
  exact ⟨h, Ne.symm hne⟩

theorem mem_snoc {op : Operation} (h : op ∈ ops) (op' : Operation) : op ∈ ops ++ [op'] :=
  List.mem_append_left _ h

theorem clearing_step {disk : Disk F M} {op : Operation} (haway : .renameAway ∉ ops)
    (hinto : .renameInto ∉ ops) (hpath : disk .path = some old)
    (hmove : Move graph ⟨disk, .clearing⟩ op next) : Standing graph old (ops ++ [op]) next := by
  cases hmove with
  | remove _ d hplace hne hne' =>
    refine .clearing (not_mem_snoc haway hne) (not_mem_snoc hinto hne') ?_
    rw [Disk.set_ne _ d (removes_ne_path hplace)]
    exact hpath
  | make =>
    refine .writing (not_mem_snoc haway Operation.noConfusion)
      (not_mem_snoc hinto Operation.noConfusion) ?_ ?_
    · rw [Disk.set_ne _ _ Place.noConfusion]
      exact hpath
    · exact ⟨[], [], Disk.set_self _ _ _, rfl, fun _ hf => absurd hf List.not_mem_nil⟩
  | early => exact .kept (not_mem_snoc haway Operation.noConfusion) hpath .raised
  | late _ hguarded => cases hguarded

theorem writing_step {disk : Disk F M} {left : List (String × Content F M)} {op : Operation}
    (haway : .renameAway ∉ ops) (hinto : .renameInto ∉ ops) (hpath : disk .path = some old)
    (hwritten : Written graph left disk) (hmove : Move graph ⟨disk, .writing left⟩ op next) :
    Standing graph old (ops ++ [op]) next := by
  obtain ⟨d, done, htmp, hfiles, hdone⟩ := hwritten
  cases hmove with
  | remove _ _ hplace _ _ => cases hplace
  | part file left htmp' =>
    rw [htmp] at htmp'
    cases htmp'
    refine .writing (not_mem_snoc haway Operation.noConfusion)
      (not_mem_snoc hinto Operation.noConfusion) ?_ ?_
    · rw [Disk.set_ne _ _ Place.noConfusion]
      exact hpath
    · exact ⟨_, done, Disk.set_self _ _ _, hfiles, written_put hfiles hdone .unfinished⟩
  | rest file left htmp' =>
    rw [htmp] at htmp'
    cases htmp'
    refine .writing (not_mem_snoc haway Operation.noConfusion)
      (not_mem_snoc hinto Operation.noConfusion) ?_ ?_
    · rw [Disk.set_ne _ _ Place.noConfusion]
      exact hpath
    · refine ⟨_, done ++ [file], Disk.set_self _ _ _, ?_, ?_⟩
      · rw [hfiles, List.append_assoc, List.singleton_append]
      · intro f hf
        rcases List.mem_append.mp hf with hf | hf
        · exact written_put hfiles hdone file.2 f hf
        · rw [List.mem_singleton.mp hf, lookup_put_self]
  | away _ =>
    refine .swapping (List.mem_append_right _ List.mem_cons_self)
      (not_mem_snoc hinto Operation.noConfusion) ?_ ?_
    · rw [Disk.set_ne _ _ Place.noConfusion, Disk.set_self]
    · refine ⟨d, done, ?_, hfiles, hdone⟩
      rw [Disk.set_ne _ _ Place.noConfusion, Disk.set_ne _ _ Place.noConfusion]
      exact htmp
  | first hnone _ =>
    -- a checkpoint is at `path`, so the call renames it away first
    rw [hpath] at hnone
    cases hnone
  | late _ _ => exact .kept (not_mem_snoc haway Operation.noConfusion) hpath .handling

theorem swapping_step {disk : Disk F M} {op : Operation} (haway : .renameAway ∈ ops)
    (hinto : .renameInto ∉ ops) (hpath : disk .path = none) (hwritten : Written graph [] disk)
    (hmove : Move graph ⟨disk, .swapping⟩ op next) : Standing graph old (ops ++ [op]) next := by
  obtain ⟨d, done, htmp, hfiles, hdone⟩ := hwritten
  cases hmove with
  | remove _ _ hplace _ _ => cases hplace
  | into htmp' =>
    rw [htmp] at htmp'
    cases htmp'
    rw [List.append_nil] at hfiles
    have hholds : Holds graph d := by
      intro file hfile
      rw [hfiles] at hfile
      exact hdone file hfile
    refine .replaced (List.mem_append_right _ List.mem_cons_self) ?_ hholds .dropping
    exact Disk.set_self (disk.set .tmp none) .path (some d)
  | late _ _ =>
    exact .lost (mem_snoc haway _) (not_mem_snoc hinto Operation.noConfusion) hpath .handling

theorem standing_step {op : Operation} (h : Standing graph old ops call)
    (hmove : Move graph call op next) : Standing graph old (ops ++ [op]) next := by
  cases h with
  | clearing haway hinto hpath => exact clearing_step haway hinto hpath hmove
  | writing haway hinto hpath hwritten => exact writing_step haway hinto hpath hwritten hmove
  | swapping haway hinto hpath hwritten => exact swapping_step haway hinto hpath hwritten hmove
  | kept haway hpath hphase =>
    obtain ⟨hphase', hleaves⟩ := stopping_move hphase hmove
    exact .kept (not_mem_snoc haway hleaves.not_away) (hleaves.path.trans hpath) hphase'
  | lost haway hinto hpath hphase =>
    obtain ⟨hphase', hleaves⟩ := stopping_move hphase hmove
    exact .lost (mem_snoc haway op) (not_mem_snoc hinto hleaves.not_into)
      (hleaves.path.trans hpath) hphase'
  | replaced hinto hpath hholds hphase =>
    obtain ⟨hphase', hleaves⟩ := finishing_move hphase hmove
    exact .replaced (mem_snoc hinto op) (hleaves.path.trans hpath) hholds hphase'

theorem standing_run {later : List Operation} (h : Standing graph old ops call)
    (hrun : saveRun graph call later = some next) : Standing graph old (ops ++ later) next := by
  induction later generalizing ops call with
  | nil =>
    cases hrun
    rw [List.append_nil]
    exact h
  | cons op later ih =>
    unfold saveRun at hrun
    rw [List.foldlM_cons] at hrun
    obtain ⟨after, hstep, hrest⟩ := Option.bind_eq_some_iff.mp hrun
    have hafter := ih (standing_step h (saveStep_move hstep)) hrest
    rw [List.append_assoc, List.singleton_append] at hafter
    exact hafter

end

/-- A checkpoint is at `path`, and it is the old graph's or the new one's. -/
def Intact (old new : Graph F M) (disk : Disk F M) : Prop :=
  graphCheckpointExists disk = true ∧
    (loadGraphCheckpoint disk = some old ∨ loadGraphCheckpoint disk = some new)

section
variable {old new : Graph F M} {disk after : Disk F M}

theorem intact_of_path (hexists : graphCheckpointExists disk = true)
    (hload : loadGraphCheckpoint disk = some old) (h : after .path = disk .path) :
    Intact old new after := by
  unfold graphCheckpointExists at hexists
  unfold loadGraphCheckpoint at hload
  unfold Intact graphCheckpointExists loadGraphCheckpoint
  rw [h]
  exact ⟨hexists, Or.inl hload⟩

theorem not_intact_of_none (h : after .path = none) : ¬Intact old new after := by
  intro hintact
  have hexists := hintact.1
  unfold graphCheckpointExists at hexists
  rw [h] at hexists
  cases hexists

theorem exists_path (h : graphCheckpointExists disk = true) : ∃ d, disk .path = some d := by
  cases hpath : disk .path with
  | none =>
    unfold graphCheckpointExists at h
    rw [hpath] at h
    cases h
  | some d => exact ⟨d, rfl⟩

/-- Wherever a call over a checkpoint is cut off, a whole checkpoint is at `path` unless the first
rename was completed and the second was not. -/
theorem saveGraphCheckpoint_intact {ops : List Operation} {call : Call F M}
    (hexists : graphCheckpointExists disk = true) (hload : loadGraphCheckpoint disk = some old)
    (hrun : saveRun new (Call.start disk) ops = some call) :
    (Intact old new call.disk ↔ (.renameAway ∈ ops → .renameInto ∈ ops)) ∧
    (call.phase = .returned → loadGraphCheckpoint call.disk = some new) := by
  obtain ⟨d, hd⟩ := exists_path hexists
  have hsame : ∀ {after : Disk F M}, after .path = some d → Intact old new after := fun h =>
    intact_of_path hexists hload (h.trans hd.symm)
  have hstanding : Standing new d ([] ++ ops) call :=
    standing_run (.clearing List.not_mem_nil List.not_mem_nil hd) hrun
  rw [List.nil_append] at hstanding
  cases hstanding with
  | clearing haway _ hpath =>
    refine ⟨iff_of_true (hsame hpath) fun h => absurd h haway, ?_⟩
    intro hreturned
    cases hreturned
  | writing haway _ hpath _ =>
    refine ⟨iff_of_true (hsame hpath) fun h => absurd h haway, ?_⟩
    intro hreturned
    cases hreturned
  | kept haway hpath hphase =>
    refine ⟨iff_of_true (hsame hpath) fun h => absurd h haway, ?_⟩
    intro hreturned
    rw [hreturned] at hphase
    cases hphase
  | swapping haway hinto hpath _ =>
    refine ⟨iff_of_false (not_intact_of_none hpath) fun h => hinto (h haway), ?_⟩
    intro hreturned
    cases hreturned
  | lost haway hinto hpath hphase =>
    refine ⟨iff_of_false (not_intact_of_none hpath) fun h => hinto (h haway), ?_⟩
    intro hreturned
    rw [hreturned] at hphase
    cases hphase
  | replaced hinto hpath hholds _ =>
    have hload' := load_of_holds hpath hholds
    exact ⟨iff_of_true ⟨exists_of_holds hpath hholds, Or.inr hload'⟩ fun _ => hinto,
      fun _ => hload'⟩

end

def pairKeys : List U64 := [3, 5]

theorem pairKeys_ordered : pairKeys.Pairwise (· < ·) := by decide

theorem pairKeys_bounded : pairKeys.length ≤ maxNodes := by decide

def pairNodes : NodeIndex := ⟨pairKeys, pairKeys_ordered, pairKeys_bounded⟩

/- One edge between an artist and a release. -/
def pairGraph (releaseCount : ℕ) : Graph ℕ ℕ where
  nodes := pairNodes
  transition := ⟨2, [0, 1, 2], [1, 0], [1, 1]⟩
  degree := [1, 1]
  artistKeyToId := Dict.ofPairs [(3, "10")]
  scalars := releaseCount

def pairDisk : Disk ℕ ℕ := fun place => if place = .path then some (pairGraph 1).files else none

def writes : List Operation :=
  [.mkdir, .writeRest, .writeRest, .writeRest, .writeRest, .writeRest]

theorem saveGraphCheckpoint_intact_pair : ∃ call,
    saveRun (pairGraph 2) (Call.start pairDisk) (writes ++ [.renameAway, .renameInto, .leave]) =
      some call ∧ Intact (pairGraph 1) (pairGraph 2) call.disk ∧
    loadGraphCheckpoint call.disk = some (pairGraph 2) := by
  obtain ⟨call, hrun, hreturned⟩ : ∃ call, saveRun (pairGraph 2) (Call.start pairDisk)
      (writes ++ [.renameAway, .renameInto, .leave]) = some call ∧ call.phase = .returned :=
    ⟨_, rfl, rfl⟩
  obtain ⟨hintact, hload⟩ := saveGraphCheckpoint_intact (exists_of_holds rfl (holds_files _))
    (load_of_holds rfl (holds_files _)) hrun
  exact ⟨call, hrun, hintact.mpr fun _ => by decide, hload hreturned⟩

/-- Between the two renames nothing is at `path`, and an error there leaves it so. -/
theorem saveGraphCheckpoint_swapping :
    graphCheckpointExists pairDisk = true ∧ loadGraphCheckpoint pairDisk = some (pairGraph 1) ∧
    (∃ call, saveRun (pairGraph 2) (Call.start pairDisk) (writes ++ [.renameAway]) = some call ∧
      graphCheckpointExists call.disk = false ∧ loadGraphCheckpoint call.disk = none) ∧
    ∃ call, saveRun (pairGraph 2) (Call.start pairDisk)
        (writes ++ [.renameAway, .raises, .unlink "meta.json", .leave]) = some call ∧
      graphCheckpointExists call.disk = false ∧ loadGraphCheckpoint call.disk = none :=
  ⟨exists_of_holds rfl (holds_files _), load_of_holds rfl (holds_files _), ⟨_, rfl, rfl, rfl⟩,
    ⟨_, rfl, rfl, rfl⟩⟩

end AnalyticsEngine.DumpGraph
