import CardanoLsm.BloomFilter
import CardanoLsm.Lib.Script
import CardanoLsm.Lib.Counted

/-! Run files, SSTable handles and their reference counters (`sstable.rs`). A run is
kept at the level of its sorted entries; the five files of a run are written, linked
and removed together with them. The state has the files of `active/` and `snapshots/`
and the counters that the handles of the running process share. -/
namespace CardanoLsm
open Std Layered

inductive Component where
  | keyops | blobs | filter | index | checksums | metadata | metadataChecksum
  deriving DecidableEq, Repr

inductive FileOp where
  | createNew (c : Component)
  | create (c : Component)
  | write (c : Component)
  | sync (c : Component)
  | rename (c : Component)
  | hardLink (c : Component)
  | open (c : Component)
  | read (c : Component)
  | createDirAll
  | openDirectory
  | syncDirectory
  deriving DecidableEq, Repr

inductive Error where
  | io (op : FileOp)
  | invalidOperation (message : String)
  /-- The `InvalidOperation` of `open_snapshot` for a run that does not open. -/
  | loadFailed (run : Nat) (snapshot : String) (cause : Error)
  deriving DecidableEq, Repr

structure Run where
  entries : Entries
  nonempty : entries ≠ ∅
  deriving DecidableEq

namespace Run

def index (r : Run) : List Key := r.entries.keys

theorem indexNonempty (r : Run) : r.index ≠ [] :=
  fun none => r.nonempty (ExtTreeMap.keys_eq_nil_iff.mp none)

def minKey (r : Run) : Key := r.index.head r.indexNonempty
def maxKey (r : Run) : Key := r.index.getLast r.indexNonempty
def numEntries (r : Run) : Nat := r.entries.size

theorem withinBounds {r : Run} {k : Key} {e : Entry} (held : r.entries[k]? = some e) :
    (compare k r.minKey).isGE = true ∧ (compare k r.maxKey).isLE = true := by
  have member : k ∈ r.index := by
    rw [index, ExtTreeMap.mem_keys, ExtTreeMap.mem_iff_isSome_getElem?, held]
    rfl
  have ordered : r.index.Pairwise (fun a b => compare a b = .lt) := ExtTreeMap.ordered_keys
  constructor
  · have below : r.minKey = k ∨ compare r.minKey k = .lt := by
      have split := List.cons_head_tail r.indexNonempty
      rw [← split] at member ordered
      rcases List.mem_cons.mp member with first | later
      · exact Or.inl first.symm
      · exact Or.inr ((List.pairwise_cons.mp ordered).1 k later)
    have swap : compare k r.minKey = (compare r.minKey k).swap := OrientedCmp.eq_swap
    rcases below with same | lt
    · simp [same]
    · simp [swap, lt]
  · have above : k = r.maxKey ∨ compare k r.maxKey = .lt := by
      have split := List.dropLast_append_getLast r.indexNonempty
      rw [← split] at member ordered
      rcases List.mem_append.mp member with early | last
      · exact Or.inr ((List.pairwise_append.mp ordered).2.2 k early _ (by simp [maxKey]))
      · exact Or.inl (by simpa [maxKey] using last)
    rcases above with same | lt
    · simp [← same]
    · simp [lt]

end Run

inductive Directory where
  | active
  | snapshot (name : String)
  deriving DecidableEq, Repr

/-- The handle keeps the index, the bloom filter and the key bounds of the run in
memory; values are read from the files its paths name. -/
structure SsTableHandle where
  dir : Directory
  runNumber : Nat
  run : Run
  level : Nat
  refcount : Nat
  deriving DecidableEq

namespace SsTableHandle

def minKey (h : SsTableHandle) : Key := h.run.minKey
def maxKey (h : SsTableHandle) : Key := h.run.maxKey
def numEntries (h : SsTableHandle) : Nat := h.run.numEntries
def bloomFilter (hash : KeyHash) (h : SsTableHandle) : BloomFilter :=
  BloomFilter.fromKeys hash h.run.index 10

end SsTableHandle

structure SnapshotRun where
  runNumber : Nat
  minKey : Key
  maxKey : Key
  numEntries : Nat
  level : Nat
  deriving DecidableEq, Repr

structure SnapshotMetadata where
  version : Nat
  label : String
  config : LsmConfig
  runs : List SnapshotRun
  sequenceNumber : Nat
  deriving DecidableEq, Repr

abbrev RunFiles := List (Nat × Option Run)

structure SavedSnapshot where
  runs : RunFiles
  metadata : Option SnapshotMetadata

structure Storage where
  active : RunFiles
  snapshots : List (String × SavedSnapshot)
  refcounts : Nat → Nat
  nextRefcount : Nat

namespace Storage

def files (st : Storage) : Directory → RunFiles
  | .active => st.active
  | .snapshot name => ((st.snapshots.lookup name).map SavedSnapshot.runs).getD []

def runAt (st : Storage) (dir : Directory) (n : Nat) : Option Run :=
  ((st.files dir).lookup n).join

def modifySnapshot (st : Storage) (name : String) (f : SavedSnapshot → SavedSnapshot) : Storage :=
  { st with snapshots := st.snapshots.map (fun s => if s.1 = name then (name, f s.2) else s) }

def removeFiles (st : Storage) (dir : Directory) (n : Nat) : Storage :=
  match dir with
  | .active => { st with active := st.active.filter (fun f => f.1 != n) }
  | .snapshot name =>
    st.modifySnapshot name (fun s => { s with runs := s.runs.filter (fun f => f.1 != n) })

def cloneHandle (st : Storage) (h : SsTableHandle) : Storage :=
  { st with refcounts := Function.update st.refcounts h.refcount (st.refcounts h.refcount + 1) }

def cloneAll (st : Storage) (hs : List SsTableHandle) : Storage := hs.foldl cloneHandle st

def dropHandle (st : Storage) (h : SsTableHandle) : Storage :=
  let prev := st.refcounts h.refcount
  let st := { st with refcounts := Function.update st.refcounts h.refcount (prev - 1) }
  if prev = 1 then st.removeFiles h.dir h.runNumber else st

def readRun (st : Storage) (h : SsTableHandle) : Except Error Run :=
  match st.runAt h.dir h.runNumber with
  | some run => .ok run
  | none => .error (.io (.read .keyops))

def contents (st : Storage) (h : SsTableHandle) : Entries :=
  match st.readRun h with
  | .ok run => run.entries
  | .error _ => ∅

def rangeWithTombstones (st : Storage) (h : SsTableHandle) (lo hi : Key) :
    Except Error (List (Key × Entry)) := do
  let run ← st.readRun h
  return run.entries.toList.filter (fun e => inRange lo hi e.1)

def get (hash : KeyHash) (st : Storage) (h : SsTableHandle) (key : Key) :
    Except Error (Option Value) :=
  if !(h.bloomFilter hash).mightContain hash key then .ok none
  else match h.run.index.idxOf? key with
    | none => .ok none
    | some pos => do
      let run ← st.readRun h
      match run.entries.toList[pos]? with
      | some (_, some value) => .ok (some value)
      | some (_, none) => .ok none
      | none => .error (.io (.read .keyops))

theorem getReadable {st : Storage} {h : SsTableHandle} (found : st.readRun h = .ok h.run)
    (hash : KeyHash) (key : Key) : st.get hash h key = .ok (h.run.entries[key]?).join := by
  unfold Storage.get
  cases held : h.run.entries[key]? with
  | none =>
    have absent : key ∉ h.run.index := by
      intro inside
      rw [Run.index, ExtTreeMap.mem_keys, ExtTreeMap.mem_iff_isSome_getElem?, held] at inside
      simp at inside
    have missing : h.run.index.idxOf? key = none := List.idxOf?_eq_none_iff.mpr absent
    simp only [missing]
    split <;> rfl
  | some e =>
    have inside : key ∈ h.run.index := by
      rw [Run.index, ExtTreeMap.mem_keys, ExtTreeMap.mem_iff_isSome_getElem?, held]
      rfl
    have passes : (BloomFilter.fromKeys hash h.run.index 10).mightContain hash key = true :=
      BloomFilter.fromKeysContains hash inside (by decide)
    have located : (h.run.index.idxOf? key).isSome := List.isSome_idxOf?.mpr inside
    obtain ⟨pos, at_⟩ := Option.isSome_iff_exists.mp located
    obtain ⟨bound, here, _⟩ := List.idxOf?_eq_some_iff.mp at_
    have entry : h.run.entries.toList[pos]? = some (key, e) := by
      have keysAt : h.run.entries.toList[pos]?.map Prod.fst = some key := by
        rw [← List.getElem?_map, ExtTreeMap.map_fst_toList_eq_keys]
        exact List.getElem?_eq_some_iff.mpr ⟨bound, here⟩
      obtain ⟨⟨k, x⟩, found, same⟩ := Option.map_eq_some_iff.mp keysAt
      dsimp only at same
      subst same
      have stored := ExtTreeMap.mem_toList_iff_getElem?_eq_some.mp (List.mem_of_getElem? found)
      rw [held] at stored
      rw [found, Option.some.inj stored]
    simp only [SsTableHandle.bloomFilter, passes, Bool.not_true, Bool.false_eq_true, if_false, at_,
      found, bind, Except.bind, entry]
    cases e <;> rfl

end Storage

def Readable (st : Storage) (runs : List SsTableHandle) : Prop :=
  ∀ h ∈ runs, st.readRun h = .ok h.run

def layersOf (runs : List SsTableHandle) : List Entries := runs.map (fun h => h.run.entries)

/-! Writing a run: the file operations in the order of `SsTableWriter::new` and
`finish`. The run can be opened once the checksums file has its final name. -/
namespace SsTableWriter
open Script

def newOps (n : Nat) : List (Op FileOp Storage) :=
  [⟨.createNew .keyops, fun st => (st.active.lookup n).isNone,
    fun st => { st with active := st.active ++ [(n, none)] }⟩,
   still (.createNew .blobs)]

def entryOps : Key × Entry → List FileOp
  | (_, some _) => [.write .keyops, .write .keyops, .write .keyops, .write .keyops, .write .keyops,
      .write .blobs]
  | (_, none) => [.write .keyops, .write .keyops, .write .keyops]

def dataOps (run : Run) : List FileOp :=
  run.entries.toList.flatMap entryOps ++
    [.sync .keyops, .sync .blobs, .createNew .filter, .write .filter, .sync .filter,
     .createNew .index, .write .index, .sync .index,
     .create .checksums, .write .checksums, .sync .checksums]

def complete (n : Nat) (run : Run) (st : Storage) : Storage :=
  { st with active := st.active.map (fun f => if f.1 = n then (n, some run) else f) }

def finishOps (n : Nat) (run : Run) : List (Op FileOp Storage) :=
  (dataOps run).map still ++ [⟨.rename .checksums, fun _ => true, complete n run⟩] ++
    [.openDirectory, .syncDirectory, .openDirectory, .syncDirectory].map still

def write (faults : Nat → Bool) (i : Nat) (n : Nat) (entries : Entries) (level : Nat)
    (st : Storage) : Except Error SsTableHandle × Storage :=
  match Script.run faults i (newOps n) st with
  | (some op, st) => (.error (.io op), st)
  | (none, st) =>
    if nonempty : entries = ∅ then (.error (.invalidOperation "Cannot create empty SSTable"), st)
    else
      let run : Run := ⟨entries, nonempty⟩
      match Script.run faults (i + (newOps n).length) (finishOps n run) st with
      | (some op, st) => (.error (.io op), st)
      | (none, st) =>
        (.ok ⟨.active, n, run, level, st.nextRefcount⟩,
          { st with refcounts := Function.update st.refcounts st.nextRefcount 1,
                    nextRefcount := st.nextRefcount + 1 })

end SsTableWriter
end CardanoLsm
