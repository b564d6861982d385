import CardanoLsm.Tree

/-! Snapshots on disk (`snapshot.rs`) and the two ways a session starts
(`LsmTree::open`, `LsmTree::open_snapshot`). -/
namespace CardanoLsm
open Std Layered Script

namespace PersistentSnapshot

def describe (sstable : SsTableHandle) : SnapshotRun :=
  ⟨sstable.runNumber, sstable.minKey, sstable.maxKey, sstable.numEntries, sstable.level⟩

/-- `hard_link_to` one run, and the end of the handle it returns. Of the five files of a run the
checksums are made last: where they are missing the last link fails. -/
def linkOps (name : String) (sstable : SsTableHandle) : List (Op FileOp Storage) :=
  let n := sstable.runNumber
  let target := Directory.snapshot name
  [still .createDirAll,
   ⟨.hardLink .keyops,
    fun st => ((st.files sstable.dir).lookup n).isSome && ((st.files target).lookup n).isNone,
    fun st => st.modifySnapshot name (fun s => { s with runs := s.runs ++ [(n, none)] })⟩,
   still (.hardLink .blobs), still (.hardLink .filter), still (.hardLink .index),
   ⟨.hardLink .checksums, fun st => (st.runAt sstable.dir n).isSome,
    fun st => st.modifySnapshot name (fun s =>
      { s with runs := s.runs.map (fun f => if f.1 = n then (n, st.runAt sstable.dir n) else f) })⟩,
   still .openDirectory,
   ⟨.syncDirectory, fun _ => true,
    fun st => (st.cloneHandle sstable).dropHandle { sstable with dir := target }⟩]

def metadataOps (name : String) (metadata : SnapshotMetadata) : List (Op FileOp Storage) :=
  [.create .metadata, .write .metadata, .sync .metadata, .rename .metadata, .openDirectory,
    .syncDirectory, .create .metadataChecksum].map still ++
  [⟨.write .metadataChecksum, fun _ => true,
    fun st => st.modifySnapshot name (fun s => { s with metadata := some metadata })⟩] ++
  [.openDirectory, .syncDirectory].map still

def createOps (name label : String) (sstables : List SsTableHandle) (sequenceNumber : Nat)
    (config : LsmConfig) : List (Op FileOp Storage) :=
  ⟨.createDirAll, fun _ => true,
    fun st => { st with snapshots := (name, ⟨[], none⟩) :: st.snapshots }⟩ ::
  sstables.flatMap (linkOps name) ++
  metadataOps name ⟨1, label, config, sstables.map describe, sequenceNumber⟩

def create (faults : Nat → Bool) (name label : String) (sstables : List SsTableHandle)
    (sequenceNumber : Nat) (config : LsmConfig) (st : Storage) : Except Error Unit × Storage :=
  if (st.snapshots.lookup name).isSome then
    (.error (.invalidOperation s!"Snapshot '{name}' already exists"), st)
  else match Script.run faults 0 (createOps name label sstables sequenceNumber config) st with
    | (some op, st) => (.error (.io op), st)
    | (none, st) => (.ok (), st)

def load (st : Storage) (name : String) : Except Error SnapshotMetadata :=
  match st.snapshots.lookup name with
  | none => .error (.invalidOperation s!"Snapshot '{name}' does not exist")
  | some saved =>
    match saved.metadata with
    | none => .error (.io (.read .metadata))
    | some metadata => .ok metadata

end PersistentSnapshot

namespace PersistentSnapshot

theorem restoreCount {st : Storage} {h : SsTableHandle} (positive : 0 < st.refcounts h.refcount)
    (dir : Directory) : (st.cloneHandle h).dropHandle { h with dir := dir } = st := by
  have more : st.refcounts h.refcount + 1 ≠ 1 := by omega
  unfold Storage.dropHandle Storage.cloneHandle
  simp only [Function.update_self, more, if_false, Function.update_idem, Nat.add_sub_cancel,
    Function.update_eq_self]

structure Aside (st st' : Storage) : Prop where
  active : st'.active = st.active
  refcounts : st'.refcounts = st.refcounts
  nextRefcount : st'.nextRefcount = st.nextRefcount

theorem createOpsAside {name label : String} {sstables : List SsTableHandle} {seq : Nat}
    {config : LsmConfig} {st₀ : Storage}
    (positive : ∀ h ∈ sstables, 0 < st₀.refcounts h.refcount) :
    ∀ op ∈ createOps name label sstables seq config, ∀ st, op.enabled st = true → Aside st₀ st →
      Aside st₀ (op.effect st) := by
  intro op member st _ aside
  simp only [createOps, metadataOps, List.cons_append, List.mem_cons, List.mem_append, List.mem_map,
    List.not_mem_nil, or_false, List.mem_flatMap] at member
  rcases member with rfl | (⟨h, inside, link⟩ | ((⟨name, _, rfl⟩ | rfl) | ⟨name, _, rfl⟩))
  · exact ⟨aside.active, aside.refcounts, aside.nextRefcount⟩
  · simp only [linkOps, List.mem_cons, List.not_mem_nil, or_false] at link
    rcases link with rfl | rfl | rfl | rfl | rfl | rfl | rfl | rfl
    · exact aside
    · exact ⟨aside.active, aside.refcounts, aside.nextRefcount⟩
    · exact aside
    · exact aside
    · exact aside
    · exact ⟨aside.active, aside.refcounts, aside.nextRefcount⟩
    · exact aside
    · have here : 0 < st.refcounts h.refcount := by
        rw [aside.refcounts]
        exact positive h inside
      simpa only [restoreCount here] using aside
  · exact aside
  · exact ⟨aside.active, aside.refcounts, aside.nextRefcount⟩
  · exact aside

theorem createAside {faults : Nat → Bool} {name label : String} {sstables : List SsTableHandle}
    {seq : Nat} {config : LsmConfig} {st st' : Storage} {r : Except Error Unit}
    (positive : ∀ h ∈ sstables, 0 < st.refcounts h.refcount)
    (h : create faults name label sstables seq config st = (r, st')) : Aside st st' := by
  have kept : Aside st (Script.run faults 0 (createOps name label sstables seq config) st).2 :=
    runKeeps (createOpsAside positive) ⟨rfl, rfl, rfl⟩
  unfold create at h
  split at h
  · cases h; exact ⟨rfl, rfl, rfl⟩
  · split at h
    · rename_i op st₁ stopped
      cases h
      rwa [stopped] at kept
    · rename_i st₁ done
      cases h
      rwa [done] at kept

end PersistentSnapshot

def SsTableHandle.open (st : Storage) (n : Nat) : Except Error SsTableHandle × Storage :=
  match st.runAt .active n with
  | none => (.error (.io (.read .checksums)), st)
  | some run =>
    (.ok ⟨.active, n, run, 0, st.nextRefcount⟩,
      { st with refcounts := Function.update st.refcounts st.nextRefcount 1,
                nextRefcount := st.nextRefcount + 1 })

def sortByMinKey (runs : List SsTableHandle) : List SsTableHandle :=
  runs.insertionSort (fun a b => (compare a.minKey b.minKey).isLE = true)

def assemble (maxLevel : Nat) (sstables : List SsTableHandle) : Levels :=
  (List.range (maxLevel + 1)).map (fun level => sortByMinKey (sstables.filter (fun h => h.level == level)))

namespace LsmTree

def start (config : LsmConfig) (sequenceNumber maxRunNumber : Nat) (sstables : List SsTableHandle) :
    LsmTree :=
  ⟨config, MemTable.new sequenceNumber, [], sequenceNumber, maxRunNumber + 1, assemble 6 sstables, 6, 0⟩

def openNext (acc : List SsTableHandle × Storage) (n : Nat) : List SsTableHandle × Storage :=
  match SsTableHandle.open acc.2 n with
  | (.ok handle, st) => (acc.1 ++ [handle], st)
  | (.error _, st) => (acc.1, st)

def openListed (listed : List Nat) (st : Storage) : List SsTableHandle × Storage :=
  listed.foldl openNext ([], st)

end LsmTree

def LsmTree.open (config : LsmConfig) (st : Storage) : LsmTree × Storage :=
  let listed := st.active.map Prod.fst
  let opened := openListed listed st
  (start config 0 (listed.foldl max 0) opened.1, opened.2)

namespace LsmTree

def linkRuns (name : String) : List SnapshotRun → Storage → Except Error Unit × Storage
  | [], st => (.ok (), st)
  | run :: rest, st =>
    match (st.files (.snapshot name)).lookup run.runNumber with
    | none => (.error (.io (.hardLink .keyops)), st)
    | some content =>
      if (st.active.lookup run.runNumber).isSome then (.error (.io (.hardLink .keyops)), st)
      else linkRuns name rest { st with active := st.active ++ [(run.runNumber, content)] }

def openRuns (name : String) : List SnapshotRun → List SsTableHandle → Storage →
    Except Error (List SsTableHandle) × Storage
  | [], opened, st => (.ok opened, st)
  | run :: rest, opened, st =>
    match SsTableHandle.open st run.runNumber with
    | (.ok handle, st) => openRuns name rest (opened ++ [{ handle with level := run.level }]) st
    | (.error cause, st) =>
      (.error (.loadFailed run.runNumber name cause), opened.foldl Storage.dropHandle st)

def openSnapshot (name : String) (st : Storage) : Except Error LsmTree × Storage :=
  match PersistentSnapshot.load st name with
  | .error e => (.error e, st)
  | .ok metadata =>
    match linkRuns name metadata.runs { st with active := [] } with
    | (.error e, st) => (.error e, st)
    | (.ok (), st) =>
      match openRuns name metadata.runs [] st with
      | (.error e, st) => (.error e, st)
      | (.ok sstables, st) =>
        (.ok (start metadata.config metadata.sequenceNumber
            ((metadata.runs.map SnapshotRun.runNumber).foldl max 0) sstables),
          (sstables.filter (fun h => decide (6 < h.level))).foldl Storage.dropHandle st)

def close (t : LsmTree) (st : Storage) : Storage := t.levels.flatten.foldl Storage.dropHandle st

end LsmTree
end CardanoLsm
