import CardanoLsm.Snapshot
import CardanoLsm.Lib.Trace

/-! One session of a tree as a transition system: the foreground thread with the call
it is in, the background compaction thread with its cycle, the snapshots the caller
holds, and the handles that went out of scope and whose destructor is still to run.
A step is a stretch of one thread between two accesses to what the threads share
(level vectors, run number counter, generation, files). -/
namespace CardanoLsm
open Std Layered

inductive Cycle where
  | loaded (genBefore : Nat)
  | selected (genBefore : Nat) (levelsSnapshot : Levels) (job : LevelCompactionJob)
  | numbered (genBefore : Nat) (levelsSnapshot : Levels) (job : LevelCompactionJob) (runNumber : Nat)
      (sourceRuns : List SsTableHandle)
  /-- Of the job only the two levels are still used; its target runs are gone. -/
  | merged (genBefore : Nat) (levelsSnapshot : Levels) (job : LevelCompactionJob)
      (sourceRuns : List SsTableHandle) (result : CompactionResult)

inductive AfterFlush where
  | finish
  | saveSnapshot (name label : String)

inductive Foreground where
  | idle
  | flushing (oldMemtable : MemTable) (after : AfterFlush)
  | flushNumbered (oldMemtable : MemTable) (runNumber : Nat) (after : AfterFlush)
  | flushWritten (handle : SsTableHandle) (after : AfterFlush)
  | backPressure (after : AfterFlush)
  | panicked
  | compacting (cycle : Cycle)
  | compactAllCloned (allSstables : List SsTableHandle)
  | compactAllNumbered (allSstables : List SsTableHandle) (runNumber : Nat)
  | compactAllMerged (allSstables : List SsTableHandle) (result : CompactionResult)
  | saving (name label : String)
  | saveCloned (name label : String) (sequenceNumber : Nat) (allSstables : List SsTableHandle)

structure State where
  tree : LsmTree
  storage : Storage
  held : List LsmSnapshot
  foreground : Foreground
  background : Option Cycle
  garbage : List SsTableHandle
  returned : Option (Except Error Unit)
  overflowChecks : Bool

inductive Action where
  | insert (key : Key) (value : Value)
  | delete (key : Key)
  | insertBatch (entries : List (Key × Value))
  | deleteBatch (keys : List Key)
  | snapshot
  | rollback (i : Nat)
  | cloneSnapshot (i : Nat)
  | dropSnapshot (i : Nat)
  | compact
  | compactAll
  | saveSnapshot (name label : String)
  /-- The next step of the call under way, with the file operations that fail in it. -/
  | foreground (faults : Nat → Bool)
  /-- The next step of the background thread; outside a cycle it starts one. -/
  | background (faults : Nat → Bool)
  /-- The destructor of a handle that went out of scope. -/
  | collect (i : Nat)

inductive Progress where
  | running (cycle : Cycle)
  | ended (result : Except Error Unit)

namespace State

def withTree (s : State) (tree : LsmTree) : State := { s with tree := tree }
def withLevels (s : State) (levels : Levels) : State := { s with tree := { s.tree with levels := levels } }
def discard (s : State) (handles : List SsTableHandle) : State :=
  { s with garbage := s.garbage ++ handles }
def allocate (s : State) : State :=
  { s with tree := { s.tree with nextRunNumber := s.tree.nextRunNumber + 1 } }
def cloneAll (s : State) (handles : List SsTableHandle) : State :=
  { s with storage := s.storage.cloneAll handles }
def at_ (s : State) (foreground : Foreground) : State := { s with foreground := foreground }
def return_ (s : State) (result : Except Error Unit) : State :=
  { s with foreground := .idle, returned := some result }

end State

def Cycle.advance (faults : Nat → Bool) (s : State) : Cycle → Progress × State
  | .loaded genBefore =>
    let levelsSnapshot := s.tree.levels
    match Compactor.selectJob levelsSnapshot s.tree.maxLevel s.tree.config.level0CompactionTrigger with
    | none => (.ended (.ok ()), (s.cloneAll levelsSnapshot.flatten).discard levelsSnapshot.flatten)
    | some job =>
      (.running (.selected genBefore levelsSnapshot job),
        s.cloneAll (levelsSnapshot.flatten ++ job.targetLevelRuns))
  | .selected genBefore levelsSnapshot job =>
    let sourceRuns := levelsSnapshot.getD job.sourceLevel []
    (.running (.numbered genBefore levelsSnapshot job s.tree.nextRunNumber sourceRuns),
      s.allocate.cloneAll sourceRuns)
  | .numbered genBefore levelsSnapshot job runNumber sourceRuns =>
    match Compactor.compactLevels faults job sourceRuns runNumber s.tree.maxLevel s.storage with
    | (.error e, st) =>
      (.ended (.error e), { s with storage := st }.discard
        (levelsSnapshot.flatten ++ job.targetLevelRuns ++ sourceRuns))
    | (.ok result, st) =>
      (.running (.merged genBefore levelsSnapshot job sourceRuns result),
        { s with storage := st }.discard job.targetLevelRuns)
  | .merged genBefore levelsSnapshot job sourceRuns result =>
    if s.tree.compactionGeneration ≠ genBefore then
      (.ended (.ok ()), s.discard (levelsSnapshot.flatten ++ sourceRuns ++ result.output.toList))
    else
      let written := Compactor.writeBack s.tree.levels job.sourceLevel job.targetLevel s.tree.maxLevel
        result
      (.ended (.ok ()), (s.withLevels written.1).discard
        (written.2 ++ levelsSnapshot.flatten ++ sourceRuns))

namespace State

def afterFlush (s : State) : AfterFlush → State
  | .finish => s.return_ (.ok ())
  | .saveSnapshot name label => s.at_ (.saving name label)

def beginFlush (s : State) (after : AfterFlush) : State :=
  let oldMemtable := s.tree.memtable
  let s := s.withTree { s.tree with memtable := MemTable.new s.tree.sequenceNumber }
  if oldMemtable.isEmpty then s.afterFlush after else s.at_ (.flushing oldMemtable after)

def written (s : State) (memtable : MemTable) : State :=
  let s := s.withTree { s.tree with memtable := memtable }
  if memtable.sizeBytes ≥ s.tree.config.memtableSize then s.beginFlush .finish else s.return_ (.ok ())

def pushL0 (s : State) (handle : SsTableHandle) : State :=
  s.withLevels (s.tree.levels.set 0 (s.tree.levels.getD 0 [] ++ [handle]))

def rollbackTo (s : State) (snapshot : LsmSnapshot) : State :=
  if snapshot.sequenceNumber > s.tree.sequenceNumber then
    (s.discard snapshot.levels.flatten).return_
      (.error (.invalidOperation "Cannot rollback to future snapshot"))
  else
    ((s.withTree (s.tree.restore snapshot)).discard s.tree.levels.flatten).return_ (.ok ())

def clearedLevels (levels : Levels) (maxLevel : Nat) (output : Option SsTableHandle) : Levels :=
  let cleared := levels.map (fun _ => [])
  match output with
  | none => cleared
  | some output => cleared.set maxLevel (cleared.getD maxLevel [] ++ [output])

def stepForeground (faults : Nat → Bool) (s : State) : Option State :=
  match s.foreground with
  | .idle => none
  | .flushing oldMemtable after =>
    some (s.allocate.at_ (.flushNumbered oldMemtable s.tree.nextRunNumber after))
  | .flushNumbered oldMemtable runNumber after =>
    match SsTableWriter.write faults 0 runNumber oldMemtable.data 0 s.storage with
    | (.error e, st) => some ({ s with storage := st }.return_ (.error e))
    | (.ok handle, st) => some ({ s with storage := st }.at_ (.flushWritten handle after))
  | .flushWritten handle after =>
    let s := s.pushL0 handle
    match usizeMul s.overflowChecks s.tree.config.level0CompactionTrigger 4 with
    | none => some (s.at_ .panicked)
    | some critical =>
      if (s.tree.levels.getD 0 []).length > critical then some (s.at_ (.backPressure after))
      else some (s.afterFlush after)
  | .backPressure after =>
    match usizeMul s.overflowChecks s.tree.config.level0CompactionTrigger 2 with
    | none => some (s.at_ .panicked)
    | some drained => if (s.tree.levels.getD 0 []).length ≤ drained then some (s.afterFlush after) else none
  | .panicked => none
  | .compacting cycle =>
    match cycle.advance faults s with
    | (.running cycle, s) => some (s.at_ (.compacting cycle))
    | (.ended result, s) => some (s.return_ result)
  | .compactAllCloned allSstables =>
    some (s.allocate.at_ (.compactAllNumbered allSstables s.tree.nextRunNumber))
  | .compactAllNumbered allSstables runNumber =>
    match Compactor.compact faults (List.range allSstables.length) allSstables runNumber s.storage with
    | (.error e, st) => some (({ s with storage := st }.discard allSstables).return_ (.error e))
    | (.ok result, st) => some ({ s with storage := st }.at_ (.compactAllMerged allSstables result))
  | .compactAllMerged allSstables result =>
    some (((s.withLevels (clearedLevels s.tree.levels s.tree.maxLevel result.output)).discard
      (s.tree.levels.flatten ++ allSstables)).return_ (.ok ()))
  | .saving name label =>
    let allSstables := s.tree.levels.flatten
    some ((s.cloneAll allSstables).at_ (.saveCloned name label s.tree.sequenceNumber allSstables))
  | .saveCloned name label sequenceNumber allSstables =>
    let created := PersistentSnapshot.create faults name label allSstables sequenceNumber s.tree.config
      s.storage
    some (({ s with storage := created.2 }.discard allSstables).return_ created.1)

def stepBackground (faults : Nat → Bool) (s : State) : State :=
  match s.background with
  | none => { s with background := some (.loaded s.tree.compactionGeneration) }
  | some cycle =>
    match cycle.advance faults s with
    | (.running cycle, s) => { s with background := some cycle }
    | (.ended _, s) => { s with background := none }

def call (s : State) : Action → Option State
  | .insert key value => some (s.written (s.tree.memtable.insert key value))
  | .delete key => some (s.written (s.tree.memtable.delete key))
  | .insertBatch entries =>
    some (if entries.isEmpty then s.return_ (.ok ())
      else s.written (entries.foldl (fun m e => m.insert e.1 e.2) s.tree.memtable))
  | .deleteBatch keys =>
    some (if keys.isEmpty then s.return_ (.ok ())
      else s.written (keys.foldl MemTable.delete s.tree.memtable))
  | .snapshot =>
    some { s.cloneAll s.tree.levels.flatten with held := s.held ++ [s.tree.snapshot] }
  | .rollback i =>
    s.held[i]?.map (fun snapshot => { s with held := s.held.eraseIdx i }.rollbackTo snapshot)
  | .compact => some (s.at_ (.compacting (.loaded s.tree.compactionGeneration)))
  | .compactAll =>
    let allSstables := s.tree.levels.flatten
    some (if allSstables.isEmpty then s.return_ (.ok ())
      else (s.cloneAll allSstables).at_ (.compactAllCloned allSstables))
  | .saveSnapshot name label => some (s.beginFlush (.saveSnapshot name label))
  | _ => none

def isIdle : Foreground → Bool
  | .idle => true
  | _ => false

def step (s : State) (a : Action) : Option State :=
  match a with
  | .foreground faults => s.stepForeground faults
  | .background faults => some (s.stepBackground faults)
  | .collect i => s.garbage[i]?.map (fun handle =>
      { s with storage := s.storage.dropHandle handle, garbage := s.garbage.eraseIdx i })
  | .cloneSnapshot i => s.held[i]?.map (fun snapshot =>
      { s.cloneAll snapshot.levels.flatten with held := s.held ++ [snapshot] })
  | .dropSnapshot i => s.held[i]?.map (fun snapshot =>
      { s with held := s.held.eraseIdx i }.discard snapshot.levels.flatten)
  | a => if isIdle s.foreground then s.call a else none

def begin (opened : LsmTree × Storage) (overflowChecks : Bool := false) : State :=
  ⟨opened.1, opened.2, [], .idle, none, [], none, overflowChecks⟩

end State

def Storage.empty : Storage := ⟨[], [], fun _ => 0, 0⟩

def State.fresh (config : LsmConfig) (overflowChecks : Bool := false) : State :=
  .begin (LsmTree.open config Storage.empty) overflowChecks

end CardanoLsm
