import CardanoLsm.Session

/-! What a step of the session can do, one case for each kind of step. The proofs about
runs go by these cases and do not unfold the step function. -/
namespace CardanoLsm
open Std Layered

def Action.writes : Action → List (Key × Entry)
  | .insert key value => [(key, some value)]
  | .delete key => [(key, none)]
  | .insertBatch entries => entries.map (fun e => (e.1, some e.2))
  | .deleteBatch keys => keys.map (fun key => (key, none))
  | _ => []

def Action.isWrite : Action → Bool
  | .insert _ _ | .delete _ | .insertBatch _ | .deleteBatch _ => true
  | _ => false

inductive Foreground.Quiet : Foreground → Prop where
  | idle : Quiet .idle
  | backPressure (after : AfterFlush) : Quiet (.backPressure after)
  | saving (name label : String) : Quiet (.saving name label)
  | panicked : Quiet .panicked

inductive Cycle.Moves (faults : Nat → Bool) (s : State) : Cycle → Progress → State → Prop where
  | nothing (g : Nat)
      (none : Compactor.selectJob s.tree.levels s.tree.maxLevel
        s.tree.config.level0CompactionTrigger = none) :
      Moves faults s (.loaded g) (.ended (.ok ()))
        ((s.cloneAll s.tree.levels.flatten).discard s.tree.levels.flatten)
  | select (g : Nat) (job : LevelCompactionJob)
      (selected : Compactor.selectJob s.tree.levels s.tree.maxLevel
        s.tree.config.level0CompactionTrigger = some job) :
      Moves faults s (.loaded g) (.running (.selected g s.tree.levels job))
        (s.cloneAll (s.tree.levels.flatten ++ job.targetLevelRuns))
  | number (g : Nat) (snap : Levels) (job : LevelCompactionJob) :
      Moves faults s (.selected g snap job)
        (.running (.numbered g snap job s.tree.nextRunNumber (snap.getD job.sourceLevel [])))
        (s.allocate.cloneAll (snap.getD job.sourceLevel []))
  | failed (g : Nat) (snap : Levels) (job : LevelCompactionJob) (n : Nat) (runs : List SsTableHandle)
      (e : Error) (st : Storage)
      (failed : Compactor.compactLevels faults job runs n s.tree.maxLevel s.storage = (.error e, st)) :
      Moves faults s (.numbered g snap job n runs) (.ended (.error e))
        ({ s with storage := st }.discard (snap.flatten ++ job.targetLevelRuns ++ runs))
  | merge (g : Nat) (snap : Levels) (job : LevelCompactionJob) (n : Nat) (runs : List SsTableHandle)
      (result : CompactionResult) (st : Storage)
      (done : Compactor.compactLevels faults job runs n s.tree.maxLevel s.storage = (.ok result, st)) :
      Moves faults s (.numbered g snap job n runs) (.running (.merged g snap job runs result))
        ({ s with storage := st }.discard job.targetLevelRuns)
  | stale (g : Nat) (snap : Levels) (job : LevelCompactionJob) (runs : List SsTableHandle)
      (result : CompactionResult) (changed : s.tree.compactionGeneration ≠ g) :
      Moves faults s (.merged g snap job runs result) (.ended (.ok ()))
        (s.discard (snap.flatten ++ runs ++ result.output.toList))
  | writeBack (g : Nat) (snap : Levels) (job : LevelCompactionJob) (runs : List SsTableHandle)
      (result : CompactionResult) (current : s.tree.compactionGeneration = g) :
      Moves faults s (.merged g snap job runs result) (.ended (.ok ()))
        ((s.withLevels (Compactor.writeBack s.tree.levels job.sourceLevel job.targetLevel
            s.tree.maxLevel result).1).discard
          ((Compactor.writeBack s.tree.levels job.sourceLevel job.targetLevel s.tree.maxLevel
            result).2 ++ snap.flatten ++ runs))

theorem Cycle.advanceMoves (faults : Nat → Bool) (s : State) (c : Cycle) :
    Moves faults s c (c.advance faults s).1 (c.advance faults s).2 := by
  cases c with
  | loaded g =>
    cases picked : Compactor.selectJob s.tree.levels s.tree.maxLevel
        s.tree.config.level0CompactionTrigger with
    | none => simp only [advance, picked]; exact .nothing g picked
    | some job => simp only [advance, picked]; exact .select g job picked
  | selected g snap job => exact .number g snap job
  | numbered g snap job n runs =>
    cases out : Compactor.compactLevels faults job runs n s.tree.maxLevel s.storage with
    | mk outcome st =>
      cases outcome with
      | error e => simp only [advance, out]; exact .failed g snap job n runs e st out
      | ok result => simp only [advance, out]; exact .merge g snap job n runs result st out
  | merged g snap job runs result =>
    by_cases current : s.tree.compactionGeneration = g
    · simp only [advance, ne_eq, current, not_true_eq_false, if_false]
      exact .writeBack g snap job runs result current
    · simp only [advance, ne_eq, current, not_false_eq_true, if_true]
      exact .stale g snap job runs result current

namespace State

inductive Moves : State → Action → State → Prop where
  | wrote (s : State) (a : Action) (memtable : MemTable) (isWrite : a.isWrite = true)
      (idle : s.foreground = .idle)
      (data : memtable.data = insertAll s.tree.memtable.data a.writes) :
      Moves s a ((s.withTree { s.tree with memtable := memtable }).return_ (.ok ()))
  | wroteFull (s : State) (a : Action) (memtable : MemTable) (isWrite : a.isWrite = true)
      (idle : s.foreground = .idle)
      (data : memtable.data = insertAll s.tree.memtable.data a.writes) (nonempty : memtable.data ≠ ∅) :
      Moves s a ((s.withTree { s.tree with memtable := MemTable.new s.tree.sequenceNumber }).at_
        (.flushing memtable .finish))
  | snapshot (s : State) (idle : s.foreground = .idle) :
      Moves s .snapshot { s.cloneAll s.tree.levels.flatten with held := s.held ++ [s.tree.snapshot] }
  | refused (s : State) (i : Nat) (snap : LsmSnapshot) (idle : s.foreground = .idle)
      (found : s.held[i]? = some snap) (future : snap.sequenceNumber > s.tree.sequenceNumber) :
      Moves s (.rollback i) (({ s with held := s.held.eraseIdx i }.discard snap.levels.flatten).return_
        (.error (.invalidOperation "Cannot rollback to future snapshot")))
  | rollback (s : State) (i : Nat) (snap : LsmSnapshot) (idle : s.foreground = .idle)
      (found : s.held[i]? = some snap) (past : snap.sequenceNumber ≤ s.tree.sequenceNumber) :
      Moves s (.rollback i) ((({ s with held := s.held.eraseIdx i }.withTree
        (s.tree.restore snap)).discard s.tree.levels.flatten).return_ (.ok ()))
  | cloneSnapshot (s : State) (i : Nat) (snap : LsmSnapshot) (found : s.held[i]? = some snap) :
      Moves s (.cloneSnapshot i) { s.cloneAll snap.levels.flatten with held := s.held ++ [snap] }
  | dropSnapshot (s : State) (i : Nat) (snap : LsmSnapshot) (found : s.held[i]? = some snap) :
      Moves s (.dropSnapshot i)
        ({ s with held := s.held.eraseIdx i }.discard snap.levels.flatten)
  | compact (s : State) (idle : s.foreground = .idle) :
      Moves s .compact (s.at_ (.compacting (.loaded s.tree.compactionGeneration)))
  | compactAllNothing (s : State) (idle : s.foreground = .idle) (none : s.tree.levels.flatten = []) :
      Moves s .compactAll (s.return_ (.ok ()))
  | compactAllClone (s : State) (idle : s.foreground = .idle) (some : s.tree.levels.flatten ≠ []) :
      Moves s .compactAll
        ((s.cloneAll s.tree.levels.flatten).at_ (.compactAllCloned s.tree.levels.flatten))
  | saveFlush (s : State) (name label : String) (idle : s.foreground = .idle)
      (nonempty : s.tree.memtable.data ≠ ∅) :
      Moves s (.saveSnapshot name label)
        ((s.withTree { s.tree with memtable := MemTable.new s.tree.sequenceNumber }).at_
          (.flushing s.tree.memtable (.saveSnapshot name label)))
  | saveNoFlush (s : State) (name label : String) (idle : s.foreground = .idle)
      (empty : s.tree.memtable.data = ∅) :
      Moves s (.saveSnapshot name label)
        ((s.withTree { s.tree with memtable := MemTable.new s.tree.sequenceNumber }).at_
          (.saving name label))
  | flushNumber (s : State) (faults : Nat → Bool) (old : MemTable) (after : AfterFlush)
      (here : s.foreground = .flushing old after) :
      Moves s (.foreground faults) (s.allocate.at_ (.flushNumbered old s.tree.nextRunNumber after))
  | flushFailed (s : State) (faults : Nat → Bool) (old : MemTable) (n : Nat) (after : AfterFlush)
      (e : Error) (st : Storage) (here : s.foreground = .flushNumbered old n after)
      (failed : SsTableWriter.write faults 0 n old.data 0 s.storage = (.error e, st)) :
      Moves s (.foreground faults) ({ s with storage := st }.return_ (.error e))
  | flushWrite (s : State) (faults : Nat → Bool) (old : MemTable) (n : Nat) (after : AfterFlush)
      (h : SsTableHandle) (st : Storage) (here : s.foreground = .flushNumbered old n after)
      (done : SsTableWriter.write faults 0 n old.data 0 s.storage = (.ok h, st)) :
      Moves s (.foreground faults) ({ s with storage := st }.at_ (.flushWritten h after))
  | flushPush (s : State) (faults : Nat → Bool) (h : SsTableHandle) (after : AfterFlush)
      (f : Foreground) (r : Option (Except Error Unit)) (here : s.foreground = .flushWritten h after)
      (quiet : f.Quiet) (ends : f = .idle → r = some (.ok ())) :
      Moves s (.foreground faults) { s.pushL0 h with foreground := f, returned := r }
  | drained (s : State) (faults : Nat → Bool) (after : AfterFlush) (f : Foreground)
      (r : Option (Except Error Unit)) (here : s.foreground = .backPressure after)
      (quiet : f.Quiet) (ends : f = .idle → r = some (.ok ())) :
      Moves s (.foreground faults) { s with foreground := f, returned := r }
  | compacting (s t : State) (faults : Nat → Bool) (c c' : Cycle)
      (here : s.foreground = .compacting c) (moved : Cycle.Moves faults s c (.running c') t) :
      Moves s (.foreground faults) (t.at_ (.compacting c'))
  | compacted (s t : State) (faults : Nat → Bool) (c : Cycle) (r : Except Error Unit)
      (here : s.foreground = .compacting c) (moved : Cycle.Moves faults s c (.ended r) t) :
      Moves s (.foreground faults) (t.return_ r)
  | compactAllNumber (s : State) (faults : Nat → Bool) (all : List SsTableHandle)
      (here : s.foreground = .compactAllCloned all) :
      Moves s (.foreground faults) (s.allocate.at_ (.compactAllNumbered all s.tree.nextRunNumber))
  | compactAllFailed (s : State) (faults : Nat → Bool) (all : List SsTableHandle) (n : Nat) (e : Error)
      (st : Storage) (here : s.foreground = .compactAllNumbered all n)
      (failed : Compactor.compact faults (List.range all.length) all n s.storage = (.error e, st)) :
      Moves s (.foreground faults) (({ s with storage := st }.discard all).return_ (.error e))
  | compactAllMerge (s : State) (faults : Nat → Bool) (all : List SsTableHandle) (n : Nat)
      (result : CompactionResult) (st : Storage) (here : s.foreground = .compactAllNumbered all n)
      (done : Compactor.compact faults (List.range all.length) all n s.storage = (.ok result, st)) :
      Moves s (.foreground faults) ({ s with storage := st }.at_ (.compactAllMerged all result))
  | compactAllInstall (s : State) (faults : Nat → Bool) (all : List SsTableHandle)
      (result : CompactionResult) (here : s.foreground = .compactAllMerged all result) :
      Moves s (.foreground faults)
        (((s.withLevels (clearedLevels s.tree.levels s.tree.maxLevel result.output)).discard
          (s.tree.levels.flatten ++ all)).return_ (.ok ()))
  | saveClone (s : State) (faults : Nat → Bool) (name label : String)
      (here : s.foreground = .saving name label) :
      Moves s (.foreground faults) ((s.cloneAll s.tree.levels.flatten).at_
        (.saveCloned name label s.tree.sequenceNumber s.tree.levels.flatten))
  | saveCreate (s : State) (faults : Nat → Bool) (name label : String) (seq : Nat)
      (all : List SsTableHandle) (r : Except Error Unit) (st : Storage)
      (here : s.foreground = .saveCloned name label seq all)
      (created : PersistentSnapshot.create faults name label all seq s.tree.config s.storage = (r, st)) :
      Moves s (.foreground faults) (({ s with storage := st }.discard all).return_ r)
  | begin (s : State) (faults : Nat → Bool) (none : s.background = none) :
      Moves s (.background faults)
        { s with background := some (.loaded s.tree.compactionGeneration) }
  | background (s t : State) (faults : Nat → Bool) (c c' : Cycle) (here : s.background = some c)
      (moved : Cycle.Moves faults s c (.running c') t) :
      Moves s (.background faults) { t with background := some c' }
  | backgroundEnd (s t : State) (faults : Nat → Bool) (c : Cycle) (r : Except Error Unit)
      (here : s.background = some c) (moved : Cycle.Moves faults s c (.ended r) t) :
      Moves s (.background faults) { t with background := none }
  | collect (s : State) (i : Nat) (h : SsTableHandle) (found : s.garbage[i]? = some h) :
      Moves s (.collect i)
        { s with storage := s.storage.dropHandle h, garbage := s.garbage.eraseIdx i }

theorem insertsData (entries : List (Key × Value)) (m : MemTable) :
    (entries.foldl (fun m e => m.insert e.1 e.2) m).data =
      insertAll m.data (entries.map (fun e => (e.1, some e.2))) := by
  induction entries generalizing m with
  | nil => rfl
  | cons e rest ih => exact ih (m.insert e.1 e.2)

theorem deletesData (keys : List Key) (m : MemTable) :
    (keys.foldl MemTable.delete m).data =
      insertAll m.data (keys.map (fun key => (key, none))) := by
  induction keys generalizing m with
  | nil => rfl
  | cons key rest ih => exact ih (m.delete key)

theorem writtenMoves {s : State} {a : Action} {memtable : MemTable} (isWrite : a.isWrite = true)
    (idle : s.foreground = .idle)
    (data : memtable.data = insertAll s.tree.memtable.data a.writes) : Moves s a (s.written memtable) := by
  unfold written
  dsimp only [withTree]
  split
  · unfold beginFlush
    dsimp only [withTree]
    split
    · rename_i empty
      have none : memtable.data = ∅ := by simpa [MemTable.isEmpty, ExtTreeMap.isEmpty_iff] using empty
      exact .wrote s a (MemTable.new s.tree.sequenceNumber) isWrite idle (none.symm.trans data)
    · rename_i full
      exact .wroteFull s a memtable isWrite idle data
        (by simpa [MemTable.isEmpty, ExtTreeMap.isEmpty_iff] using full)
  · exact .wrote s a memtable isWrite idle data

theorem callMoves {s t : State} {a : Action} (idle : s.foreground = .idle) (h : s.call a = some t) :
    Moves s a t := by
  cases a with
  | insert key value => cases h; exact writtenMoves rfl idle rfl
  | delete key => cases h; exact writtenMoves rfl idle rfl
  | insertBatch entries =>
    cases h
    split
    · rename_i none
      exact .wrote s _ s.tree.memtable rfl idle (by
        rw [List.isEmpty_iff.mp none]; rfl)
    · exact writtenMoves rfl idle (insertsData entries s.tree.memtable)
  | deleteBatch keys =>
    cases h
    split
    · rename_i none
      exact .wrote s _ s.tree.memtable rfl idle (by
        rw [List.isEmpty_iff.mp none]; rfl)
    · exact writtenMoves rfl idle (deletesData keys s.tree.memtable)
  | snapshot => cases h; exact .snapshot s idle
  | rollback i =>
    obtain ⟨snap, found, rfl⟩ := Option.map_eq_some_iff.mp h
    unfold rollbackTo
    split
    · rename_i future
      exact .refused s i snap idle found future
    · rename_i past
      exact .rollback s i snap idle found (Nat.le_of_not_gt past)
  | compact => cases h; exact .compact s idle
  | compactAll =>
    cases h
    split
    · rename_i none
      exact .compactAllNothing s idle (List.isEmpty_iff.mp none)
    · rename_i some
      exact .compactAllClone s idle (fun none => some (List.isEmpty_iff.mpr none))
  | saveSnapshot name label =>
    cases h
    unfold beginFlush
    dsimp only [withTree]
    split
    · rename_i empty
      exact .saveNoFlush s name label idle
        (by simpa [MemTable.isEmpty, ExtTreeMap.isEmpty_iff] using empty)
    · rename_i full
      exact .saveFlush s name label idle
        (by simpa [MemTable.isEmpty, ExtTreeMap.isEmpty_iff] using full)
  | _ => cases h

theorem afterFlushEq (s : State) (after : AfterFlush) :
    ∃ f r, s.afterFlush after = { s with foreground := f, returned := r } ∧ f.Quiet ∧
      (f = .idle → r = some (.ok ())) := by
  cases after with
  | finish => exact ⟨_, _, rfl, .idle, fun _ => rfl⟩
  | saveSnapshot name label =>
    exact ⟨.saving name label, s.returned, rfl, .saving name label, fun h => by cases h⟩

theorem foregroundMoves {s t : State} {faults : Nat → Bool} (h : s.stepForeground faults = some t) :
    Moves s (.foreground faults) t := by
  unfold stepForeground at h
  split at h
  · cases h
  · rename_i old after here
    cases h; exact .flushNumber s faults old after here
  · rename_i old n after here
    split at h
    · rename_i e st failed
      cases h; exact .flushFailed s faults old n after e st here failed
    · rename_i handle st done
      cases h; exact .flushWrite s faults old n after handle st here done
  · rename_i handle after here
    dsimp only at h
    split at h
    · cases h
      exact .flushPush s faults handle after .panicked s.returned here .panicked (fun h => by cases h)
    · split at h
      · cases h
        exact .flushPush s faults handle after (.backPressure after) s.returned here
          (.backPressure after) (fun h => by cases h)
      · cases h
        obtain ⟨f, r, same, quiet, ends⟩ := afterFlushEq (s.pushL0 handle) after
        rw [same]
        exact .flushPush s faults handle after f r here quiet ends
  · rename_i after here
    split at h
    · cases h
      exact .drained s faults after .panicked s.returned here .panicked (fun h => by cases h)
    · split at h
      · cases h
        obtain ⟨f, r, same, quiet, ends⟩ := afterFlushEq s after
        rw [same]
        exact .drained s faults after f r here quiet ends
      · cases h
  · cases h
  · rename_i c here
    have moved := Cycle.advanceMoves faults s c
    split at h
    · rename_i c' s' out
      cases h
      rw [out] at moved
      exact .compacting s s' faults c c' here moved
    · rename_i r s' out
      cases h
      rw [out] at moved
      exact .compacted s s' faults c r here moved
  · rename_i all here
    cases h; exact .compactAllNumber s faults all here
  · rename_i all n here
    split at h
    · rename_i e st failed
      cases h; exact .compactAllFailed s faults all n e st here failed
    · rename_i result st done
      cases h; exact .compactAllMerge s faults all n result st here done
  · rename_i all result here
    cases h; exact .compactAllInstall s faults all result here
  · rename_i name label here
    cases h; exact .saveClone s faults name label here
  · rename_i name label seq all here
    cases h; exact .saveCreate s faults name label seq all _ _ here rfl

theorem backgroundMoves (s : State) (faults : Nat → Bool) :
    Moves s (.background faults) (s.stepBackground faults) := by
  unfold stepBackground
  split
  · rename_i none
    exact .begin s faults none
  · rename_i c here
    have moved := Cycle.advanceMoves faults s c
    split
    · rename_i c' s' out
      rw [out] at moved
      exact .background s s' faults c c' here moved
    · rename_i r s' out
      rw [out] at moved
      exact .backgroundEnd s s' faults c r here moved

theorem idleOfIsIdle {f : Foreground} (h : isIdle f = true) : f = .idle := by
  cases f with
  | idle => rfl
  | _ => cases h

theorem stepMoves {s t : State} {a : Action} (h : s.step a = some t) : Moves s a t := by
  have called : ∀ {a : Action}, (if isIdle s.foreground then s.call a else none) = some t →
      Moves s a t := by
    intro a h
    split at h
    · rename_i idle
      exact callMoves (idleOfIsIdle idle) h
    · cases h
  cases a with
  | foreground faults => exact foregroundMoves h
  | background faults => cases h; exact backgroundMoves s faults
  | collect i =>
    obtain ⟨handle, found, rfl⟩ := Option.map_eq_some_iff.mp h
    exact .collect s i handle found
  | cloneSnapshot i =>
    obtain ⟨snap, found, rfl⟩ := Option.map_eq_some_iff.mp h
    exact .cloneSnapshot s i snap found
  | dropSnapshot i =>
    obtain ⟨snap, found, rfl⟩ := Option.map_eq_some_iff.mp h
    exact .dropSnapshot s i snap found
  | insert key value => exact called h
  | delete key => exact called h
  | insertBatch entries => exact called h
  | deleteBatch keys => exact called h
  | snapshot => exact called h
  | rollback i => exact called h
  | compact => exact called h
  | compactAll => exact called h
  | saveSnapshot name label => exact called h

end State
end CardanoLsm
