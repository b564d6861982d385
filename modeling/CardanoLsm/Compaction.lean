import CardanoLsm.Ownership

/-! Job selection, merging and write-back of compaction (`compaction.rs`). -/
namespace CardanoLsm
open Std Layered

abbrev Levels := List (List SsTableHandle)

def sortByRunNumber (runs : List SsTableHandle) : List SsTableHandle :=
  runs.insertionSort (fun a b => a.runNumber ≤ b.runNumber)

instance : Std.Total (fun a b : SsTableHandle => a.runNumber ≤ b.runNumber) :=
  ⟨fun _ _ => Nat.le_total _ _⟩

instance : IsTrans SsTableHandle (fun a b => a.runNumber ≤ b.runNumber) :=
  ⟨fun _ _ _ => Nat.le_trans⟩

def Ascending (runs : List SsTableHandle) : Prop :=
  runs.Pairwise (fun a b => a.runNumber < b.runNumber)

instance (runs : List SsTableHandle) : Decidable (Ascending runs) :=
  inferInstanceAs (Decidable (runs.Pairwise _))

def Distinct (runs : List SsTableHandle) : Prop := (runs.map SsTableHandle.runNumber).Nodup

theorem Distinct.sublist {runs more : List SsTableHandle} (distinct : Distinct more)
    (sub : runs.Sublist more) : Distinct runs := List.Nodup.sublist (sub.map _) distinct

theorem Ascending.injective {runs : List SsTableHandle} (ascending : Ascending runs)
    {a b : SsTableHandle} (left : a ∈ runs) (right : b ∈ runs) (same : a.runNumber = b.runNumber) :
    a = b := by
  induction runs with
  | nil => simp at left
  | cons h rest ih =>
    obtain ⟨first, later⟩ := List.pairwise_cons.mp ascending
    rcases List.mem_cons.mp left with rfl | inLeft <;> rcases List.mem_cons.mp right with rfl | inRight
    · rfl
    · have := first b inRight; omega
    · have := first a inLeft; omega
    · exact ih later inLeft inRight

theorem sortPerm (runs : List SsTableHandle) : (sortByRunNumber runs).Perm runs :=
  List.perm_insertionSort _ _

@[simp] theorem sortMem {runs : List SsTableHandle} {h : SsTableHandle} :
    h ∈ sortByRunNumber runs ↔ h ∈ runs := (sortPerm runs).mem_iff

theorem sortPairwise (runs : List SsTableHandle) :
    (sortByRunNumber runs).Pairwise (fun a b => a.runNumber ≤ b.runNumber) :=
  List.pairwise_insertionSort _ runs

theorem sortUnique {runs sorted : List SsTableHandle} (ascending : Ascending sorted)
    (perm : sorted.Perm runs) : sortByRunNumber runs = sorted := by
  have weak : sorted.Pairwise (fun a b => a.runNumber ≤ b.runNumber) :=
    ascending.imp (fun lt => Nat.le_of_lt lt)
  refine List.Perm.eq_of_pairwise ?_ (sortPairwise runs) weak ((sortPerm runs).trans perm.symm)
  intro a b inSort inSorted ab ba
  have member : a ∈ sorted := (perm.symm.mem_iff).mp (sortMem.mp inSort)
  exact ascending.injective member inSorted (by omega)

theorem sortSelf {runs : List SsTableHandle} (ascending : Ascending runs) :
    sortByRunNumber runs = runs := sortUnique ascending (List.Perm.refl _)

theorem sortAscending {runs : List SsTableHandle} (distinct : Distinct runs) :
    Ascending (sortByRunNumber runs) := by
  have different : ((sortByRunNumber runs).map SsTableHandle.runNumber).Nodup :=
    ((sortPerm runs).map _).nodup_iff.mpr distinct
  rw [List.Nodup, List.pairwise_map] at different
  exact (sortPairwise runs).imp₂ (fun a b le ne => by omega) different

theorem sortAppend {older newer : List SsTableHandle} (distinctOlder : Distinct older)
    (distinctNewer : Distinct newer)
    (before : ∀ a ∈ older, ∀ b ∈ newer, a.runNumber < b.runNumber) :
    sortByRunNumber (older ++ newer) = sortByRunNumber older ++ sortByRunNumber newer := by
  refine sortUnique ?_ ((sortPerm older).append (sortPerm newer))
  refine List.pairwise_append.mpr ⟨sortAscending distinctOlder, sortAscending distinctNewer, ?_⟩
  intro a ina b inb
  exact before a (sortMem.mp ina) b (sortMem.mp inb)

structure LevelCompactionJob where
  sourceLevel : Nat
  targetLevel : Nat
  sourceRuns : List Nat
  targetLevelRuns : List SsTableHandle

structure CompactionResult where
  output : Option SsTableHandle
  inputsToRemove : List Nat

namespace Compactor

/-- 64-bit arithmetic; it would wrap from level 26 on for the ratio 4. -/
def levelTargetSize (level sizeRatio : Nat) : Nat := 10000 * sizeRatio ^ level % 2 ^ 64

def selectLevelCompaction (levels : Levels) (maxLevel sizeRatio : Nat) : Option LevelCompactionJob :=
  (List.range maxLevel).findSome? (fun levelIdx =>
    let level := levels.getD levelIdx []
    let levelSize := (level.map SsTableHandle.numEntries).sum
    if levelSize > levelTargetSize levelIdx sizeRatio then
      some ⟨levelIdx, levelIdx + 1, List.range level.length, levels.getD (levelIdx + 1) []⟩
    else none)

def selectJob (levels : Levels) (maxLevel level0FileTrigger : Nat) : Option LevelCompactionJob :=
  match selectLevelCompaction levels maxLevel 4 with
  | some job => some job
  | none =>
    let l0Files := (levels.getD 0 []).length
    if l0Files < level0FileTrigger ∨ l0Files = 0 then none
    else some ⟨0, 1, List.range l0Files, levels.getD 1 []⟩

def sortedInputs (runs : List SsTableHandle) (indices : List Nat) : List SsTableHandle :=
  let number := fun i : Nat => (runs[i]?.map SsTableHandle.runNumber).getD 0
  (indices.insertionSort (fun i j => number i ≤ number j)).filterMap (fun i => runs[i]?)

structure JobOf (levels : Levels) (maxLevel : Nat) (job : LevelCompactionJob) : Prop where
  source : job.sourceLevel < maxLevel
  target : job.targetLevel = job.sourceLevel + 1
  indices : job.sourceRuns = List.range (levels.getD job.sourceLevel []).length
  nonempty : levels.getD job.sourceLevel [] ≠ []
  targets : job.targetLevelRuns = levels.getD job.targetLevel []

theorem selectLevelJob {levels : Levels} {maxLevel sizeRatio : Nat} {job : LevelCompactionJob}
    (h : selectLevelCompaction levels maxLevel sizeRatio = some job) : JobOf levels maxLevel job := by
  obtain ⟨i, member, picked⟩ := List.exists_of_findSome?_eq_some h
  have below := List.mem_range.mp member
  dsimp only at picked
  split at picked
  · rename_i large
    cases picked
    refine ⟨below, rfl, rfl, fun none => ?_, rfl⟩
    simp only [none, List.map_nil, List.sum_nil, gt_iff_lt, Nat.not_lt_zero] at large
  · cases picked

theorem selectJobOf {levels : Levels} {maxLevel level0FileTrigger : Nat} {job : LevelCompactionJob}
    (positive : 0 < maxLevel) (h : selectJob levels maxLevel level0FileTrigger = some job) :
    JobOf levels maxLevel job := by
  unfold selectJob at h
  split at h
  · rename_i picked
    cases h
    exact selectLevelJob picked
  · dsimp only at h
    split at h
    · cases h
    · rename_i enough
      cases h
      refine ⟨positive, rfl, rfl, fun none => enough (Or.inr ?_), rfl⟩
      rw [none, List.length_nil]

theorem sortedInputsAll (runs : List SsTableHandle) :
    sortedInputs runs (List.range runs.length) = sortByRunNumber runs := by
  let number := fun h : Option SsTableHandle => (h.map SsTableHandle.runNumber).getD 0
  have indexed : (List.range runs.length).map (fun i => runs[i]?) = runs.map some := by
    refine List.ext_getElem (by simp) (fun i hi _ => ?_)
    have bound : i < runs.length := by simpa using hi
    simp [bound]
  have sorted : ((List.range runs.length).insertionSort
      (fun i j => number runs[i]? ≤ number runs[j]?)).map (fun i => runs[i]?) =
        (sortByRunNumber runs).map some := by
    rw [List.map_insertionSort _ (fun a b => number a ≤ number b) _ _ (fun _ _ _ _ => Iff.rfl), indexed]
    exact (List.map_insertionSort _ _ some runs (fun _ _ _ _ => Iff.rfl)).symm
  have together := congrArg (List.filterMap id) sorted
  simpa [List.filterMap_map, Function.comp_def, sortedInputs, number] using together

def readInto (st : Storage) (add : Entries → List (Key × Entry) → Entries) (acc : Entries)
    (h : SsTableHandle) : Except Error Entries := do
  let entries ← st.rangeWithTombstones h [] maxKey
  return add acc entries

def readOps (h : SsTableHandle) : List FileOp :=
  .read .keyops :: (h.run.entries.toList.filter (fun e => e.2.isSome && inRange [] maxKey e.1)).flatMap
    (fun _ => [.open .blobs, .read .blobs])

/-- The map `compact_levels` builds: the sources, newer over older; into the bottom
level also the target runs beneath them, without tombstones. -/
def mergeLevels (st : Storage) (job : LevelCompactionJob) (sourceLevelRuns : List SsTableHandle)
    (maxLevel : Nat) : Except Error Entries := do
  let all ← (sortedInputs sourceLevelRuns job.sourceRuns).foldlM (readInto st insertAll) ∅
  if job.targetLevel = maxLevel then
    let all ← job.targetLevelRuns.foldlM (readInto st insertMissing) all
    return live all
  else return all

def mergeAll (st : Storage) (inputs : List Nat) (sstables : List SsTableHandle) :
    Except Error Entries := do
  let all ← (sortedInputs sstables inputs).foldlM (readInto st insertAll) ∅
  if inputs.length = sstables.length then return live all else return all

def mergeAndWrite (faults : Nat → Bool) (inputs : List SsTableHandle)
    (merge : Storage → Except Error Entries) (indices : List Nat) (n : Nat) (level : Nat)
    (st : Storage) : Except Error CompactionResult × Storage :=
  let reads := inputs.flatMap readOps
  match Script.run faults 0 (reads.map Script.still) st with
  | (some op, st) => (.error (.io op), st)
  | (none, st) =>
    match merge st with
    | .error e => (.error e, st)
    | .ok all =>
      if all = ∅ then (.ok ⟨none, indices⟩, st)
      else match SsTableWriter.write faults reads.length n all level st with
        | (.error e, st) => (.error e, st)
        | (.ok h, st) => (.ok ⟨some h, indices⟩, st)

def compactLevels (faults : Nat → Bool) (job : LevelCompactionJob)
    (sourceLevelRuns : List SsTableHandle) (n : Nat) (maxLevel : Nat) (st : Storage) :
    Except Error CompactionResult × Storage :=
  mergeAndWrite faults
    (sortedInputs sourceLevelRuns job.sourceRuns ++
      if job.targetLevel = maxLevel then job.targetLevelRuns else [])
    (fun st => mergeLevels st job sourceLevelRuns maxLevel) job.sourceRuns n job.targetLevel st

def compact (faults : Nat → Bool) (inputs : List Nat) (sstables : List SsTableHandle)
    (n : Nat) (st : Storage) : Except Error CompactionResult × Storage :=
  mergeAndWrite faults (sortedInputs sstables inputs) (fun st => mergeAll st inputs sstables)
    inputs n 0 st

def removeRuns (level : List SsTableHandle) (indices : List Nat) :
    List SsTableHandle × List SsTableHandle :=
  (indices.insertionSort (fun i j => j ≤ i)).foldl
    (fun acc idx =>
      if idx < acc.1.length then (acc.1.eraseIdx idx, acc.1[idx]?.toList ++ acc.2) else acc)
    (level, [])

def writeBack (levels : Levels) (sourceLevel targetLevel maxLevel : Nat) (result : CompactionResult) :
    Levels × List SsTableHandle :=
  let kept := removeRuns (levels.getD sourceLevel []) result.inputsToRemove
  let levels := levels.set sourceLevel kept.1
  match result.output with
  | none => (levels, kept.2)
  | some output =>
    if targetLevel = maxLevel then
      (levels.set targetLevel [output], kept.2 ++ levels.getD targetLevel [])
    else (levels.set targetLevel (levels.getD targetLevel [] ++ [output]), kept.2)

theorem readIntoFold {st : Storage} {runs : List SsTableHandle} (readable : Readable st runs)
    (add : Entries → List (Key × Entry) → Entries) (acc : Entries) :
    runs.foldlM (readInto st add) acc =
      .ok ((layersOf runs).foldl
        (fun acc m => add acc (m.toList.filter (fun e => inRange [] maxKey e.1))) acc) := by
  induction runs generalizing acc with
  | nil => rfl
  | cons h rest ih =>
    have first := readable h List.mem_cons_self
    have later := ih (fun x member => readable x (List.mem_cons_of_mem h member))
    rw [List.foldlM_cons]
    simp only [readInto, Storage.rangeWithTombstones, first, bind, Except.bind, pure, Except.pure]
    exact later _

def mergedSources (runs : List SsTableHandle) : Entries :=
  stackUp (inRange [] maxKey) (layersOf (sortByRunNumber runs)) ∅

def mergedJob (sources targets : List SsTableHandle) (bottom : Bool) : Entries :=
  if bottom then
    live ((layersOf targets).foldl (fun acc m =>
      insertMissing acc (m.toList.filter (fun e => inRange [] maxKey e.1))) (mergedSources sources))
  else mergedSources sources

theorem mergedSourcesGet (runs : List SsTableHandle) (k : Key) :
    (mergedSources runs)[k]? =
      if inRange [] maxKey k then resolve (layersOf (sortByRunNumber runs)).reverse k else none := by
  simp [mergedSources, stackUpGet]

theorem insertMissingFold (layers : List Entries) (acc : Entries) (k : Key) :
    (layers.foldl (fun acc m =>
      insertMissing acc (m.toList.filter (fun e => inRange [] maxKey e.1))) acc)[k]? =
        (acc[k]?).or (if inRange [] maxKey k then resolve layers k else none) := by
  induction layers generalizing acc with
  | nil => simp
  | cons m rest ih =>
    rw [List.foldl_cons, ih, insertMissingRange]
    by_cases bounded : inRange [] maxKey k = true
    · simp [bounded, Option.or_assoc]
    · simp [bounded]

theorem mergedBottomJoin (sources targets : List SsTableHandle) (k : Key) :
    ((mergedJob sources targets true)[k]?).join =
      if inRange [] maxKey k then
        visible ((layersOf (sortByRunNumber sources)).reverse ++ layersOf targets) k
      else none := by
  simp only [mergedJob, if_true]
  rw [liveJoin, insertMissingFold, mergedSourcesGet]
  by_cases bounded : inRange [] maxKey k = true
  · simp [visible, bounded]
  · simp [bounded]

theorem mergedBottomLive {sources targets : List SsTableHandle} {k : Key} {e : Entry}
    (held : (mergedJob sources targets true)[k]? = some e) : e.isSome := by
  simp only [mergedJob, if_true] at held
  exact liveHolds held

theorem mergeLevelsAll {st : Storage} {job : LevelCompactionJob} {runs : List SsTableHandle}
    (maxLevel : Nat) (whole : job.sourceRuns = List.range runs.length) (readable : Readable st runs)
    (targets : Readable st job.targetLevelRuns) :
    mergeLevels st job runs maxLevel =
      .ok (mergedJob runs job.targetLevelRuns (decide (job.targetLevel = maxLevel))) := by
  have sorted : Readable st (sortByRunNumber runs) := fun h member => readable h (sortMem.mp member)
  simp only [mergeLevels, whole, sortedInputsAll, readIntoFold sorted, bind, Except.bind, pure,
    Except.pure]
  by_cases bottom : job.targetLevel = maxLevel
  · simp only [bottom, if_true, readIntoFold targets, mergedJob, decide_true]
    rfl
  · simp only [bottom, if_false, mergedJob, decide_false]
    rfl

theorem mergeAllAll {st : Storage} {sstables : List SsTableHandle} (readable : Readable st sstables) :
    mergeAll st (List.range sstables.length) sstables = .ok (live (mergedSources sstables)) := by
  have sorted : Readable st (sortByRunNumber sstables) :=
    fun h member => readable h (sortMem.mp member)
  simp only [mergeAll, sortedInputsAll, readIntoFold sorted, bind, Except.bind, pure, Except.pure,
    List.length_range, if_true]
  rfl

inductive Merged (n level : Nat) (indices : List Nat) (all : Entries) (st : Storage) :
    CompactionResult → Storage → Prop where
  | nothing (empty : all = ∅) : Merged n level indices all st ⟨none, indices⟩ st
  | output (nonempty : all ≠ ∅) (h : SsTableHandle) (st' : Storage)
      (written : SsTableWriter.Written n all level st h st') :
      Merged n level indices all st ⟨some h, indices⟩ st'

section MergeAndWrite
variable {faults : Nat → Bool} {inputs : List SsTableHandle} {merge : Storage → Except Error Entries}
  {indices : List Nat} {n level : Nat} {st st' : Storage}

theorem readsRun : (Script.run faults 0 ((inputs.flatMap readOps).map Script.still) st).2 = st :=
  Script.runKeeps (P := fun s => s = st) (by
    intro op member s _ same
    obtain ⟨name, _, rfl⟩ := List.mem_map.mp member
    exact same) rfl

theorem mergeAndWriteOk {all : Entries} {result : CompactionResult} (reads : merge st = .ok all)
    (h : mergeAndWrite faults inputs merge indices n level st = (.ok result, st')) :
    Merged n level indices all st result st' := by
  have before : (Script.run faults 0 ((inputs.flatMap readOps).map Script.still) st).2 = st := readsRun
  unfold mergeAndWrite at h
  dsimp only at h
  split at h
  · simp at h
  · rename_i st₁ ran
    rw [ran] at before
    subst before
    simp only [reads] at h
    split at h
    · rename_i empty
      cases h
      exact .nothing empty
    · rename_i nonempty
      split at h
      · simp at h
      · rename_i handle st₂ wrote
        cases h
        exact .output nonempty handle _ (SsTableWriter.writeOk wrote)

theorem mergeAndWriteMerged {result : CompactionResult}
    (h : mergeAndWrite faults inputs merge indices n level st = (.ok result, st')) :
    ∃ all, merge st = .ok all ∧ Merged n level indices all st result st' := by
  cases reads : merge st with
  | ok all => exact ⟨all, rfl, mergeAndWriteOk reads h⟩
  | error e =>
    have before : (Script.run faults 0 ((inputs.flatMap readOps).map Script.still) st).2 = st := readsRun
    unfold mergeAndWrite at h
    dsimp only at h
    split at h
    · simp at h
    · rename_i st₁ ran
      rw [ran] at before
      subst before
      simp [reads] at h

theorem mergeAndWriteError {e : Error}
    (h : mergeAndWrite faults inputs merge indices n level st = (.error e, st')) :
    Storage.Touches n st st' := by
  have before : (Script.run faults 0 ((inputs.flatMap readOps).map Script.still) st).2 = st := readsRun
  unfold mergeAndWrite at h
  dsimp only at h
  split at h
  · rename_i st₁ ran
    rw [ran] at before
    cases h
    exact before ▸ Storage.touchesRefl n _
  · rename_i st₁ ran
    rw [ran] at before
    subst before
    split at h
    · cases h
      exact Storage.touchesRefl n _
    · split at h
      · simp at h
      · split at h
        · rename_i wrote
          cases h
          exact SsTableWriter.writeError wrote
        · simp at h

variable (faults inputs merge indices n level st) in
theorem mergeAndWriteWrites : (mergeAndWrite faults inputs merge indices n level st).2 = st ∨
    ∃ i all, merge st = .ok all ∧ (mergeAndWrite faults inputs merge indices n level st).2 =
      (SsTableWriter.write faults i n all level st).2 := by
  have before : (Script.run faults 0 ((inputs.flatMap readOps).map Script.still) st).2 = st := readsRun
  unfold mergeAndWrite
  dsimp only
  split
  · rename_i op st₁ ran
    rw [ran] at before
    exact Or.inl before
  · rename_i st₁ ran
    rw [ran] at before
    subst before
    split
    · exact Or.inl rfl
    · rename_i all reads
      split
      · exact Or.inl rfl
      · refine Or.inr ⟨(inputs.flatMap readOps).length, all, reads, ?_⟩
        split
        · rename_i stopped
          rw [stopped]
        · rename_i done
          rw [done]

theorem mergeAndWriteStores {all : Entries} (reads : merge st = .ok all) :
    SsTableWriter.Stores all st (mergeAndWrite faults inputs merge indices n level st).2 := by
  rcases mergeAndWriteWrites faults inputs merge indices n level st with kept | ⟨i, written, same, wrote⟩
  · rw [kept]
    exact fun m run => Or.inl
  · rw [wrote, Except.ok.inj (reads.symm.trans same)]
    exact SsTableWriter.writeStores faults i n written level st

theorem mergeAndWriteEnds {all : Entries} (clean : ∀ j, faults j = false) (reads : merge st = .ok all)
    (unused : st.active.lookup n = none) :
    ∃ result st', mergeAndWrite faults inputs merge indices n level st = (.ok result, st') := by
  have ends : Script.run faults 0 ((inputs.flatMap readOps).map Script.still) st = (none, st) :=
    Script.Ends.still (inputs.flatMap readOps) faults 0 (fun j _ _ => clean j)
  unfold mergeAndWrite
  simp only [ends, reads]
  by_cases empty : all = ∅
  · simp only [empty, if_true]
    exact ⟨_, _, rfl⟩
  · obtain ⟨h, st', wrote⟩ := SsTableWriter.writeSucceeds clean (inputs.flatMap readOps).length level
      unused empty
    simp only [empty, if_false, wrote]
    exact ⟨_, _, rfl⟩

end MergeAndWrite

theorem rangeDescending (m : Nat) :
    (List.range m).insertionSort (fun i j => j ≤ i) = (List.range m).reverse := by
  have sorted : ((List.range m).insertionSort (fun i j => j ≤ i)).Pairwise (fun i j => j ≤ i) :=
    List.pairwise_insertionSort (· ≥ ·) (List.range m)
  have falling : (List.range m).reverse.Pairwise (fun i j => j ≤ i) := by
    rw [List.pairwise_reverse]
    exact List.pairwise_lt_range.imp (fun lt => Nat.le_of_lt lt)
  exact List.Perm.eq_of_pairwise (fun a b _ _ ab ba => Nat.le_antisymm ba ab) sorted falling
    ((List.perm_insertionSort _ _).trans (List.reverse_perm _).symm)

theorem removeRunsLoop (m : Nat) (kept acc : List SsTableHandle) :
    (List.range m).reverse.foldl (fun acc idx =>
      if idx < acc.1.length then (acc.1.eraseIdx idx, acc.1[idx]?.toList ++ acc.2) else acc)
      (kept, acc) = (kept.drop m, kept.take m ++ acc) := by
  induction m generalizing kept acc with
  | zero => simp
  | succ m ih =>
    rw [List.range_succ, List.reverse_append, List.reverse_singleton, List.singleton_append,
      List.foldl_cons]
    by_cases inside : m < kept.length
    · -- the positions still to go are all below the one just removed
      have front : (kept.take m).length = m := List.length_take_of_le (Nat.le_of_lt inside)
      simp only [inside, if_true, List.getElem?_eq_getElem, Option.toList_some]
      rw [ih, List.eraseIdx_eq_take_drop_succ, List.drop_left' front, List.take_left' front,
        List.take_succ_eq_append_getElem inside, List.append_assoc]
    · simp only [inside, if_false]
      rw [ih, List.drop_eq_nil_of_le (by omega), List.drop_eq_nil_of_le (by omega),
        List.take_of_length_le (by omega), List.take_of_length_le (by omega)]

theorem removeRunsRange (level : List SsTableHandle) (m : Nat) :
    removeRuns level (List.range m) = (level.drop m, level.take m) := by
  rw [removeRuns, rangeDescending, removeRunsLoop, List.append_nil]

theorem splitLevels {levels : Levels} {i : Nat} (inside : i + 1 < levels.length) :
    ∃ pre post, levels = pre ++ levels.getD i [] :: levels.getD (i + 1) [] :: post ∧
      pre.length = i := by
  refine ⟨levels.take i, levels.drop (i + 2), ?_, by simp; omega⟩
  have first : levels.drop i = levels.getD i [] :: levels.drop (i + 1) := by
    rw [List.drop_eq_getElem_cons (by omega)]
    simp [List.getD_eq_getElem?_getD, List.getElem?_eq_getElem (show i < levels.length by omega)]
  have second : levels.drop (i + 1) = levels.getD (i + 1) [] :: levels.drop (i + 2) := by
    rw [List.drop_eq_getElem_cons inside]
    simp [List.getD_eq_getElem?_getD, List.getElem?_eq_getElem inside]
  rw [← second, ← first, List.take_append_drop]

def newTarget (target : List SsTableHandle) (bottom : Bool) : Option SsTableHandle →
    List SsTableHandle
  | none => target
  | some output => if bottom then [output] else target ++ [output]

def clearedTarget (target : List SsTableHandle) (bottom : Bool) : Option SsTableHandle →
    List SsTableHandle
  | none => []
  | some _ => if bottom then target else []

theorem writeBackEq (pre post : Levels) (source target : List SsTableHandle) (maxLevel m : Nat)
    (output : Option SsTableHandle) :
    writeBack (pre ++ source :: target :: post) pre.length (pre.length + 1) maxLevel
        ⟨output, List.range m⟩ =
      (pre ++ source.drop m :: newTarget target (decide (pre.length + 1 = maxLevel)) output :: post,
        source.take m ++ clearedTarget target (decide (pre.length + 1 = maxLevel)) output) := by
  cases output with
  | none => simp [writeBack, removeRunsRange, newTarget, clearedTarget, List.getD_eq_getElem?_getD]
  | some output =>
    by_cases bottom : pre.length + 1 = maxLevel
    · subst bottom
      simp [writeBack, removeRunsRange, newTarget, clearedTarget, List.getD_eq_getElem?_getD]
    · simp [writeBack, removeRunsRange, newTarget, clearedTarget, bottom,
        List.getD_eq_getElem?_getD]

theorem newTargetCounts (target : List SsTableHandle) (bottom : Bool) (output : Option SsTableHandle) :
    (↑(newTarget target bottom output) + ↑(clearedTarget target bottom output) :
      Multiset SsTableHandle) = ↑target + ↑output.toList := by
  cases output with
  | none => simp [newTarget, clearedTarget]
  | some output =>
    cases bottom
    · simp only [newTarget, clearedTarget, Bool.false_eq_true, if_false, Option.toList_some,
        ← Multiset.coe_add, Multiset.coe_nil, add_zero]
    · simp only [newTarget, clearedTarget, if_true, Option.toList_some]
      exact add_comm _ _

theorem writeBackCounts {levels : Levels} {i : Nat} (maxLevel m : Nat) (inside : i + 1 < levels.length)
    (output : Option SsTableHandle) :
    (↑(writeBack levels i (i + 1) maxLevel ⟨output, List.range m⟩).1.flatten +
      ↑(writeBack levels i (i + 1) maxLevel ⟨output, List.range m⟩).2 : Multiset SsTableHandle) =
        ↑levels.flatten + ↑output.toList := by
  obtain ⟨pre, post, split, rfl⟩ := splitLevels inside
  generalize levels.getD pre.length [] = source at split
  generalize levels.getD (pre.length + 1) [] = target at split
  subst split
  have counts := newTargetCounts target (decide (pre.length + 1 = maxLevel)) output
  have whole : (↑(source.take m) + ↑(source.drop m) : Multiset SsTableHandle) = ↑source := by
    rw [Multiset.coe_add, List.take_append_drop]
  rw [writeBackEq]
  simp only [List.flatten_append, List.flatten_cons, ← Multiset.coe_add]
  calc _ = (↑pre.flatten + (↑(source.take m) + ↑(source.drop m)) +
        (↑(newTarget target (decide (pre.length + 1 = maxLevel)) output) +
          ↑(clearedTarget target (decide (pre.length + 1 = maxLevel)) output)) + ↑post.flatten :
            Multiset SsTableHandle) := by abel
    _ = _ := by rw [whole, counts]; abel

theorem writeBackLength (levels : Levels) (i j maxLevel : Nat) (result : CompactionResult) :
    (writeBack levels i j maxLevel result).1.length = levels.length := by
  unfold writeBack
  dsimp only
  split
  · simp
  · split <;> simp

end Compactor
end CardanoLsm
