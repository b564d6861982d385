import CardanoLsm.PointLookups
import CardanoLsm.Format.Lookup

/-! The tree over the bytes of its runs (`LsmTree::get` and `LsmTree::range`, `lib.rs`, on the
handles and the files of `sstable.rs`): from the bytes that `finish` wrote it reads the
reference map. -/
namespace CardanoLsm.Format
open Std Layered

structure Tree where
  memtable : MemTable
  immutableMemtables : List MemTable
  levels : List (List SsTableHandle)

def scanRuns (crates : Crates) (disk : Disk) (key : Key) : List SsTableHandle → Except FormatError (Option Value)
  | [] => .ok none
  | sstable :: rest =>
    if (compare key sstable.minKey).isGE && (compare key sstable.maxKey).isLE then
      match get crates disk sstable key with
      | .error e => .error e
      | .ok (some value) => .ok (some value)
      | .ok none => scanRuns crates disk key rest
    else scanRuns crates disk key rest

def sortByRunNumber (level : List SsTableHandle) : List SsTableHandle :=
  level.insertionSort (fun a b => a.runNumber ≤ b.runNumber)

def collectLevel (disk : Disk) (lo hi : Key) (entries : Entries) (level : List SsTableHandle) : Entries :=
  (sortByRunNumber level).foldl (fun entries sstable =>
    match rangeWithTombstones disk sstable lo hi with
    | .ok sstableEntries => insertAll entries sstableEntries
    | .error _ => entries) entries

namespace Tree

def get (crates : Crates) (disk : Disk) (t : Tree) (key : Key) : Except FormatError (Option Value) :=
  match (t.memtable :: t.immutableMemtables.reverse).findSome? (fun m => m.get key) with
  | some valueOpt => .ok valueOpt
  | none => scanRuns crates disk key (t.levels.flatMap List.reverse)

def range (disk : Disk) (t : Tree) (lo hi : Key) : List (Key × Value) :=
  let entries := t.levels.reverse.foldl (collectLevel disk lo hi) ∅
  let entries := t.immutableMemtables.foldl (fun entries imm => insertAll entries (imm.range lo hi)) entries
  let entries := insertAll entries (t.memtable.range lo hi)
  listing entries

end Tree

def handleOf (crates : Crates) (h : CardanoLsm.SsTableHandle) : SsTableHandle :=
  let added := h.run.entries.toList
  ⟨h.runNumber, h.minKey, h.maxKey, h.numEntries, h.level, writtenFilter crates added, writtenIndex added⟩

def Tree.of (crates : Crates) (t : LsmTree) : Tree :=
  ⟨t.memtable, t.immutableMemtables, t.levels.map (List.map (handleOf crates))⟩

def OnDisk (crates : Crates) (disk : Disk) (h : CardanoLsm.SsTableHandle) : Prop :=
  ∃ level disk₀ handle disk', finish crates h.runNumber h.run.entries.toList level disk₀ = .ok (handle, disk') ∧
    disk h.runNumber = disk' h.runNumber

def Short (k : Key) : Prop := k.length < 2 ^ 32

section Runs
variable {crates : Crates} {disk : Disk} {st : Storage} {h : CardanoLsm.SsTableHandle}

theorem finishHandle {n level : Nat} {run : Run} {disk₀ disk' : Disk} {handle : SsTableHandle}
    (finished : finish crates n run.entries.toList level disk₀ = .ok (handle, disk')) :
    handle = handleOf crates ⟨.active, n, run, level, 0⟩ := by
  have stored := finishStored finished
  have ok := finished
  obtain ⟨keyopsWriter, _, ok⟩ := bindOk ok
  obtain ⟨blobsWriter, _, ok⟩ := bindOk ok
  split at ok
  · cases ok
  · rename_i first rest sorted
    obtain ⟨w, _, ok⟩ := bindOk ok
    obtain ⟨filterBytes, _, ok⟩ := bindOk ok
    obtain ⟨⟨filterFile, filterCrc⟩, _, ok⟩ := bindOk ok
    obtain ⟨indexBytes, _, ok⟩ := bindOk ok
    obtain ⟨⟨indexFile, indexCrc⟩, _, ok⟩ := bindOk ok
    have filterIs := stored.bloomFilter
    have indexIs := stored.index
    cases ok
    dsimp only at filterIs indexIs
    rw [mapSorted] at sorted
    have keys : run.index = (first :: rest).map Prod.fst := by
      rw [← sorted, Run.index, ExtTreeMap.map_fst_toList_eq_keys]
    have low : run.minKey = first.1 := by simp only [Run.minKey, keys, List.map_cons, List.head_cons]
    have high : run.maxKey = ((first :: rest).getLast (List.cons_ne_nil first rest)).1 := by
      simp only [Run.maxKey, keys, List.getLast_map]
    have size : run.numEntries = (first :: rest).length := by
      rw [← sorted, Run.numEntries, ExtTreeMap.length_toList]
    simp only [handleOf, CardanoLsm.SsTableHandle.minKey, CardanoLsm.SsTableHandle.maxKey,
      CardanoLsm.SsTableHandle.numEntries, low, high, size, ← filterIs, ← indexIs]

theorem rangeSameFiles {disk' : Disk} {handle : SsTableHandle} (same : disk handle.runNumber = disk' handle.runNumber)
    (lo hi : Key) : rangeWithTombstones disk handle lo hi = rangeWithTombstones disk' handle lo hi := by
  rw [rangeWithTombstones, rangeWithTombstones, same]

theorem getSameFiles {disk' : Disk} {handle : SsTableHandle} (same : disk handle.runNumber = disk' handle.runNumber)
    (key : Key) : get crates disk handle key = get crates disk' handle key := by
  unfold get
  simp only [rangeSameFiles same, same]

theorem readOnDisk (readable : st.readRun h = .ok h.run) (short : EntriesKeys Short h.run.entries)
    (onDisk : OnDisk crates disk h) (lo hi key : Key) :
    (∃ out, st.rangeWithTombstones h lo hi = .ok out ∧ rangeWithTombstones disk (handleOf crates h) lo hi = .ok out) ∧
      ∃ found, st.get crates.hash h key = .ok found ∧ get crates disk (handleOf crates h) key = .ok found := by
  obtain ⟨level, disk₀, handle, disk', finished, same⟩ := onDisk
  have keys : ∀ e ∈ h.run.entries.toList, e.1.length < 2 ^ 32 := fun e member =>
    short e.1 (by simp [ExtTreeMap.mem_toList_iff_getElem?_eq_some.mp member])
  obtain ⟨⟨out, left, right⟩, found, left', right'⟩ := bytesRefineRun readable keys finished lo hi key
  rw [finishHandle finished] at right right'
  -- neither read looks at the level of a handle
  have files : disk (handleOf crates h).runNumber = disk' (handleOf crates h).runNumber := same
  exact ⟨⟨out, left, (rangeSameFiles files lo hi).trans right⟩, found, left', (getSameFiles files key).trans right'⟩

end Runs

section Trees
variable {crates : Crates} {disk : Disk} {st : Storage}

structure Backed (crates : Crates) (disk : Disk) (st : Storage) (runs : List CardanoLsm.SsTableHandle) : Prop where
  readable : Readable st runs
  short : RunsKeys Short runs
  onDisk : ∀ h ∈ runs, OnDisk crates disk h

theorem scanBacked {runs : List CardanoLsm.SsTableHandle} (backed : Backed crates disk st runs) (key : Key) :
    ∃ found, CardanoLsm.scanRuns crates.hash st key runs = .ok found ∧
      scanRuns crates disk key (runs.map (handleOf crates)) = .ok found := by
  induction runs with
  | nil => exact ⟨none, rfl, rfl⟩
  | cons h rest ih =>
    have later := ih ⟨fun x member => backed.readable x (List.mem_cons_of_mem h member),
      fun x member => backed.short x (List.mem_cons_of_mem h member),
      fun x member => backed.onDisk x (List.mem_cons_of_mem h member)⟩
    obtain ⟨-, found, left, right⟩ := readOnDisk (backed.readable h List.mem_cons_self)
      (backed.short h List.mem_cons_self) (backed.onDisk h List.mem_cons_self) [] [] key
    have bounds : (handleOf crates h).minKey = h.minKey ∧ (handleOf crates h).maxKey = h.maxKey := ⟨rfl, rfl⟩
    rw [List.map_cons, scanRuns, CardanoLsm.scanRuns, bounds.1, bounds.2, left, right]
    split
    · cases found with
      | none => exact later
      | some value => exact ⟨some value, rfl, rfl⟩
    · exact later

theorem collectBacked {level : List CardanoLsm.SsTableHandle} (backed : Backed crates disk st level) (lo hi : Key)
    (entries : Entries) : collectLevel disk lo hi entries (level.map (handleOf crates)) =
      CardanoLsm.collectLevel st lo hi entries level := by
  have sorted : sortByRunNumber (level.map (handleOf crates)) =
      (CardanoLsm.sortByRunNumber level).map (handleOf crates) :=
    (List.map_insertionSort (fun a b : CardanoLsm.SsTableHandle => a.runNumber ≤ b.runNumber)
      (fun a b : SsTableHandle => a.runNumber ≤ b.runNumber) (handleOf crates) level (fun _ _ _ _ => Iff.rfl)).symm
  rw [collectLevel, sorted, List.foldl_map, CardanoLsm.collectLevel]
  refine List.foldl_ext _ _ _ (fun acc h member => ?_)
  have inside := sortMem.mp member
  obtain ⟨⟨out, left, right⟩, -⟩ := readOnDisk (backed.readable h inside) (backed.short h inside)
    (backed.onDisk h inside) lo hi []
  rw [left, right]

theorem rangeBacked {t : LsmTree} (backed : Backed crates disk st t.levels.flatten) (lo hi : Key) :
    (Tree.of crates t).range disk lo hi = t.range st lo hi := by
  have collected : (t.levels.map (List.map (handleOf crates))).reverse.foldl (collectLevel disk lo hi) ∅ =
      t.levels.reverse.foldl (CardanoLsm.collectLevel st lo hi) ∅ := by
    rw [← List.map_reverse, List.foldl_map]
    refine List.foldl_ext _ _ _ (fun acc level member => ?_)
    have inside : ∀ h ∈ level, h ∈ t.levels.flatten := fun h here =>
      List.mem_flatten_of_mem (List.mem_reverse.mp member) here
    exact collectBacked ⟨fun h here => backed.readable h (inside h here),
      fun h here => backed.short h (inside h here), fun h here => backed.onDisk h (inside h here)⟩ lo hi acc
  simp only [Tree.range, Tree.of, collected, LsmTree.range]

theorem getBacked {t : LsmTree} (backed : Backed crates disk st t.levels.flatten) (key : Key) :
    ∃ found, t.get crates.hash st key = .ok found ∧ (Tree.of crates t).get crates disk key = .ok found := by
  have order : (t.levels.map (List.map (handleOf crates))).flatMap List.reverse =
      (scanOrder t.levels).map (handleOf crates) := by
    simp only [scanOrder, List.flatMap_map, List.map_flatMap, List.map_reverse]
  have inside : ∀ h ∈ scanOrder t.levels, h ∈ t.levels.flatten := fun h member => mem_scanOrder.mp member
  simp only [Tree.get, Tree.of, LsmTree.get, lookup, order]
  cases (t.memtable :: t.immutableMemtables.reverse).findSome? (fun m => m.get key) with
  | some value => exact ⟨value, rfl, rfl⟩
  | none =>
    exact scanBacked ⟨fun h member => backed.readable h (inside h member),
      fun h member => backed.short h (inside h member), fun h member => backed.onDisk h (inside h member)⟩ key

end Trees

structure StepFits (s : State) (a : Action) : Prop where
  ok : StepOk True s a
  short : ∀ w ∈ a.writes, Short w.1

theorem bytesRefineReference {crates : Crates} {disk : Disk} {config : LsmConfig} {overflowChecks : Bool}
    {as : List Action} {s : State} (ran : Trace.Run State.step StepFits (.fresh config overflowChecks) as s) (idle : s.foreground = .idle)
    (onDisk : ∀ h ∈ s.tree.levels.flatten, OnDisk crates disk h) :
    (∀ lo hi, (Tree.of crates s.tree).range disk lo hi = (Reference.empty.run as).range lo hi) ∧
      ∀ k, ∃ found, s.tree.get crates.hash s.storage k = .ok found ∧
        (Tree.of crates s.tree).get crates disk k = .ok found := by
  have refines := Refines.run (ran.weaken (fun _ _ fits => fits.ok)) (Refines.fresh True config)
  have keyed : Sound s ∧ Keyed Short s := by
    refine ran.invariant (I := fun s => Sound s ∧ Keyed Short s) (fun s a t taken fits holds => ?_)
      ⟨(Starts.fresh config overflowChecks).sound, Keyed.fresh Short config⟩
    exact ⟨(State.stepMoves taken).sound holds.1, (State.stepMoves taken).keyed holds.1 fits.short holds.2⟩
  have backed : Backed crates disk s.storage s.tree.levels.flatten := ⟨refines.sound.treeReadable,
    keyed.2.runs keyed.1.ledger (fun h member => State.Moves.levelsSettled s h member), onDisk⟩
  exact ⟨fun lo hi => (rangeBacked backed lo hi).trans (refines.range idle lo hi), getBacked backed⟩

def oneRun : List (Key × Entry) := [([1], some [10])]

theorem oneFinished : ∃ handle disk, finish crates 1 oneRun 0 emptyDisk = .ok (handle, disk) := by
  have accepted : Accepted crates 1 oneRun emptyDisk := by
    refine ⟨⟨rfl, rfl, rfl, rfl⟩, by decide, by decide, fun bytes written => ?_, fun bytes written => ?_⟩
    · cases written
      decide +kernel
    · cases written
      decide +kernel
  obtain ⟨handle, finished, -⟩ := finishOk crc32OfBytes (by decide) accepted rfl rfl 0
  exact ⟨handle, _, finished⟩

theorem bytesRefineReferenceOne : ∃ s disk, Trace.Run State.step StepFits (.fresh ⟨1, 1⟩) oneScript s ∧
    s.tree.levels.flatten.length = 1 ∧ (Tree.of crates s.tree).range disk [] [2] = [([1], [10])] := by
  have allowed : ∀ s, ∀ a ∈ oneScript, stepChecked s a = true → StepFits s a := by
    have fixed : ∀ a ∈ oneScript, a.Clean ∧ ∀ w ∈ a.writes, Short w.1 := by
      simp [oneScript, ownSteps, noFaults, Action.Clean, Action.writes, Short]
    exact fun s a member checked => ⟨stepOkOf (fixed a member).1 checked, (fixed a member).2⟩
  have ended : (Trace.execWhile State.step stepChecked (.fresh ⟨1, 1⟩) oneScript).any (fun s =>
      State.isIdle s.foreground && decide (s.tree.levels.flatten.length = 1) &&
        decide (∀ h ∈ s.tree.levels.flatten, h.runNumber = 1 ∧ h.run.entries.toList = oneRun)) = true := by
    decide +kernel
  obtain ⟨s, ran, tested⟩ := Trace.runTo allowed ended
  simp only [Bool.and_eq_true, decide_eq_true_eq] at tested
  obtain ⟨⟨idle, one⟩, written⟩ := tested
  obtain ⟨handle, disk, finished⟩ := oneFinished
  have onDisk : ∀ h ∈ s.tree.levels.flatten, OnDisk crates disk h := by
    intro h member
    obtain ⟨number, entries⟩ := written h member
    refine ⟨0, emptyDisk, handle, disk, ?_, rfl⟩
    rw [number, entries]
    exact finished
  have value : (Reference.empty.run oneScript).range [] [2] = [([1], [10])] := by decide +kernel
  refine ⟨s, disk, ran, one, ?_⟩
  rw [← value]
  exact (bytesRefineReference ran (State.idleOfIsIdle idle) onDisk).1 [] [2]

end CardanoLsm.Format
