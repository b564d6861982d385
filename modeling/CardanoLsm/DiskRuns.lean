import CardanoLsm.Leaks
import CardanoLsm.SavedSnapshots
import CardanoLsm.Lib.Numbered

/-! What opening a directory finds in it. The complete runs are put into one level, where
run numbers alone order them. -/
namespace CardanoLsm
open Std Layered Numbered

def Storage.found (st : Storage) : List FoundRun :=
  (st.active.map Prod.fst).map (fun n => ⟨n, 0, st.runAt .active n⟩)

def FoundRun.complete (found : List FoundRun) : List (Nat × Entries) :=
  (found.filter (fun f => f.content.isSome)).map (fun f => (f.number, f.entries))

def FoundRun.newestFirst (found : List FoundRun) : List Entries := Numbered.newestFirst (complete found)

def Storage.onDisk (st : Storage) : List (Nat × Entries) := FoundRun.complete st.found

def Storage.recovered (st : Storage) (k : Key) : Option Value := visible (newestFirst st.onDisk) k

def LsmTree.tables (t : LsmTree) : LsmTree :=
  { t with
    memtable := MemTable.new t.sequenceNumber
    immutableMemtables := [] }

theorem byLevelFieldZero {runs : List SsTableHandle} (zero : ∀ h ∈ runs, h.level = 0) :
    byLevelField runs = byNumber runs := by
  have levels : (List.range 7).map (fun level => runs.filter (fun h => h.level == level)) =
      runs :: List.replicate 6 [] := by
    have here : runs.filter (fun h => h.level == 0) = runs :=
      List.filter_eq_self.mpr (fun h member => by simp [zero h member])
    have none : ∀ level, runs.filter (fun h => h.level == level + 1) = [] :=
      fun level => List.filter_eq_nil_iff.mpr (fun h member => by simp [zero h member])
    rw [List.range_succ_eq_map, List.map_cons, here, List.map_map]
    refine congrArg (List.cons runs) (List.eq_replicate_iff.mpr ⟨by simp, fun level member => ?_⟩)
    obtain ⟨i, -, rfl⟩ := List.mem_map.mp member
    exact none i
  have blank : rangeOrder (List.replicate 6 []) = [] := by simp [rangeOrder, sortByRunNumber]
  rw [byLevelField, levels, rangeOrderCons, blank, List.append_nil]

theorem tablesView (t : LsmTree) (k : Key) : t.tables.view k = visible (layersOf (rangeOrder t.levels)) k := by
  rw [LsmTree.view, LsmTree.layers, memLayers, LsmTree.tables, MemTable.new, List.map_nil, List.reverse_nil,
    List.singleton_append, visibleCons, ExtTreeMap.getElem?_empty, Option.elim_none]

theorem Starts.once {s : State} (starts : Starts s) : s.storage.Once := by
  cases starts with
  | opened config st rest =>
    have opens := LsmTree.openListedOpens (st.active.map Prod.fst) (opensNothing rest.counters)
      (by simpa using rest.distinct)
    exact (congrArg (fun active : RunFiles => (active.map Prod.fst).Nodup) opens.active).mpr rest.distinct
  | openedSnapshot name st rest t st' ok =>
    obtain ⟨metadata, sstables, linked, opened, done, rfl, rfl⟩ := openSnapshotOk rest.counters ok
    have once : opened.Once := by
      rw [Storage.Once, done.opens.active, done.active, List.map_map]
      exact done.once
    exact once.dropAll

namespace Storage
variable {st st' : Storage} {n : Nat}

theorem onDiskMem {m : Entries} : (n, m) ∈ st.onDisk ↔ ∃ run, st.runAt .active n = some run ∧ m = run.entries := by
  simp only [onDisk, FoundRun.complete, found, List.map_map, List.mem_map, List.mem_filter, Function.comp_apply]
  constructor
  · rintro ⟨f, ⟨⟨x, listed, rfl⟩, complete⟩, same⟩
    obtain ⟨run, stored⟩ := Option.isSome_iff_exists.mp complete
    dsimp only at stored same
    obtain ⟨rfl, rfl⟩ := Prod.mk.inj same
    exact ⟨run, stored, by rw [FoundRun.entries, stored, Option.elim_some]⟩
  · rintro ⟨run, stored, rfl⟩
    have listed : st.active.lookup n = some (some run) := Option.join_eq_some_iff.mp stored
    have member := mt lookupUnlisted.mpr (by rw [listed]; simp)
    obtain ⟨x, inside, rfl⟩ := List.mem_map.mp (not_not.mp member)
    exact ⟨_, ⟨⟨x, inside, rfl⟩, by rw [stored]; rfl⟩, by rw [FoundRun.entries, stored, Option.elim_some]⟩

theorem onDiskDistinct (once : st.Once) : (st.onDisk.map Prod.fst).Nodup := by
  have numbers : st.found.map FoundRun.number = st.active.map Prod.fst := by
    rw [found, List.map_map]
    exact List.map_id _
  rw [onDisk, FoundRun.complete, List.map_map]
  refine List.Nodup.sublist ?_ (numbers.symm ▸ once : (st.found.map FoundRun.number).Nodup)
  exact List.filter_sublist.map FoundRun.number

theorem recoveredActive (same : st'.active = st.active) (k : Key) : st'.recovered k = st.recovered k := by
  simp only [recovered, onDisk, found, runAt, files, same]

theorem recoveredSame (once : st.Once) (once' : st'.Once) (same : ∀ m, st'.runAt .active m = st.runAt .active m) (k : Key) :
    st'.recovered k = st.recovered k := by
  have listed : newestFirst st'.onDisk = newestFirst st.onDisk :=
    newestFirstSame (onDiskDistinct once) (onDiskDistinct once') (fun x => by rw [onDiskMem, onDiskMem, same])
  rw [recovered, recovered, listed]

theorem addsRun {run : Run} (once : st.Once) (once' : st'.Once) (absent : st.runAt .active n = none)
    (here : st'.runAt .active n = some run) (others : ∀ m, m ≠ n → st'.runAt .active m = st.runAt .active m) :
    Adds n run.entries st.onDisk st'.onDisk := by
  refine ⟨onDiskDistinct once, onDiskDistinct once', ?_, onDiskMem.mpr ⟨run, here, rfl⟩, ?_⟩
  · rintro ⟨m, entries⟩ member rfl
    obtain ⟨run', stored, -⟩ := onDiskMem.mp member
    cases absent.symm.trans stored
  · rintro ⟨m, entries⟩ apart
    rw [onDiskMem, onDiskMem, others m apart]

end Storage

theorem layersNumbered (runs : List SsTableHandle) :
    layersOf (byNumber runs) = newestFirst (runs.map (fun h => (h.runNumber, h.run.entries))) := by
  have sorted : rising (runs.map (fun h => (h.runNumber, h.run.entries))) =
      (sortByRunNumber runs).map (fun h => (h.runNumber, h.run.entries)) :=
    (List.map_insertionSort (fun a b : SsTableHandle => a.runNumber ≤ b.runNumber)
      (fun a b : Nat × Entries => a.1 ≤ b.1) (fun h => (h.runNumber, h.run.entries)) runs (fun _ _ _ _ => Iff.rfl)).symm
  rw [newestFirst, sorted, List.map_map, byNumber, layersOf, List.map_reverse]
  rfl

theorem openView (config : LsmConfig) {st : Storage} (rest : st.AtRest) (k : Key) :
    (LsmTree.open config st).1.view k = st.recovered k := by
  have opens := LsmTree.openListedOpens (st.active.map Prod.fst) (Starts.opensNothing rest.counters)
    (by simpa using rest.distinct)
  have level : ∀ h ∈ (LsmTree.openListed (st.active.map Prod.fst) st).1, h.level = 0 :=
    LsmTree.openListedLevel (st.active.map Prod.fst) st (fun _ member => absurd member List.not_mem_nil)
  have all : (LsmTree.openListed (st.active.map Prod.fst) st).1.map SsTableHandle.found =
      st.found.filter (fun f => f.content.isSome) := openListedFound (st.active.map Prod.fst) [] st
  have order : rangeOrder (LsmTree.open config st).1.levels =
      byNumber (LsmTree.openListed (st.active.map Prod.fst) st).1 :=
    (assembleOrder opens.distinct).trans (byLevelFieldZero level)
  have layers : (LsmTree.open config st).1.layers = ∅ :: newestFirst st.onDisk := by
    rw [LsmTree.layers, order, layersNumbered, Storage.onDisk, FoundRun.complete, ← all, List.map_map]
    rfl
  rw [LsmTree.view, layers, visibleCons, ExtTreeMap.getElem?_empty, Option.elim_none, Storage.recovered]

theorem SsTableWriter.writeRuns (faults : Nat → Bool) (i n : Nat) (entries : Entries) (level : Nat) {st : Storage}
    (unused : st.active.lookup n = none) :
    (∀ m, (write faults i n entries level st).2.runAt .active m = st.runAt .active m) ∨
      ∃ run, (write faults i n entries level st).2.runAt .active n = some run ∧ run.entries = entries ∧
        ∀ m, m ≠ n → (write faults i n entries level st).2.runAt .active m = st.runAt .active m := by
  have others : ∀ m, m ≠ n → (write faults i n entries level st).2.runAt .active m = st.runAt .active m := by
    intro m other
    cases out : write faults i n entries level st with
    | mk outcome st' =>
      cases outcome with
      | ok h => simp only [Storage.runAt, Storage.files, (writeOk out).others m other]
      | error e => exact (writeError out).runAt other
  have before : st.runAt .active n = none := by
    simp only [Storage.runAt, Storage.files, unused]
    rfl
  cases here : (write faults i n entries level st).2.runAt .active n with
  | none =>
    refine Or.inl (fun m => ?_)
    by_cases other : m = n
    · rw [other, here, before]
    · exact others m other
  | some run =>
    have stored : (write faults i n entries level st).2.active.lookup n = some (some run) := Option.join_eq_some_iff.mp here
    rcases writeStores faults i n entries level st n run stored with old | same
    · cases unused.symm.trans old
    · exact Or.inr ⟨run, rfl, same, others⟩

def FlushSafe (st : Storage) (n : Nat) (entries : Entries) : Prop :=
  ∀ x ∈ entries.toList, resolve (newestFirst (above st.onDisk n)) x.1 = none ∨
    visible (newestFirst (above st.onDisk n)) x.1 = x.2

/-- What the removed run holds of a key is hidden by a run with a higher number, or the runs
with lower numbers give the same without it. -/
def DropSafe (st : Storage) (h : SsTableHandle) : Prop :=
  ∀ x ∈ h.run.entries.toList, resolve (newestFirst (above st.onDisk h.runNumber)) x.1 ≠ none ∨
    visible (newestFirst (below st.onDisk h.runNumber)) x.1 = x.2

instance (st : Storage) (n : Nat) (entries : Entries) : Decidable (FlushSafe st n entries) :=
  inferInstanceAs (Decidable (∀ x ∈ entries.toList, _))

instance (st : Storage) (h : SsTableHandle) : Decidable (DropSafe st h) :=
  inferInstanceAs (Decidable (∀ x ∈ h.run.entries.toList, _))

namespace Storage
variable {st st' : Storage}

theorem writeOnTop {n : Nat} {run : Run} (once : st.Once) (once' : st'.Once) (unused : st.active.lookup n = none)
    (here : st'.runAt .active n = some run) (others : ∀ m, m ≠ n → st'.runAt .active m = st.runAt .active m)
    (safe : FlushSafe st n run.entries) (k : Key) :
    st'.recovered k = visible (run.entries :: newestFirst st.onDisk) k := by
  have adds := addsRun once once' (by simp only [runAt, files, unused]; rfl) here others
  exact (adds.onTop k).mpr (fun e held => safe (k, e) (ExtTreeMap.mem_toList_iff_getElem?_eq_some.mpr held))

theorem writeUnseen {n : Nat} {run : Run} (once : st.Once) (once' : st'.Once) (unused : st.active.lookup n = none)
    (here : st'.runAt .active n = some run) (others : ∀ m, m ≠ n → st'.runAt .active m = st.runAt .active m)
    (safe : ∀ x ∈ run.entries.toList, resolve (newestFirst (above st.onDisk n)) x.1 ≠ none ∨ st.recovered x.1 = x.2)
    (k : Key) : st'.recovered k = st.recovered k := by
  have adds := addsRun once once' (by simp only [runAt, files, unused]; rfl) here others
  refine (adds.unseen k).mpr (fun e held => ?_)
  rcases safe (k, e) (ExtTreeMap.mem_toList_iff_getElem?_eq_some.mpr held) with hidden | read
  · exact Or.inl hidden
  · by_cases hidden : resolve (newestFirst (above st.onDisk n)) k = none
    · rw [recovered, adds.before, visibleThrough hidden] at read
      exact Or.inr read
    · exact Or.inl hidden

theorem dropUnseen {h : SsTableHandle} (once : st.Once) (place : h.dir = .active)
    (stored : st.runAt .active h.runNumber = some h.run) (safe : st.refcounts h.refcount = 1 → DropSafe st h) (k : Key) :
    (st.dropHandle h).recovered k = st.recovered k := by
  have once' := once.dropHandle h
  by_cases last : st.refcounts h.refcount = 1
  · have left : ∀ m, (st.dropHandle h).runAt .active m = if m = h.runNumber then none else st.runAt .active m := by
      intro m
      simp only [dropHandle, last, if_true, place, removeFiles, runAt, files, Assoc.lookupFilter]
      split <;> rfl
    have adds : Adds h.runNumber h.run.entries (st.dropHandle h).onDisk st.onDisk :=
      addsRun once' once (by rw [left, if_pos rfl]) stored (fun m apart => by rw [left, if_neg apart])
    have sides := adds.sides
    refine ((adds.unseen k).mpr (fun e held => ?_)).symm
    rw [← sides.1, ← sides.2]
    exact safe last (k, e) (ExtTreeMap.mem_toList_iff_getElem?_eq_some.mpr held)
  · refine recoveredSame once once' (fun m => ?_) k
    rw [dropHandle, if_neg last]
    rfl

end Storage
end CardanoLsm
