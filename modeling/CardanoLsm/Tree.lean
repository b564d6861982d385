import CardanoLsm.Compaction

/-! The tree and its in-memory snapshots (`lib.rs`): point lookup, range scan, and
what both read from when the files of every run can be read. -/
namespace CardanoLsm
open Std Layered

structure LsmTree where
  config : LsmConfig
  memtable : MemTable
  immutableMemtables : List MemTable
  sequenceNumber : Nat
  nextRunNumber : Nat
  levels : Levels
  maxLevel : Nat
  compactionGeneration : Nat

structure LsmSnapshot where
  memtable : MemTable
  immutableMemtables : List MemTable
  levels : Levels
  sequenceNumber : Nat
  deriving DecidableEq

def scanOrder (levels : Levels) : List SsTableHandle := levels.flatMap List.reverse

def scanRuns (hash : KeyHash) (st : Storage) (key : Key) :
    List SsTableHandle → Except Error (Option Value)
  | [] => .ok none
  | sstable :: rest =>
    if (compare key sstable.minKey).isGE && (compare key sstable.maxKey).isLE then
      match st.get hash sstable key with
      | .error e => .error e
      | .ok (some value) => .ok (some value)
      | .ok none => scanRuns hash st key rest
    else scanRuns hash st key rest

def lookup (hash : KeyHash) (st : Storage) (memtable : MemTable) (immutableMemtables : List MemTable)
    (levels : Levels) (key : Key) : Except Error (Option Value) :=
  match (memtable :: immutableMemtables.reverse).findSome? (fun m => m.get key) with
  | some valueOpt => .ok valueOpt
  | none => scanRuns hash st key (scanOrder levels)

def collectLevel (st : Storage) (lo hi : Key) (entries : Entries) (level : List SsTableHandle) :
    Entries :=
  (sortByRunNumber level).foldl (fun entries sstable =>
    match st.rangeWithTombstones sstable lo hi with
    | .ok sstableEntries => insertAll entries sstableEntries
    | .error _ => entries) entries

def collectFrom (read : SsTableHandle → Except Error (List (Key × Entry))) (entries : Entries)
    (level : List SsTableHandle) : Entries :=
  (sortByRunNumber level).foldl (fun entries sstable =>
    match read sstable with
    | .ok sstableEntries => insertAll entries sstableEntries
    | .error _ => entries) entries

namespace LsmTree

def get (hash : KeyHash) (t : LsmTree) (st : Storage) (key : Key) : Except Error (Option Value) :=
  lookup hash st t.memtable t.immutableMemtables t.levels key

def range (t : LsmTree) (st : Storage) (lo hi : Key) : List (Key × Value) :=
  let entries := t.levels.reverse.foldl (collectLevel st lo hi) ∅
  let entries := t.immutableMemtables.foldl (fun entries imm => insertAll entries (imm.range lo hi))
    entries
  let entries := insertAll entries (t.memtable.range lo hi)
  listing entries

def rangeFrom (t : LsmTree) (read : SsTableHandle → Except Error (List (Key × Entry))) (lo hi : Key) :
    List (Key × Value) :=
  let entries := t.levels.reverse.foldl (collectFrom read) ∅
  let entries := t.immutableMemtables.foldl (fun entries imm => insertAll entries (imm.range lo hi))
    entries
  let entries := insertAll entries (t.memtable.range lo hi)
  listing entries

def snapshot (t : LsmTree) : LsmSnapshot :=
  ⟨t.memtable, t.immutableMemtables, t.levels, t.sequenceNumber⟩

def restore (t : LsmTree) (s : LsmSnapshot) : LsmTree :=
  { t with
    memtable := s.memtable
    immutableMemtables := s.immutableMemtables
    levels := s.levels
    compactionGeneration := t.compactionGeneration + 1
    sequenceNumber := s.sequenceNumber }

end LsmTree

def LsmSnapshot.get (hash : KeyHash) (s : LsmSnapshot) (st : Storage) (key : Key) :
    Except Error (Option Value) :=
  lookup hash st s.memtable s.immutableMemtables s.levels key

def rangeOrder (levels : Levels) : List SsTableHandle :=
  levels.flatMap (fun level => (sortByRunNumber level).reverse)

def memLayers (memtable : MemTable) (immutableMemtables : List MemTable) : List Entries :=
  memtable.data :: (immutableMemtables.map MemTable.data).reverse

def LsmTree.layers (t : LsmTree) : List Entries :=
  memLayers t.memtable t.immutableMemtables ++ layersOf (rangeOrder t.levels)

def LsmSnapshot.layers (s : LsmSnapshot) : List Entries :=
  memLayers s.memtable s.immutableMemtables ++ layersOf (rangeOrder s.levels)

def LsmTree.sources (t : LsmTree) (st : Storage) : List Entries :=
  memLayers t.memtable t.immutableMemtables ++ (rangeOrder t.levels).map st.contents

def LsmTree.view (t : LsmTree) (k : Key) : Option Value := visible t.layers k

def LsmSnapshot.view (s : LsmSnapshot) (k : Key) : Option Value := visible s.layers k

def scanView (memtable : MemTable) (immutableMemtables : List MemTable) (levels : Levels) (k : Key) :
    Option Value :=
  match resolve (memLayers memtable immutableMemtables) k with
  | some e => e
  | none => (scanOrder levels).findSome? (fun h => (h.run.entries[k]?).join)

theorem mem_rangeOrder {levels : Levels} {h : SsTableHandle} :
    h ∈ rangeOrder levels ↔ h ∈ levels.flatten := by
  simp [rangeOrder, List.mem_flatMap, List.mem_flatten]

theorem mem_scanOrder {levels : Levels} {h : SsTableHandle} :
    h ∈ scanOrder levels ↔ h ∈ levels.flatten := by
  simp [scanOrder, List.mem_flatMap, List.mem_flatten]

section Reads
variable {st : Storage} {levels : Levels}

theorem scanRunsEq (hash : KeyHash) (key : Key) {runs : List SsTableHandle} (readable : Readable st runs) :
    scanRuns hash st key runs = .ok (runs.findSome? (fun h => (h.run.entries[key]?).join)) := by
  induction runs with
  | nil => rfl
  | cons h rest ih =>
    have later := ih (fun x member => readable x (List.mem_cons_of_mem h member))
    have found := Storage.getReadable (readable h List.mem_cons_self) hash key
    unfold scanRuns
    rw [List.findSome?_cons]
    split
    · rw [found]
      cases held : (h.run.entries[key]?).join with
      | none => exact later
      | some value => rfl
    · rename_i outside
      -- a key outside the bounds is not in the run
      have absent : h.run.entries[key]? = none := by
        cases held : h.run.entries[key]? with
        | none => rfl
        | some e =>
          have within := Run.withinBounds held
          simp only [SsTableHandle.minKey, SsTableHandle.maxKey, within.1, within.2, Bool.and_self,
            not_true_eq_false] at outside
      rw [absent]
      exact later

theorem lookupEq (hash : KeyHash) (memtable : MemTable) (immutableMemtables : List MemTable)
    (readable : Readable st levels.flatten) (key : Key) :
    lookup hash st memtable immutableMemtables levels key =
      .ok (scanView memtable immutableMemtables levels key) := by
  have scanned : Readable st (scanOrder levels) := fun h member => readable h (mem_scanOrder.mp member)
  have memory : (memtable :: immutableMemtables.reverse).findSome? (fun m => m.get key) =
      resolve (memLayers memtable immutableMemtables) key := by
    rw [memLayers, resolve, ← List.map_reverse, ← List.map_cons, List.findSome?_map]
    rfl
  unfold lookup scanView
  rw [memory, scanRunsEq hash key scanned]
  cases resolve (memLayers memtable immutableMemtables) key <;> rfl

def ReadsAs (read : SsTableHandle → Except Error (List (Key × Entry))) (lo hi : Key)
    (contents : SsTableHandle → Entries) : Prop :=
  ∀ h, ((read h).toOption.getD []) = (contents h).toList.filter (fun e => inRange lo hi e.1)

theorem collectFromEq {read : SsTableHandle → Except Error (List (Key × Entry))} {lo hi : Key}
    {contents : SsTableHandle → Entries} (reads : ReadsAs read lo hi contents)
    (level : List SsTableHandle) (entries : Entries) :
    collectFrom read entries level =
      stackUp (inRange lo hi) ((sortByRunNumber level).map contents) entries := by
  unfold collectFrom stackUp
  rw [List.foldl_map]
  refine List.foldl_ext _ _ _ (fun acc h _ => ?_)
  rw [← reads h]
  cases read h <;> rfl

theorem collectAllFrom {read : SsTableHandle → Except Error (List (Key × Entry))} {lo hi : Key}
    {contents : SsTableHandle → Entries} (reads : ReadsAs read lo hi contents) (levels : Levels) :
    levels.reverse.foldl (collectFrom read) ∅ =
      stackUp (inRange lo hi) ((rangeOrder levels).map contents).reverse ∅ := by
  induction levels with
  | nil => rfl
  | cons level rest ih =>
    rw [List.reverse_cons, List.foldl_append, List.foldl_cons, List.foldl_nil, ih, collectFromEq reads]
    simp only [rangeOrder, List.flatMap_cons, List.map_append, List.reverse_append, List.map_reverse,
      List.reverse_reverse, stackUpAppend]

theorem contentsReadable {runs : List SsTableHandle} (readable : Readable st runs) :
    runs.map st.contents = layersOf runs := by
  refine List.map_congr_left (fun h member => ?_)
  rw [Storage.contents, readable h member]

theorem LsmTree.rangeFromSources (t : LsmTree) {read : SsTableHandle → Except Error (List (Key × Entry))}
    {lo hi : Key} {contents : SsTableHandle → Entries} (reads : ReadsAs read lo hi contents) :
    t.rangeFrom read lo hi = listing (stackUp (inRange lo hi)
      (memLayers t.memtable t.immutableMemtables ++ (rangeOrder t.levels).map contents).reverse ∅) := by
  unfold rangeFrom
  simp only [collectAllFrom reads, MemTable.rangeEq]
  rw [memLayers, List.cons_append, List.reverse_cons, List.reverse_append, List.reverse_reverse,
    stackUpAppend, stackUpAppend]
  simp only [stackUp, List.foldl_map, List.foldl_cons, List.foldl_nil]

theorem readsStorage (st : Storage) (lo hi : Key) :
    ReadsAs (fun h => st.rangeWithTombstones h lo hi) lo hi st.contents := by
  intro h
  unfold Storage.contents
  simp only [Storage.rangeWithTombstones, bind, Except.bind, pure, Except.pure]
  cases st.readRun h with
  | ok run => rfl
  | error e =>
    have nothing : (∅ : Entries).toList = [] := ExtTreeMap.toList_eq_nil_iff.mpr rfl
    rw [nothing, List.filter_nil]
    rfl

theorem LsmTree.rangeSources (t : LsmTree) (st : Storage) (lo hi : Key) :
    t.range st lo hi = listing (stackUp (inRange lo hi) (t.sources st).reverse ∅) :=
  t.rangeFromSources (readsStorage st lo hi)

theorem LsmTree.sourcesReadable {t : LsmTree} (readable : Readable st t.levels.flatten) :
    t.sources st = t.layers := by
  rw [sources, contentsReadable (fun h member => readable h (mem_rangeOrder.mp member)), layers]

theorem LsmTree.rangeEq (t : LsmTree) (lo hi : Key) (readable : Readable st t.levels.flatten) :
    t.range st lo hi = listing (stackUp (inRange lo hi) t.layers.reverse ∅) := by
  rw [rangeSources, sourcesReadable readable]

theorem LsmTree.rangeJoin (t : LsmTree) (lo hi k : Key) :
    ((stackUp (inRange lo hi) t.layers.reverse ∅)[k]?).join =
      if inRange lo hi k then t.view k else none := by
  rw [stackUpGet, List.reverse_reverse]
  by_cases inside : inRange lo hi k = true
  · simp [inside, view, visible]
  · simp [inside]

theorem LsmTree.rangeMem {t : LsmTree} {lo hi k : Key} {v : Value}
    (readable : Readable st t.levels.flatten) :
    (k, v) ∈ t.range st lo hi ↔ inRange lo hi k = true ∧ t.view k = some v := by
  have joined := t.rangeJoin lo hi k
  rw [t.rangeEq lo hi readable, listingMem, ← Option.join_eq_some_iff, joined]
  by_cases inside : inRange lo hi k = true
  · simp [inside]
  · simp [inside]

theorem LsmTree.rangeSame {t t' : LsmTree} {st' : Storage} {lo hi : Key}
    (readable : Readable st t.levels.flatten) (readable' : Readable st' t'.levels.flatten)
    (same : ∀ k, inRange lo hi k = true → t.view k = t'.view k) :
    t.range st lo hi = t'.range st' lo hi := by
  rw [t.rangeEq lo hi readable, t'.rangeEq lo hi readable']
  refine listingCongr (fun k => ?_)
  rw [t.rangeJoin, t'.rangeJoin]
  by_cases inside : inRange lo hi k = true
  · simp [inside, same k inside]
  · simp [inside]

theorem LsmTree.viewOfRange {t t' : LsmTree} {st' : Storage}
    (readable : Readable st t.levels.flatten) (readable' : Readable st' t'.levels.flatten)
    {k : Key} (same : t.range st k k = t'.range st' k k) : t.view k = t'.view k := by
  ext v
  have left : (k, v) ∈ t.range st k k ↔ inRange k k k = true ∧ t.view k = some v := rangeMem readable
  have right : (k, v) ∈ t'.range st' k k ↔ inRange k k k = true ∧ t'.view k = some v := rangeMem readable'
  rw [same, right] at left
  simpa [inRangeSelf] using left.symm

theorem LsmTree.rangeOfMap {t : LsmTree} {lo hi : Key} (readable : Readable st t.levels.flatten)
    {map : Layer Key Value} (same : ∀ k : Key, t.view k = map[k]?) :
    t.range st lo hi = map.toList.filter (fun e => inRange lo hi e.1) := by
  rw [t.rangeEq lo hi readable]
  refine listingOfMap (fun k => ?_)
  rw [t.rangeJoin, same k]

end Reads
end CardanoLsm
