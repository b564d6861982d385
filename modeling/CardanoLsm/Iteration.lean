import CardanoLsm.MemorySnapshots
import CardanoLsm.Opening
import CardanoLsm.Keys

/-! Iterating over a tree and over a snapshot of it (`lib.rs`), and the folds of the
monoidal wrappers (`monoidal.rs`). The snapshot lets the oldest value win where the tree
lets the newest entry win. -/
namespace CardanoLsm
open Std Layered

def LsmTree.iter (t : LsmTree) (st : Storage) : List (Key × Value) := t.range st [] maxKey

def Storage.range (st : Storage) (h : SsTableHandle) (lo hi : Key) : Except Error (List (Key × Entry)) := do
  let all ← st.rangeWithTombstones h lo hi
  return all.filter (fun e => e.2.isSome)

def collectOlder (st : Storage) (entries : Entries) (sstable : SsTableHandle) : Entries :=
  match st.range sstable [] maxKey with
  | .ok sstableEntries => insertMissing entries sstableEntries
  | .error _ => entries

def LsmSnapshot.iter (s : LsmSnapshot) (st : Storage) : List (Key × Value) :=
  let entries := s.levels.reverse.foldl (fun entries level => level.foldl (collectOlder st) entries) ∅
  let entries := s.immutableMemtables.foldl (fun entries imm => insertAll entries imm.iter) entries
  let entries := insertAll entries s.memtable.iter
  listing entries

structure Monoidal (V : Type) where
  mempty : V
  mappend : V → V → V
  deserialize : Value → Option V

namespace Monoidal
variable {V : Type}

def add (m : Monoidal V) (accumulator : V) (e : Key × Value) : V :=
  match m.deserialize e.2 with
  | some value => m.mappend accumulator value
  | none => accumulator

def treeRangeFold (m : Monoidal V) (t : LsmTree) (st : Storage) (lo hi : Key) : V :=
  (t.range st lo hi).foldl m.add m.mempty

def snapshotRangeFold (m : Monoidal V) (s : LsmSnapshot) (st : Storage) (lo hi : Key) : V :=
  (s.iter st).foldl (fun acc e => if inRange lo hi e.1 then m.add acc e else acc) m.mempty

end Monoidal

def iterOrder (levels : Levels) : List SsTableHandle := levels.reverse.flatten

def oldestValue (levels : Levels) (k : Key) : Option Value :=
  (iterOrder levels).findSome? (fun h => (h.run.entries[k]?).join)

/-- For every key that the memtables leave to the runs, the oldest stored value is what
the newest entry says. -/
def OldestDecides (t : LsmTree) : Prop :=
  ∀ k, Scanned k → resolve (memLayers t.memtable t.immutableMemtables) k = none →
    oldestValue t.levels k = visible (layersOf (rangeOrder t.levels)) k

section Reads
variable {st : Storage}

theorem collectOlderGet {runs : List SsTableHandle} (readable : Readable st runs) (entries : Entries)
    (k : Key) : (runs.foldl (collectOlder st) entries)[k]? =
      (entries[k]?).or (if inRange [] maxKey k then
        (runs.findSome? (fun h => (h.run.entries[k]?).join)).map some else none) := by
  induction runs generalizing entries with
  | nil => simp
  | cons h rest ih =>
    have found := readable h List.mem_cons_self
    have one : collectOlder st entries h =
        insertMissing entries ((live h.run.entries).toList.filter (fun e => inRange [] maxKey e.1)) := by
      simp only [collectOlder, Storage.range, Storage.rangeWithTombstones, found, bind, Except.bind,
        pure, Except.pure]
      rw [liveToList, List.filter_filter, List.filter_filter]
      simp only [Bool.and_comm]
    rw [List.foldl_cons, ih (fun x member => readable x (List.mem_cons_of_mem h member)), one,
      insertMissingRange, liveGet, List.findSome?_cons]
    by_cases bounded : inRange [] maxKey k = true
    · simp only [bounded, if_true, Option.or_assoc]
      cases held : h.run.entries[k]? with
      | none => simp
      | some e => cases e <;> simp [Option.filter]
    · simp [bounded]

theorem collectAllGet {levels : Levels} (readable : Readable st levels.flatten) (k : Key) :
    (levels.reverse.foldl (fun entries level => level.foldl (collectOlder st) entries) ∅)[k]? =
      if inRange [] maxKey k then (oldestValue levels k).map some else none := by
  have flat : levels.reverse.foldl (fun entries level => level.foldl (collectOlder st) entries) ∅ =
      (iterOrder levels).foldl (collectOlder st) ∅ := List.foldl_flatten.symm
  have ordered : Readable st (iterOrder levels) := by
    intro h member
    refine readable h ?_
    simpa [iterOrder, List.mem_flatten] using member
  rw [flat, collectOlderGet ordered]
  simp [oldestValue]

theorem snapshotIterMap (s : LsmSnapshot) (readable : Readable st s.levels.flatten) :
    ∃ entries : Entries, s.iter st = listing entries ∧ ∀ k : Key, entries[k]? =
      (resolve (memLayers s.memtable s.immutableMemtables) k).or
        (if inRange [] maxKey k then (oldestValue s.levels k).map some else none) := by
  have whole : ∀ entries m : Entries, insertAll entries m.toList =
      insertAll entries (m.toList.filter (fun _ => true)) := fun entries m => by rw [List.filter_true]
  refine ⟨stackUp (fun _ => true) (memLayers s.memtable s.immutableMemtables).reverse
    (s.levels.reverse.foldl (fun entries level => level.foldl (collectOlder st) entries) ∅), ?_,
    fun k => ?_⟩
  · rw [memLayers, List.reverse_cons, List.reverse_reverse, stackUpAppend]
    simp only [LsmSnapshot.iter, MemTable.iter, whole, stackUp, List.foldl_map, List.foldl_cons,
      List.foldl_nil]
  · rw [stackUpGet, List.reverse_reverse, collectAllGet readable]
    rfl

end Reads

theorem foldRange {V : Type} (m : Monoidal V) (entries : List (Key × Value)) (lo hi : Key) :
    entries.foldl (fun acc e => if inRange lo hi e.1 then m.add acc e else acc) m.mempty =
      (entries.filter (fun e => inRange lo hi e.1)).foldl m.add m.mempty := by
  rw [List.foldl_filter]

theorem joinMapSome {α : Type} (o : Option α) : (o.map some).join = o := by cases o <;> rfl

theorem treeOutside {s : State} (sound : Sound s) (keyed : Keyed Scanned s) {k : Key}
    (outside : ¬ Scanned k) :
    resolve (memLayers s.tree.memtable s.tree.immutableMemtables) k = none ∧
      resolve (layersOf (rangeOrder s.tree.levels)) k = none := by
  have none : s.tree.immutableMemtables = [] := sound.tree.immutables
  constructor
  · have buffered : s.tree.memtable.data[k]? = .none := by
      by_contra held
      exact outside (keyed.memtable k held)
    simp [memLayers, none, buffered]
  · have keys : RunsKeys Scanned (rangeOrder s.tree.levels) :=
      keyed.runs sound.ledger (fun h member => State.Moves.levelsSettled s h (mem_rangeOrder.mp member))
    exact keys.outside outside

theorem iterSame {s : State} (sound : Sound s) (keyed : Keyed Scanned s) :
    s.tree.snapshot.iter s.storage = s.tree.iter s.storage ↔ OldestDecides s.tree := by
  obtain ⟨entries, listed, read⟩ := snapshotIterMap s.tree.snapshot sound.treeReadable
  rw [listed, LsmTree.iter, s.tree.rangeEq [] maxKey sound.treeReadable, listingSame]
  constructor
  · intro same k scanned free
    have here := same k
    have inside : inRange [] maxKey k = true := scanned
    rw [s.tree.rangeJoin, read k, if_pos inside, if_pos inside] at here
    have free' : resolve (memLayers s.tree.snapshot.memtable s.tree.snapshot.immutableMemtables) k =
        none := free
    rw [free', Option.none_or, LsmTree.view, LsmTree.layers, visibleThrough free] at here
    rw [← here, joinMapSome]
    rfl
  · intro decides k
    rw [s.tree.rangeJoin, read k, LsmTree.view, LsmTree.layers]
    have bufferedSame : resolve (memLayers s.tree.snapshot.memtable
        s.tree.snapshot.immutableMemtables) k =
          resolve (memLayers s.tree.memtable s.tree.immutableMemtables) k := rfl
    rw [bufferedSame]
    by_cases scanned : inRange [] maxKey k = true
    · rw [if_pos scanned, if_pos scanned]
      cases held : resolve (memLayers s.tree.memtable s.tree.immutableMemtables) k with
      | some e => rw [visibleHidden held]; rfl
      | none =>
        rw [visibleThrough held, Option.none_or]
        have oldest : oldestValue s.tree.snapshot.levels k =
            visible (layersOf (rangeOrder s.tree.levels)) k := decides k scanned held
        rw [oldest, joinMapSome]
    · rw [if_neg scanned, if_neg scanned, (treeOutside sound keyed scanned).1]
      rfl

theorem rangeOfIter {s : State} (sound : Sound s) (keyed : Keyed Scanned s) (lo hi : Key) :
    s.tree.range s.storage lo hi = (s.tree.iter s.storage).filter (fun e => inRange lo hi e.1) := by
  rw [LsmTree.iter, s.tree.rangeEq lo hi sound.treeReadable, s.tree.rangeEq [] maxKey sound.treeReadable]
  refine listingCut (fun k => ?_)
  rw [s.tree.rangeJoin, s.tree.rangeJoin]
  by_cases scanned : inRange [] maxKey k = true
  · rw [if_pos scanned]
  · have blank : s.tree.view k = none := by
      have outside := treeOutside sound keyed scanned
      rw [LsmTree.view, LsmTree.layers, visible, resolveAppend, outside.1, outside.2]
      rfl
    simp [blank]

theorem snapshotIterates {s₀ s : State} {as : List Action} (starts : Starts s₀)
    (stored : Keyed Scanned s₀)
    (ran : Trace.Run State.step (fun _ a => ∀ w ∈ a.writes, Scanned w.1) s₀ as s) :
    (s.tree.snapshot.iter s.storage = s.tree.iter s.storage ∧
      ∀ (V : Type) (m : Monoidal V) (lo hi : Key),
        m.snapshotRangeFold s.tree.snapshot s.storage lo hi = m.treeRangeFold s.tree s.storage lo hi) ↔
      OldestDecides s.tree := by
  obtain ⟨sound, keyed⟩ : Sound s ∧ Keyed Scanned s := by
    refine ran.invariant (I := fun s => Sound s ∧ Keyed Scanned s) (fun s a t taken keys holds => ?_)
      ⟨starts.sound, stored⟩
    exact ⟨(State.stepMoves taken).sound holds.1, (State.stepMoves taken).keyed holds.1 keys holds.2⟩
  rw [iterSame sound keyed, and_iff_left_iff_imp]
  intro decides V m lo hi
  have same := (iterSame sound keyed).mpr decides
  rw [Monoidal.snapshotRangeFold, Monoidal.treeRangeFold, same, foldRange, rangeOfIter sound keyed]

def twoRunsScript : List Action := .insert [1] [10] :: ownSteps 3 ++ .insert [2] [20] :: ownSteps 3

theorem iterScriptAllowed {script : List Action}
    (fixed : ∀ a ∈ script, ∀ w ∈ a.writes, Scanned w.1) : ∀ s : State, ∀ a ∈ script,
      (fun _ _ => true) s a = true → ∀ w ∈ a.writes, Scanned w.1 :=
  fun _ a member _ => fixed a member

theorem snapshotIteratesTwo : ∃ s,
    Trace.Run State.step (fun _ a => ∀ w ∈ a.writes, Scanned w.1) (.fresh ⟨1, 1⟩) twoRunsScript s ∧
      s.tree.iter s.storage = [([1], [10]), ([2], [20])] ∧
        ∀ (V : Type) (m : Monoidal V) (lo hi : Key),
          m.snapshotRangeFold s.tree.snapshot s.storage lo hi = m.treeRangeFold s.tree s.storage lo hi := by
  have fixed : ∀ a ∈ twoRunsScript, ∀ w ∈ a.writes, Scanned w.1 := by
    simp [twoRunsScript, ownSteps, Action.writes, Scanned]
    decide
  have ended : (Trace.execWhile State.step (fun _ _ => true) (.fresh ⟨1, 1⟩) twoRunsScript).any (fun s =>
      decide (s.tree.iter s.storage = [([1], [10]), ([2], [20])]) &&
        decide (s.tree.snapshot.iter s.storage = s.tree.iter s.storage)) = true := by decide +kernel
  obtain ⟨s, ran, tested⟩ := Trace.runTo (iterScriptAllowed fixed) ended
  simp only [Bool.and_eq_true, decide_eq_true_eq] at tested
  have kept : Sound s ∧ Keyed Scanned s := ran.invariant (I := fun s => Sound s ∧ Keyed Scanned s)
    (fun s a t taken keys holds => ⟨(State.stepMoves taken).sound holds.1,
      (State.stepMoves taken).keyed holds.1 keys holds.2⟩)
    ⟨(Starts.fresh ⟨1, 1⟩).sound, Keyed.fresh Scanned ⟨1, 1⟩⟩
  have decides := (iterSame kept.1 kept.2).mp tested.2
  exact ⟨s, ran, tested.1, ((snapshotIterates (Starts.fresh ⟨1, 1⟩) (Keyed.fresh Scanned ⟨1, 1⟩) ran).mpr
    decides).2⟩

def overwrittenScript : List Action := .insert [1] [10] :: ownSteps 3 ++ .insert [1] [20] :: ownSteps 3

theorem snapshotIteratesOldest : ∃ s,
    Trace.Run State.step (fun _ a => ∀ w ∈ a.writes, Scanned w.1) (.fresh ⟨1, 1⟩) overwrittenScript s ∧
      s.foreground = .idle ∧ s.tree.iter s.storage = [([1], [20])] ∧
        s.tree.snapshot.iter s.storage = [([1], [10])] := by
  have fixed : ∀ a ∈ overwrittenScript, ∀ w ∈ a.writes, Scanned w.1 := by
    simp [overwrittenScript, ownSteps, Action.writes, Scanned]
    decide
  have ended : (Trace.execWhile State.step (fun _ _ => true) (.fresh ⟨1, 1⟩) overwrittenScript).any
      (fun s => State.isIdle s.foreground && decide (s.tree.iter s.storage = [([1], [20])]) &&
        decide (s.tree.snapshot.iter s.storage = [([1], [10])])) = true := by decide +kernel
  obtain ⟨s, ran, tested⟩ := Trace.runTo (iterScriptAllowed fixed) ended
  simp only [Bool.and_eq_true, decide_eq_true_eq] at tested
  exact ⟨s, ran, State.idleOfIsIdle tested.1.1, tested.1.2, tested.2⟩

end CardanoLsm
