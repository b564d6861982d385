import CardanoLsm.Effects
import CardanoLsm.Failures
import CardanoLsm.Order

/-! Saving a snapshot and opening it again. The saved form keeps the number and the level
field of every run; the level field need not be the level the run stands in. -/
namespace CardanoLsm
open Std Layered Script

namespace PersistentSnapshot

def linked (st : Storage) (h : SsTableHandle) : Nat × Option Run := (h.runNumber, st.runAt h.dir h.runNumber)

def linking (st : Storage) (name : String) (saved : SavedSnapshot) : Storage :=
  { st with snapshots := (name, saved) :: st.snapshots }

theorem modifyLinking {st : Storage} {name : String} (absent : st.snapshots.lookup name = none)
    (saved : SavedSnapshot) (f : SavedSnapshot → SavedSnapshot) :
    (linking st name saved).modifySnapshot name f = linking st name (f saved) := by
  have others : st.snapshots.map (fun s => if s.1 = name then (name, f s.2) else s) = st.snapshots := by
    refine (List.map_congr_left (fun s member => ?_)).trans (List.map_id _)
    have other : s.1 ≠ name := by
      intro same
      have := List.lookup_eq_none_iff.mp absent s member
      simp [same] at this
    rw [if_neg other, id_eq]
  simp only [linking, Storage.modifySnapshot, List.map_cons, if_true, others]

theorem linkingActive (st : Storage) (name : String) (saved : SavedSnapshot) (n : Nat) :
    (linking st name saved).runAt .active n = st.runAt .active n := rfl

theorem linkFinal {st : Storage} {name : String} (absent : st.snapshots.lookup name = none)
    {done : RunFiles} {h : SsTableHandle} (place : h.dir = .active) (fresh : h.runNumber ∉ done.map Prod.fst)
    (positive : 0 < st.refcounts h.refcount) :
    Script.final (linkOps name h) (linking st name ⟨done, none⟩) =
      linking st name ⟨done ++ [linked st h], none⟩ := by
  have kept : done.map (fun f => if f.1 = h.runNumber then (h.runNumber, st.runAt .active h.runNumber)
      else f) = done := by
    refine (List.map_congr_left (fun f member => ?_)).trans (List.map_id _)
    have other : f.1 ≠ h.runNumber := fun same => fresh (same ▸ List.mem_map_of_mem member)
    rw [if_neg other, id_eq]
  simp only [linkOps, Script.final, List.foldl_cons, List.foldl_nil, still, id_eq,
    modifyLinking absent, linkingActive, place, List.map_append, List.map_singleton, kept, if_true]
  have counted : ∀ saved, ((linking st name saved).cloneHandle h).dropHandle { h with dir := .snapshot name } =
      linking st name saved := by
    intro saved
    have shared : 0 < (linking st name saved).refcounts h.refcount := positive
    exact restoreCount shared (.snapshot name)
  rw [counted, linked, place]

theorem linksFinal {st : Storage} {name : String} (absent : st.snapshots.lookup name = none)
    {hs : List SsTableHandle} {done : RunFiles} (active : ∀ h ∈ hs, h.dir = .active)
    (once : (done.map Prod.fst ++ hs.map SsTableHandle.runNumber).Nodup)
    (positive : ∀ h ∈ hs, 0 < st.refcounts h.refcount) :
    Script.final (hs.flatMap (linkOps name)) (linking st name ⟨done, none⟩) =
      linking st name ⟨done ++ hs.map (linked st), none⟩ := by
  induction hs generalizing done with
  | nil => simp [Script.final]
  | cons h rest ih =>
    have fresh : h.runNumber ∉ done.map Prod.fst := fun member =>
      (List.nodup_append.mp once).2.2 _ member _ List.mem_cons_self rfl
    rw [List.flatMap_cons, finalAppend, linkFinal absent (active h List.mem_cons_self) fresh
      (positive h List.mem_cons_self), ih (fun x member => active x (List.mem_cons_of_mem h member)) ?_
        (fun x member => positive x (List.mem_cons_of_mem h member)), List.append_assoc]
    · rfl
    · simpa [linked] using once

theorem createOk {faults : Nat → Bool} {name label : String} {hs : List SsTableHandle} {seq : Nat}
    {config : LsmConfig} {st st' : Storage} (active : ∀ h ∈ hs, h.dir = .active) (distinct : Distinct hs)
    (positive : ∀ h ∈ hs, 0 < st.refcounts h.refcount)
    (ok : create faults name label hs seq config st = (.ok (), st')) :
    st' = linking st name ⟨hs.map (linked st), some ⟨1, label, config, hs.map describe, seq⟩⟩ := by
  unfold create at ok
  split at ok
  · cases ok
  · rename_i new
    have absent : st.snapshots.lookup name = none := Option.not_isSome_iff_eq_none.mp new
    split at ok
    · cases ok
    · rename_i st₁ done
      cases ok
      rw [runDone done, createOps, List.cons_append, ← List.singleton_append, finalAppend, finalAppend]
      have first : Script.final [⟨FileOp.createDirAll, fun _ => true,
          fun st => { st with snapshots := (name, ⟨[], none⟩) :: st.snapshots }⟩] st =
            linking st name ⟨[], none⟩ := rfl
      rw [first, linksFinal absent active (by rw [List.map_nil, List.nil_append]; exact distinct) positive, List.nil_append]
      simp only [metadataOps, finalAppend, finalStill]
      simp only [Script.final, List.foldl_cons, List.foldl_nil, modifyLinking absent]

theorem linkDone {faults : Nat → Bool} {i : Nat} {st st' : Storage} {name : String}
    (absent : st.snapshots.lookup name = none) {done : RunFiles} {h : SsTableHandle} (place : h.dir = .active)
    (positive : 0 < st.refcounts h.refcount)
    (ran : Script.run faults i (linkOps name h) (linking st name ⟨done, none⟩) = (none, st')) :
    h.runNumber ∉ done.map Prod.fst ∧ (st.runAt .active h.runNumber).isSome ∧
      st' = linking st name ⟨done ++ [linked st h], none⟩ := by
  have fresh : h.runNumber ∉ done.map Prod.fst := by
    obtain ⟨-, second⟩ := runDoneCons ran
    have target := (Bool.and_eq_true_iff.mp (runDoneCons second).1).2
    have files : (linking st name ⟨done, none⟩).files (.snapshot name) = done := by
      simp only [Storage.files, linking, Assoc.lookupCons, if_true, Option.map_some, Option.getD_some]
    rw [← lookupUnlisted, ← files]
    exact Option.isNone_iff_eq_none.mp target
  have stored : (st.runAt .active h.runNumber).isSome := by
    obtain ⟨-, ran⟩ := runDoneCons ran
    obtain ⟨-, ran⟩ := runDoneCons ran
    obtain ⟨-, ran⟩ := runDoneCons ran
    obtain ⟨-, ran⟩ := runDoneCons ran
    obtain ⟨-, ran⟩ := runDoneCons ran
    have checksums := (runDoneCons ran).1
    simp only [still, id_eq, modifyLinking absent, place, linkingActive] at checksums
    exact checksums
  exact ⟨fresh, stored, (runDone ran).trans (linkFinal absent place fresh positive)⟩

theorem linksDone {faults : Nat → Bool} {i : Nat} {st st' : Storage} {name : String}
    (absent : st.snapshots.lookup name = none) {hs : List SsTableHandle} {done : RunFiles}
    (active : ∀ h ∈ hs, h.dir = .active) (once : (done.map Prod.fst).Nodup)
    (positive : ∀ h ∈ hs, 0 < st.refcounts h.refcount)
    (ran : Script.run faults i (hs.flatMap (linkOps name)) (linking st name ⟨done, none⟩) = (none, st')) :
    (done.map Prod.fst ++ hs.map SsTableHandle.runNumber).Nodup ∧
      ∀ h ∈ hs, (st.runAt .active h.runNumber).isSome := by
  induction hs generalizing i done with
  | nil => exact ⟨by simpa using once, fun h member => absurd member List.not_mem_nil⟩
  | cons h rest ih =>
    obtain ⟨middle, first, later⟩ := runSplit ran
    obtain ⟨fresh, stored, rfl⟩ := linkDone absent (active h List.mem_cons_self) (positive h List.mem_cons_self) first
    have more : ((done ++ [linked st h]).map Prod.fst).Nodup := by
      rw [List.map_append, List.map_singleton]
      refine List.nodup_append.mpr ⟨once, List.nodup_singleton _, fun a inA b inB same => fresh ?_⟩
      have number : a = h.runNumber := same.trans (List.mem_singleton.mp inB)
      exact number ▸ inA
    obtain ⟨distinct, complete⟩ := ih (fun x member => active x (List.mem_cons_of_mem h member)) more
      (fun x member => positive x (List.mem_cons_of_mem h member)) later
    refine ⟨by simpa [linked] using distinct, fun x member => ?_⟩
    rcases List.mem_cons.mp member with rfl | member
    · exact stored
    · exact complete x member

theorem createComplete {faults : Nat → Bool} {name label : String} {hs : List SsTableHandle} {seq : Nat}
    {config : LsmConfig} {st st' : Storage} (active : ∀ h ∈ hs, h.dir = .active)
    (positive : ∀ h ∈ hs, 0 < st.refcounts h.refcount)
    (ok : create faults name label hs seq config st = (.ok (), st')) :
    Distinct hs ∧ ∀ h ∈ hs, (st.runAt .active h.runNumber).isSome := by
  unfold create at ok
  split at ok
  · cases ok
  · rename_i new
    have absent : st.snapshots.lookup name = none := Option.not_isSome_iff_eq_none.mp new
    split at ok
    · cases ok
    · rename_i st₁ done
      obtain ⟨-, rest⟩ := runDoneCons done
      obtain ⟨middle, links, -⟩ := runSplit rest
      exact linksDone absent active (show (([] : RunFiles).map Prod.fst).Nodup from List.nodup_nil) positive links

end PersistentSnapshot

namespace LsmTree

theorem linkRunsListed (name : String) {runs : List SnapshotRun} (st : Storage) (content : SnapshotRun → Option Run)
    (once : (st.active.map Prod.fst ++ runs.map SnapshotRun.runNumber).Nodup)
    (stored : ∀ run ∈ runs, (st.files (.snapshot name)).lookup run.runNumber = some (content run)) :
    linkRuns name runs st = (.ok (), { st with
      active := st.active ++ runs.map (fun run => (run.runNumber, content run)) }) := by
  induction runs generalizing st with
  | nil => simp [linkRuns]
  | cons run rest ih =>
    have listed := stored run List.mem_cons_self
    have free : st.active.lookup run.runNumber = none :=
      lookupUnlisted.mpr (fun member => (List.nodup_append.mp once).2.2 _ member _ List.mem_cons_self rfl)
    have next := ih { st with active := st.active ++ [(run.runNumber, content run)] } (by simpa using once)
      (fun x member => stored x (List.mem_cons_of_mem run member))
    unfold linkRuns
    simp only [listed, free, Option.isSome_none, Bool.false_eq_true, if_false, next, List.map_cons,
      List.append_assoc, List.singleton_append]

theorem linkRunsEnds (name : String) {runs : List SnapshotRun} (st : Storage)
    (once : (st.active.map Prod.fst ++ runs.map SnapshotRun.runNumber).Nodup)
    (stored : ∀ run ∈ runs, (st.runAt (.snapshot name) run.runNumber).isSome) :
    linkRuns name runs st = (.ok (), { st with
      active := st.active ++ runs.map (fun run => (run.runNumber, st.runAt (.snapshot name) run.runNumber)) }) := by
  refine linkRunsListed name st (fun run => st.runAt (.snapshot name) run.runNumber) once (fun run member => ?_)
  obtain ⟨content, found⟩ := Option.isSome_iff_exists.mp (stored run member)
  rw [found]
  exact Option.join_eq_some_iff.mp found

theorem openRunsEnds (name : String) {runs : List SnapshotRun} (opened : List SsTableHandle) (st : Storage)
    (stored : ∀ run ∈ runs, (st.runAt .active run.runNumber).isSome) :
    ∃ more st', openRuns name runs opened st = (.ok (opened ++ more), st') ∧ st'.active = st.active ∧
      List.Forall₂ (fun (run : SnapshotRun) h => h.dir = .active ∧
        h.found = ⟨run.runNumber, run.level, st.runAt .active run.runNumber⟩) runs more := by
  induction runs generalizing opened st with
  | nil => exact ⟨[], st, by rw [openRuns, List.append_nil], rfl, .nil⟩
  | cons run rest ih =>
    obtain ⟨content, found⟩ := Option.isSome_iff_exists.mp (stored run List.mem_cons_self)
    obtain ⟨h, st₁, first⟩ : ∃ h st₁, SsTableHandle.open st run.runNumber = (.ok h, st₁) := by
      unfold SsTableHandle.open
      rw [found]
      exact ⟨_, _, rfl⟩
    obtain ⟨dir, number, -, -, held, left⟩ := Owns.openOk first
    have kept : st₁.runAt .active = st.runAt .active := by
      rw [left]
      rfl
    obtain ⟨more, st', all, active, pairs⟩ := ih (opened ++ [{ h with level := run.level }]) st₁
      (fun x member => kept ▸ stored x (List.mem_cons_of_mem run member))
    rw [kept] at pairs
    refine ⟨{ h with level := run.level } :: more, st', ?_, active.trans (left ▸ rfl), .cons ⟨dir, ?_⟩ pairs⟩
    · rw [openRuns, first]
      simpa only [List.append_assoc, List.singleton_append] using all
    · simp only [SsTableHandle.found, number, Storage.runAt, Storage.files, held, Option.join_some]

theorem dropElsewhere {st : Storage} {h : SsTableHandle} {n : Nat} (other : n ≠ h.runNumber) :
    (st.dropHandle h).active.lookup n = st.active.lookup n := by
  unfold Storage.dropHandle
  dsimp only
  split
  · cases h.dir with
    | active => simp only [Storage.removeFiles, Assoc.lookupFilter, if_neg other]
    | snapshot name => rfl
  · rfl

theorem dropAllElsewhere {hs : List SsTableHandle} {st : Storage} {n : Nat}
    (others : ∀ h ∈ hs, n ≠ h.runNumber) :
    (hs.foldl Storage.dropHandle st).active.lookup n = st.active.lookup n := by
  induction hs generalizing st with
  | nil => rfl
  | cons h rest ih =>
    rw [List.foldl_cons, ih (fun x member => others x (List.mem_cons_of_mem h member)),
      dropElsewhere (others h List.mem_cons_self)]

theorem dropSnapshots {st : Storage} {hs : List SsTableHandle} (active : ∀ h ∈ hs, h.dir = .active) :
    (hs.foldl Storage.dropHandle st).snapshots = st.snapshots := by
  induction hs generalizing st with
  | nil => rfl
  | cons h rest ih =>
    rw [List.foldl_cons, ih (fun x member => active x (List.mem_cons_of_mem h member))]
    unfold Storage.dropHandle
    dsimp only
    rw [active h List.mem_cons_self]
    split <;> rfl

end LsmTree

theorem closeSnapshots {s : State} (sound : Sound s) :
    (s.tree.close s.storage).snapshots = s.storage.snapshots :=
  LsmTree.dropSnapshots (fun h member => sound.ledger.owns.inActive h
    (Multiset.mem_add.mpr (Or.inl (State.Moves.levelsSettled s h member))))

def byLevelField (runs : List SsTableHandle) : List SsTableHandle :=
  rangeOrder ((List.range 7).map (fun level => runs.filter (fun h => h.level == level)))

namespace FoundRun

def entries (f : FoundRun) : Entries := f.content.elim ∅ Run.entries

def byNumber (found : List FoundRun) : List FoundRun :=
  (found.insertionSort (fun a b => a.number ≤ b.number)).reverse

end FoundRun

theorem layersOfFound (runs : List SsTableHandle) :
    layersOf runs = (runs.map SsTableHandle.found).map FoundRun.entries := by
  rw [List.map_map]
  rfl

theorem byNumberFound (runs : List SsTableHandle) :
    (byNumber runs).map SsTableHandle.found = FoundRun.byNumber (runs.map SsTableHandle.found) := by
  rw [byNumber, List.map_reverse]
  exact congrArg List.reverse (List.map_insertionSort (fun a b : SsTableHandle => a.runNumber ≤ b.runNumber)
    (fun a b : FoundRun => a.number ≤ b.number) SsTableHandle.found runs (fun _ _ _ _ => Iff.rfl))

theorem assembleOrder {sstables : List SsTableHandle} (distinct : Distinct sstables) :
    rangeOrder (assemble 6 sstables) = byLevelField sstables := by
  unfold byLevelField assemble rangeOrder
  rw [List.flatMap_map, List.flatMap_map]
  refine List.flatMap_congr (fun level _ => congrArg List.reverse ?_)
  have some : Distinct (sstables.filter (fun h => h.level == level)) := distinct.sublist List.filter_sublist
  exact sortUnique (sortAscending some) ((sortPerm _).trans (List.perm_insertionSort _ _).symm)

theorem byLevelFieldFound (runs : List SsTableHandle) : (byLevelField runs).map SsTableHandle.found =
    (List.range 7).flatMap (fun level => FoundRun.byNumber
      ((runs.map SsTableHandle.found).filter (fun f => f.level == level))) := by
  unfold byLevelField rangeOrder
  rw [List.flatMap_map, List.map_flatMap]
  refine List.flatMap_congr (fun level _ => (byNumberFound _).trans ?_)
  rw [List.filter_map]
  rfl

theorem openSaved {name label : String} {config : LsmConfig} {seq : Nat} {hs : List SsTableHandle}
    {st : Storage} (distinct : Distinct hs) (saved : st.snapshots.lookup name =
      some ⟨hs.map (fun h => (h.runNumber, some h.run)), some ⟨1, label, config, hs.map PersistentSnapshot.describe, seq⟩⟩) :
    ∃ t' st', LsmTree.openSnapshot name st = (.ok t', st') ∧ Readable st' t'.levels.flatten ∧
      t'.layers = ∅ :: layersOf (byLevelField hs) := by
  have numbers : (hs.map PersistentSnapshot.describe).map SnapshotRun.runNumber =
      hs.map SsTableHandle.runNumber := by
    rw [List.map_map]
    rfl
  have files : st.files (.snapshot name) = hs.map (fun h => (h.runNumber, some h.run)) := by
    simp only [Storage.files, saved, Option.map_some, Option.getD_some]
  have once : ((hs.map (fun h => (h.runNumber, some h.run))).map Prod.fst).Nodup := by
    rw [List.map_map]
    exact distinct
  have content : ∀ h ∈ hs, st.runAt (.snapshot name) h.runNumber = some h.run := by
    intro h member
    rw [Storage.runAt, files, Assoc.lookupOnce once (List.mem_map_of_mem member), Option.join_some]
  have linked := LsmTree.linkRunsEnds name { st with active := [] }
    (by
      rw [List.map_nil, List.nil_append, numbers]
      exact distinct)
    (fun run (member : run ∈ hs.map PersistentSnapshot.describe) => by
      obtain ⟨h, inside, rfl⟩ := List.mem_map.mp member
      exact Option.isSome_iff_exists.mpr ⟨h.run, content h inside⟩)
  have active : ([] : RunFiles) ++ (hs.map PersistentSnapshot.describe).map (fun run =>
      (run.runNumber, ({ st with active := [] } : Storage).runAt (.snapshot name) run.runNumber)) =
        hs.map (fun h => (h.runNumber, some h.run)) := by
    rw [List.nil_append, List.map_map]
    exact List.map_congr_left (fun h member => congrArg (Prod.mk h.runNumber) (content h member))
  rw [active] at linked
  have stored : ∀ h ∈ hs, ({ st with active := hs.map (fun h => (h.runNumber, some h.run)) } : Storage).runAt
      .active h.runNumber = some h.run := by
    intro h member
    rw [Storage.runAt, Storage.files, Assoc.lookupOnce once (List.mem_map_of_mem member), Option.join_some]
  obtain ⟨sstables, opened, ends, kept, pairs⟩ := LsmTree.openRunsEnds name []
    { st with active := hs.map (fun h => (h.runNumber, some h.run)) }
    (fun run (member : run ∈ hs.map PersistentSnapshot.describe) => by
      obtain ⟨h, inside, rfl⟩ := List.mem_map.mp member
      exact Option.isSome_iff_exists.mpr ⟨h.run, stored h inside⟩)
  have same : sstables.map SsTableHandle.found = hs.map SsTableHandle.found := by
    rw [Assoc.relatedMap (pairs.imp (fun run h pair => pair.2)), List.map_map]
    refine List.map_congr_left (fun h member => ?_)
    simp only [Function.comp_apply, PersistentSnapshot.describe, SsTableHandle.found]
    rw [stored h member]
  have apart : Distinct sstables := by
    have through : ∀ runs : List SsTableHandle, runs.map SsTableHandle.runNumber =
        (runs.map SsTableHandle.found).map FoundRun.number := fun runs => by rw [List.map_map]; rfl
    rw [Distinct, through, same, ← through]
    exact distinct
  refine ⟨LsmTree.start config seq (((hs.map PersistentSnapshot.describe).map SnapshotRun.runNumber).foldl max 0)
    sstables, (sstables.filter (fun h => decide (6 < h.level))).foldl Storage.dropHandle opened, ?_, ?_, ?_⟩
  · simp only [LsmTree.openSnapshot, PersistentSnapshot.load, saved, linked, ends, List.nil_append]
  · intro h member
    have inside : h ∈ sstables ∧ h.level ≤ 6 := by
      have := (assemblePerm 6 sstables).mem_iff.mp member
      simpa using this
    obtain ⟨run, _, dir, -⟩ := Assoc.relatedLeft pairs.flip inside.1
    obtain ⟨x, inHs, found⟩ := List.mem_map.mp (same ▸ List.mem_map_of_mem inside.1 :
      h.found ∈ hs.map SsTableHandle.found)
    have number : x.runNumber = h.runNumber := congrArg FoundRun.number found
    have content : x.run = h.run := Option.some.inj (congrArg FoundRun.content found)
    have others : ∀ y ∈ sstables.filter (fun h => decide (6 < h.level)), h.runNumber ≠ y.runNumber := by
      intro y deep clash
      obtain ⟨inY, deep⟩ := List.mem_filter.mp deep
      have := List.inj_on_of_nodup_map apart inside.1 inY clash
      subst this
      have := of_decide_eq_true deep
      omega
    have read := stored x inHs
    rw [number, content] at read
    simp only [Storage.readRun, dir, Storage.runAt, Storage.files, LsmTree.dropAllElsewhere others, kept]
    simp only [Storage.runAt, Storage.files] at read
    rw [read]
  · have sorted := assembleOrder apart
    simp only [LsmTree.layers, memLayers, LsmTree.start, MemTable.new, List.map_nil, List.reverse_nil,
      List.singleton_append, sorted, layersOfFound, byLevelFieldFound, same]

/-- The runs of the tree, each put in the level of its field, read as the tree's levels. -/
def LevelsKept (t : LsmTree) : Prop :=
  ∀ k, visible (layersOf (byLevelField t.levels.flatten)) k = visible (layersOf (rangeOrder t.levels)) k

def Foreground.swapped : Foreground → Bool
  | .flushing _ _ | .flushNumbered _ _ _ | .flushWritten _ _ | .backPressure _ | .saving _ _
  | .saveCloned _ _ _ _ => true
  | _ => false

def Emptied (s : State) : Prop := s.foreground.swapped = true → s.tree.memtable.data = ∅

theorem State.Moves.emptied {s t : State} {a : Action} (moved : State.Moves s a t) (emptied : Emptied s) :
    Emptied t := by
  intro swapped
  have before : s.foreground.swapped = true → s.tree.memtable.data = ∅ := emptied
  cases moved with
  | wroteFull a memtable isWrite idle data nonempty => rfl
  | saveFlush name label idle nonempty => rfl
  | saveNoFlush name label idle empty => rfl
  | flushNumber faults old after here => exact before (by rw [here]; rfl)
  | flushWrite faults old n after h st here done => exact before (by rw [here]; rfl)
  | flushPush faults h after f r here quiet ends => exact before (by rw [here]; rfl)
  | drained faults after f r here quiet ends => exact before (by rw [here]; rfl)
  | saveClone faults name label here => exact before (by rw [here]; rfl)
  | background t faults c c' here moved =>
    have frame := moved.frame
    simp only [frame.foreground, frame.memtable] at swapped ⊢
    exact before swapped
  | backgroundEnd t faults c r here moved =>
    have frame := moved.frame
    simp only [frame.foreground, frame.memtable] at swapped ⊢
    exact before swapped
  | snapshot idle => exact before swapped
  | cloneSnapshot i snap found => exact before swapped
  | dropSnapshot i snap found => exact before swapped
  | begin faults none => exact before swapped
  | collect i h found => exact before swapped
  | _ => cases swapped

def Saved (name : String) (hs : List SsTableHandle) (st : Storage) : Prop :=
  ∃ label config seq, st.snapshots.lookup name = some ⟨hs.map (fun h => (h.runNumber, some h.run)),
    some ⟨1, label, config, hs.map PersistentSnapshot.describe, seq⟩⟩

structure Saving (u : State) (name : String) (m : State) : Prop where
  view : ∀ k, m.view k = u.view k
  step : (∃ label seq, m.foreground = .saveCloned name label seq u.tree.levels.flatten) ∨
    (m.foreground = .idle ∧ (m.returned = some (.ok ()) → Saved name u.tree.levels.flatten m.storage))

theorem Saving.created {u m : State} {name label : String} {seq : Nat} {faults : Nat → Bool}
    {r : Except Error Unit} {st : Storage} (sound : Sound m) (distinct : Distinct u.tree.levels.flatten)
    (here : m.foreground = .saveCloned name label seq u.tree.levels.flatten)
    (created : PersistentSnapshot.create faults name label u.tree.levels.flatten seq m.tree.config m.storage =
      (r, st)) (ok : r = .ok ()) : Saved name u.tree.levels.flatten st := by
  subst ok
  have live : ∀ h ∈ u.tree.levels.flatten, h ∈ m.settled + ↑m.outputs := by
    intro h member
    simp only [State.settled, here, Foreground.clones, Multiset.mem_add, Multiset.mem_coe]
    exact Or.inl (Or.inl (Or.inr member))
  have own := sound.ledger.owns
  have left := PersistentSnapshot.createOk (fun h member => own.inActive h (live h member)) distinct
    (fun h member => own.counts.positive (live h member)) created
  refine ⟨label, m.tree.config, seq, ?_⟩
  rw [left, PersistentSnapshot.linking, Assoc.lookupCons, if_pos rfl]
  congr 2
  refine List.map_congr_left (fun h member => ?_)
  rw [PersistentSnapshot.linked, own.inActive h (live h member), own.counts.stored h (live h member)]

theorem Saving.next {u m t : State} {name : String} {a : Action} (sound : Sound m)
    (distinct : Distinct u.tree.levels.flatten) (saving : Saving u name m) (taken : m.step a = some t)
    (beside : Beside m a) : Saving u name t := by
  obtain ⟨view, step⟩ := saving
  rcases beside with ⟨faults, rfl⟩ | ⟨⟨faults, rfl⟩, kept⟩
  · rcases step with ⟨label, seq, here⟩ | ⟨idle, -⟩
    · simp only [State.step, State.stepForeground, here, Option.some.injEq] at taken
      subst taken
      refine ⟨fun k => ?_, Or.inr ⟨rfl, fun ok => ?_⟩⟩
      · rw [← view k]
        simp only [State.view, State.top, State.return_, State.discard, here, Foreground.inFlight]
      · exact Saving.created sound distinct here rfl (Option.some.inj ok)
    · simp [State.step, State.stepForeground, idle] at taken
  · refine ⟨fun k => (kept t taken k).trans (view k), ?_⟩
    have moved := State.stepMoves taken
    have snapshots := moved.effect.snapshots sound (fun _ _ _ _ _ same => by cases same)
    obtain ⟨foreground, returned⟩ : t.foreground = m.foreground ∧ t.returned = m.returned := by
      cases moved with
      | wrote a memtable isWrite idle data => cases isWrite
      | wroteFull a memtable isWrite idle data nonempty => cases isWrite
      | begin faults none => exact ⟨rfl, rfl⟩
      | background t faults c c' here moved => exact ⟨moved.frame.foreground, moved.returned⟩
      | backgroundEnd t faults c r here moved => exact ⟨moved.frame.foreground, moved.returned⟩
    rw [foreground, returned, Saved, snapshots]
    exact step

theorem openSnapshotRestores {s₀ u v t : State} {as bs : List Action} {name label : String}
    {faults : Nat → Bool} (starts : Starts s₀)
    (before : Trace.Run State.step (fun _ _ => True) s₀ as u) (here : u.foreground = .saving name label)
    (cloned : u.step (.foreground faults) = some v) (rest : Trace.Run State.step Beside v bs t)
    (ended : t.foreground = .idle) (ok : t.returned = some (.ok ())) {st : Storage}
    (same : st.snapshots = t.storage.snapshots) :
    ∃ t' st', LsmTree.openSnapshot name st = (.ok t', st') ∧
      ((∀ lo hi, t'.range st' lo hi = t.tree.range t.storage lo hi) ↔ LevelsKept u.tree) := by
  have sound := Sound.run before starts.sound
  have empty : u.tree.memtable.data = ∅ := by
    have emptied : Emptied u := before.invariant (fun _ _ _ taken _ => (State.stepMoves taken).emptied)
      (by cases starts <;> exact fun swapped => by cases swapped)
    exact emptied (by rw [here]; rfl)
  have distinct : Distinct u.tree.levels.flatten := sound.tree.distinct
  have first : Saving u name v := by
    simp only [State.step, State.stepForeground, here, Option.some.injEq] at cloned
    subst cloned
    refine ⟨fun k => ?_, Or.inl ⟨label, u.tree.sequenceNumber, rfl⟩⟩
    simp only [State.view, State.top, State.at_, State.cloneAll, here, Foreground.inFlight]
  obtain ⟨sound', view, step⟩ : Sound t ∧ Saving u name t :=
    rest.invariant (I := fun m => Sound m ∧ Saving u name m)
      (fun m a n taken beside holds => ⟨(State.stepMoves taken).sound holds.1,
        holds.2.next holds.1 distinct taken beside⟩) ⟨(State.stepMoves cloned).sound sound, first⟩
  obtain ⟨label', config, seq, saved⟩ : Saved name u.tree.levels.flatten t.storage := by
    rcases step with ⟨label', seq, busy⟩ | ⟨-, saved⟩
    · rw [ended] at busy
      cases busy
    · exact saved ok
  obtain ⟨t', st', opens, readable, layers⟩ := openSaved distinct (same ▸ saved)
  refine ⟨t', st', opens, ?_⟩
  have reopened : ∀ k, t'.view k = visible (layersOf (byLevelField u.tree.levels.flatten)) k := by
    intro k
    rw [LsmTree.view, layers, visibleCons, ExtTreeMap.getElem?_empty, Option.elim_none]
  have kept : ∀ k, t.tree.view k = visible (layersOf (rangeOrder u.tree.levels)) k := by
    intro k
    rw [← State.idleView sound' (by rw [ended]; rfl), view k, State.view, State.top, here]
    simp only [Foreground.inFlight, empty, List.singleton_append, visibleCons, ExtTreeMap.getElem?_empty,
      Option.elim_none]
  constructor
  · intro ranges k
    rw [← reopened k, ← kept k]
    exact LsmTree.viewOfRange readable sound'.treeReadable (ranges k k)
  · intro levels lo hi
    refine LsmTree.rangeSame readable sound'.treeReadable (fun k _ => ?_)
    rw [reopened k, kept k]
    exact levels k

def savesAs (name label : String) : Foreground → Bool
  | .saving n l => decide (n = name) && decide (l = label)
  | _ => false

theorem savingOf {name label : String} {f : Foreground} (saves : savesAs name label f = true) :
    f = .saving name label := by
  cases f with
  | saving n l =>
    simp only [savesAs, Bool.and_eq_true, decide_eq_true_eq] at saves
    rw [saves.1, saves.2]
  | _ => cases saves

theorem savedRun (config : LsmConfig) (script : List Action) (test : State → State → Bool)
    (ended : (Trace.execWhile State.step (fun _ _ => true) (.fresh config) script).any (fun u =>
      (u.step (.foreground noFaults)).any (fun v =>
        (Trace.execWhile State.step (fun _ _ => true) v (ownSteps 1)).any (fun t =>
          savesAs "a" "b" u.foreground && State.isIdle t.foreground &&
            decide (t.returned = some (.ok ())) && test u t))) = true) :
    ∃ u v t, Trace.Run State.step (fun _ _ => True) (.fresh config) script u ∧
      u.foreground = .saving "a" "b" ∧ u.step (.foreground noFaults) = some v ∧
        Trace.Run State.step Beside v (ownSteps 1) t ∧ t.foreground = .idle ∧
          t.returned = some (.ok ()) ∧ test u t = true := by
  obtain ⟨u, v, t, ran, cloned, rest, tested⟩ :=
    Trace.runThen (fun _ _ _ _ => trivial) (duringAllowed 1) ended
  simp only [Bool.and_eq_true, decide_eq_true_eq] at tested
  obtain ⟨⟨⟨saves, idle⟩, ok⟩, tested⟩ := tested
  exact ⟨u, v, t, ran, savingOf saves, cloned, rest, State.idleOfIsIdle idle, ok, tested⟩

theorem openSnapshotRestoresOne : ∃ u v t t' st',
    Trace.Run State.step (fun _ _ => True) (.fresh ⟨1, 1⟩)
      (.insert [1] [10] :: ownSteps 3 ++ [.saveSnapshot "a" "b"]) u ∧
      u.step (.foreground noFaults) = some v ∧ Trace.Run State.step Beside v (ownSteps 1) t ∧
        LsmTree.openSnapshot "a" (t.tree.close t.storage) = (.ok t', st') ∧
          ∀ lo hi, t'.range st' lo hi = t.tree.range t.storage lo hi := by
  obtain ⟨u, v, t, ran, here, cloned, rest, idle, ok, kept⟩ := savedRun ⟨1, 1⟩
    (.insert [1] [10] :: ownSteps 3 ++ [.saveSnapshot "a" "b"])
    (fun u _ => decide (byLevelField u.tree.levels.flatten = rangeOrder u.tree.levels))
    (by decide +kernel)
  have sound := Sound.run ran (Starts.fresh ⟨1, 1⟩).sound
  have sound' := Sound.run rest ((State.stepMoves cloned).sound sound)
  obtain ⟨t', st', opens, same⟩ := openSnapshotRestores (Starts.fresh ⟨1, 1⟩) ran here cloned rest idle ok
    (closeSnapshots sound')
  refine ⟨u, v, t, t', st', ran, cloned, rest, opens, same.mpr (fun k => ?_)⟩
  rw [of_decide_eq_true kept]

def staleFieldScript : List Action :=
  .insert [1] [10] :: ownSteps 3 ++ .compactAll :: ownSteps 3 ++ .insert [1] [20] :: ownSteps 3 ++
    .compact :: ownSteps 4 ++ [.saveSnapshot "a" "b"]

theorem openSnapshotOlder : ∃ u v t t' st',
    Trace.Run State.step (fun _ _ => True) (.fresh ⟨1, 1⟩) staleFieldScript u ∧
      u.foreground = .saving "a" "b" ∧ u.step (.foreground noFaults) = some v ∧
        Trace.Run State.step Beside v (ownSteps 1) t ∧ t.foreground = .idle ∧ t.returned = some (.ok ()) ∧
          t.tree.range t.storage [1] [1] = [([1], [20])] ∧
            LsmTree.openSnapshot "a" (t.tree.close t.storage) = (.ok t', st') ∧
              t'.range st' [1] [1] = [([1], [10])] := by
  obtain ⟨u, v, t, ran, here, cloned, rest, idle, ok, tested⟩ := savedRun ⟨1, 1⟩ staleFieldScript
    (fun _ t => decide (t.tree.range t.storage [1] [1] = [([1], [20])]) &&
      match LsmTree.openSnapshot "a" (t.tree.close t.storage) with
      | (.ok t', st') => decide (t'.range st' [1] [1] = [([1], [10])])
      | (.error _, _) => false)
    (by decide +kernel)
  obtain ⟨now, reopened⟩ := Bool.and_eq_true_iff.mp tested
  split at reopened
  · rename_i t' st' opens
    exact ⟨u, v, t, t', st', ran, here, cloned, rest, idle, ok, of_decide_eq_true now, opens,
      of_decide_eq_true reopened⟩
  · cases reopened

end CardanoLsm
