import CardanoLsm.LevelShape

/-! How the shape of the level vectors starts in each session: from the runs listed in the directory, or from
the levels that a snapshot saved by an earlier session records. -/
namespace CardanoLsm
open Std Layered Script

def Storage.SavedLone (st : Storage) : Prop :=
  ∀ saved ∈ st.snapshots, ∀ metadata, saved.2.metadata = some metadata → Lone 6 (metadata.runs.map SnapshotRun.level)

namespace Storage.SavedLone
variable {st st' : Storage}

theorem fewer (lone : st.SavedLone) (inside : ∀ saved ∈ st'.snapshots, saved ∈ st.snapshots) : st'.SavedLone :=
  fun saved member => lone saved (inside saved member)

theorem same (lone : st.SavedLone) (snapshots : st'.snapshots = st.snapshots) : st'.SavedLone :=
  lone.fewer (fun _ member => snapshots ▸ member)

theorem modifySnapshot (lone : st.SavedLone) (name : String) {f : SavedSnapshot → SavedSnapshot}
    (kept : ∀ saved metadata, (f saved).metadata = some metadata →
      saved.metadata = some metadata ∨ Lone 6 (metadata.runs.map SnapshotRun.level)) :
    (st.modifySnapshot name f).SavedLone := by
  intro saved member metadata here
  obtain ⟨before, inside, rfl⟩ := List.mem_map.mp member
  split at here
  · rcases kept before.2 metadata here with old | new
    · exact lone before inside metadata old
    · exact new
  · exact lone before inside metadata here

theorem dropHandle (lone : st.SavedLone) (h : SsTableHandle) : (st.dropHandle h).SavedLone := by
  have counted : Storage.SavedLone { st with
      refcounts := Function.update st.refcounts h.refcount (st.refcounts h.refcount - 1) } := lone.same rfl
  unfold Storage.dropHandle
  dsimp only
  split
  · cases h.dir with
    | active => exact lone.same rfl
    | snapshot name => exact counted.modifySnapshot name (fun _ _ here => Or.inl here)
  · exact counted

end Storage.SavedLone

theorem PersistentSnapshot.createLone (faults : Nat → Bool) (name label : String) {sstables : List SsTableHandle}
    (seq : Nat) (config : LsmConfig) {st : Storage} (lone : st.SavedLone)
    (last : Lone 6 (sstables.map SsTableHandle.level)) :
    (create faults name label sstables seq config st).2.SavedLone := by
  have described : (sstables.map describe).map SnapshotRun.level = sstables.map SsTableHandle.level := by
    rw [List.map_map]
    rfl
  have kept : (Script.run faults 0 (createOps name label sstables seq config) st).2.SavedLone := by
    refine Script.runKeeps (P := Storage.SavedLone) (fun op member s _ lone => ?_) lone
    simp only [createOps, metadataOps, List.cons_append, List.mem_cons, List.mem_append, List.mem_map,
      List.not_mem_nil, or_false, List.mem_flatMap] at member
    rcases member with rfl | (⟨h, inside, link⟩ | ((⟨name, _, rfl⟩ | rfl) | ⟨name, _, rfl⟩))
    · intro saved member
      rcases List.mem_cons.mp member with rfl | old
      · intro metadata here
        cases here
      · exact lone saved old
    · simp only [linkOps, List.mem_cons, List.not_mem_nil, or_false] at link
      rcases link with rfl | rfl | rfl | rfl | rfl | rfl | rfl | rfl
      · exact lone
      · exact lone.modifySnapshot name (fun _ _ here => Or.inl here)
      · exact lone
      · exact lone
      · exact lone
      · exact lone.modifySnapshot name (fun _ _ here => Or.inl here)
      · exact lone
      · have cloned : (s.cloneHandle h).SavedLone := lone.same rfl
        exact cloned.dropHandle _
    · exact lone
    · refine lone.modifySnapshot name (fun saved metadata here => Or.inr ?_)
      cases Option.some.inj here
      rwa [described]
    · exact lone
  unfold create
  split
  · exact lone
  · split <;> rename_i ran <;> rwa [ran] at kept

theorem Effect.lone {s : State} {a : Action} {st : Storage} (effect : Effect s a st) (depth : s.tree.maxLevel = 6)
    (labelled : s.Labelled) (lone : s.storage.SavedLone) : st.SavedLone := by
  cases effect with
  | clone a hs => exact lone.same (Ledger.cloneActive hs s.storage).2
  | write a faults i n entries level mine => exact lone.same (SsTableWriter.writeSnapshots faults i n entries level _)
  | drop i h found => exact lone.dropHandle h
  | create faults name label seq all here =>
    have last := labelled.foreground
    rw [here, depth] at last
    exact PersistentSnapshot.createLone faults name label seq s.tree.config lone last

theorem assembleLevel (maxLevel : Nat) (sstables : List SsTableHandle) (i : Nat) :
    (assemble maxLevel sstables).getD i [] =
      if i ≤ maxLevel then sortByMinKey (sstables.filter (fun h => h.level == i)) else [] := by
  by_cases inside : i < maxLevel + 1
  · rw [if_pos (Nat.lt_succ_iff.mp inside), assemble, List.getD_eq_getElem _ _ (by simpa using inside),
      List.getElem_map, List.getElem_range]
  · rw [if_neg (by omega), assemble, List.getD_eq_default _ _ (by simpa using Nat.le_of_not_lt inside)]

theorem assembleLevelled {maxLevel : Nat} {sstables : List SsTableHandle}
    (lone : Lone maxLevel (sstables.map SsTableHandle.level)) : Levelled maxLevel (assemble maxLevel sstables) := by
  refine ⟨?_, fun i h member => ?_⟩
  · rw [assembleLevel, if_pos (Nat.le_refl maxLevel)]
    have counted : (sstables.filter (fun h => h.level == maxLevel)).length =
        (sstables.map SsTableHandle.level).count maxLevel := by
      rw [List.count, List.countP_map, List.countP_eq_length_filter]
      rfl
    exact ((List.perm_insertionSort _ _).length_eq.trans counted).trans_le lone
  · rw [assembleLevel] at member
    split at member
    · have inside := (List.perm_insertionSort _ _).mem_iff.mp member
      exact Nat.le_of_eq (beq_iff_eq.mp (List.mem_filter.mp inside).2)
    · cases member

theorem emptyLevelled (maxLevel : Nat) (levels : Levels) : Levelled maxLevel (levels.map (fun _ => [])) := by
  have none : ∀ i, (levels.map (fun _ => ([] : List SsTableHandle))).getD i [] = [] := by
    intro i
    rw [List.getD_eq_getElem?_getD, List.getElem?_map]
    cases levels[i]? <;> rfl
  refine ⟨?_, fun i h member => ?_⟩
  · rw [none]
    exact Nat.zero_le 1
  · rw [none] at member
    cases member

namespace LsmTree

theorem openListedNumbers (numbers : List Nat) (acc : List SsTableHandle) (st : Storage) :
    ∃ more, (numbers.foldl openNext (acc, st)).1 = acc ++ more ∧
      (more.map SsTableHandle.runNumber).Sublist numbers ∧ (∀ h ∈ more, st.nextRefcount ≤ h.refcount) ∧
        st.nextRefcount ≤ (numbers.foldl openNext (acc, st)).2.nextRefcount := by
  induction numbers generalizing acc st with
  | nil => exact ⟨[], (List.append_nil acc).symm, .slnil, fun _ member => absurd member List.not_mem_nil, Nat.le_refl _⟩
  | cons n numbers ih =>
    rw [List.foldl_cons, openNext]
    split
    · rename_i h st' ok
      obtain ⟨-, number, -, counter, -, left⟩ := Owns.openOk ok
      have later : st'.nextRefcount = st.nextRefcount + 1 := by rw [left]
      obtain ⟨more, all, listed, new, grown⟩ := ih (acc ++ [h]) st'
      have before : st.nextRefcount ≤ st'.nextRefcount := by omega
      refine ⟨h :: more, all.trans (List.append_assoc _ _ _), ?_, fun x member => ?_, before.trans grown⟩
      · rw [List.map_cons, number]
        exact listed.cons_cons n
      · rcases List.mem_cons.mp member with rfl | rest
        · exact Nat.le_of_eq counter.symm
        · have := new x rest
          omega
    · rename_i e st' failed
      rw [openError failed]
      obtain ⟨more, all, listed, new, grown⟩ := ih acc st
      exact ⟨more, all, listed.cons n, new, grown⟩

theorem openRunsCounters {name : String} {runs : List SnapshotRun} {opened hs : List SsTableHandle} {st st' : Storage}
    (ok : openRuns name runs opened st = (.ok hs, st')) : st.nextRefcount ≤ st'.nextRefcount ∧
      ∃ more, hs = opened ++ more ∧ ∀ h ∈ more, st.nextRefcount ≤ h.refcount := by
  induction runs generalizing opened st with
  | nil =>
    cases ok
    exact ⟨Nat.le_refl _, [], (List.append_nil _).symm, fun _ member => absurd member List.not_mem_nil⟩
  | cons run rest ih =>
    unfold openRuns at ok
    split at ok
    · rename_i h st₁ first
      obtain ⟨-, -, -, counter, -, left⟩ := Owns.openOk first
      have later : st₁.nextRefcount = st.nextRefcount + 1 := by rw [left]
      obtain ⟨grown, more, all, new⟩ := ih ok
      refine ⟨by omega, _, all.trans (List.append_assoc _ _ _), fun x member => ?_⟩
      rcases List.mem_cons.mp member with rfl | inRest
      · exact Nat.le_of_eq counter.symm
      · have := new x inRest
        omega
    · cases ok

theorem dropCounter (hs : List SsTableHandle) (st : Storage) :
    (hs.foldl Storage.dropHandle st).nextRefcount = st.nextRefcount := by
  induction hs generalizing st with
  | nil => rfl
  | cons h rest ih => exact (ih _).trans (Tallied.dropCounters st h).2

theorem linkRunsOnce {name : String} {runs : List SnapshotRun} {st : Storage} (once : st.Once) :
    (linkRuns name runs st).2.Once := by
  induction runs generalizing st with
  | nil => exact once
  | cons run rest ih =>
    unfold linkRuns
    split
    · exact once
    · split
      · exact once
      · rename_i free
        refine ih ?_
        have absent : run.runNumber ∉ st.active.map Prod.fst := by
          rw [← lookupUnlisted]
          exact Option.not_isSome_iff_eq_none.mp free
        rw [Storage.Once, List.map_append]
        refine List.nodup_append.mpr ⟨once, List.nodup_singleton _, fun a inA b inB same => absent ?_⟩
        obtain rfl : a = run.runNumber := same.trans (List.mem_singleton.mp inB)
        exact inA

theorem openRunsOnce {name : String} {runs : List SnapshotRun} {opened : List SsTableHandle} {st : Storage}
    (once : st.Once) : (openRuns name runs opened st).2.Once := by
  induction runs generalizing opened st with
  | nil => exact once
  | cons run rest ih =>
    unfold openRuns
    split
    · rename_i h st₁ first
      obtain ⟨-, -, -, -, -, left⟩ := Owns.openOk first
      refine ih ?_
      rw [left]
      exact once
    · rename_i e st₁ failed
      rw [openError failed]
      exact once.dropAll

theorem openSnapshotOnce (name : String) {st : Storage} (once : st.Once) : (openSnapshot name st).2.Once := by
  unfold openSnapshot
  split
  · exact once
  · rename_i metadata loaded
    have linked : (linkRuns name metadata.runs { st with active := [] }).2.Once := linkRunsOnce List.nodup_nil
    split
    · rename_i e st₁ failed
      rwa [failed] at linked
    · rename_i st₁ ok
      rw [ok] at linked
      have runs : (openRuns name metadata.runs [] st₁).2.Once := openRunsOnce linked
      split
      · rename_i e st₂ failed
        rwa [failed] at runs
      · rename_i sstables st₂ opened
        rw [opened] at runs
        exact runs.dropAll

structure Opened (st : Storage) (maxRunNumber : Nat) (sstables : List SsTableHandle) (st' : Storage) : Prop where
  new : ∀ h ∈ sstables, st.nextRefcount ≤ h.refcount
  distinct : Distinct sstables
  below : ∀ h ∈ sstables, h.runNumber ≤ maxRunNumber
  later : st.nextRefcount ≤ st'.nextRefcount

theorem openedListed {st : Storage} (once : st.Once) : Opened st ((st.active.map Prod.fst).foldl max 0)
    (openListed (st.active.map Prod.fst) st).1 (openListed (st.active.map Prod.fst) st).2 := by
  obtain ⟨more, all, listed, new, later⟩ := openListedNumbers (st.active.map Prod.fst) [] st
  have all : (openListed (st.active.map Prod.fst) st).1 = more := all
  rw [all]
  exact ⟨new, once.sublist listed, fun h member =>
    leFoldlMax _ _ (listed.subset (List.mem_map.mpr ⟨h, member, rfl⟩)), later⟩

theorem openedSnapshot {name : String} {st st' : Storage} {t : LsmTree} (ok : openSnapshot name st = (.ok t, st')) :
    ∃ metadata sstables, PersistentSnapshot.load st name = .ok metadata ∧
      sstables.map SsTableHandle.level = metadata.runs.map SnapshotRun.level ∧
      t = start metadata.config metadata.sequenceNumber ((metadata.runs.map SnapshotRun.runNumber).foldl max 0) sstables ∧
      Opened st ((metadata.runs.map SnapshotRun.runNumber).foldl max 0) sstables st' := by
  obtain ⟨metadata, linked, sstables, opened, loaded, link, runs, rfl, rfl⟩ := Starts.openSnapshotSteps ok
  obtain ⟨once, -, -⟩ := Starts.linkedRuns link
  have aside := linkRunsAside name metadata.runs { st with active := [] }
  rw [link] at aside
  have counter : linked.nextRefcount = st.nextRefcount := aside.2.1
  obtain ⟨later, more, all, new⟩ := openRunsCounters runs
  obtain ⟨-, more', all', pairs⟩ := openRunsPairs runs
  rw [List.nil_append] at all all'
  subst all
  subst all'
  have numbers : sstables.map SsTableHandle.runNumber = metadata.runs.map SnapshotRun.runNumber :=
    Assoc.relatedMap (pairs.imp (fun _ _ pair => pair.2.1))
  refine ⟨metadata, sstables, loaded, Assoc.relatedMap (pairs.imp (fun _ _ pair => pair.2.2.1)), rfl,
    fun h member => counter ▸ new h member, ?_, fun h member => ?_, ?_⟩
  · rw [Distinct, numbers]
    exact once
  · rw [← numbers]
    exact leFoldlMax _ _ (List.mem_map.mpr ⟨h, member, rfl⟩)
  · rw [dropCounter, ← counter]
    exact later

end LsmTree

theorem PersistentSnapshot.loadLone {st : Storage} (lone : st.SavedLone) {name : String} {metadata : SnapshotMetadata}
    (loaded : load st name = .ok metadata) : Lone 6 (metadata.runs.map SnapshotRun.level) := by
  unfold load at loaded
  split at loaded
  · cases loaded
  · rename_i saved found
    split at loaded
    · cases loaded
    · rename_i there
      cases loaded
      obtain ⟨above, below, listed, -⟩ := List.lookup_eq_some_iff.mp found
      exact lone (name, saved) (by rw [listed]; simp) metadata there

theorem State.Labelled.opens {s : State} (labelled : s.Labelled) (depth : s.tree.maxLevel = 6) {config : LsmConfig}
    {seq maxRunNumber : Nat} {sstables : List SsTableHandle} (lone : Lone 6 (sstables.map SsTableHandle.level))
    (st : Storage) (r : Option (Except Error Unit)) :
    State.Labelled { s with
      tree := LsmTree.start config seq maxRunNumber sstables, storage := st, returned := r } := by
  have held := labelled.held
  have foreground := labelled.foreground
  rw [depth] at held foreground
  exact ⟨assembleLevelled lone, held, foreground, labelled.background⟩

namespace Sessions
variable {w w' : Sessions}

structure Fit (w : Sessions) : Prop where
  booked : Booked w
  once : w.session.storage.Once
  labelled : w.session.Labelled
  lone : w.session.storage.SavedLone

theorem Fit.own (fit : Fit w) {a : Action} {s : State} (taken : w.session.step a = some s)
    (allowed : w.isOpen = false → a.outlives = true) : Fit { w with session := s } := by
  have moved := State.stepMoves taken
  exact ⟨fit.booked.own taken allowed, moved.effect.once fit.once, moved.labelled fit.booked.arranged fit.labelled,
    moved.effect.lone fit.booked.depth fit.labelled fit.lone⟩

theorem Fit.close (fit : Fit w) (idle : w.session.foreground = .idle) (joined : w.session.background = none) :
    Fit ⟨(w.session.withTree w.session.tree.emptied).discard w.session.tree.levels.flatten, false⟩ :=
  ⟨fit.booked.close idle joined, fit.once, ⟨emptyLevelled _ _, fit.labelled.held, fit.labelled.foreground,
    fit.labelled.background⟩, fit.lone⟩

theorem openListedLone (st : Storage) :
    Lone 6 ((LsmTree.openListed (st.active.map Prod.fst) st).1.map SsTableHandle.level) := by
  have zero := LsmTree.openListedLevel (st.active.map Prod.fst) st (fun _ member => absurd member List.not_mem_nil)
  rw [Lone, List.count_eq_zero.mpr]
  · exact Nat.zero_le 1
  · intro member
    obtain ⟨h, inside, level⟩ := List.mem_map.mp member
    rw [zero h inside] at level
    cases level

theorem Fit.open (fit : Fit w) (shut : w.isOpen = false) (config : LsmConfig) :
    Fit ⟨{ w.session with tree := (LsmTree.open config w.session.storage).1
                          storage := (LsmTree.open config w.session.storage).2
                          returned := none }, true⟩ := by
  have none : Stored w.session.storage [] := fun _ member => absurd member List.not_mem_nil
  have active := (openListedStored (w.session.storage.active.map Prod.fst) none).1
  refine ⟨fit.booked.open shut config, (congrArg (fun active => (active.map Prod.fst).Nodup) active).mpr fit.once,
    fit.labelled.opens fit.booked.depth (openListedLone _) _ _, fit.lone.same ?_⟩
  exact Tallied.openListedSnapshots (w.session.storage.active.map Prod.fst) [] w.session.storage

theorem Fit.deleteSnapshot (fit : Fit w) (name : String) (idle : w.session.foreground = .idle) :
    Fit { w with session := Sessions.deleteSnapshot w.session name } := by
  have booked := fit.booked.deleteSnapshot name idle
  have labelled : ∀ st r, State.Labelled ({ w.session with storage := st }.return_ r) := fun st r =>
    ⟨fit.labelled.tree, fit.labelled.held, trivial, fit.labelled.background⟩
  unfold Sessions.deleteSnapshot at booked ⊢
  split at booked
  · exact ⟨booked, fit.once, labelled _ _, fit.lone⟩
  · exact ⟨booked, fit.once, labelled _ _, fit.lone.fewer (fun saved member => (List.mem_filter.mp member).1)⟩

theorem Fit.fresh {overflowChecks : Bool} : Fit (fresh overflowChecks) :=
  ⟨Booked.fresh, List.nodup_nil, ⟨assembleLevelled (Nat.zero_le 1), fun _ member => absurd member List.not_mem_nil,
    trivial, fun _ member => absurd member (Option.not_mem_none _)⟩, fun _ member => absurd member List.not_mem_nil⟩

theorem Fit.step (fit : Fit w) {a : SessionsAction} (taken : w.step a = some w') : Fit w' := by
  have booked := fit.booked.step taken
  cases a with
  | own a =>
    simp only [Sessions.step, Option.ite_none_right_eq_some] at taken
    obtain ⟨allowed, taken⟩ := taken
    obtain ⟨s, stepped, rfl⟩ := Option.map_eq_some_iff.mp taken
    exact fit.own stepped (fun shut => by simpa [shut] using allowed)
  | close =>
    simp only [Sessions.step, Option.ite_none_right_eq_some, Option.some.injEq, Bool.and_eq_true] at taken
    obtain ⟨⟨⟨-, idle⟩, joined⟩, rfl⟩ := taken
    exact fit.close (State.idleOfIsIdle idle) (Option.isNone_iff_eq_none.mp joined)
  | «open» config =>
    simp only [Sessions.step, Option.ite_none_left_eq_some, Option.some.injEq, Bool.not_eq_true] at taken
    obtain ⟨shut, rfl⟩ := taken
    exact fit.open shut config
  | openSnapshot name =>
    simp only [Sessions.step, Option.ite_none_left_eq_some, Bool.not_eq_true] at taken
    obtain ⟨shut, taken⟩ := taken
    have once := LsmTree.openSnapshotOnce name fit.once
    have snapshots := openSnapshotBooks (fit.booked.left shut) name
    split at taken
    · rename_i tree st opened
      cases taken
      rw [opened] at once snapshots
      obtain ⟨-, -, -, -, -, -, same⟩ := snapshots
      obtain ⟨metadata, sstables, loaded, levels, rfl, -⟩ := LsmTree.openedSnapshot opened
      exact ⟨booked, once, fit.labelled.opens fit.booked.depth
        (levels ▸ PersistentSnapshot.loadLone fit.lone loaded) _ _, fit.lone.same same⟩
    · rename_i e st failed
      cases taken
      rw [failed] at once snapshots
      exact ⟨booked, once, ⟨fit.labelled.tree, fit.labelled.held, fit.labelled.foreground, fit.labelled.background⟩,
        fit.lone.same snapshots.2⟩
  | deleteSnapshot name =>
    simp only [Sessions.step, Option.ite_none_right_eq_some, Option.some.injEq, Bool.and_eq_true] at taken
    obtain ⟨⟨-, idle⟩, rfl⟩ := taken
    exact fit.deleteSnapshot name (State.idleOfIsIdle idle)
  | exit =>
    cases taken
    exact ⟨booked, fit.once, ⟨emptyLevelled _ _, fun _ member => absurd member List.not_mem_nil, trivial,
      fun _ member => absurd member (Option.not_mem_none _)⟩, fit.lone⟩

structure Dated where
  sessions : Sessions
  marks : List Bool

end Sessions

def Action.marks (marks : List Bool) : Action → List Bool
  | .snapshot => marks ++ [true]
  | .cloneSnapshot i => marks ++ [marks.getD i false]
  | .rollback i | .dropSnapshot i => marks.eraseIdx i
  | _ => marks

namespace Sessions.Dated

def begin (w : Sessions) : Dated := ⟨w, w.session.held.map (fun _ => false)⟩

def step (w : Dated) (a : SessionsAction) : Option Dated :=
  (w.sessions.step a).map (fun next => ⟨next, match a with | .own a => a.marks w.marks | _ => w.marks⟩)

def Within (w : Dated) : SessionsAction → Prop
  | .own (.rollback i) => w.marks[i]? = some true
  | .close | .exit => False
  | _ => True

end Sessions.Dated

def Marked (first : Nat) (marks : List Bool) (held : List LsmSnapshot) : Prop :=
  List.Forall₂ (fun mark (snap : LsmSnapshot) => mark = true → Native first snap.levels) marks held

theorem Marked.none (first : Nat) (held : List LsmSnapshot) : Marked first (held.map (fun _ => false)) held := by
  induction held with
  | nil => exact .nil
  | cons snap rest ih => exact .cons nofun ih

theorem Action.marksWrite {a : Action} (isWrite : a.isWrite = true) (marks : List Bool) : a.marks marks = marks := by
  cases a <;> first | rfl | cases isWrite

theorem State.Moves.marked {first : Nat} {s t : State} {a : Action} (moved : State.Moves s a t)
    (native : Native first s.tree.levels) {marks : List Bool} (marked : Marked first marks s.held) :
    Marked first (a.marks marks) t.held := by
  cases moved with
  | wrote a memtable isWrite idle data =>
    rw [Action.marksWrite isWrite]
    exact marked
  | wroteFull a memtable isWrite idle data nonempty =>
    rw [Action.marksWrite isWrite]
    exact marked
  | snapshot idle => exact Assoc.relatedSnoc marked (fun _ => native)
  | cloneSnapshot i snap found =>
    refine Assoc.relatedSnoc marked (fun mark => ?_)
    rw [List.getD_eq_getElem?_getD] at mark
    cases here : marks[i]? with
    | none => rw [here] at mark; cases mark
    | some mine =>
      obtain ⟨snap', found', holds⟩ := Assoc.relatedAt marked here
      rw [here] at mark
      cases found.symm.trans found'
      exact holds mark
  | refused i snap idle found future => exact Assoc.relatedErase marked i
  | rollback i snap idle found past => exact Assoc.relatedErase marked i
  | dropSnapshot i snap found => exact Assoc.relatedErase marked i
  | compacting t faults c c' here moved => exact moved.frame.held ▸ marked
  | compacted t faults c r here moved => exact moved.frame.held ▸ marked
  | background t faults c c' here moved => exact moved.frame.held ▸ marked
  | backgroundEnd t faults c r here moved => exact moved.frame.held ▸ marked
  | _ => exact marked

namespace Sessions
variable {w w' : Sessions}

structure Dated.Kept (first : Nat) (w : Dated) : Prop where
  opened : w.sessions.isOpen = true
  booked : Booked w.sessions
  labelled : w.sessions.session.Labelled
  book : Recorded first w.sessions.session.storage w.sessions.session.tree.nextRunNumber w.sessions.session.settled
    w.sessions.session.outputs w.sessions.session.allocated
  native : Native first w.sessions.session.tree.levels
  marked : Marked first w.marks w.sessions.session.held

theorem Fit.begins (fit : Fit w) (shut : w.isOpen = false) {config : LsmConfig} {seq maxRunNumber : Nat}
    {sstables : List SsTableHandle} {st : Storage} {r : Option (Except Error Unit)}
    (opened : LsmTree.Opened w.session.storage maxRunNumber sstables st)
    (next : Fit ⟨{ w.session with
      tree := LsmTree.start config seq maxRunNumber sstables, storage := st, returned := r }, true⟩) :
    Dated.Kept w.session.storage.nextRefcount (Dated.begin ⟨{ w.session with
      tree := LsmTree.start config seq maxRunNumber sstables, storage := st, returned := r }, true⟩) := by
  obtain ⟨idle, joined, -⟩ := fit.booked.closed shut
  have left := (fit.booked.left shut).tally.bounded
  have assembled := assemblePerm 6 sstables
  have inside : ∀ h ∈ (assemble 6 sstables).flatten, h ∈ sstables := fun h member =>
    (List.mem_filter.mp (assembled.mem_iff.mp member)).1
  have outputs : (State.outputs { w.session with
      tree := LsmTree.start config seq maxRunNumber sstables, storage := st, returned := r }) = [] := by
    simp [State.outputs, idle, joined, Foreground.outputs]
  have allocated : (State.allocated { w.session with
      tree := LsmTree.start config seq maxRunNumber sstables, storage := st, returned := r }) = [] := by
    simp [State.allocated, idle, joined, Foreground.allocated]
  refine ⟨rfl, next.booked, next.labelled, ⟨next.booked.books, opened.later, ?_, ?_, ?_, ?_⟩, ⟨?_, ?_⟩,
    Marked.none _ _⟩
  · simp [Dated.begin, outputs, allocated]
  · simp [Dated.begin, outputs, allocated]
  · simp [Dated.begin, outputs]
  · intro h member late
    refine ⟨?_, by simp [Dated.begin, outputs, allocated]⟩
    simp only [Dated.begin, State.settled, State.settledBase, idle, joined, Foreground.clones, Option.elim_none,
      Multiset.coe_nil, add_zero, Multiset.mem_add, Multiset.mem_coe] at member
    have earlier : h ∈ w.session.garbage ∨ h ∈ State.heldHandles w.session.held → h.refcount <
        w.session.storage.nextRefcount := by
      intro old
      exact left h (by simpa [Multiset.mem_add] using old)
    rcases member with (here | dropped) | held
    · exact Nat.lt_succ_of_le (opened.below h (inside h here))
    · exact absurd late (Nat.not_le_of_lt (earlier (Or.inl dropped)))
    · exact absurd late (Nat.not_le_of_lt (earlier (Or.inr held)))
  · exact fun h member => opened.new h (inside h member)
  · have some : Distinct (sstables.filter (fun h => decide (h.level ≤ 6))) :=
      opened.distinct.sublist List.filter_sublist
    exact (assembled.map _).nodup_iff.mpr some

theorem Fit.starts (fit : Fit w) (shut : w.isOpen = false) {a : SessionsAction} (taken : w.step a = some w')
    (opened : w'.isOpen = true) : Dated.Kept w.session.storage.nextRefcount (Dated.begin w') := by
  have next := fit.step taken
  cases a with
  | own a =>
    simp only [Sessions.step, Option.ite_none_right_eq_some] at taken
    obtain ⟨s, -, rfl⟩ := Option.map_eq_some_iff.mp taken.2
    cases shut.symm.trans opened
  | «open» config =>
    simp only [Sessions.step, Option.ite_none_left_eq_some, Option.some.injEq, Bool.not_eq_true] at taken
    obtain ⟨-, rfl⟩ := taken
    exact fit.begins shut (LsmTree.openedListed fit.once) next
  | openSnapshot name =>
    simp only [Sessions.step, Option.ite_none_left_eq_some, Bool.not_eq_true] at taken
    obtain ⟨-, taken⟩ := taken
    split at taken
    · rename_i t st done
      cases taken
      obtain ⟨metadata, sstables, -, -, rfl, made⟩ := LsmTree.openedSnapshot done
      exact fit.begins shut made next
    · cases taken
      cases opened
  | exit =>
    cases taken
    cases opened
  | _ =>
    simp only [Sessions.step, shut, Bool.false_and, Bool.false_eq_true, if_false] at taken
    cases taken

namespace Dated.Kept
variable {first : Nat} {w w' : Dated}

theorem own (kept : Kept first w) {a : Action} {s : State} (within : Within w (.own a))
    (taken : w.sessions.session.step a = some s) :
    Kept first ⟨{ w.sessions with session := s }, a.marks w.marks⟩ := by
  have moved := State.stepMoves taken
  have arranged := kept.booked.arranged
  refine ⟨kept.opened, kept.booked.own taken (fun shut => by rw [kept.opened] at shut; cases shut),
    moved.labelled arranged kept.labelled, moved.books (Recorded.bookkeeping first) arranged kept.book,
    moved.native arranged kept.native kept.book (fun i snap same found => ?_), moved.marked kept.native kept.marked⟩
  subst same
  obtain ⟨snap', found', holds⟩ := Assoc.relatedAt kept.marked within
  cases found.symm.trans found'
  exact holds rfl

theorem deleteSnapshot (kept : Kept first w) (name : String) (idle : w.sessions.session.foreground = .idle) :
    Kept first ⟨{ w.sessions with session := Sessions.deleteSnapshot w.sessions.session name }, w.marks⟩ := by
  have booked := kept.booked.deleteSnapshot name idle
  obtain ⟨st, r, same, -, refcounts, nextRefcount, -⟩ := deleteSnapshotLeaves w.sessions.session name
  have labelled := kept.labelled
  rw [same] at booked ⊢
  refine ⟨kept.opened, booked, ⟨labelled.tree, labelled.held, trivial, labelled.background⟩, ?_, kept.native,
    kept.marked⟩
  have book := kept.book.counters (kept.book.tallied.restore refcounts nextRefcount) (Nat.le_of_eq nextRefcount.symm)
    (fun _ member => member)
  simpa only [State.settled, State.settledBase, State.outputs, State.allocated, State.return_, idle] using book

theorem step (kept : Kept first w) {a : SessionsAction} (within : Within w a) (taken : w.step a = some w') :
    Kept first w' := by
  obtain ⟨next, stepped, rfl⟩ := Option.map_eq_some_iff.mp taken
  cases a with
  | own a =>
    simp only [Sessions.step, Option.ite_none_right_eq_some] at stepped
    obtain ⟨s, moved, rfl⟩ := Option.map_eq_some_iff.mp stepped.2
    exact kept.own within moved
  | deleteSnapshot name =>
    simp only [Sessions.step, Option.ite_none_right_eq_some, Option.some.injEq, Bool.and_eq_true] at stepped
    obtain ⟨⟨-, idle⟩, rfl⟩ := stepped
    exact kept.deleteSnapshot name (State.idleOfIsIdle idle)
  | close => exact within.elim
  | exit => exact within.elim
  | _ =>
    simp only [Sessions.step, kept.opened, if_true] at stepped
    cases stepped

end Dated.Kept

/-- In a session that an opening of the directory starts, from what any sessions before it left and saved: the last
level holds at most one run, no run number is on two runs, and the next one is above all of them. -/
theorem levelShape {before later : List SessionsAction} {u m : Sessions} {w : Dated} {a : SessionsAction}
    {overflowChecks : Bool} (ran : Trace.Run Sessions.step (fun _ _ => True) (fresh overflowChecks) before u) (shut : u.isOpen = false)
    (taken : u.step a = some m) (opened : m.isOpen = true)
    (after : Trace.Run Dated.step Dated.Within (Dated.begin m) later w) :
    (w.sessions.session.tree.levels.getD w.sessions.session.tree.maxLevel []).length ≤ 1 ∧
      (w.sessions.session.tree.levels.flatten.map SsTableHandle.runNumber).Nodup ∧
      ∀ h ∈ w.sessions.session.tree.levels.flatten, h.runNumber < w.sessions.session.tree.nextRunNumber := by
  have fit : Fit u := ran.invariant (fun _ _ _ taken _ fit => fit.step taken) Fit.fresh
  have kept : w.Kept u.session.storage.nextRefcount :=
    after.invariant (fun _ _ _ taken within kept => kept.step within taken) (fit.starts shut taken opened)
  refine ⟨kept.labelled.tree.bottom, kept.native.distinct, fun h member => (kept.book.own h ?_
    (kept.native.own h member)).1⟩
  simp only [State.settled, State.settledBase, Multiset.mem_add, Multiset.mem_coe]
  exact Or.inl (Or.inl (Or.inl (Or.inl member)))

def earlierScript : List SessionsAction := savingScript ++ [.own (.foreground noFaults), .own .snapshot, .close]

def shapingScript : List SessionsAction :=
  (.insert [2] [20] :: ownSteps 3 ++ .snapshot :: .compactAll :: ownSteps 3 ++ .rollback 1 :: .insert [3] [30] ::
    ownSteps 3 ++ .compactAll :: ownSteps 3 ++ .insert [4] [40] :: ownSteps 3).map .own

def Dated.within (w : Dated) : SessionsAction → Bool
  | .own (.rollback i) => decide (w.marks[i]? = some true)
  | .close | .exit => false
  | _ => true

theorem Dated.withinOf {w : Dated} {a : SessionsAction} (checked : w.within a = true) : w.Within a := by
  cases a with
  | own a =>
    cases a with
    | rollback i =>
      rw [within, decide_eq_true_eq] at checked
      exact checked
    | _ => trivial
  | close => cases checked
  | exit => cases checked
  | _ => trivial

theorem levelShapeReopened : ∃ u m : Sessions, ∃ w : Dated,
    Trace.Run Sessions.step (fun _ _ => True) fresh earlierScript u ∧ u.step (.openSnapshot "a") = some m ∧
      Trace.Run Dated.step Dated.Within (Dated.begin m) shapingScript w ∧
        (w.sessions.session.tree.levels.map List.length = [1, 0, 0, 0, 0, 0, 1] ∧ w.marks = [false]) ∧
          (w.sessions.session.tree.levels.getD w.sessions.session.tree.maxLevel []).length ≤ 1 ∧
            (w.sessions.session.tree.levels.flatten.map SsTableHandle.runNumber).Nodup ∧
              ∀ h ∈ w.sessions.session.tree.levels.flatten, h.runNumber < w.sessions.session.tree.nextRunNumber := by
  have ended : (Trace.execWhile Sessions.step (fun _ _ => true) fresh earlierScript).any (fun u =>
      (!u.isOpen) && (u.step (.openSnapshot "a")).any (fun m => m.isOpen &&
        (Trace.execWhile Dated.step Dated.within (Dated.begin m) shapingScript).any (fun w =>
          decide (w.sessions.session.tree.levels.map List.length = [1, 0, 0, 0, 0, 0, 1] ∧ w.marks = [false])))) = true := by
    decide +kernel
  obtain ⟨u, ran, rest⟩ := Trace.runTo (fun _ _ _ _ => trivial) ended
  simp only [Bool.and_eq_true, Bool.not_eq_true'] at rest
  obtain ⟨shut, rest⟩ := rest
  obtain ⟨m, taken, rest⟩ := (Option.any_eq_true _ _).mp rest
  obtain ⟨opened, rest⟩ := (Bool.and_eq_true _ _).mp rest
  obtain ⟨w, after, tested⟩ := Trace.runTo (fun _ _ _ checked => Dated.withinOf checked) rest
  exact ⟨u, m, w, ran, taken, after, of_decide_eq_true tested, levelShape ran shut taken opened after⟩

end Sessions
end CardanoLsm
