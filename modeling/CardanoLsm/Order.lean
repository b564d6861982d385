import CardanoLsm.Lib.StableSort
import CardanoLsm.MemorySnapshots

/-! The order of the runs in a level. Point lookups rely on it, range scans sort for
themselves. It is kept as long as one compaction runs at a time, and a session begins
with it exactly when the files found agree with it. -/
namespace CardanoLsm
open Std Layered

def Ordered (levels : Levels) : Prop := ∀ level ∈ levels, Ascending level

instance (levels : Levels) : Decidable (Ordered levels) := inferInstanceAs (Decidable (∀ level ∈ levels, _))

theorem orderedAt {levels : Levels} : Ordered levels ↔ ∀ i, Ascending (levels.getD i []) := by
  constructor
  · intro ordered i
    rw [List.getD_eq_getElem?_getD]
    cases found : levels[i]? with
    | none => exact List.Pairwise.nil
    | some level => exact ordered level (List.mem_of_getElem? found)
  · intro ordered level member
    obtain ⟨i, found⟩ := List.getElem?_of_mem member
    have here := ordered i
    rw [List.getD_eq_getElem?_getD, found] at here
    exact here

theorem Ordered.scanOrder {levels : Levels} (ordered : Ordered levels) :
    scanOrder levels = rangeOrder levels := by
  unfold CardanoLsm.scanOrder rangeOrder
  exact List.flatMap_congr (fun level member => by rw [sortSelf (ordered level member)])

def Cycle.adds : Cycle → Option (Nat × Nat)
  | .numbered _ _ job n _ => some (job.targetLevel, n)
  | .merged _ _ job _ result => result.output.map (fun h => (job.targetLevel, h.runNumber))
  | _ => none

def Cycle.Newest (t : LsmTree) (c : Cycle) : Prop :=
  c.genBefore = t.compactionGeneration → ∀ add ∈ c.adds, add.1 ≠ t.maxLevel → Below t.levels add.1 add.2

def Cycle.WritesNewest (t : LsmTree) (c : Cycle) : Prop :=
  ∀ g snap job runs result, c = .merged g snap job runs result → c.Newest t

def OneCycle (s : State) : Prop := s.foreground.cycle = none ∨ s.background = none

structure InOrder (s : State) : Prop where
  tree : Ordered s.tree.levels
  held : ∀ snap ∈ s.held, Ordered snap.levels
  aboveL0 : s.foreground.AboveL0 s.tree.levels
  foreground : ∀ c ∈ s.foreground.cycle, c.Newest s.tree
  background : ∀ c ∈ s.background, c.Newest s.tree

theorem ascendingPush {level : List SsTableHandle} (ascending : Ascending level) {h : SsTableHandle}
    (newest : ∀ x ∈ level, x.runNumber < h.runNumber) : Ascending (level ++ [h]) := by
  refine List.pairwise_append.mpr ⟨ascending, List.pairwise_singleton _ _, fun x member y last => ?_⟩
  rw [List.mem_singleton.mp last]
  exact newest x member

namespace Cycle.Moves
variable {faults : Nat → Bool} {s t : State} {c : Cycle} {p : Progress}

theorem ordered (moved : Cycle.Moves faults s c p t)
    (tree : SnapshotShape s.tree.maxLevel s.tree.sequenceNumber s.tree.snapshot)
    (shape : c.Shape s.tree.maxLevel s.tree.compactionGeneration) (newest : c.WritesNewest s.tree)
    (ordered : Ordered s.tree.levels) : Ordered t.tree.levels := by
  cases moved with
  | writeBack g snap job runs result wanted =>
    obtain ⟨selected, rfl, removes, -⟩ := shape.2
    have length : s.tree.levels.length = s.tree.maxLevel + 1 := tree.length
    rw [orderedAt] at ordered ⊢
    intro i
    simp only [State.discard, State.withLevels]
    rw [writeBackLevel length selected.job removes i]
    split
    · cases out : result.output with
      | none => exact ordered job.targetLevel
      | some h =>
        by_cases bottom : job.targetLevel = s.tree.maxLevel
        · simp only [Compactor.newTarget, bottom, decide_true, if_true]
          exact List.pairwise_singleton _ _
        · simp only [Compactor.newTarget, bottom, decide_false, Bool.false_eq_true, if_false]
          exact ascendingPush (ordered _) (newest g snap job _ result rfl wanted.symm
            (job.targetLevel, h.runNumber) (by simp [Cycle.adds, out]) bottom)
    · split
      · exact (ordered _).sublist (List.drop_sublist _ _)
      · exact ordered i
  | _ => exact ordered

theorem newest {c' : Cycle} (moved : Cycle.Moves faults s c (.running c') t)
    (shape : c.Shape s.tree.maxLevel s.tree.compactionGeneration)
    (under : ∀ h ∈ s.tree.levels.flatten, h.runNumber < s.tree.nextRunNumber)
    (readable : Readable s.storage c.clones) (newest : c.Newest s.tree) : c'.Newest t.tree := by
  intro wanted add adds middle
  cases moved with
  | select g job selected => cases adds
  | number g snap job =>
    cases Option.some.inj adds
    exact fun h member => under h (levelSubset member)
  | merge g snap job n runs result st done =>
    obtain ⟨selected, rfl⟩ := shape.2
    cases mergeDone selected readable done with
    | nothing empty => cases adds
    | output nonempty h st' written =>
      cases Option.some.inj adds
      simp only [written.handle.2.1]
      exact newest wanted (job.targetLevel, n) rfl middle

end Cycle.Moves

namespace State.Moves
variable {s t : State} {a : Action}

theorem treeOrder (moved : Moves s a t) (sound : Sound s) (before : Ordered s.tree.levels)
    (held : ∀ snap ∈ s.held, Ordered snap.levels) (above : s.foreground.AboveL0 s.tree.levels)
    (newest : ∀ c ∈ s.cycleOf a, c.WritesNewest s.tree) : Ordered t.tree.levels := by
  have length : s.tree.levels.length = s.tree.maxLevel + 1 := sound.tree.length
  cases moved with
  | rollback i snap idle found past => exact held snap (List.mem_of_getElem? found)
  | flushPush faults h after f r here quiet ends =>
    rw [here] at above
    simp only [pushL0, withLevels]
    rw [orderedAt] at before ⊢
    intro i
    rw [getDSet]
    split
    · exact ascendingPush (before 0) above
    · exact before i
  | compactAllInstall faults all result here =>
    simp only [discard, withLevels, return_]
    rw [orderedAt]
    intro i
    by_cases last : i = s.tree.maxLevel
    · subst last
      have short : ((clearedLevels s.tree.levels s.tree.maxLevel result.output).getD s.tree.maxLevel
        []).length ≤ 1 := bottomAfterInstall s.tree.levels result.output
      generalize (clearedLevels s.tree.levels s.tree.maxLevel result.output).getD s.tree.maxLevel [] =
        level at short
      cases level with
      | nil => exact List.Pairwise.nil
      | cons h rest =>
        have alone : rest = [] := List.eq_nil_of_length_eq_zero (by simpa using short)
        rw [alone]
        exact List.pairwise_singleton _ _
    · rw [clearedLevel _ _ _ last]
      exact List.Pairwise.nil
  | compacting t faults c c' here moved =>
    have shape := sound.foreground
    rw [here] at shape
    exact moved.ordered sound.tree shape (newest c (by simp [cycleOf, here, Foreground.cycle])) before
  | compacted t faults c r here moved =>
    have shape := sound.foreground
    rw [here] at shape
    exact moved.ordered sound.tree shape (newest c (by simp [cycleOf, here, Foreground.cycle])) before
  | background t faults c c' here moved =>
    exact moved.ordered sound.tree (sound.background c here) (newest c here) before
  | backgroundEnd t faults c r here moved =>
    exact moved.ordered sound.tree (sound.background c here) (newest c here) before
  | _ => exact before

theorem heldOrder (moved : Moves s a t) (tree : Ordered s.tree.levels)
    (before : ∀ snap ∈ s.held, Ordered snap.levels) : ∀ snap ∈ t.held, Ordered snap.levels := by
  intro x member
  cases moved with
  | snapshot idle =>
    rcases List.mem_append.mp member with old | new
    · exact before x old
    · rw [List.mem_singleton.mp new]
      exact tree
  | refused i snap idle found future => exact before x (List.mem_of_mem_eraseIdx member)
  | rollback i snap idle found past => exact before x (List.mem_of_mem_eraseIdx member)
  | cloneSnapshot i snap found =>
    rcases List.mem_append.mp member with old | new
    · exact before x old
    · rw [List.mem_singleton.mp new]
      exact before snap (List.mem_of_getElem? found)
  | dropSnapshot i snap found => exact before x (List.mem_of_mem_eraseIdx member)
  | compacting t faults c c' here moved => exact before x (moved.frame.held ▸ member)
  | compacted t faults c r here moved => exact before x (moved.frame.held ▸ member)
  | background t faults c c' here moved => exact before x (moved.frame.held ▸ member)
  | backgroundEnd t faults c r here moved => exact before x (moved.frame.held ▸ member)
  | _ => exact before x member

theorem foregroundNewest (moved : Moves s a t) (sound : Sound s) (one : OneCycle s) (order : InOrder s) :
    ∀ c ∈ t.foreground.cycle, c.Newest t.tree := by
  intro d isCycle
  have before := order.foreground
  cases moved with
  | wrote a memtable isWrite idle data => cases isCycle
  | wroteFull a memtable isWrite idle data nonempty => cases isCycle
  | compact idle =>
    cases Option.some.inj isCycle
    exact fun _ add adds => by cases adds
  | compacting t faults c c' here moved =>
    have shape := sound.foreground
    rw [here] at shape
    cases Option.some.inj isCycle
    exact moved.newest shape (levelsUnder sound) (Cycle.Moves.clonesReadable (bookCycle sound here))
      (before c (by simp [here, Foreground.cycle]))
  | background t faults c c' here moved =>
    simp only [moved.frame.foreground] at isCycle
    rcases one with none | none
    · rw [none] at isCycle
      cases isCycle
    · rw [none] at here
      cases here
  | backgroundEnd t faults c r here moved =>
    simp only [moved.frame.foreground] at isCycle
    rcases one with none | none
    · rw [none] at isCycle
      cases isCycle
    · rw [none] at here
      cases here
  | flushPush faults h after f r here quiet ends => cases quiet <;> cases isCycle
  | drained faults after f r here quiet ends => cases quiet <;> cases isCycle
  | snapshot idle => exact before d isCycle
  | cloneSnapshot i snap found => exact before d isCycle
  | dropSnapshot i snap found => exact before d isCycle
  | begin faults none => exact before d isCycle
  | collect i h found => exact before d isCycle
  | _ => cases isCycle

theorem backgroundNewest (moved : Moves s a t) (sound : Sound s) (one : OneCycle s)
    (order : InOrder s) : ∀ c ∈ t.background, c.Newest t.tree := by
  intro d isCycle
  have before := order.background
  have upper : ∀ d ∈ s.background, ∀ add ∈ d.adds, add.1 ≠ 0 := by
    intro d member add adds
    have shape := sound.background d member
    cases d with
    | numbered g snap job n runs =>
      cases Option.some.inj adds
      have := shape.2.1.job.target
      simp only
      omega
    | merged g snap job runs result =>
      obtain ⟨h, _, rfl⟩ := Option.map_eq_some_iff.mp adds
      have := shape.2.1.job.target
      simp only
      omega
    | _ => cases adds
  have alone : ∀ {c}, s.foreground = .compacting c → s.background = none := by
    intro c here
    rcases one with none | none
    · simp [here, Foreground.cycle] at none
    · exact none
  cases moved with
  | rollback i snap idle found past =>
    have older := (sound.background d isCycle).1
    intro wanted
    simp only [return_, discard, withTree, LsmTree.restore] at wanted
    omega
  | flushPush faults h after f r here quiet ends =>
    intro wanted add adds middle
    have below := before d isCycle wanted add adds middle
    have target := upper d isCycle add adds
    unfold Below at below ⊢
    simp only [pushL0, withLevels, getDSet, target, false_and, if_false]
    exact below
  | compactAllInstall faults all result here =>
    intro wanted add adds middle
    unfold Below
    simp only [discard, withLevels, return_]
    rw [clearedLevel s.tree.levels s.tree.maxLevel result.output middle]
    intro x member
    cases member
  | compacting t faults c c' here moved =>
    simp only [at_, moved.frame.background, alone here] at isCycle
    cases isCycle
  | compacted t faults c r here moved =>
    simp only [return_, moved.frame.background, alone here] at isCycle
    cases isCycle
  | begin faults none =>
    cases Option.some.inj isCycle
    exact fun _ add adds => by cases adds
  | background t faults c c' here moved =>
    cases Option.some.inj isCycle
    exact moved.newest (sound.background c here) (levelsUnder sound)
      (Cycle.Moves.clonesReadable (bookBackground sound here)) (before c here)
  | backgroundEnd t faults c r here moved => cases isCycle
  | _ => exact before d isCycle

theorem inOrder (moved : Moves s a t) (sound : Sound s) (one : OneCycle s) (order : InOrder s) :
    InOrder t := by
  have newest : ∀ c ∈ s.cycleOf a, c.WritesNewest s.tree := by
    intro c here g snap job runs result _
    cases a with
    | foreground faults => exact order.foreground c here
    | background faults => exact order.background c here
    | _ => cases here
  exact ⟨moved.treeOrder sound order.tree order.held order.aboveL0 newest,
    moved.heldOrder order.tree order.held, moved.aboveL0 sound order.aboveL0,
    moved.foregroundNewest sound one order, moved.backgroundNewest sound one order⟩

end State.Moves

structure FoundRun where
  number : Nat
  level : Nat
  content : Option Run

def SsTableHandle.found (h : SsTableHandle) : FoundRun := ⟨h.runNumber, h.level, some h.run⟩

/-- Of two runs for one level, found in this order, the one that sorts first by its
smallest key is the older one. -/
def FoundRun.ByAge (a b : FoundRun) : Prop :=
  a.level = b.level → a.level ≤ 6 → ∀ r ∈ a.content, ∀ r' ∈ b.content,
    ((compare r.minKey r'.minKey).isLE = true → a.number < b.number) ∧
      (¬ (compare r.minKey r'.minKey).isLE = true → b.number < a.number)

instance : Std.Total (fun a b : SsTableHandle => (compare a.minKey b.minKey).isLE = true) :=
  ⟨fun a b => by
    have swap : compare b.minKey a.minKey = (compare a.minKey b.minKey).swap := OrientedCmp.eq_swap
    rw [swap]
    cases compare a.minKey b.minKey <;> simp⟩

instance : IsTrans SsTableHandle (fun a b => (compare a.minKey b.minKey).isLE = true) :=
  ⟨fun _ _ _ => TransCmp.isLE_trans⟩

theorem assembleOrdered (sstables : List SsTableHandle) :
    Ordered (assemble 6 sstables) ↔ (sstables.map SsTableHandle.found).Pairwise FoundRun.ByAge := by
  have level : ∀ i, Ascending (sortByMinKey (sstables.filter (fun h => h.level == i))) ↔
      sstables.Pairwise (fun a b => a.level = i → b.level = i →
        StableSort.Agree (fun a b : SsTableHandle => (compare a.minKey b.minKey).isLE = true)
          (fun a b => a.runNumber < b.runNumber) a b) := by
    intro i
    unfold Ascending sortByMinKey
    rw [StableSort.insertionSortPairwise, List.pairwise_filter]
    simp only [beq_iff_eq]
  have levels : Ordered (assemble 6 sstables) ↔
      ∀ i ≤ 6, Ascending (sortByMinKey (sstables.filter (fun h => h.level == i))) := by
    simp only [Ordered, assemble, List.mem_map, List.mem_range, forall_exists_index, and_imp,
      forall_apply_eq_imp_iff₂, Nat.lt_succ_iff]
  rw [levels, List.pairwise_map]
  simp only [level]
  constructor
  · intro sorted
    refine List.pairwise_iff_forall_sublist.mpr (fun {a b} sub same small r here r' here' => ?_)
    cases here
    cases here'
    exact List.pairwise_iff_forall_sublist.mp (sorted a.level small) sub rfl same.symm
  · intro sorted i small
    refine sorted.imp (fun {a b} byAge left right => ?_)
    exact byAge (left.trans right.symm) (by simp only [SsTableHandle.found]; omega) a.run rfl b.run rfl

theorem openListedFound (numbers : List Nat) (acc : List SsTableHandle) (st : Storage) :
    (numbers.foldl LsmTree.openNext (acc, st)).1.map SsTableHandle.found =
      acc.map SsTableHandle.found ++
        (numbers.map (fun n => (⟨n, 0, st.runAt .active n⟩ : FoundRun))).filter
          (fun f => f.content.isSome) := by
  induction numbers generalizing acc st with
  | nil => simp
  | cons n rest ih =>
    rw [List.foldl_cons, List.map_cons, List.filter_cons]
    cases opened : SsTableHandle.open st n with
    | mk outcome st' =>
      cases outcome with
      | ok h =>
        obtain ⟨dir, number, level, -, found, left⟩ := Owns.openOk opened
        have next : LsmTree.openNext (acc, st) n = (acc ++ [h], st') := by
          simp only [LsmTree.openNext, opened]
        have here : st.runAt .active n = some h.run := by
          simp only [Storage.runAt, Storage.files, found, Option.join_some]
        have one : h.found = ⟨n, 0, some h.run⟩ := by rw [SsTableHandle.found, number, level]
        have same : st'.runAt .active = st.runAt .active := by
          rw [left]
          rfl
        rw [next, ih, same, here, if_pos (by rfl), List.map_append, List.map_singleton, one,
          List.append_assoc]
        rfl
      | error e =>
        have next : LsmTree.openNext (acc, st) n = (acc, st') := by
          simp only [LsmTree.openNext, opened]
        have absent : st.runAt .active n = none := by
          unfold SsTableHandle.open at opened
          split at opened
          · assumption
          · cases opened
        rw [next, openError opened, ih, absent, if_neg (by simp)]

inductive Finds : List FoundRun → State → Prop where
  | opened (config : LsmConfig) (st : Storage) (rest : st.AtRest) (overflowChecks : Bool) :
      Finds ((st.active.map Prod.fst).map (fun n => ⟨n, 0, st.runAt .active n⟩))
        (.begin (LsmTree.open config st) overflowChecks)
  | openedSnapshot (name : String) (st : Storage) (rest : st.AtRest) (metadata : SnapshotMetadata)
      (loaded : PersistentSnapshot.load st name = .ok metadata) (t : LsmTree) (st' : Storage)
      (ok : LsmTree.openSnapshot name st = (.ok t, st')) (overflowChecks : Bool) :
      Finds (metadata.runs.map (fun run =>
        ⟨run.runNumber, run.level, st.runAt (.snapshot name) run.runNumber⟩)) (.begin (t, st') overflowChecks)

namespace Finds
variable {found : List FoundRun} {s : State}

theorem starts (finds : Finds found s) : Starts s := by
  cases finds with
  | opened config st rest overflowChecks => exact .opened config st rest overflowChecks
  | openedSnapshot name st rest metadata loaded t st' ok overflowChecks =>
    exact .openedSnapshot name st rest t st' ok overflowChecks

theorem ordered (finds : Finds found s) : Ordered s.tree.levels ↔ found.Pairwise FoundRun.ByAge := by
  have complete : ∀ fs : List FoundRun, (fs.filter (fun f => f.content.isSome)).Pairwise FoundRun.ByAge ↔
      fs.Pairwise FoundRun.ByAge := by
    intro fs
    rw [List.pairwise_filter]
    constructor
    · refine List.Pairwise.imp (fun {a b} byAge same small r here r' here' => ?_)
      exact byAge (by rw [Option.mem_def.mp here]; rfl) (by rw [Option.mem_def.mp here']; rfl) same small
        r here r' here'
    · exact List.Pairwise.imp (fun byAge _ _ => byAge)
  cases finds with
  | opened config st rest overflowChecks =>
    have all := openListedFound (st.active.map Prod.fst) [] st
    rw [List.map_nil, List.nil_append] at all
    have levels : (State.begin (LsmTree.open config st) overflowChecks).tree.levels =
        assemble 6 (LsmTree.openListed (st.active.map Prod.fst) st).1 := rfl
    rw [levels, assembleOrdered, LsmTree.openListed, all, complete]
  | openedSnapshot name st rest metadata loaded t st' ok overflowChecks =>
    obtain ⟨metadata', sstables, linked, opened, done, rfl, rfl⟩ :=
      Starts.openSnapshotOk rest.counters ok
    have same : metadata' = metadata := Except.ok.inj (done.loaded.symm.trans loaded)
    subst same
    have all : sstables.map SsTableHandle.found = metadata'.runs.map (fun run =>
        (⟨run.runNumber, run.level, st.runAt (.snapshot name) run.runNumber⟩ : FoundRun)) := by
      refine Assoc.relatedMap (done.pairs.imp (fun run h pair => ?_))
      obtain ⟨number, level, stored⟩ := pair
      rw [done.active] at stored
      have content := Assoc.lookupGraph (f := SnapshotRun.runNumber)
        (g := fun n => ((st.files (.snapshot name)).lookup n).join) stored
      rw [SsTableHandle.found, number, level, content]
      rfl
    have levels : (State.begin (LsmTree.start metadata'.config metadata'.sequenceNumber
        ((metadata'.runs.map SnapshotRun.runNumber).foldl max 0) sstables,
        (sstables.filter (fun h => decide (6 < h.level))).foldl Storage.dropHandle opened)
          overflowChecks).tree.levels = assemble 6 sstables := rfl
    rw [levels, assembleOrdered, all]

theorem inOrder (finds : Finds found s) (sorted : found.Pairwise FoundRun.ByAge) : InOrder s := by
  have tree := finds.ordered.mpr sorted
  have begun : ∀ opened overflowChecks, Ordered (State.begin opened overflowChecks).tree.levels →
      InOrder (State.begin opened overflowChecks) := by
    intro opened overflowChecks tree
    refine ⟨tree, fun snap member => ?_, trivial, fun c member => ?_, fun c member => ?_⟩
    · cases member
    · cases member
    · cases member
  cases finds with
  | opened config st rest overflowChecks => exact begun _ _ tree
  | openedSnapshot name st rest metadata loaded t st' ok overflowChecks => exact begun _ _ tree

end Finds

/-- While one compaction runs at a time, the runs of every level stand oldest first, and
point lookups visit the runs in the order that ranges give them, exactly if the session
found its runs so: sorted by smallest key they are sorted by age. -/
theorem levelsOrdered {found : List FoundRun} {s₀ : State} (finds : Finds found s₀) :
    (∀ as s, Trace.Run State.step (fun s _ => OneCycle s) s₀ as s →
      (∀ level ∈ s.tree.levels, Ascending level) ∧
        scanOrder s.tree.levels = rangeOrder s.tree.levels ∧
          ∀ snap ∈ s.held, scanOrder snap.levels = rangeOrder snap.levels) ↔
      found.Pairwise FoundRun.ByAge := by
  constructor
  · intro every
    exact finds.ordered.mp (every [] s₀ (.nil s₀)).1
  · intro sorted as s ran
    obtain ⟨sound, order⟩ : Sound s ∧ InOrder s := by
      refine ran.invariant (I := fun s => Sound s ∧ InOrder s) (fun s a t taken one holds => ?_)
        ⟨finds.starts.sound, finds.inOrder sorted⟩
      exact ⟨(State.stepMoves taken).sound holds.1, (State.stepMoves taken).inOrder holds.1 one holds.2⟩
    exact ⟨order.tree, order.tree.scanOrder, fun snap member => (order.held snap member).scanOrder⟩

def threeRunsScript : List Action :=
  .insert [1] [10] :: ownSteps 3 ++ .insert [2] [20] :: ownSteps 3 ++
    List.replicate 5 (.background noFaults) ++ .insert [1] [30] :: ownSteps 3

theorem levelsOrderedThree : ∃ s,
    Trace.Run State.step (fun s _ => OneCycle s) (.fresh ⟨1, 2⟩) threeRunsScript s ∧
      s.tree.levels.flatten.map SsTableHandle.runNumber = [4, 3] ∧
        scanOrder s.tree.levels = rangeOrder s.tree.levels := by
  have ended : (Trace.execWhile State.step (fun s _ => s.foreground.cycle.isNone) (.fresh ⟨1, 2⟩)
      threeRunsScript).any (fun s =>
        decide (s.tree.levels.flatten.map SsTableHandle.runNumber = [4, 3])) = true := by decide +kernel
  have allowed : ∀ s : State, ∀ a ∈ threeRunsScript,
      (fun s _ => s.foreground.cycle.isNone : State → Action → Bool) s a = true → OneCycle s :=
    fun s _ _ alone => Or.inl (Option.isNone_iff_eq_none.mp alone)
  obtain ⟨s, ran, tested⟩ := Trace.runTo allowed ended
  have finds : Finds [] (.fresh ⟨1, 2⟩) :=
    .opened ⟨1, 2⟩ Storage.empty ⟨fun _ => rfl, List.nodup_nil⟩ false
  exact ⟨s, ran, of_decide_eq_true tested, ((levelsOrdered finds).mpr List.Pairwise.nil _ s ran).2.1⟩

def reopenedScript : List Action :=
  .insert [2] [10] :: ownSteps 3 ++ .insertBatch [([1], [10]), ([2], [20])] :: ownSteps 3

theorem reopenedUnordered : ∃ s found,
    Trace.Run State.step (fun _ a => a.Clean) (.fresh ⟨1, 2⟩) reopenedScript s ∧ s.foreground = .idle ∧
      Finds found (.begin (LsmTree.open ⟨1, 2⟩ s.storage.stopped)) ∧
        ¬ Ordered (LsmTree.open ⟨1, 2⟩ s.storage.stopped).1.levels ∧
          (∀ hash, (LsmTree.open ⟨1, 2⟩ s.storage.stopped).1.get hash
            (LsmTree.open ⟨1, 2⟩ s.storage.stopped).2 [2] = .ok (some [10])) ∧
          (LsmTree.open ⟨1, 2⟩ s.storage.stopped).1.range
            (LsmTree.open ⟨1, 2⟩ s.storage.stopped).2 [2] [2] = [([2], [20])] := by
  have clean : ∀ a ∈ reopenedScript, a.Clean := by simp [reopenedScript, ownSteps, noFaults, Action.Clean]
  have ended : (Trace.execWhile State.step (fun _ _ => true) (.fresh ⟨1, 2⟩) reopenedScript).any (fun s =>
      let opened := LsmTree.open ⟨1, 2⟩ s.storage.stopped
      State.isIdle s.foreground && decide (s.storage.active.map Prod.fst).Nodup &&
        decide (¬ Ordered opened.1.levels) &&
          decide (scanView opened.1.memtable opened.1.immutableMemtables opened.1.levels [2] = some [10]) &&
            decide (opened.1.range opened.2 [2] [2] = [([2], [20])])) = true := by decide +kernel
  obtain ⟨s, ran, tested⟩ := Trace.runTo (fun _ a member _ => clean a member) ended
  simp only [Bool.and_eq_true, decide_eq_true_eq] at tested
  obtain ⟨⟨⟨⟨idle, distinct⟩, unordered⟩, point⟩, range⟩ := tested
  have finds := Finds.opened ⟨1, 2⟩ s.storage.stopped ⟨fun _ => rfl, distinct⟩ false
  refine ⟨s, _, ran, State.idleOfIsIdle idle, finds, unordered, fun hash => ?_, range⟩
  exact (treeGet finds.starts.sound hash [2]).trans (congrArg Except.ok point)

end CardanoLsm
