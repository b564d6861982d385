import CardanoLsm.Ledger
import CardanoLsm.Moves

/-! The structural invariant of a session. It holds in every state of every run,
whatever fails and however the two threads interleave: the books are in order, the
level vectors have their shape, and the local state of a call or a cycle is what its
earlier steps read. -/
namespace CardanoLsm
open Std Layered

namespace Cycle

def genBefore : Cycle → Nat
  | .loaded g | .selected g _ _ | .numbered g _ _ _ _ | .merged g _ _ _ _ => g

def clones : Cycle → List SsTableHandle
  | .loaded _ => []
  | .selected _ snap job => snap.flatten ++ job.targetLevelRuns
  | .numbered _ snap job _ runs => snap.flatten ++ job.targetLevelRuns ++ runs
  | .merged _ snap _ runs _ => snap.flatten ++ runs

def outputs : Cycle → List SsTableHandle
  | .merged _ _ _ _ result => result.output.toList
  | _ => []

def allocated : Cycle → List Nat
  | .numbered _ _ _ n _ => [n]
  | _ => []

end Cycle

namespace Progress

def clones : Progress → List SsTableHandle
  | .running c => c.clones
  | .ended _ => []

def outputs : Progress → List SsTableHandle
  | .running c => c.outputs
  | .ended _ => []

def allocated : Progress → List Nat
  | .running c => c.allocated
  | .ended _ => []

end Progress

namespace Foreground

def clones : Foreground → List SsTableHandle
  | .compacting c => c.clones
  | .compactAllCloned all | .compactAllNumbered all _ | .compactAllMerged all _ => all
  | .saveCloned _ _ _ all => all
  | _ => []

def outputs : Foreground → List SsTableHandle
  | .flushWritten h _ => [h]
  | .compacting c => c.outputs
  | .compactAllMerged _ result => result.output.toList
  | _ => []

def allocated : Foreground → List Nat
  | .flushNumbered _ n _ | .compactAllNumbered _ n => [n]
  | .compacting c => c.allocated
  | _ => []

@[simp] theorem Quiet.clones {f : Foreground} (quiet : f.Quiet) : f.clones = [] := by cases quiet <;> rfl
@[simp] theorem Quiet.outputs {f : Foreground} (quiet : f.Quiet) : f.outputs = [] := by cases quiet <;> rfl
@[simp] theorem Quiet.allocated {f : Foreground} (quiet : f.Quiet) : f.allocated = [] := by
  cases quiet <;> rfl

end Foreground

namespace State

def heldHandles (held : List LsmSnapshot) : List SsTableHandle := held.flatMap (fun x => x.levels.flatten)

def settledBase (s : State) : Multiset SsTableHandle :=
  ↑s.tree.levels.flatten + ↑s.garbage + ↑(heldHandles s.held)

def settled (s : State) : Multiset SsTableHandle :=
  s.settledBase + ↑s.foreground.clones + ↑(s.background.elim [] Cycle.clones)

def outputs (s : State) : List SsTableHandle :=
  s.foreground.outputs ++ s.background.elim [] Cycle.outputs

def allocated (s : State) : List Nat := s.foreground.allocated ++ s.background.elim [] Cycle.allocated

end State

def Yields (all : Entries) (level : Nat) (indices : List Nat) (result : CompactionResult) : Prop :=
  result.inputsToRemove = indices ∧
    match result.output with
    | none => all = ∅
    | some h => h.run.entries = all ∧ h.level = level

structure Selected (maxLevel : Nat) (snap : Levels) (job : LevelCompactionJob) : Prop where
  length : snap.length = maxLevel + 1
  distinct : Distinct snap.flatten
  job : Compactor.JobOf snap maxLevel job

def jobEntries (maxLevel : Nat) (snap : Levels) (job : LevelCompactionJob) : Entries :=
  Compactor.mergedJob (snap.getD job.sourceLevel []) (snap.getD job.targetLevel [])
    (decide (job.targetLevel = maxLevel))

def Cycle.Shape (maxLevel generation : Nat) (c : Cycle) : Prop :=
  c.genBefore ≤ generation ∧
    match c with
    | .loaded _ => True
    | .selected _ snap job => Selected maxLevel snap job
    | .numbered _ snap job _ runs =>
      Selected maxLevel snap job ∧ runs = snap.getD job.sourceLevel []
    | .merged _ snap job runs result =>
      Selected maxLevel snap job ∧ runs = snap.getD job.sourceLevel [] ∧
        Yields (jobEntries maxLevel snap job) job.targetLevel (List.range runs.length) result

def Foreground.Shape (maxLevel generation : Nat) : Foreground → Prop
  | .flushing old _ | .flushNumbered old _ _ => old.data ≠ ∅
  | .flushWritten h _ => h.level = 0
  | .compacting c => c.Shape maxLevel generation
  | .compactAllCloned all | .compactAllNumbered all _ => Distinct all ∧ all ≠ []
  | .compactAllMerged all result =>
    Distinct all ∧ all ≠ [] ∧
      Yields (live (Compactor.mergedSources all)) 0 (List.range all.length) result
  | _ => True

structure SnapshotShape (maxLevel sequenceNumber : Nat) (snap : LsmSnapshot) : Prop where
  length : snap.levels.length = maxLevel + 1
  distinct : Distinct snap.levels.flatten
  immutables : snap.immutableMemtables = []
  sequenceNumber : snap.sequenceNumber = sequenceNumber

/-! What holds of the level vectors and the cycles whatever the files hold. -/

structure Picked (maxLevel : Nat) (snap : Levels) (job : LevelCompactionJob) : Prop where
  length : snap.length = maxLevel + 1
  job : Compactor.JobOf snap maxLevel job

def Cycle.Arranged (maxLevel : Nat) : Cycle → Prop
  | .loaded _ => True
  | .selected _ snap job => Picked maxLevel snap job
  | .numbered _ snap job _ runs => Picked maxLevel snap job ∧ runs = snap.getD job.sourceLevel []
  | .merged _ snap job runs result => Picked maxLevel snap job ∧ runs = snap.getD job.sourceLevel [] ∧
      result.inputsToRemove = List.range runs.length

def Foreground.Arranged (maxLevel : Nat) : Foreground → Prop
  | .compacting c => c.Arranged maxLevel
  | _ => True

structure State.Arranged (s : State) : Prop where
  positive : 0 < s.tree.maxLevel
  length : s.tree.levels.length = s.tree.maxLevel + 1
  held : ∀ snap ∈ s.held, snap.levels.length = s.tree.maxLevel + 1
  foreground : s.foreground.Arranged s.tree.maxLevel
  background : ∀ c ∈ s.background, c.Arranged s.tree.maxLevel

structure Sound (s : State) : Prop where
  ledger : Ledger s.storage s.tree.nextRunNumber s.settled s.outputs s.allocated
  positive : 0 < s.tree.maxLevel
  tree : SnapshotShape s.tree.maxLevel s.tree.sequenceNumber s.tree.snapshot
  held : ∀ snap ∈ s.held, SnapshotShape s.tree.maxLevel s.tree.sequenceNumber snap
  foreground : s.foreground.Shape s.tree.maxLevel s.tree.compactionGeneration
  background : ∀ c ∈ s.background, c.Shape s.tree.maxLevel s.tree.compactionGeneration

theorem Cycle.Shape.arranged {maxLevel generation : Nat} {c : Cycle} (shape : c.Shape maxLevel generation) :
    c.Arranged maxLevel := by
  have rest := shape.2
  cases c with
  | loaded g => trivial
  | selected g snap job => exact ⟨rest.length, rest.job⟩
  | numbered g snap job n runs => exact ⟨⟨rest.1.length, rest.1.job⟩, rest.2⟩
  | merged g snap job runs result => exact ⟨⟨rest.1.length, rest.1.job⟩, rest.2.1, rest.2.2.1⟩

theorem Sound.arranged {s : State} (sound : Sound s) : s.Arranged := by
  refine ⟨sound.positive, sound.tree.length, fun snap member => (sound.held snap member).length, ?_,
    fun c member => (sound.background c member).arranged⟩
  have shape := sound.foreground
  cases here : s.foreground with
  | compacting c =>
    rw [here] at shape
    exact Cycle.Shape.arranged shape
  | _ => trivial

theorem distinctSub {runs more : List SsTableHandle} (distinct : Distinct more)
    (sub : (↑runs : Multiset SsTableHandle) ≤ ↑more) : Distinct runs := by
  have numbers := Multiset.map_le_map (f := SsTableHandle.runNumber) sub
  rw [Multiset.map_coe, Multiset.map_coe] at numbers
  exact Multiset.coe_nodup.mp (Multiset.nodup_of_le numbers (Multiset.coe_nodup.mpr distinct))

theorem levelSubset {levels : Levels} {i : Nat} {h : SsTableHandle} (member : h ∈ levels.getD i []) :
    h ∈ levels.flatten := by
  rw [List.getD_eq_getElem?_getD] at member
  cases found : levels[i]? with
  | none => simp [found] at member
  | some level =>
    rw [found] at member
    exact List.mem_flatten.mpr ⟨level, List.mem_of_getElem? found, member⟩

section WriteBack
variable {levels snap : Levels} {maxLevel : Nat} {job : LevelCompactionJob} {result : CompactionResult}

theorem writeBackSplits (length : levels.length = maxLevel + 1) (of : Compactor.JobOf snap maxLevel job)
    (removes : result.inputsToRemove = List.range (snap.getD job.sourceLevel []).length) :
    (↑(Compactor.writeBack levels job.sourceLevel job.targetLevel maxLevel result).1.flatten +
      ↑(Compactor.writeBack levels job.sourceLevel job.targetLevel maxLevel result).2 : Multiset SsTableHandle) =
        ↑levels.flatten + ↑result.output.toList := by
  have inside : job.sourceLevel + 1 < levels.length := by
    have := of.source
    omega
  have counts := Compactor.writeBackCounts maxLevel (snap.getD job.sourceLevel []).length inside result.output
  have same : result = ⟨result.output, List.range (snap.getD job.sourceLevel []).length⟩ := by rw [← removes]
  rwa [← same, ← of.target] at counts

theorem writeBackLe (length : levels.length = maxLevel + 1) (of : Compactor.JobOf snap maxLevel job)
    (removes : result.inputsToRemove = List.range (snap.getD job.sourceLevel []).length) :
    (↑(Compactor.writeBack levels job.sourceLevel job.targetLevel maxLevel result).1.flatten :
      Multiset SsTableHandle) ≤ ↑(levels.flatten ++ result.output.toList) := by
  rw [← Multiset.coe_add, ← writeBackSplits length of removes]
  exact Multiset.le_add_right _ _

theorem writeBackDistinct (length : levels.length = maxLevel + 1) (of : Compactor.JobOf snap maxLevel job)
    (removes : result.inputsToRemove = List.range (snap.getD job.sourceLevel []).length)
    (distinct : Distinct levels.flatten)
    (fresh : ∀ h ∈ levels.flatten, h.runNumber ∉ result.output.toList.map SsTableHandle.runNumber) :
    Distinct (Compactor.writeBack levels job.sourceLevel job.targetLevel maxLevel result).1.flatten := by
  refine distinctSub ?_ (writeBackLe length of removes)
  rw [Distinct, List.map_append]
  refine List.nodup_append.mpr ⟨distinct, ?_, ?_⟩
  · cases result.output <;> simp
  · intro a inA b inB same
    obtain ⟨h, member, rfl⟩ := List.mem_map.mp inA
    exact fresh h member (same ▸ inB)

end WriteBack

namespace Cycle.Moves
variable {faults : Nat → Bool} {s t : State} {c : Cycle} {p : Progress}

structure Frame (s t : State) : Prop where
  config : t.tree.config = s.tree.config
  maxLevel : t.tree.maxLevel = s.tree.maxLevel
  memtable : t.tree.memtable = s.tree.memtable
  immutables : t.tree.immutableMemtables = s.tree.immutableMemtables
  sequenceNumber : t.tree.sequenceNumber = s.tree.sequenceNumber
  generation : t.tree.compactionGeneration = s.tree.compactionGeneration
  held : t.held = s.held
  foreground : t.foreground = s.foreground
  background : t.background = s.background

theorem frame (moved : Cycle.Moves faults s c p t) : Frame s t := by
  cases moved <;> exact ⟨rfl, rfl, rfl, rfl, rfl, rfl, rfl, rfl, rfl⟩

theorem levels (moved : Cycle.Moves faults s c p t) (notMerged : ∀ g snap job runs result,
    c ≠ .merged g snap job runs result) : t.tree.levels = s.tree.levels := by
  cases moved with
  | writeBack g snap job runs result current => exact absurd rfl (notMerged g snap job runs result)
  | _ => rfl

theorem clonesReadable {rest : Multiset SsTableHandle} {outputs : List SsTableHandle}
    {allocated : List Nat}
    (book : Ledger s.storage s.tree.nextRunNumber
      (↑s.tree.levels.flatten + ↑s.garbage + ↑c.clones + rest) outputs allocated) :
    Readable s.storage c.clones := book.readable (fun x member => by
  simp only [Multiset.mem_add, Multiset.mem_coe]
  exact Or.inl (Or.inr member))

section Merge
variable {g n maxLevel : Nat} {snap : Levels} {job : LevelCompactionJob} {st st' : Storage}

theorem mergeReads (selected : Selected maxLevel snap job)
    (readable : Readable st (Cycle.numbered g snap job n (snap.getD job.sourceLevel [])).clones) :
    Compactor.mergeLevels st job (snap.getD job.sourceLevel []) maxLevel =
      .ok (jobEntries maxLevel snap job) := by
  rw [jobEntries, ← selected.job.targets]
  exact Compactor.mergeLevelsAll maxLevel selected.job.indices
    (fun x member => readable x (List.mem_append_right _ member))
    (fun x member => readable x (List.mem_append_left _ (List.mem_append_right _ member)))

theorem mergeDone (selected : Selected maxLevel snap job)
    (readable : Readable st (Cycle.numbered g snap job n (snap.getD job.sourceLevel [])).clones)
    {result : CompactionResult}
    (done : Compactor.compactLevels faults job (snap.getD job.sourceLevel []) n maxLevel st =
      (.ok result, st')) :
    Compactor.Merged n job.targetLevel (List.range (snap.getD job.sourceLevel []).length)
      (jobEntries maxLevel snap job) st result st' := by
  rw [← selected.job.indices]
  exact Compactor.mergeAndWriteOk (mergeReads selected readable) done

theorem mergeEnds (selected : Selected maxLevel snap job)
    (readable : Readable st (Cycle.numbered g snap job n (snap.getD job.sourceLevel [])).clones)
    (unused : st.active.lookup n = none) {faults : Nat → Bool} (clean : ∀ j, faults j = false) :
    ∃ result st', Compactor.compactLevels faults job (snap.getD job.sourceLevel []) n maxLevel st =
      (.ok result, st') := by
  have reads : (fun st => Compactor.mergeLevels st job (snap.getD job.sourceLevel []) maxLevel) st =
      .ok (jobEntries maxLevel snap job) := mergeReads selected readable
  exact Compactor.mergeAndWriteEnds clean reads unused

end Merge

theorem books {Books : Storage → Nat → Multiset SsTableHandle → List SsTableHandle → List Nat → Prop}
    (keeping : Bookkeeping Books) (moved : Cycle.Moves faults s c p t) {rest : Multiset SsTableHandle}
    {outputs : List SsTableHandle} {allocated : List Nat} (arranged : c.Arranged s.tree.maxLevel)
    (length : s.tree.levels.length = s.tree.maxLevel + 1) (positive : 0 < s.tree.maxLevel)
    (book : Books s.storage s.tree.nextRunNumber
      (↑s.tree.levels.flatten + ↑s.garbage + ↑c.clones + rest) (c.outputs ++ outputs)
      (c.allocated ++ allocated)) :
    Books t.storage t.tree.nextRunNumber
      (↑t.tree.levels.flatten + ↑t.garbage + ↑p.clones + rest) (p.outputs ++ outputs)
      (p.allocated ++ allocated) := by
  cases moved with
  | nothing g none =>
    refine keeping.congr (keeping.cloneAll book (show ∀ x ∈ s.tree.levels.flatten, _ from fun x member => ?_)) ?_
      (.refl _) (.refl _)
    · simp only [Multiset.mem_add, Multiset.mem_coe]
      exact Or.inl (Or.inl (Or.inl member))
    · simp only [State.cloneAll, State.discard, Cycle.clones, Progress.clones, ← Multiset.coe_add]
      abel
  | select g job selected =>
    have of := Compactor.selectJobOf positive selected
    refine keeping.congr (keeping.cloneAll book (show ∀ x ∈ s.tree.levels.flatten ++ job.targetLevelRuns, _ from
      fun x member => ?_)) ?_ (.refl _) (.refl _)
    · simp only [Multiset.mem_add, Multiset.mem_coe]
      rcases List.mem_append.mp member with here | target
      · exact Or.inl (Or.inl (Or.inl here))
      · rw [of.targets] at target
        exact Or.inl (Or.inl (Or.inl (levelSubset target)))
    · simp only [State.cloneAll, Cycle.clones, Progress.clones, ← Multiset.coe_add, Multiset.coe_nil]
      abel
  | number g snap job =>
    refine keeping.congr (keeping.cloneAll (keeping.allocate book) (show ∀ x ∈ snap.getD job.sourceLevel [], _ from
      fun x member => ?_)) ?_ (.refl _) (.refl _)
    · simp only [Multiset.mem_add, Multiset.mem_coe, Cycle.clones, List.mem_append]
      exact Or.inl (Or.inr (Or.inl (levelSubset member)))
    · simp only [State.cloneAll, State.allocate, Cycle.clones, Progress.clones, ← Multiset.coe_add]
      abel
  | failed g snap job n runs e st failed =>
    refine keeping.congr (keeping.abandon book (Compactor.mergeAndWriteError failed)) ?_ (.refl _) (.refl _)
    simp only [State.discard, Cycle.clones, Progress.clones, ← Multiset.coe_add, Multiset.coe_nil]
    abel
  | merge g snap job n runs result st done =>
    obtain ⟨all, -, merged⟩ := Compactor.mergeAndWriteMerged done
    cases merged with
    | nothing empty =>
      refine keeping.congr (keeping.forget book) ?_ (.refl _) (.refl _)
      simp only [State.discard, Cycle.clones, Progress.clones, ← Multiset.coe_add]
      abel
    | output nonempty h st' written =>
      refine keeping.congr (keeping.write book written) ?_ (.refl _) (.refl _)
      simp only [State.discard, Cycle.clones, Progress.clones, ← Multiset.coe_add]
      abel
  | stale g snap job runs result changed =>
    cases out : result.output with
    | none =>
      simp only [Cycle.outputs, out, Option.toList_none, List.nil_append] at book
      refine keeping.congr book ?_ (.refl _) (.refl _)
      simp only [State.discard, Cycle.clones, Progress.clones, ← Multiset.coe_add, Option.toList_none,
        Multiset.coe_nil]
      abel
    | some h =>
      simp only [Cycle.outputs, out, Option.toList_some, List.singleton_append] at book
      refine keeping.congr (keeping.publish book) ?_ (.refl _) (.refl _)
      simp only [State.discard, Cycle.clones, Progress.clones, ← Multiset.coe_add, Option.toList_some,
        Multiset.coe_singleton, Multiset.coe_nil, ← Multiset.singleton_add]
      abel
  | writeBack g snap job runs result current =>
    obtain ⟨picked, rfl, removes⟩ := arranged
    have counts := writeBackSplits length picked.job removes
    generalize Compactor.writeBack s.tree.levels job.sourceLevel job.targetLevel s.tree.maxLevel
      result = written at counts ⊢
    have published : Books s.storage s.tree.nextRunNumber
        (↑result.output.toList + (↑s.tree.levels.flatten + ↑s.garbage +
          ↑(Cycle.merged g snap job (snap.getD job.sourceLevel []) result).clones + rest)) outputs
        allocated := by
      cases out : result.output with
      | none =>
        simp only [Cycle.outputs, out, Option.toList_none, List.nil_append] at book
        exact keeping.congr book (by rw [Option.toList_none, Multiset.coe_nil, zero_add]) (.refl _) (.refl _)
      | some h =>
        simp only [Cycle.outputs, out, Option.toList_some, List.singleton_append] at book
        exact keeping.congr (keeping.publish book) (by
          rw [Option.toList_some, Multiset.coe_singleton, Multiset.singleton_add]) (.refl _) (.refl _)
    refine keeping.congr published ?_ (.refl _) (.refl _)
    simp only [State.discard, State.withLevels, Cycle.clones, Progress.clones, ← Multiset.coe_add,
      Multiset.coe_nil]
    calc _ = (↑s.tree.levels.flatten + ↑result.output.toList) + (↑s.garbage + (↑snap.flatten +
          ↑(snap.getD job.sourceLevel [])) + rest : Multiset SsTableHandle) := by abel
      _ = _ := by rw [← counts]; abel

theorem levelsLength (moved : Cycle.Moves faults s c p t) :
    t.tree.levels.length = s.tree.levels.length := by
  cases moved with
  | writeBack g snap job runs result current => exact Compactor.writeBackLength _ _ _ _ _
  | _ => rfl

theorem arranged {c' : Cycle} (moved : Cycle.Moves faults s c (.running c') t)
    (before : c.Arranged s.tree.maxLevel) (length : s.tree.levels.length = s.tree.maxLevel + 1)
    (positive : 0 < s.tree.maxLevel) : c'.Arranged t.tree.maxLevel := by
  cases moved with
  | select g job selected => exact ⟨length, Compactor.selectJobOf positive selected⟩
  | number g snap job => exact ⟨before, rfl⟩
  | merge g snap job n runs result st done =>
    obtain ⟨picked, same⟩ := before
    refine ⟨picked, same, ?_⟩
    obtain ⟨all, -, merged⟩ := Compactor.mergeAndWriteMerged done
    rw [same, ← picked.job.indices]
    cases merged with
    | nothing empty => rfl
    | output nonempty h st' written => rfl

theorem shape {c' : Cycle} (moved : Cycle.Moves faults s c (.running c') t)
    (shape : c.Shape s.tree.maxLevel s.tree.compactionGeneration)
    (length : s.tree.levels.length = s.tree.maxLevel + 1) (distinct : Distinct s.tree.levels.flatten)
    (positive : 0 < s.tree.maxLevel) (readable : Readable s.storage c.clones) :
    c'.Shape t.tree.maxLevel t.tree.compactionGeneration := by
  cases moved with
  | select g job selected =>
    exact ⟨shape.1, length, distinct, Compactor.selectJobOf positive selected⟩
  | number g snap job => exact ⟨shape.1, shape.2, rfl⟩
  | merge g snap job n runs result st done =>
    obtain ⟨selected, rfl⟩ := shape.2
    refine ⟨shape.1, selected, rfl, ?_⟩
    cases mergeDone selected readable done with
    | nothing empty => exact ⟨rfl, empty⟩
    | output nonempty h st' written => exact ⟨rfl, written.entries, written.handle.2.2.1⟩

theorem treeShape (moved : Cycle.Moves faults s c p t) {rest : Multiset SsTableHandle}
    {outputs : List SsTableHandle} {allocated : List Nat}
    (shape : c.Shape s.tree.maxLevel s.tree.compactionGeneration)
    (tree : SnapshotShape s.tree.maxLevel s.tree.sequenceNumber s.tree.snapshot)
    (book : Ledger s.storage s.tree.nextRunNumber
      (↑s.tree.levels.flatten + ↑s.garbage + ↑c.clones + rest) (c.outputs ++ outputs)
      (c.allocated ++ allocated)) :
    SnapshotShape t.tree.maxLevel t.tree.sequenceNumber t.tree.snapshot := by
  cases moved with
  | writeBack g snap job runs result current =>
    obtain ⟨selected, rfl, removes, -⟩ := shape.2
    refine ⟨?_, writeBackDistinct tree.length selected.job removes tree.distinct (fun h member inside => ?_),
      tree.immutables, tree.sequenceNumber⟩
    · exact (Compactor.writeBackLength _ _ _ _ _).trans tree.length
    · refine book.fresh h ?_ ?_
      · simp only [Multiset.mem_add, Multiset.mem_coe]
        exact Or.inl (Or.inl (Or.inl member))
      · rw [List.map_append]
        exact List.mem_append_left _ inside
  | _ => exact tree

end Cycle.Moves

namespace State.Moves
variable {s t : State} {a : Action}

theorem heldErase {held : List LsmSnapshot} {i : Nat} {snap : LsmSnapshot} (found : held[i]? = some snap) :
    (↑(heldHandles held) : Multiset SsTableHandle) =
      ↑snap.levels.flatten + ↑(heldHandles (held.eraseIdx i)) := by
  obtain ⟨inside, rfl⟩ := List.getElem?_eq_some_iff.mp found
  have split : held = held.take i ++ held[i] :: held.drop (i + 1) := by simp
  conv_lhs => rw [split]
  rw [List.eraseIdx_eq_take_drop_succ]
  simp only [heldHandles, List.flatMap_append, List.flatMap_cons, ← Multiset.coe_add]
  abel

theorem garbageErase {garbage : List SsTableHandle} {i : Nat} {h : SsTableHandle}
    (found : garbage[i]? = some h) :
    (↑garbage : Multiset SsTableHandle) = h ::ₘ ↑(garbage.eraseIdx i) := by
  obtain ⟨inside, rfl⟩ := List.getElem?_eq_some_iff.mp found
  rw [Multiset.cons_coe, Multiset.coe_eq_coe]
  exact (List.getElem_cons_eraseIdx_perm inside).symm

theorem levelsSettled (s : State) : ∀ x ∈ s.tree.levels.flatten, x ∈ s.settled := by
  intro x member
  simp only [settled, settledBase, Multiset.mem_add, Multiset.mem_coe]
  exact Or.inl (Or.inl (Or.inl (Or.inl member)))

theorem heldSettled {s : State} {i : Nat} {snap : LsmSnapshot} (found : s.held[i]? = some snap) :
    ∀ x ∈ snap.levels.flatten, x ∈ s.settled := by
  intro x member
  have inside : x ∈ heldHandles s.held :=
    List.mem_flatMap.mpr ⟨snap, List.mem_of_getElem? found, member⟩
  simp only [settled, settledBase, Multiset.mem_add, Multiset.mem_coe]
  exact Or.inl (Or.inl (Or.inr inside))

theorem heldSnoc (held : List LsmSnapshot) (snap : LsmSnapshot) :
    (↑(heldHandles (held ++ [snap])) : Multiset SsTableHandle) =
      ↑(heldHandles held) + ↑snap.levels.flatten := by
  simp [heldHandles]

section Books
variable {Books : Storage → Nat → Multiset SsTableHandle → List SsTableHandle → List Nat → Prop}

theorem booksAt (book : Books s.storage s.tree.nextRunNumber s.settled s.outputs s.allocated) {f : Foreground}
    (here : s.foreground = f) :
    Books s.storage s.tree.nextRunNumber
      (s.settledBase + ↑f.clones + ↑(s.background.elim [] Cycle.clones))
      (f.outputs ++ s.background.elim [] Cycle.outputs)
      (f.allocated ++ s.background.elim [] Cycle.allocated) := here ▸ book

theorem booksCycle (keeping : Bookkeeping Books)
    (book : Books s.storage s.tree.nextRunNumber s.settled s.outputs s.allocated) {c : Cycle}
    (here : s.foreground = .compacting c) :
    Books s.storage s.tree.nextRunNumber
      (↑s.tree.levels.flatten + ↑s.garbage + ↑c.clones +
        (↑(heldHandles s.held) + ↑(s.background.elim [] Cycle.clones)))
      (c.outputs ++ s.background.elim [] Cycle.outputs)
      (c.allocated ++ s.background.elim [] Cycle.allocated) := by
  refine keeping.congr (booksAt book here) ?_ (.refl _) (.refl _)
  simp only [settledBase, Foreground.clones]
  abel

theorem booksBackground (keeping : Bookkeeping Books)
    (book : Books s.storage s.tree.nextRunNumber s.settled s.outputs s.allocated) {c : Cycle}
    (here : s.background = some c) :
    Books s.storage s.tree.nextRunNumber
      (↑s.tree.levels.flatten + ↑s.garbage + ↑c.clones +
        (↑(heldHandles s.held) + ↑s.foreground.clones))
      (c.outputs ++ s.foreground.outputs) (c.allocated ++ s.foreground.allocated) := by
  simp only [settled, settledBase, outputs, allocated, here, Option.elim_some] at book
  refine keeping.congr book ?_ List.perm_append_comm List.perm_append_comm
  abel

end Books

theorem bookAt (sound : Sound s) {f : Foreground} (here : s.foreground = f) :
    Ledger s.storage s.tree.nextRunNumber
      (s.settledBase + ↑f.clones + ↑(s.background.elim [] Cycle.clones))
      (f.outputs ++ s.background.elim [] Cycle.outputs)
      (f.allocated ++ s.background.elim [] Cycle.allocated) := booksAt sound.ledger here

theorem bookCycle (sound : Sound s) {c : Cycle} (here : s.foreground = .compacting c) :
    Ledger s.storage s.tree.nextRunNumber
      (↑s.tree.levels.flatten + ↑s.garbage + ↑c.clones +
        (↑(heldHandles s.held) + ↑(s.background.elim [] Cycle.clones)))
      (c.outputs ++ s.background.elim [] Cycle.outputs)
      (c.allocated ++ s.background.elim [] Cycle.allocated) := booksCycle Ledger.bookkeeping sound.ledger here

theorem bookBackground (sound : Sound s) {c : Cycle} (here : s.background = some c) :
    Ledger s.storage s.tree.nextRunNumber
      (↑s.tree.levels.flatten + ↑s.garbage + ↑c.clones +
        (↑(heldHandles s.held) + ↑s.foreground.clones))
      (c.outputs ++ s.foreground.outputs) (c.allocated ++ s.foreground.allocated) :=
  booksBackground Ledger.bookkeeping sound.ledger here

theorem clearedFlatten (levels : Levels) {maxLevel : Nat} (inside : maxLevel < levels.length)
    (output : Option SsTableHandle) :
    (clearedLevels levels maxLevel output).flatten = output.toList := by
  have blank : (levels.map (fun _ => ([] : List SsTableHandle))).flatten = [] := by simp
  cases output with
  | none => simp [clearedLevels]
  | some output =>
    obtain ⟨pre, post, split, here⟩ : ∃ pre post, levels = pre ++ levels[maxLevel] :: post ∧
        pre.length = maxLevel := ⟨levels.take maxLevel, levels.drop (maxLevel + 1), by simp, by simp; omega⟩
    rw [split]
    simp [clearedLevels, ← here, List.getD_eq_getElem?_getD]

theorem books {Books : Storage → Nat → Multiset SsTableHandle → List SsTableHandle → List Nat → Prop}
    (keeping : Bookkeeping Books) (moved : Moves s a t) (arranged : s.Arranged)
    (before : Books s.storage s.tree.nextRunNumber s.settled s.outputs s.allocated) :
    Books t.storage t.tree.nextRunNumber t.settled t.outputs t.allocated := by
  cases moved with
  | wrote a memtable isWrite idle data =>
    have book := booksAt before idle
    exact book
  | wroteFull a memtable isWrite idle data nonempty =>
    have book := booksAt before idle
    exact book
  | snapshot idle =>
    refine keeping.congr (keeping.cloneAll before (levelsSettled s)) ?_ (.refl _) (.refl _)
    simp only [settled, settledBase, cloneAll, heldSnoc, LsmTree.snapshot]
    abel
  | refused i snap idle found future =>
    refine keeping.congr (booksAt before idle) ?_ (.refl _) (.refl _)
    simp only [settled, settledBase, discard, return_, heldErase found, ← Multiset.coe_add]
    abel
  | rollback i snap idle found past =>
    refine keeping.congr (booksAt before idle) ?_ (.refl _) (.refl _)
    simp only [settled, settledBase, discard, return_, withTree, LsmTree.restore, heldErase found,
      ← Multiset.coe_add]
    abel
  | cloneSnapshot i snap found =>
    refine keeping.congr (keeping.cloneAll before (heldSettled found)) ?_ (.refl _) (.refl _)
    simp only [settled, settledBase, cloneAll, heldSnoc]
    abel
  | dropSnapshot i snap found =>
    refine keeping.congr before ?_ (.refl _) (.refl _)
    simp only [settled, settledBase, discard, heldErase found, ← Multiset.coe_add]
    abel
  | compact idle =>
    have book := booksAt before idle
    exact book
  | compactAllNothing idle none => exact booksAt before idle
  | compactAllClone idle some =>
    refine keeping.congr (keeping.cloneAll (booksAt before idle) (idle ▸ levelsSettled s)) ?_ (.refl _) (.refl _)
    simp only [settled, settledBase, cloneAll, at_, Foreground.clones, Multiset.coe_nil]
    abel
  | saveFlush name label idle nonempty =>
    have book := booksAt before idle
    exact book
  | saveNoFlush name label idle empty =>
    have book := booksAt before idle
    exact book
  | flushNumber faults old after here => exact keeping.allocate (booksAt before here)
  | flushFailed faults old n after e st here failed =>
    exact keeping.abandon (booksAt before here) (SsTableWriter.writeError failed)
  | flushWrite faults old n after h st here done =>
    exact keeping.write (booksAt before here) (SsTableWriter.writeOk done)
  | flushPush faults h after f r here quiet ends =>
    have inside : 0 < s.tree.levels.length := by
      have := arranged.length
      omega
    have pushed : (↑(s.tree.levels.set 0 (s.tree.levels.getD 0 [] ++ [h])).flatten :
        Multiset SsTableHandle) = h ::ₘ ↑s.tree.levels.flatten := by
      obtain ⟨l0, rest, split⟩ := List.exists_cons_of_length_pos inside
      rw [split, Multiset.cons_coe, Multiset.coe_eq_coe]
      simp only [List.set_cons_zero, List.getD_cons_zero, List.flatten_cons, List.append_assoc,
        List.singleton_append]
      exact List.perm_middle
    have book := keeping.publish (booksAt before here)
    simp only [settled, outputs, allocated, quiet.clones, quiet.outputs, quiet.allocated,
      pushL0, withLevels]
    refine keeping.congr book ?_ (.refl _) (.refl _)
    simp only [settledBase, pushed, Foreground.clones, ← Multiset.singleton_add]
    abel
  | drained faults after f r here quiet ends =>
    simp only [settled, outputs, allocated, quiet.clones, quiet.outputs, quiet.allocated]
    exact booksAt before here
  | compacting t faults c c' here moved =>
    have frame := moved.frame
    have cycle := arranged.foreground
    rw [here] at cycle
    have book := moved.books keeping cycle arranged.length arranged.positive (booksCycle keeping before here)
    simp only [settled, settledBase, outputs, allocated, at_, frame.held, frame.background]
    refine keeping.congr book ?_ (.refl _) (.refl _)
    simp only [Progress.clones, Foreground.clones]
    abel
  | compacted t faults c r here moved =>
    have frame := moved.frame
    have cycle := arranged.foreground
    rw [here] at cycle
    have book := moved.books keeping cycle arranged.length arranged.positive (booksCycle keeping before here)
    simp only [settled, settledBase, outputs, allocated, return_, frame.held, frame.background]
    refine keeping.congr book ?_ (.refl _) (.refl _)
    simp only [Progress.clones, Foreground.clones]
    abel
  | compactAllNumber faults all here => exact keeping.allocate (booksAt before here)
  | compactAllFailed faults all n e st here failed =>
    refine keeping.congr (keeping.abandon (booksAt before here) (Compactor.mergeAndWriteError failed)) ?_
      (.refl _) (.refl _)
    simp only [settled, settledBase, discard, return_, Foreground.clones, ← Multiset.coe_add,
      Multiset.coe_nil]
    abel
  | compactAllMerge faults all n result st here done =>
    obtain ⟨entries, -, merged⟩ := Compactor.mergeAndWriteMerged done
    cases merged with
    | nothing empty => exact keeping.forget (booksAt before here)
    | output nonempty h st' written => exact keeping.write (booksAt before here) written
  | compactAllInstall faults all result here =>
    have inside : s.tree.maxLevel < s.tree.levels.length := by
      have := arranged.length
      omega
    have book := booksAt before here
    simp only [settled, settledBase, outputs, allocated, discard, withLevels, return_,
      clearedFlatten s.tree.levels inside]
    cases out : result.output with
    | none =>
      simp only [Foreground.outputs, out, Option.toList_none] at book ⊢
      refine keeping.congr book ?_ (.refl _) (.refl _)
      simp only [settledBase, Foreground.clones, ← Multiset.coe_add, Multiset.coe_nil]
      abel
    | some h =>
      simp only [Foreground.outputs, out, Option.toList_some, List.singleton_append] at book ⊢
      refine keeping.congr (keeping.publish book) ?_ (.refl _) (.refl _)
      simp only [settledBase, Foreground.clones, ← Multiset.coe_add, Multiset.coe_nil,
        Multiset.coe_singleton, ← Multiset.singleton_add]
      abel
  | saveClone faults name label here =>
    refine keeping.congr (keeping.cloneAll (booksAt before here) (here ▸ levelsSettled s)) ?_ (.refl _) (.refl _)
    simp only [settled, settledBase, cloneAll, at_, Foreground.clones, Multiset.coe_nil]
    abel
  | saveCreate faults name label seq all r st here created =>
    have book := booksAt before here
    have aside := PersistentSnapshot.createAside (fun h member => keeping.positive book (by
      simp only [Multiset.mem_add, Multiset.mem_coe, Foreground.clones]
      exact Or.inl (Or.inr member))) created
    refine keeping.congr (keeping.elsewhere book aside.active aside.refcounts aside.nextRefcount) ?_
      (.refl _) (.refl _)
    simp only [settled, settledBase, discard, return_, Foreground.clones, ← Multiset.coe_add,
      Multiset.coe_nil]
    abel
  | begin faults none =>
    simp only [settled, settledBase, outputs, allocated, none, Option.elim_none] at before ⊢
    exact before
  | background t faults c c' here moved =>
    have frame := moved.frame
    have book := moved.books keeping (arranged.background c here) arranged.length arranged.positive
      (booksBackground keeping before here)
    simp only [settled, settledBase, outputs, allocated, frame.held, frame.foreground]
    refine keeping.congr book ?_ List.perm_append_comm List.perm_append_comm
    simp only [Progress.clones, Option.elim_some]
    abel
  | backgroundEnd t faults c r here moved =>
    have frame := moved.frame
    have book := moved.books keeping (arranged.background c here) arranged.length arranged.positive
      (booksBackground keeping before here)
    simp only [settled, settledBase, outputs, allocated, frame.held, frame.foreground]
    refine keeping.congr book ?_ List.perm_append_comm List.perm_append_comm
    simp only [Progress.clones, Option.elim_none]
    abel
  | collect i h found =>
    have same : s.settled = h ::ₘ (↑s.tree.levels.flatten + ↑(s.garbage.eraseIdx i) +
        ↑(heldHandles s.held) + ↑s.foreground.clones + ↑(s.background.elim [] Cycle.clones)) := by
      simp only [settled, settledBase, garbageErase found, ← Multiset.singleton_add]
      abel
    rw [same] at before
    exact keeping.drop before

theorem ledger (moved : Moves s a t) (sound : Sound s) :
    Ledger t.storage t.tree.nextRunNumber t.settled t.outputs t.allocated :=
  moved.books Ledger.bookkeeping sound.arranged sound.ledger

theorem distinctPush {levels : Levels} {h : SsTableHandle} (distinct : Distinct levels.flatten)
    (fresh : ∀ x ∈ levels.flatten, x.runNumber ≠ h.runNumber) (inside : 0 < levels.length) :
    Distinct (levels.set 0 (levels.getD 0 [] ++ [h])).flatten := by
  have more : Distinct (h :: levels.flatten) := by
    rw [Distinct, List.map_cons, List.nodup_cons]
    refine ⟨fun member => ?_, distinct⟩
    obtain ⟨x, inLevels, same⟩ := List.mem_map.mp member
    exact fresh x inLevels same
  obtain ⟨l0, rest, split⟩ := List.exists_cons_of_length_pos inside
  refine distinctSub more (Eq.le (Multiset.coe_eq_coe.mpr ?_))
  rw [split]
  simp only [List.set_cons_zero, List.getD_cons_zero, List.flatten_cons, List.append_assoc,
    List.singleton_append]
  exact List.perm_middle

theorem treeShape (moved : Moves s a t) (sound : Sound s) :
    SnapshotShape t.tree.maxLevel t.tree.sequenceNumber t.tree.snapshot := by
  have tree := sound.tree
  have kept : ∀ memtable, SnapshotShape s.tree.maxLevel s.tree.sequenceNumber
      { s.tree with memtable := memtable }.snapshot := fun _ =>
    ⟨tree.length, tree.distinct, tree.immutables, tree.sequenceNumber⟩
  have inside : s.tree.levels.length = s.tree.maxLevel + 1 := tree.length
  cases moved with
  | wrote a memtable isWrite idle data => exact kept memtable
  | wroteFull a memtable isWrite idle data nonempty => exact kept _
  | saveFlush name label idle nonempty => exact kept _
  | saveNoFlush name label idle empty => exact kept _
  | rollback i snap idle found past =>
    have shape := sound.held snap (List.mem_of_getElem? found)
    exact ⟨shape.length, shape.distinct, shape.immutables, rfl⟩
  | flushPush faults h after f r here quiet ends =>
    refine ⟨?_, distinctPush tree.distinct (fun x member same => ?_) (by omega), tree.immutables,
      tree.sequenceNumber⟩
    · simpa [pushL0, withLevels, LsmTree.snapshot] using inside
    · have book := bookAt sound here
      refine book.fresh x ?_ (same ▸ List.mem_cons_self)
      simp only [settledBase, Multiset.mem_add, Multiset.mem_coe]
      exact Or.inl (Or.inl (Or.inl (Or.inl member)))
  | compactAllInstall faults all result here =>
    have flat := clearedFlatten s.tree.levels (show s.tree.maxLevel < _ by omega) result.output
    refine ⟨?_, ?_, tree.immutables, tree.sequenceNumber⟩
    · unfold clearedLevels
      cases result.output <;> simpa [discard, withLevels, return_, LsmTree.snapshot] using inside
    · simp only [discard, withLevels, return_, LsmTree.snapshot, flat]
      cases result.output <;> simp [Distinct]
  | compacting t faults c c' here moved =>
    have shape := sound.foreground
    rw [here] at shape
    exact moved.treeShape shape tree (bookCycle sound here)
  | compacted t faults c r here moved =>
    have shape := sound.foreground
    rw [here] at shape
    exact moved.treeShape shape tree (bookCycle sound here)
  | background t faults c c' here moved =>
    exact moved.treeShape (sound.background c here) tree (bookBackground sound here)
  | backgroundEnd t faults c r here moved =>
    exact moved.treeShape (sound.background c here) tree (bookBackground sound here)
  | _ => exact tree

theorem heldShape (moved : Moves s a t) (sound : Sound s) :
    ∀ snap ∈ t.held, SnapshotShape t.tree.maxLevel t.tree.sequenceNumber snap := by
  intro x member
  have held := sound.held
  cases moved with
  | snapshot idle =>
    rcases List.mem_append.mp member with old | new
    · exact held x old
    · rw [List.mem_singleton.mp new]
      exact sound.tree
  | refused i snap idle found future => exact held x (List.mem_of_mem_eraseIdx member)
  | rollback i snap idle found past =>
    have shape := held x (List.mem_of_mem_eraseIdx member)
    have same := (held snap (List.mem_of_getElem? found)).sequenceNumber
    exact ⟨shape.length, shape.distinct, shape.immutables, shape.sequenceNumber.trans same.symm⟩
  | cloneSnapshot i snap found =>
    rcases List.mem_append.mp member with old | new
    · exact held x old
    · rw [List.mem_singleton.mp new]
      exact held snap (List.mem_of_getElem? found)
  | dropSnapshot i snap found => exact held x (List.mem_of_mem_eraseIdx member)
  | compacting t faults c c' here moved =>
    have frame := moved.frame
    simp only [at_, frame.maxLevel, frame.sequenceNumber, frame.held] at member ⊢
    exact held x member
  | compacted t faults c r here moved =>
    have frame := moved.frame
    simp only [return_, frame.maxLevel, frame.sequenceNumber, frame.held] at member ⊢
    exact held x member
  | background t faults c c' here moved =>
    have frame := moved.frame
    simp only [frame.maxLevel, frame.sequenceNumber, frame.held] at member ⊢
    exact held x member
  | backgroundEnd t faults c r here moved =>
    have frame := moved.frame
    simp only [frame.maxLevel, frame.sequenceNumber, frame.held] at member ⊢
    exact held x member
  | _ => exact held x member

theorem shapeLater {maxLevel generation generation' : Nat} {c : Cycle}
    (later : generation ≤ generation') (shape : c.Shape maxLevel generation) :
    c.Shape maxLevel generation' := ⟨Nat.le_trans shape.1 later, shape.2⟩

theorem foregroundShape (moved : Moves s a t) (sound : Sound s) :
    t.foreground.Shape t.tree.maxLevel t.tree.compactionGeneration := by
  have shape := sound.foreground
  cases moved with
  | wrote a memtable isWrite idle data => trivial
  | wroteFull a memtable isWrite idle data nonempty => exact nonempty
  | compact idle => exact ⟨Nat.le_refl _, trivial⟩
  | compactAllClone idle some => exact ⟨sound.tree.distinct, some⟩
  | saveFlush name label idle nonempty => exact nonempty
  | flushNumber faults old after here => rw [here] at shape; exact shape
  | flushWrite faults old n after h st here done =>
    exact (SsTableWriter.writeOk done).handle.2.2.1
  | flushPush faults h after f r here quiet ends => cases quiet <;> trivial
  | drained faults after f r here quiet ends => cases quiet <;> trivial
  | compacting t faults c c' here moved =>
    rw [here] at shape
    exact moved.shape shape sound.tree.length sound.tree.distinct sound.positive
      (Cycle.Moves.clonesReadable (bookCycle sound here))
  | compactAllNumber faults all here => rw [here] at shape; exact shape
  | compactAllMerge faults all n result st here done =>
    rw [here] at shape
    have readable : Readable s.storage all := (bookAt sound here).readable (fun x member => by
      simp only [Multiset.mem_add, Multiset.mem_coe, Foreground.clones]
      exact Or.inl (Or.inr member))
    have merged := Compactor.mergeAndWriteOk (Compactor.mergeAllAll readable) done
    refine ⟨shape.1, shape.2, ?_⟩
    cases merged with
    | nothing empty => exact ⟨rfl, empty⟩
    | output nonempty h st' written => exact ⟨rfl, written.entries, written.handle.2.2.1⟩
  | background t faults c c' here moved =>
    have frame := moved.frame
    simp only [frame.foreground, frame.maxLevel, frame.generation]
    exact shape
  | backgroundEnd t faults c r here moved =>
    have frame := moved.frame
    simp only [frame.foreground, frame.maxLevel, frame.generation]
    exact shape
  | cloneSnapshot i snap found => exact shape
  | dropSnapshot i snap found => exact shape
  | collect i h found => exact shape
  | begin faults none => exact shape
  | snapshot idle => exact shape
  | _ => trivial

theorem backgroundShape (moved : Moves s a t) (sound : Sound s) :
    ∀ c ∈ t.background, c.Shape t.tree.maxLevel t.tree.compactionGeneration := by
  intro b member
  have shape := sound.background
  cases moved with
  | rollback i snap idle found past => exact shapeLater (Nat.le_succ _) (shape b member)
  | compacting t faults c c' here moved =>
    have frame := moved.frame
    simp only [at_, frame.maxLevel, frame.generation, frame.background] at member ⊢
    exact shape b member
  | compacted t faults c r here moved =>
    have frame := moved.frame
    simp only [return_, frame.maxLevel, frame.generation, frame.background] at member ⊢
    exact shape b member
  | begin faults none =>
    cases Option.some.inj member
    exact ⟨Nat.le_refl _, trivial⟩
  | background t faults c c' here moved =>
    cases Option.some.inj member
    exact moved.shape (shape c here) sound.tree.length sound.tree.distinct sound.positive
      (Cycle.Moves.clonesReadable (bookBackground sound here))
  | backgroundEnd t faults c r here moved => cases member
  | _ => exact shape b member

theorem maxLevelKept (moved : Moves s a t) : t.tree.maxLevel = s.tree.maxLevel ∧
    t.tree.config = s.tree.config := by
  cases moved with
  | compacting t faults c c' here moved => exact ⟨moved.frame.maxLevel, moved.frame.config⟩
  | compacted t faults c r here moved => exact ⟨moved.frame.maxLevel, moved.frame.config⟩
  | background t faults c c' here moved => exact ⟨moved.frame.maxLevel, moved.frame.config⟩
  | backgroundEnd t faults c r here moved => exact ⟨moved.frame.maxLevel, moved.frame.config⟩
  | _ => exact ⟨rfl, rfl⟩

theorem arrangedLength (moved : Moves s a t) (before : s.Arranged) :
    t.tree.levels.length = t.tree.maxLevel + 1 := by
  cases moved with
  | rollback i snap idle found past => exact before.held snap (List.mem_of_getElem? found)
  | flushPush faults h after f r here quiet ends => exact (List.length_set ..).trans before.length
  | compactAllInstall faults all result here =>
    have length := before.length
    unfold clearedLevels
    cases result.output <;> simpa [discard, withLevels, return_] using length
  | compacting t faults c c' here moved =>
    exact moved.levelsLength.trans (moved.frame.maxLevel ▸ before.length)
  | compacted t faults c r here moved =>
    exact moved.levelsLength.trans (moved.frame.maxLevel ▸ before.length)
  | background t faults c c' here moved =>
    exact moved.levelsLength.trans (moved.frame.maxLevel ▸ before.length)
  | backgroundEnd t faults c r here moved =>
    exact moved.levelsLength.trans (moved.frame.maxLevel ▸ before.length)
  | _ => exact before.length

theorem arrangedHeld (moved : Moves s a t) (before : s.Arranged) :
    ∀ snap ∈ t.held, snap.levels.length = s.tree.maxLevel + 1 := by
  intro x member
  cases moved with
  | snapshot idle =>
    rcases List.mem_append.mp member with old | new
    · exact before.held x old
    · rw [List.mem_singleton.mp new]
      exact before.length
  | refused i snap idle found future => exact before.held x (List.mem_of_mem_eraseIdx member)
  | rollback i snap idle found past => exact before.held x (List.mem_of_mem_eraseIdx member)
  | cloneSnapshot i snap found =>
    rcases List.mem_append.mp member with old | new
    · exact before.held x old
    · rw [List.mem_singleton.mp new]
      exact before.held snap (List.mem_of_getElem? found)
  | dropSnapshot i snap found => exact before.held x (List.mem_of_mem_eraseIdx member)
  | compacting t faults c c' here moved => exact before.held x (moved.frame.held ▸ member)
  | compacted t faults c r here moved => exact before.held x (moved.frame.held ▸ member)
  | background t faults c c' here moved => exact before.held x (moved.frame.held ▸ member)
  | backgroundEnd t faults c r here moved => exact before.held x (moved.frame.held ▸ member)
  | _ => exact before.held x member

theorem arrangedForeground (moved : Moves s a t) (before : s.Arranged) :
    t.foreground.Arranged t.tree.maxLevel := by
  have front := before.foreground
  cases moved with
  | flushPush faults h after f r here quiet ends => cases quiet <;> trivial
  | drained faults after f r here quiet ends => cases quiet <;> trivial
  | compacting t faults c c' here moved =>
    rw [here] at front
    exact moved.arranged front before.length before.positive
  | background t faults c c' here moved =>
    have frame := moved.frame
    simp only [frame.foreground, frame.maxLevel]
    exact front
  | backgroundEnd t faults c r here moved =>
    have frame := moved.frame
    simp only [frame.foreground, frame.maxLevel]
    exact front
  | cloneSnapshot i snap found => exact front
  | dropSnapshot i snap found => exact front
  | collect i h found => exact front
  | begin faults none => exact front
  | snapshot idle => exact front
  | _ => trivial

theorem arrangedBackground (moved : Moves s a t) (before : s.Arranged) :
    ∀ c ∈ t.background, c.Arranged t.tree.maxLevel := by
  intro b member
  cases moved with
  | compacting t faults c c' here moved =>
    have frame := moved.frame
    simp only [at_, frame.maxLevel, frame.background] at member ⊢
    exact before.background b member
  | compacted t faults c r here moved =>
    have frame := moved.frame
    simp only [return_, frame.maxLevel, frame.background] at member ⊢
    exact before.background b member
  | begin faults none =>
    cases Option.some.inj member
    trivial
  | background t faults c c' here moved =>
    cases Option.some.inj member
    exact moved.arranged (before.background c here) before.length before.positive
  | backgroundEnd t faults c r here moved => cases member
  | _ => exact before.background b member

theorem arranged (moved : Moves s a t) (before : s.Arranged) : t.Arranged := by
  have depth := moved.maxLevelKept.1
  exact ⟨depth ▸ before.positive, moved.arrangedLength before, fun x member => depth ▸ moved.arrangedHeld before x member,
    moved.arrangedForeground before, moved.arrangedBackground before⟩

theorem sound (moved : Moves s a t) (sound : Sound s) : Sound t :=
  ⟨moved.ledger sound, by rw [moved.maxLevelKept.1]; exact sound.positive, moved.treeShape sound,
    moved.heldShape sound, moved.foregroundShape sound, moved.backgroundShape sound⟩

end State.Moves

theorem Sound.run {ok : State → Action → Prop} {s t : State} {as : List Action}
    (run : Trace.Run State.step ok s as t) (start : Sound s) : Sound t :=
  run.invariant (fun _ _ _ taken _ sound => (State.stepMoves taken).sound sound) start

namespace Sound
variable {s : State}

theorem treeReadable (sound : Sound s) : Readable s.storage s.tree.levels.flatten :=
  sound.ledger.readable (State.Moves.levelsSettled s)

theorem heldReadable (sound : Sound s) {snap : LsmSnapshot} (member : snap ∈ s.held) :
    Readable s.storage snap.levels.flatten := by
  obtain ⟨i, found⟩ := List.getElem?_of_mem member
  exact sound.ledger.readable (State.Moves.heldSettled found)

end Sound
end CardanoLsm
