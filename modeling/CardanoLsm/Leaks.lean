import CardanoLsm.Calls
import CardanoLsm.Opening

/-! Run files and their handles: no file in `active/` outlives the handles of its run.
With the books of the session this makes files and live handles the same thing. -/
namespace CardanoLsm
open Std Layered

def State.live (s : State) : Multiset SsTableHandle := s.settled + ↑s.outputs

def Storage.Covered (st : Storage) (live : Multiset SsTableHandle) : Prop :=
  ∀ n, st.active.lookup n ≠ none → ∃ h ∈ live, h.runNumber = n

theorem Storage.Covered.dropHandle {st : Storage} {live : Multiset SsTableHandle} {h : SsTableHandle}
    (own : Owns st (h ::ₘ live)) (covered : st.Covered (h ::ₘ live)) :
    (st.dropHandle h).Covered live := by
  have place := own.inActive h (Multiset.mem_cons_self h live)
  intro n listed
  unfold Storage.dropHandle at listed
  by_cases last : st.refcounts h.refcount = 1
  · simp only [last, if_true, place, Storage.removeFiles, Assoc.lookupFilter] at listed
    split at listed
    · exact absurd rfl listed
    · rename_i other
      obtain ⟨x, member, number⟩ := covered n listed
      rcases Multiset.mem_cons.mp member with rfl | inside
      · exact absurd number.symm other
      · exact ⟨x, inside, number⟩
  · simp only [last, if_false] at listed
    obtain ⟨x, member, number⟩ := covered n listed
    rcases Multiset.mem_cons.mp member with rfl | inside
    · obtain ⟨y, inside, same⟩ := own.counts.another last
      exact ⟨y, inside, same.trans number⟩
    · exact ⟨x, inside, number⟩

theorem Storage.Covered.dropAll {hs : List SsTableHandle} {st : Storage} {live : Multiset SsTableHandle}
    (own : Owns st (↑hs + live)) (covered : st.Covered (↑hs + live)) :
    (hs.foldl Storage.dropHandle st).Covered live := by
  induction hs generalizing st with
  | nil => simpa using covered
  | cons h rest ih =>
    have same : (↑(h :: rest) + live : Multiset SsTableHandle) = h ::ₘ (↑rest + live) := by
      rw [← Multiset.cons_coe, Multiset.cons_add]
    rw [same] at own covered
    exact ih own.dropHandle (Covered.dropHandle own covered)

def Cycle.Holds (s : State) (clones outputs : List SsTableHandle) (x : SsTableHandle) : Prop :=
  x ∈ s.tree.levels.flatten ∨ x ∈ s.garbage ∨ x ∈ clones ∨ x ∈ outputs

namespace Cycle.Moves
variable {faults : Nat → Bool} {s t : State} {c : Cycle} {p : Progress}

theorem holds (moved : Cycle.Moves faults s c p t)
    (shape : c.Shape s.tree.maxLevel s.tree.compactionGeneration)
    (length : s.tree.levels.length = s.tree.maxLevel + 1) {x : SsTableHandle}
    (held : Cycle.Holds s c.clones c.outputs x) : Cycle.Holds t p.clones p.outputs x := by
  cases moved with
  | writeBack g snap job runs result current =>
    obtain ⟨selected, rfl, removes, -⟩ := shape.2
    have counts := writeBackSplits length selected.job removes
    have moved : x ∈ s.tree.levels.flatten ∨ x ∈ result.output.toList →
        x ∈ (Compactor.writeBack s.tree.levels job.sourceLevel job.targetLevel s.tree.maxLevel
          result).1.flatten ∨ x ∈ (Compactor.writeBack s.tree.levels job.sourceLevel job.targetLevel
            s.tree.maxLevel result).2 := by
      intro before
      have both := congrArg (x ∈ ·) counts
      simp only [Multiset.mem_add, Multiset.mem_coe] at both
      exact both.mpr before
    simp only [Holds, Cycle.clones, Cycle.outputs, Progress.clones, Progress.outputs, State.discard,
      State.withLevels, List.mem_append] at held ⊢
    grind
  | _ =>
    simp only [Holds, Cycle.clones, Cycle.outputs, Progress.clones, Progress.outputs, State.discard,
      State.cloneAll, State.allocate, List.mem_append] at held ⊢
    grind

theorem listed (moved : Cycle.Moves faults s c p t) (clean : ∀ j, faults j = false)
    {rest : Multiset SsTableHandle} {outputs : List SsTableHandle} {allocated : List Nat}
    (book : Book s c rest outputs allocated)
    (shape : c.Shape s.tree.maxLevel s.tree.compactionGeneration) {n : Nat}
    (found : t.storage.active.lookup n ≠ none) :
    s.storage.active.lookup n ≠ none ∨ ∃ h ∈ p.outputs, h.runNumber = n := by
  cases moved with
  | nothing g none =>
    rw [State.discard, State.cloneAll, (Ledger.cloneActive _ s.storage).1] at found
    exact Or.inl found
  | select g job selected =>
    rw [State.cloneAll, (Ledger.cloneActive _ s.storage).1] at found
    exact Or.inl found
  | number g snap job =>
    rw [State.cloneAll, (Ledger.cloneActive _ _).1] at found
    exact Or.inl found
  | failed g snap job m runs e st failed =>
    obtain ⟨selected, rfl⟩ := shape.2
    have unused := book.unused m (Or.inl (by simp [Cycle.allocated]))
    obtain ⟨result, st', done⟩ := mergeEnds selected (clonesReadable book) unused clean
    rw [done] at failed
    cases failed
  | merge g snap job m runs result st done =>
    obtain ⟨selected, rfl⟩ := shape.2
    cases mergeDone selected (clonesReadable book) done with
    | nothing empty => exact Or.inl found
    | output nonempty h st' written =>
      by_cases here : n = m
      · exact Or.inr ⟨h, by simp [Progress.outputs, Cycle.outputs], written.handle.2.1.trans here.symm⟩
      · simp only [State.discard, written.others n here] at found
        exact Or.inl found
  | stale g snap job runs result changed => exact Or.inl found
  | writeBack g snap job runs result current => exact Or.inl found

end Cycle.Moves

namespace State.Moves
variable {s t : State} {a : Action}

theorem memLive {s : State} {x : SsTableHandle} : x ∈ s.live ↔
    x ∈ s.tree.levels.flatten ∨ x ∈ s.garbage ∨ x ∈ heldHandles s.held ∨ x ∈ s.foreground.clones ∨
      x ∈ s.foreground.outputs ∨ x ∈ s.background.elim [] Cycle.clones ∨
        x ∈ s.background.elim [] Cycle.outputs := by
  simp only [live, settled, settledBase, outputs, Multiset.mem_add, Multiset.mem_coe, List.mem_append]
  grind

theorem frontKept {s t : State} {x : SsTableHandle} (member : x ∈ s.live)
    (levels : t.tree.levels = s.tree.levels)
    (garbage : ∀ y ∈ s.garbage, y ∈ t.garbage) (held : t.held = s.held)
    (background : t.background = s.background)
    (front : x ∈ s.foreground.clones ∨ x ∈ s.foreground.outputs →
      x ∈ t.foreground.clones ∨ x ∈ t.foreground.outputs ∨ x ∈ t.garbage) : x ∈ t.live := by
  rw [memLive] at member ⊢
  rw [levels, held, background]
  have kept := garbage x
  grind

theorem heldEraseMem {held : List LsmSnapshot} {i : Nat} {snap : LsmSnapshot} {x : SsTableHandle}
    (found : held[i]? = some snap) : x ∈ heldHandles held ↔
      x ∈ snap.levels.flatten ∨ x ∈ heldHandles (held.eraseIdx i) := by
  rw [← Multiset.mem_coe, heldErase found, Multiset.mem_add, Multiset.mem_coe, Multiset.mem_coe]

theorem liveKept (moved : Moves s a t) (sound : Sound s) (noDrop : ∀ i, a ≠ .collect i)
    {x : SsTableHandle} (member : x ∈ s.live) : x ∈ t.live := by
  have length := sound.tree.length
  have shape := sound.foreground
  cases moved with
  | collect i h found => exact absurd rfl (noDrop i)
  | snapshot idle =>
    rw [memLive] at member ⊢
    simp only [cloneAll, heldHandles, List.flatMap_append, List.mem_append] at member ⊢
    grind
  | refused i snap idle found future =>
    rw [memLive] at member ⊢
    simp only [heldEraseMem found, idle, discard, return_, List.mem_append] at member ⊢
    grind
  | rollback i snap idle found past =>
    rw [memLive] at member ⊢
    simp only [heldEraseMem found, idle, discard, return_, withTree, LsmTree.restore,
      List.mem_append] at member ⊢
    grind
  | cloneSnapshot i snap found =>
    rw [memLive] at member ⊢
    simp only [cloneAll, heldHandles, List.flatMap_append, List.mem_append] at member ⊢
    grind
  | dropSnapshot i snap found =>
    rw [memLive] at member ⊢
    simp only [heldEraseMem found, discard, List.mem_append] at member ⊢
    grind
  | flushPush faults h after f r here quiet ends =>
    rw [memLive] at member ⊢
    have inside : 0 < s.tree.levels.length := by
      have : s.tree.levels.length = s.tree.maxLevel + 1 := length
      omega
    have pushed : x ∈ (s.tree.levels.set 0 (s.tree.levels.getD 0 [] ++ [h])).flatten ↔
        x ∈ s.tree.levels.flatten ∨ x = h := by
      obtain ⟨l0, rest, split⟩ := List.exists_cons_of_length_pos inside
      rw [split]
      simp only [List.set_cons_zero, List.getD_cons_zero, List.flatten_cons, List.mem_append,
        List.mem_singleton]
      grind
    simp only [quiet.clones, quiet.outputs]
    simp only [here, Foreground.clones, Foreground.outputs, List.mem_singleton, pushL0, withLevels,
      pushed] at member ⊢
    grind
  | drained faults after f r here quiet ends =>
    rw [memLive] at member ⊢
    simp only [quiet.clones, quiet.outputs]
    simpa only [here, Foreground.clones, Foreground.outputs] using member
  | compacting t faults c c' here moved =>
    rw [memLive] at member ⊢
    have frame := moved.frame
    rw [here] at shape
    have kept := moved.holds (x := x) shape length
    simp only [Cycle.Holds, Progress.clones, Progress.outputs] at kept
    simp only [here, Foreground.clones, Foreground.outputs, at_, frame.held, frame.background]
      at member ⊢
    grind
  | compacted t faults c r here moved =>
    rw [memLive] at member ⊢
    have frame := moved.frame
    rw [here] at shape
    have kept := moved.holds (x := x) shape length
    simp only [Cycle.Holds, Progress.clones, Progress.outputs] at kept
    simp only [here, Foreground.clones, Foreground.outputs, return_, frame.held, frame.background]
      at member ⊢
    grind
  | compactAllInstall faults all result here =>
    rw [memLive] at member ⊢
    simp only [here, Foreground.clones, Foreground.outputs, discard, withLevels, return_,
      List.mem_append, clearedFlatten s.tree.levels (show s.tree.maxLevel < s.tree.levels.length by
        have : s.tree.levels.length = s.tree.maxLevel + 1 := length
        omega)] at member ⊢
    grind
  | begin faults none =>
    rw [memLive] at member ⊢
    simp only [none, Option.elim_none, Option.elim_some, Cycle.clones, Cycle.outputs] at member ⊢
    exact member
  | background t faults c c' here moved =>
    rw [memLive] at member ⊢
    have frame := moved.frame
    have kept := moved.holds (x := x) (sound.background c here) length
    simp only [Cycle.Holds, Progress.clones, Progress.outputs] at kept
    simp only [here, Option.elim_some, frame.held, frame.foreground] at member ⊢
    grind
  | backgroundEnd t faults c r here moved =>
    rw [memLive] at member ⊢
    have frame := moved.frame
    have kept := moved.holds (x := x) (sound.background c here) length
    simp only [Cycle.Holds, Progress.clones, Progress.outputs] at kept
    simp only [here, Option.elim_some, Option.elim_none, frame.held, frame.foreground] at member ⊢
    grind
  | compactAllFailed faults all n e st here failed =>
    refine frontKept member rfl (fun y => List.mem_append_left _) rfl rfl (fun front => ?_)
    simp only [here, Foreground.clones, Foreground.outputs, List.not_mem_nil, or_false] at front
    exact Or.inr (Or.inr (List.mem_append_right _ front))
  | saveCreate faults name label seq all r st here created =>
    refine frontKept member rfl (fun y => List.mem_append_left _) rfl rfl (fun front => ?_)
    simp only [here, Foreground.clones, Foreground.outputs, List.not_mem_nil, or_false] at front
    exact Or.inr (Or.inr (List.mem_append_right _ front))
  | compactAllNumber faults all here =>
    refine frontKept member rfl (fun _ => id) rfl rfl (fun front => ?_)
    simp only [here, Foreground.clones, Foreground.outputs, List.not_mem_nil, or_false] at front
    exact Or.inl front
  | compactAllMerge faults all n result st here done =>
    refine frontKept member rfl (fun _ => id) rfl rfl (fun front => ?_)
    simp only [here, Foreground.clones, Foreground.outputs, List.not_mem_nil, or_false] at front
    exact Or.inl front
  | _ =>
    -- the call held no handle yet
    refine frontKept member rfl (fun _ => id) rfl rfl (fun front => ?_)
    clear member sound shape
    simp only [*, Foreground.clones, Foreground.outputs, List.not_mem_nil, or_false] at front

theorem listed (moved : Moves s a t) (sound : Sound s) (clean : a.Clean) {n : Nat}
    (found : t.storage.active.lookup n ≠ none) :
    s.storage.active.lookup n ≠ none ∨ ∃ h ∈ t.outputs, h.runNumber = n := by
  have cloned : ∀ hs, (s.storage.cloneAll hs).active = s.storage.active := fun hs =>
    (Ledger.cloneActive hs s.storage).1
  cases moved with
  | snapshot idle => exact Or.inl (cloned _ ▸ found)
  | cloneSnapshot i snap held => exact Or.inl (cloned _ ▸ found)
  | compactAllClone idle some => exact Or.inl (cloned _ ▸ found)
  | saveClone faults name label here => exact Or.inl (cloned _ ▸ found)
  | flushFailed faults old m after e st here failed => exact (flushDone sound clean here failed).elim
  | flushWrite faults old m after h st here done =>
    have written := SsTableWriter.writeOk done
    by_cases same : n = m
    · exact Or.inr ⟨h, by simp [outputs, at_, Foreground.outputs], written.handle.2.1.trans same.symm⟩
    · simp only [at_, written.others n same] at found
      exact Or.inl found
  | compacting t faults c c' here moved =>
    have shape := sound.foreground
    rw [here] at shape
    rcases moved.listed clean (bookCycle sound here) shape found with old | ⟨h, member, number⟩
    · exact Or.inl old
    · exact Or.inr ⟨h, List.mem_append_left _ member, number⟩
  | compacted t faults c r here moved =>
    have shape := sound.foreground
    rw [here] at shape
    rcases moved.listed clean (bookCycle sound here) shape found with old | ⟨h, member, number⟩
    · exact Or.inl old
    · cases member
  | compactAllFailed faults all m e st here failed =>
    have book := bookAt sound here
    have reads : (fun st => Compactor.mergeAll st (List.range all.length) all) s.storage =
        .ok (Layered.live (Compactor.mergedSources all)) :=
      Compactor.mergeAllAll (book.readable (fun x member => cloneMember member))
    have ends : ∃ result st', Compactor.compact faults (List.range all.length) all m s.storage =
        (.ok result, st') := Compactor.mergeAndWriteEnds clean reads
          (book.unused m (Or.inl (by simp [Foreground.allocated])))
    obtain ⟨result, st', done⟩ := ends
    rw [done] at failed
    cases failed
  | compactAllMerge faults all m result st here done =>
    have book := bookAt sound here
    have merged := Compactor.mergeAndWriteOk (Compactor.mergeAllAll
      (book.readable (fun x member => cloneMember member))) done
    cases merged with
    | nothing empty => exact Or.inl found
    | output nonempty h st' written =>
      by_cases same : n = m
      · exact Or.inr ⟨h, by simp [outputs, at_, Foreground.outputs], written.handle.2.1.trans same.symm⟩
      · simp only [at_, written.others n same] at found
        exact Or.inl found
  | saveCreate faults name label seq all r st here created =>
    have book := bookAt sound here
    have aside := PersistentSnapshot.createAside (fun h member => book.owns.counts.positive
      (Multiset.mem_add.mpr (Or.inl (cloneMember member)))) created
    simp only [discard, return_, aside.active] at found
    exact Or.inl found
  | background t faults c c' here moved =>
    rcases moved.listed clean (bookBackground sound here) (sound.background c here) found with
      old | ⟨h, member, number⟩
    · exact Or.inl old
    · exact Or.inr ⟨h, List.mem_append_right _ member, number⟩
  | backgroundEnd t faults c r here moved =>
    rcases moved.listed clean (bookBackground sound here) (sound.background c here) found with
      old | ⟨h, member, number⟩
    · exact Or.inl old
    · cases member
  | collect i h held =>
    refine Or.inl (fun absent => found ?_)
    exact Ledger.dropActive s.storage h absent
  | _ => exact Or.inl found

theorem covered (moved : Moves s a t) (sound : Sound s) (clean : a.Clean)
    (covered : s.storage.Covered s.live) : t.storage.Covered t.live := by
  have general : (∀ i, a ≠ .collect i) → t.storage.Covered t.live := by
    intro noDrop n found
    rcases moved.listed sound clean found with old | ⟨h, member, number⟩
    · obtain ⟨h, member, number⟩ := covered n old
      exact ⟨h, moved.liveKept sound noDrop member, number⟩
    · exact ⟨h, Multiset.mem_add.mpr (Or.inr (Multiset.mem_coe.mpr member)), number⟩
  cases moved with
  | collect i h found =>
    have same : s.live = h ::ₘ ({ s with
        storage := s.storage.dropHandle h
        garbage := s.garbage.eraseIdx i } : State).live := by
      simp only [live, settled, settledBase, outputs, garbageErase found, ← Multiset.singleton_add]
      abel
    have own := sound.ledger.owns
    rw [← live, same] at own
    rw [same] at covered
    exact Storage.Covered.dropHandle own covered
  | wrote a memtable isWrite idle data => exact general (fun i same => by subst same; cases isWrite)
  | wroteFull a memtable isWrite idle data nonempty =>
    exact general (fun i same => by subst same; cases isWrite)
  | _ => exact general (fun i => by simp)

end State.Moves

inductive StartsEmpty : State → Prop where
  | opened (config : LsmConfig) (st : Storage) (counters : ∀ c, st.refcounts c = 0)
      (empty : st.active = []) (overflowChecks : Bool) : StartsEmpty (.begin (LsmTree.open config st) overflowChecks)
  | openedSnapshot (name : String) (st : Storage) (counters : ∀ c, st.refcounts c = 0)
      (empty : st.active = []) (t : LsmTree) (st' : Storage)
      (ok : LsmTree.openSnapshot name st = (.ok t, st')) (overflowChecks : Bool) :
      StartsEmpty (.begin (t, st') overflowChecks)

namespace StartsEmpty

theorem starts {s : State} (empty : StartsEmpty s) : Starts s := by
  cases empty with
  | opened config st counters empty overflowChecks =>
    exact .opened config st ⟨counters, by rw [empty]; exact List.nodup_nil⟩ overflowChecks
  | openedSnapshot name st counters empty t st' ok overflowChecks =>
    exact .openedSnapshot name st ⟨counters, by rw [empty]; exact List.nodup_nil⟩ t st' ok overflowChecks

theorem beginLive (t : LsmTree) (st : Storage) (overflowChecks : Bool) :
    (State.begin (t, st) overflowChecks).live = ↑t.levels.flatten := by
  simp [State.live, State.settled, State.settledBase, State.outputs, State.begin, State.heldHandles,
    Foreground.clones, Foreground.outputs]

theorem snapshotCovered {name : String} {st st' : Storage} (counters : ∀ c, st.refcounts c = 0)
    {t : LsmTree} (ok : LsmTree.openSnapshot name st = (.ok t, st')) : st'.Covered ↑t.levels.flatten := by
  obtain ⟨metadata, sstables, linked, opened, done, rfl, rfl⟩ := Starts.openSnapshotOk counters ok
  have stays : (↑(LsmTree.start metadata.config metadata.sequenceNumber ((metadata.runs.map
      SnapshotRun.runNumber).foldl max 0) sstables).levels.flatten : Multiset SsTableHandle) =
        ↑(sstables.filter (fun h => decide (h.level ≤ 6))) :=
    Multiset.coe_eq_coe.mpr (assemblePerm 6 sstables)
  have all : opened.Covered ↑sstables := by
    intro n found
    rw [done.opens.active, done.active, ne_eq, lookupUnlisted, List.map_map, not_not] at found
    obtain ⟨run, inside, number⟩ := List.mem_map.mp found
    obtain ⟨h, member, same, -⟩ := Assoc.relatedLeft done.pairs inside
    exact ⟨h, member, same.trans number⟩
  rw [stays]
  rw [Starts.levelSplit sstables] at all
  exact Storage.Covered.dropAll (done.opens.owns.congr (Starts.levelSplit sstables)) all

theorem covered {s : State} (empty : StartsEmpty s) : s.storage.Covered s.live := by
  cases empty with
  | opened config st counters empty overflowChecks =>
    intro n found
    have nothing : (LsmTree.open config st).2.active = [] := by
      simp [LsmTree.open, empty, LsmTree.openListed]
    simp only [State.begin] at found
    rw [nothing] at found
    exact absurd rfl found
  | openedSnapshot name st counters empty t st' ok overflowChecks =>
    rw [beginLive]
    exact snapshotCovered counters ok

end StartsEmpty

/-- In a session that starts with an empty `active/` and whose file operations succeed, the
files of a run exist exactly while a handle of it is alive. The handles of a run share one
counter, which is their number, and read the files they were made for. -/
theorem filesLive {s₀ s : State} {as : List Action} (empty : StartsEmpty s₀)
    (ran : Trace.Run State.step (fun _ a => a.Clean) s₀ as s) (n : Nat) :
    ((s.storage.active.lookup n).isSome ↔ ∃ h ∈ s.live, h.runNumber = n) ∧
      ∀ h ∈ s.live, h.runNumber = n →
        h.dir = .active ∧ s.storage.active.lookup n = some (some h.run) ∧
          s.storage.refcounts h.refcount = s.live.countP (fun x => x.runNumber = n) ∧
            ∀ x ∈ s.live, x.runNumber = n → x.refcount = h.refcount := by
  obtain ⟨sound, covered⟩ : Sound s ∧ s.storage.Covered s.live := by
    refine ran.invariant (I := fun s => Sound s ∧ s.storage.Covered s.live)
      (fun s a t taken clean holds => ?_) ⟨empty.starts.sound, empty.covered⟩
    have moved := State.stepMoves taken
    exact ⟨moved.sound holds.1, moved.covered holds.1 clean holds.2⟩
  have own := sound.ledger.owns
  constructor
  · constructor
    · intro found
      exact covered n (Option.isSome_iff_ne_none.mp found)
    · rintro ⟨h, member, rfl⟩
      rw [sound.ledger.listed member]
      rfl
  · rintro h member rfl
    refine ⟨own.inActive h member, sound.ledger.listed member, own.counts.countNum member, ?_⟩
    exact fun x inside same => (own.counts.shared x inside h member).mp same

def discardedScript : List Action :=
  .insert [1] [10] :: ownSteps 3 ++ .snapshot :: List.replicate 4 (.background noFaults) ++
    .rollback 0 :: .background noFaults :: List.replicate 4 (.collect 0)

theorem filesLiveDiscarded : ∃ s,
    Trace.Run State.step (fun _ a => a.Clean) (.fresh ⟨1, 1⟩) discardedScript s ∧
      s.tree.nextRunNumber = 3 ∧ (∃ h ∈ s.live, h.runNumber = 1) ∧ ¬ ∃ h ∈ s.live, h.runNumber = 2 := by
  have clean : ∀ a ∈ discardedScript, a.Clean := by
    simp [discardedScript, ownSteps, noFaults, Action.Clean]
  have ended : (Trace.execWhile State.step (fun _ _ => true) (.fresh ⟨1, 1⟩) discardedScript).any (fun s =>
      decide (s.tree.nextRunNumber = 3) && (s.storage.active.lookup 1).isSome &&
        !(s.storage.active.lookup 2).isSome) = true := by decide +kernel
  obtain ⟨s, ran, tested⟩ := Trace.runTo (fun _ a member _ => clean a member) ended
  simp only [Bool.and_eq_true, decide_eq_true_eq, Bool.not_eq_true'] at tested
  obtain ⟨⟨numbers, one⟩, two⟩ := tested
  have empty : StartsEmpty (.fresh ⟨1, 1⟩) := .opened ⟨1, 1⟩ Storage.empty (fun _ => rfl) rfl false
  refine ⟨s, ran, numbers, (filesLive empty ran 1).1.mp one, fun live => ?_⟩
  have listed := (filesLive empty ran 2).1.mpr live
  rw [two] at listed
  cases listed

end CardanoLsm
