import CardanoLsm.OutlivingSnapshots

/-! The shape of the level vectors in any session of a directory, also beside handles that an earlier
session left behind. What a session makes is told from those by its counter: counters are given out in order. -/
namespace CardanoLsm
open Std Layered Script

structure Recorded (first : Nat) (st : Storage) (nextRunNumber : Nat) (settled : Multiset SsTableHandle)
    (outputs : List SsTableHandle) (allocated : List Nat) : Prop where
  tallied : Tallied st nextRunNumber settled outputs allocated
  begun : first ≤ st.nextRefcount
  apart : (allocated ++ outputs.map SsTableHandle.runNumber).Nodup
  below : ∀ n ∈ allocated ++ outputs.map SsTableHandle.runNumber, n < nextRunNumber
  made : ∀ h ∈ outputs, first ≤ h.refcount
  own : ∀ h ∈ settled, first ≤ h.refcount →
    h.runNumber < nextRunNumber ∧ h.runNumber ∉ allocated ++ outputs.map SsTableHandle.runNumber

namespace Recorded
variable {first : Nat} {st st' : Storage} {next n level : Nat} {settled settled' : Multiset SsTableHandle}
  {outputs outputs' : List SsTableHandle} {allocated allocated' : List Nat} {h : SsTableHandle}

theorem congr (book : Recorded first st next settled outputs allocated) (same : settled = settled')
    (sameOutputs : outputs.Perm outputs') (sameAllocated : allocated.Perm allocated') :
    Recorded first st next settled' outputs' allocated' := by
  have numbers := sameAllocated.append (sameOutputs.map SsTableHandle.runNumber)
  refine ⟨Tallied.bookkeeping.congr book.tallied same sameOutputs sameAllocated, book.begun,
    numbers.nodup_iff.mp book.apart, fun m member => book.below m (numbers.mem_iff.mpr member),
    fun x member => book.made x (sameOutputs.mem_iff.mpr member), fun x member late => ?_⟩
  obtain ⟨low, fresh⟩ := book.own x (same ▸ member) late
  exact ⟨low, fun inside => fresh (numbers.mem_iff.mpr inside)⟩

theorem allocate (book : Recorded first st next settled outputs allocated) :
    Recorded first st (next + 1) settled outputs (next :: allocated) := by
  refine ⟨Tallied.bookkeeping.allocate book.tallied, book.begun, ?_, fun m member => ?_, book.made,
    fun x member late => ?_⟩
  · rw [List.cons_append, List.nodup_cons]
    exact ⟨fun member => Nat.lt_irrefl next (book.below next member), book.apart⟩
  · rcases List.mem_cons.mp member with rfl | old
    · exact Nat.lt_succ_self m
    · exact Nat.lt_succ_of_lt (book.below m old)
  · obtain ⟨low, fresh⟩ := book.own x member late
    refine ⟨Nat.lt_succ_of_lt low, fun inside => ?_⟩
    rcases List.mem_cons.mp inside with same | old
    · omega
    · exact fresh old

theorem forget (book : Recorded first st next settled outputs (n :: allocated)) :
    Recorded first st next settled outputs allocated :=
  ⟨Tallied.bookkeeping.forget book.tallied, book.begun, (List.nodup_cons.mp book.apart).2,
    fun m member => book.below m (List.mem_cons_of_mem n member), book.made, fun x member late =>
      ⟨(book.own x member late).1, fun inside => (book.own x member late).2 (List.mem_cons_of_mem n inside)⟩⟩

theorem counters (book : Recorded first st next settled outputs allocated)
    (tallied : Tallied st' next settled' outputs allocated) (later : st.nextRefcount ≤ st'.nextRefcount)
    (fewer : ∀ x ∈ settled', x ∈ settled) : Recorded first st' next settled' outputs allocated :=
  ⟨tallied, Nat.le_trans book.begun later, book.apart, book.below, book.made,
    fun x member late => book.own x (fewer x member) late⟩

theorem write {entries : Entries} (book : Recorded first st next settled outputs (n :: allocated))
    (written : SsTableWriter.Written n entries level st h st') :
    Recorded first st' next settled (h :: outputs) allocated := by
  obtain ⟨-, number, -, counter⟩ := written.handle
  have moved : (n :: allocated ++ outputs.map SsTableHandle.runNumber).Perm
      (allocated ++ (h :: outputs).map SsTableHandle.runNumber) := by
    rw [List.map_cons, number]
    exact List.perm_middle.symm
  have later := written.nextRefcount
  refine ⟨book.tallied.write written, by have := book.begun; omega, moved.nodup_iff.mp book.apart,
    fun m member => book.below m (moved.mem_iff.mpr member), fun x member => ?_, fun x member late => ?_⟩
  · rcases List.mem_cons.mp member with rfl | old
    · exact counter ▸ book.begun
    · exact book.made x old
  · obtain ⟨low, fresh⟩ := book.own x member late
    exact ⟨low, fun inside => fresh (moved.mem_iff.mpr inside)⟩

theorem publish (book : Recorded first st next settled (h :: outputs) allocated) :
    Recorded first st next (h ::ₘ settled) outputs allocated := by
  have moved : (allocated ++ (h :: outputs).map SsTableHandle.runNumber).Perm
      (h.runNumber :: (allocated ++ outputs.map SsTableHandle.runNumber)) := by
    rw [List.map_cons]
    exact List.perm_middle
  have apart := List.nodup_cons.mp (moved.nodup_iff.mp book.apart)
  refine ⟨Tallied.bookkeeping.publish book.tallied, book.begun, apart.2,
    fun m member => book.below m (moved.mem_iff.mpr (List.mem_cons_of_mem _ member)),
    fun x member => book.made x (List.mem_cons_of_mem h member), fun x member late => ?_⟩
  rcases Multiset.mem_cons.mp member with rfl | old
  · exact ⟨book.below _ (moved.mem_iff.mpr List.mem_cons_self), apart.1⟩
  · obtain ⟨low, fresh⟩ := book.own x old late
    exact ⟨low, fun inside => fresh (moved.mem_iff.mpr (List.mem_cons_of_mem _ inside))⟩

theorem cloneCounters (hs : List SsTableHandle) (st : Storage) : (st.cloneAll hs).nextRefcount = st.nextRefcount := by
  induction hs generalizing st with
  | nil => rfl
  | cons h rest ih => exact ih (st.cloneHandle h)

theorem bookkeeping (first : Nat) : Bookkeeping (Recorded first) where
  congr := congr
  positive book := Tallied.bookkeeping.positive book.tallied
  allocate := allocate
  forget := forget
  abandon book touches := (forget book).counters (Tallied.bookkeeping.abandon book.tallied touches)
    (Nat.le_of_eq touches.nextRefcount.symm) (fun _ member => member)
  write := write
  publish := publish
  cloneAll book members := book.counters (book.tallied.cloneAll members) (Nat.le_of_eq (cloneCounters _ _).symm)
    (fun x member => (Multiset.mem_add.mp member).elim (fun clone => members x (Multiset.mem_coe.mp clone)) id)
  drop book := book.counters book.tallied.drop (Nat.le_of_eq (Tallied.dropCounters _ _).2.symm)
    (fun _ member => Multiset.mem_cons_of_mem member)
  elsewhere book active refcounts nextRefcount := book.counters
    (Tallied.bookkeeping.elsewhere book.tallied active refcounts nextRefcount) (Nat.le_of_eq nextRefcount.symm)
    (fun _ member => member)

end Recorded

structure Levelled (maxLevel : Nat) (levels : Levels) : Prop where
  bottom : (levels.getD maxLevel []).length ≤ 1
  deep : ∀ i, ∀ h ∈ levels.getD i [], h.level ≤ i

structure Native (first : Nat) (levels : Levels) : Prop where
  own : ∀ h ∈ levels.flatten, first ≤ h.refcount
  distinct : Distinct levels.flatten

def Lone (maxLevel : Nat) (levels : List Nat) : Prop := levels.count maxLevel ≤ 1

def Cycle.Labelled : Cycle → Prop
  | .merged _ _ job _ result => ∀ h ∈ result.output, h.level = job.targetLevel
  | _ => True

def Foreground.Labelled (maxLevel : Nat) : Foreground → Prop
  | .flushWritten h _ => h.level = 0
  | .compacting c => c.Labelled
  | .compactAllMerged _ result => ∀ h ∈ result.output, h.level = 0
  | .saveCloned _ _ _ all => Lone maxLevel (all.map SsTableHandle.level)
  | _ => True

structure State.Labelled (s : State) : Prop where
  tree : Levelled s.tree.maxLevel s.tree.levels
  held : ∀ snap ∈ s.held, Levelled s.tree.maxLevel snap.levels
  foreground : s.foreground.Labelled s.tree.maxLevel
  background : ∀ c ∈ s.background, c.Labelled

theorem Levelled.lone {maxLevel : Nat} {levels : Levels} (levelled : Levelled maxLevel levels)
    (length : levels.length = maxLevel + 1) : Lone maxLevel (levels.flatten.map SsTableHandle.level) := by
  have split : levels = levels.take maxLevel ++ [levels.getD maxLevel []] := by
    rw [List.getD_eq_getElem _ _ (by omega : maxLevel < levels.length), List.take_append_getElem]
    exact (List.take_of_length_le (by omega)).symm
  have above : ((levels.take maxLevel).flatten.map SsTableHandle.level).count maxLevel = 0 := by
    refine List.count_eq_zero.mpr (fun member => ?_)
    obtain ⟨h, inside, same⟩ := List.mem_map.mp member
    obtain ⟨level, inside, here⟩ := List.mem_flatten.mp inside
    obtain ⟨i, at_, rfl⟩ := List.mem_iff_getElem.mp inside
    rw [List.length_take] at at_
    have shallow := levelled.deep i h (by
      rw [List.getElem_take] at here
      rwa [List.getD_eq_getElem _ _ (by omega : i < levels.length)])
    omega
  have bottom := levelled.bottom
  rw [split, Lone, List.flatten_append, List.map_append, List.count_append, above, Nat.zero_add, List.flatten_singleton]
  exact (List.count_le_length.trans_eq (List.length_map _)).trans bottom

theorem Compactor.Merged.level {n level : Nat} {indices : List Nat} {all : Entries} {st st' : Storage}
    {result : CompactionResult} (merged : Compactor.Merged n level indices all st result st') :
    ∀ h ∈ result.output, h.level = level := by
  cases merged with
  | nothing empty => exact nofun
  | output nonempty h st' written =>
    intro x member
    cases Option.mem_some.mp member
    exact written.handle.2.2.1

namespace Cycle.Moves
variable {faults : Nat → Bool} {s t : State} {c : Cycle} {p : Progress}

theorem labelled {c' : Cycle} (moved : Cycle.Moves faults s c (.running c') t) : c'.Labelled := by
  cases moved with
  | select g job selected => trivial
  | number g snap job => trivial
  | merge g snap job n runs result st done =>
    obtain ⟨all, -, merged⟩ := Compactor.mergeAndWriteMerged done
    exact merged.level

theorem levelled (moved : Cycle.Moves faults s c p t) (arranged : c.Arranged s.tree.maxLevel)
    (length : s.tree.levels.length = s.tree.maxLevel + 1) (levelled : Levelled s.tree.maxLevel s.tree.levels)
    (cycle : c.Labelled) : Levelled t.tree.maxLevel t.tree.levels := by
  have bottom := moved.bottomKept length levelled.bottom arranged
  rw [moved.frame.maxLevel]
  cases moved with
  | writeBack g snap job runs result current =>
    obtain ⟨picked, rfl, removes⟩ := arranged
    refine ⟨bottom, fun i h member => ?_⟩
    have level := writeBackLevel length picked.job removes i
    simp only [State.discard, State.withLevels] at member
    rw [level] at member
    split at member
    · rename_i target
      subst target
      cases out : result.output with
      | none =>
        rw [out] at member
        exact levelled.deep _ h member
      | some x =>
        have deep : x.level = job.targetLevel := cycle x out
        rw [out, Compactor.newTarget] at member
        split at member
        · rw [List.mem_singleton.mp member]
          exact Nat.le_of_eq deep
        · rcases List.mem_append.mp member with old | new
          · exact levelled.deep _ h old
          · rw [List.mem_singleton.mp new]
            exact Nat.le_of_eq deep
    · split at member
      · rename_i source
        subst source
        exact levelled.deep _ h (List.mem_of_mem_drop member)
      · exact levelled.deep i h member
  | _ => exact levelled

theorem native {first : Nat} {rest : Multiset SsTableHandle} {outputs : List SsTableHandle} {allocated : List Nat}
    (moved : Cycle.Moves faults s c p t) (arranged : c.Arranged s.tree.maxLevel)
    (length : s.tree.levels.length = s.tree.maxLevel + 1) (native : Native first s.tree.levels)
    (book : Recorded first s.storage s.tree.nextRunNumber
      (↑s.tree.levels.flatten + ↑s.garbage + ↑c.clones + rest) (c.outputs ++ outputs) (c.allocated ++ allocated)) :
    Native first t.tree.levels := by
  cases moved with
  | writeBack g snap job runs result current =>
    obtain ⟨picked, rfl, removes⟩ := arranged
    refine ⟨fun h member => ?_, ?_⟩
    · have before := Multiset.mem_of_le (writeBackLe length picked.job removes) (Multiset.mem_coe.mpr member)
      rcases List.mem_append.mp (Multiset.mem_coe.mp before) with old | new
      · exact native.own h old
      · exact book.made h (List.mem_append_left _ new)
    · refine writeBackDistinct length picked.job removes native.distinct (fun h member inside => ?_)
      refine (book.own h ?_ (native.own h member)).2 (List.mem_append_right _ ?_)
      · simp only [Multiset.mem_add, Multiset.mem_coe]
        exact Or.inl (Or.inl (Or.inl member))
      · rw [List.map_append]
        exact List.mem_append_left _ inside
  | _ => exact native

end Cycle.Moves

namespace State.Moves
variable {s t : State} {a : Action}

theorem pushedDeep {h : SsTableHandle} (level : h.level = 0) (deep : ∀ i, ∀ x ∈ s.tree.levels.getD i [], x.level ≤ i) :
    ∀ i, ∀ x ∈ (s.pushL0 h).tree.levels.getD i [], x.level ≤ i := by
  intro i x member
  simp only [pushL0, withLevels] at member
  rw [getDSet] at member
  split at member
  · rename_i zero
    rcases List.mem_append.mp member with old | new
    · exact zero.1 ▸ deep 0 x old
    · rw [List.mem_singleton.mp new, level]
      exact Nat.zero_le i
  · exact deep i x member

theorem treeLevelled (moved : Moves s a t) (arranged : s.Arranged) (labelled : s.Labelled) :
    Levelled t.tree.maxLevel t.tree.levels := by
  have tree := labelled.tree
  have inside := arranged.length
  have bottom := moved.bottomKept arranged tree.bottom
    (fun i snap _ found => (labelled.held snap (List.mem_of_getElem? found)).bottom)
  have foreground := labelled.foreground
  have local_ := arranged.foreground
  cases moved with
  | rollback i snap idle found past => exact labelled.held snap (List.mem_of_getElem? found)
  | flushPush faults h after f r here quiet ends =>
    rw [here] at foreground
    exact ⟨bottom, pushedDeep foreground tree.deep⟩
  | compacting t faults c c' here moved =>
    rw [here] at foreground local_
    exact moved.levelled local_ inside tree foreground
  | compacted t faults c r here moved =>
    rw [here] at foreground local_
    exact moved.levelled local_ inside tree foreground
  | compactAllInstall faults all result here =>
    rw [here] at foreground
    refine ⟨bottom, fun i x member => ?_⟩
    have output : x ∈ result.output.toList := by
      rw [← clearedFlatten s.tree.levels (show s.tree.maxLevel < _ by omega) result.output]
      exact levelSubset member
    rw [foreground x (Option.mem_toList.mp output)]
    exact Nat.zero_le i
  | background t faults c c' here moved =>
    exact moved.levelled (arranged.background c here) inside tree (labelled.background c here)
  | backgroundEnd t faults c r here moved =>
    exact moved.levelled (arranged.background c here) inside tree (labelled.background c here)
  | _ => exact tree

theorem heldLevelled (moved : Moves s a t) (labelled : s.Labelled) :
    ∀ snap ∈ t.held, Levelled t.tree.maxLevel snap.levels := by
  intro x member
  rw [moved.maxLevelKept.1]
  have before := labelled.held x
  cases moved with
  | snapshot idle =>
    rcases List.mem_append.mp member with old | new
    · exact before old
    · rw [List.mem_singleton.mp new]
      exact labelled.tree
  | cloneSnapshot i snap found =>
    rcases List.mem_append.mp member with old | new
    · exact before old
    · rw [List.mem_singleton.mp new]
      exact labelled.held snap (List.mem_of_getElem? found)
  | refused i snap idle found future => exact before (List.mem_of_mem_eraseIdx member)
  | rollback i snap idle found past => exact before (List.mem_of_mem_eraseIdx member)
  | dropSnapshot i snap found => exact before (List.mem_of_mem_eraseIdx member)
  | compacting t faults c c' here moved => exact before (moved.frame.held ▸ member)
  | compacted t faults c r here moved => exact before (moved.frame.held ▸ member)
  | background t faults c c' here moved => exact before (moved.frame.held ▸ member)
  | backgroundEnd t faults c r here moved => exact before (moved.frame.held ▸ member)
  | _ => exact before member

theorem foregroundLabelled (moved : Moves s a t) (arranged : s.Arranged) (labelled : s.Labelled) :
    t.foreground.Labelled t.tree.maxLevel := by
  have before := labelled.foreground
  rw [moved.maxLevelKept.1]
  cases moved with
  | flushWrite faults old n after h st here done => exact (SsTableWriter.writeOk done).handle.2.2.1
  | flushPush faults h after f r here quiet ends => cases quiet <;> trivial
  | drained faults after f r here quiet ends => cases quiet <;> trivial
  | compacting t faults c c' here moved => exact moved.labelled
  | compactAllMerge faults all n result st here done =>
    obtain ⟨entries, -, merged⟩ := Compactor.mergeAndWriteMerged done
    exact merged.level
  | saveClone faults name label here => exact labelled.tree.lone arranged.length
  | snapshot idle => exact before
  | cloneSnapshot i snap found => exact before
  | dropSnapshot i snap found => exact before
  | begin faults none => exact before
  | background t faults c c' here moved => exact moved.frame.foreground ▸ before
  | backgroundEnd t faults c r here moved => exact moved.frame.foreground ▸ before
  | collect i h found => exact before
  | _ => trivial

theorem backgroundLabelled (moved : Moves s a t) (labelled : s.Labelled) : ∀ d ∈ t.background, d.Labelled := by
  intro d running
  have before := labelled.background d
  cases moved with
  | compacting t faults c c' here moved => exact before (moved.frame.background ▸ running)
  | compacted t faults c r here moved => exact before (moved.frame.background ▸ running)
  | begin faults none =>
    cases Option.some.inj running
    trivial
  | background t faults c c' here moved =>
    cases Option.some.inj running
    exact moved.labelled
  | backgroundEnd t faults c r here moved => cases running
  | _ => exact before running

theorem labelled (moved : Moves s a t) (arranged : s.Arranged) (labelled : s.Labelled) : t.Labelled :=
  ⟨moved.treeLevelled arranged labelled, moved.heldLevelled labelled, moved.foregroundLabelled arranged labelled,
    moved.backgroundLabelled labelled⟩

theorem native {first : Nat} (moved : Moves s a t) (arranged : s.Arranged) (native : Native first s.tree.levels)
    (book : Recorded first s.storage s.tree.nextRunNumber s.settled s.outputs s.allocated)
    (back : ∀ i snap, a = .rollback i → s.held[i]? = some snap → Native first snap.levels) :
    Native first t.tree.levels := by
  have inside := arranged.length
  have keeping := Recorded.bookkeeping first
  have local_ := arranged.foreground
  cases moved with
  | rollback i snap idle found past => exact back i snap rfl found
  | flushPush faults h after f r here quiet ends =>
    have current := booksAt book here
    refine ⟨fun x member => ?_, distinctPush native.distinct (fun x member same => ?_) (by omega)⟩
    · obtain ⟨level, here, member⟩ := List.mem_flatten.mp member
      rcases List.mem_or_eq_of_mem_set here with old | rfl
      · exact native.own x (List.mem_flatten.mpr ⟨level, old, member⟩)
      · rcases List.mem_append.mp member with old | new
        · exact native.own x (levelSubset old)
        · rw [List.mem_singleton.mp new]
          exact current.made h List.mem_cons_self
    · refine (current.own x ?_ (native.own x member)).2 (List.mem_append_right _ (same ▸ List.mem_cons_self))
      simp only [settledBase, Multiset.mem_add, Multiset.mem_coe]
      exact Or.inl (Or.inl (Or.inl (Or.inl member)))
  | compacting t faults c c' here moved =>
    rw [here] at local_
    exact moved.native local_ inside native (booksCycle keeping book here)
  | compacted t faults c r here moved =>
    rw [here] at local_
    exact moved.native local_ inside native (booksCycle keeping book here)
  | compactAllInstall faults all result here =>
    have current := booksAt book here
    have flat := clearedFlatten s.tree.levels (show s.tree.maxLevel < _ by omega) result.output
    simp only [discard, withLevels, return_]
    refine ⟨fun x member => ?_, ?_⟩
    · rw [flat] at member
      exact current.made x (List.mem_append_left _ member)
    · rw [flat]
      cases result.output <;> simp [Distinct]
  | background t faults c c' here moved =>
    exact moved.native (arranged.background c here) inside native (booksBackground keeping book here)
  | backgroundEnd t faults c r here moved =>
    exact moved.native (arranged.background c here) inside native (booksBackground keeping book here)
  | _ => exact native

end State.Moves
end CardanoLsm
