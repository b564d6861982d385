import CardanoLsm.Views

/-! What `compact_levels` should hand over, said without its loops: of every key the entry
of the newest source run, at the bottom level over what the target holds. A full scan of a
run stops at 256 bytes `0xFF`; the keys after that are lost. -/
namespace CardanoLsm
open Std Layered

def taken (runs : List SsTableHandle) (indices : List Nat) : List SsTableHandle :=
  indices.filterMap (fun i => runs[i]?)

def Newest (st : Storage) (runs : List SsTableHandle) (k : Key) (e : Entry) : Prop :=
  ∃ h ∈ runs, (st.contents h)[k]? = some e ∧
    ∀ x ∈ runs, (st.contents x)[k]? ≠ none → x.runNumber ≤ h.runNumber

def Deciding (st : Storage) (job : LevelCompactionJob) (runs : List SsTableHandle) (maxLevel : Nat)
    (k : Key) (e : Entry) : Prop :=
  Newest st (taken runs job.sourceRuns) k e ∨
    job.targetLevel = maxLevel ∧ (∀ h ∈ taken runs job.sourceRuns, (st.contents h)[k]? = none) ∧
      job.targetLevelRuns.findSome? (fun h => (st.contents h)[k]?) = some e

def Due (st : Storage) (job : LevelCompactionJob) (runs : List SsTableHandle) (maxLevel : Nat)
    (k : Key) (e : Entry) : Prop :=
  Deciding st job runs maxLevel k e ∧ (job.targetLevel = maxLevel → e.isSome)

def RemovedHolds (st : Storage) (job : LevelCompactionJob) (runs : List SsTableHandle) (maxLevel : Nat)
    (k : Key) : Prop :=
  (∃ h ∈ taken runs job.sourceRuns, (st.contents h)[k]? ≠ none) ∨
    job.targetLevel = maxLevel ∧ ∃ h ∈ job.targetLevelRuns, (st.contents h)[k]? ≠ none

def CompactionResult.entries (result : CompactionResult) : Entries :=
  result.output.elim ∅ (fun h => h.run.entries)

namespace Compactor
variable {st st' : Storage} {runs : List SsTableHandle} {job : LevelCompactionJob} {maxLevel : Nat}

theorem sortedInputsPerm (runs : List SsTableHandle) (indices : List Nat) :
    (sortedInputs runs indices).Perm (taken runs indices) :=
  (List.perm_insertionSort _ indices).filterMap _

theorem sortedInputsAscend (runs : List SsTableHandle) (indices : List Nat) :
    (sortedInputs runs indices).Pairwise (fun a b => a.runNumber ≤ b.runNumber) := by
  let number := fun i : Nat => (runs[i]?.map SsTableHandle.runNumber).getD 0
  have sorted : (indices.insertionSort (fun i j => number i ≤ number j)).Pairwise
      (fun i j => number i ≤ number j) := by
    have : Std.Total (fun i j : Nat => number i ≤ number j) := ⟨fun _ _ => Nat.le_total _ _⟩
    have : IsTrans Nat (fun i j => number i ≤ number j) := ⟨fun _ _ _ => Nat.le_trans⟩
    exact List.pairwise_insertionSort _ indices
  refine List.pairwise_filterMap.mpr (sorted.imp (fun {i j} before a left b right => ?_))
  simpa [number, left, right] using before

theorem resolveNewest (ascending : runs.Pairwise (fun a b => a.runNumber ≤ b.runNumber))
    (same : ∀ a ∈ runs, ∀ b ∈ runs, a.runNumber = b.runNumber → a = b) {k : Key} {e : Entry} :
    resolve (runs.map st.contents).reverse k = some e ↔ Newest st runs k e := by
  induction runs using List.reverseRecOn with
  | nil => simp [Newest]
  | append_singleton before h ih =>
    obtain ⟨earlier, -, below⟩ := List.pairwise_append.mp ascending
    have older := ih earlier (fun a inA b inB =>
      same a (List.mem_append_left _ inA) b (List.mem_append_left _ inB))
    have last : h ∈ before ++ [h] := List.mem_append_right _ List.mem_cons_self
    rw [List.map_append, List.map_singleton, List.reverse_append, List.reverse_singleton,
      List.singleton_append, resolveCons]
    cases held : (st.contents h)[k]? with
    | none =>
      rw [Option.none_or, older]
      constructor
      · rintro ⟨x, member, here, highest⟩
        refine ⟨x, List.mem_append_left _ member, here, fun y inside holds => ?_⟩
        rcases List.mem_append.mp inside with old | new
        · exact highest y old holds
        · rw [List.mem_singleton.mp new] at holds
          exact absurd held holds
      · rintro ⟨x, member, here, highest⟩
        rcases List.mem_append.mp member with old | new
        · exact ⟨x, old, here, fun y inside => highest y (List.mem_append_left _ inside)⟩
        · rw [List.mem_singleton.mp new, held] at here
          cases here
    | some entry =>
      rw [Option.some_or, Option.some.injEq]
      constructor
      · rintro rfl
        refine ⟨h, last, held, fun y inside _ => ?_⟩
        rcases List.mem_append.mp inside with old | new
        · exact below y old h List.mem_cons_self
        · rw [List.mem_singleton.mp new]
      · rintro ⟨x, member, here, highest⟩
        have above := highest h last (by simp [held])
        have equal : x = h := by
          rcases List.mem_append.mp member with old | new
          · have under := below x old h List.mem_cons_self
            exact same x member h last (by omega)
          · exact List.mem_singleton.mp new
        rw [equal, held] at here
        exact Option.some.inj here

theorem readIntoOk {add : Entries → List (Key × Entry) → Entries} {acc all : Entries}
    (ok : runs.foldlM (readInto st add) acc = .ok all) :
    all = (runs.map st.contents).foldl
      (fun acc m => add acc (m.toList.filter (fun e => inRange [] maxKey e.1))) acc := by
  induction runs generalizing acc with
  | nil => exact (Except.ok.inj ok).symm
  | cons h rest ih =>
    rw [List.foldlM_cons] at ok
    cases read : st.readRun h with
    | error e =>
      simp only [readInto, Storage.rangeWithTombstones, read, bind, Except.bind] at ok
      cases ok
    | ok run =>
      simp only [readInto, Storage.rangeWithTombstones, read, bind, Except.bind, pure, Except.pure] at ok
      rw [List.map_cons, List.foldl_cons, Storage.contents, read]
      exact ih ok

theorem sourcesNewest (distinct : Distinct runs) (indices : List Nat) {k : Key} {e : Entry} :
    resolve ((sortedInputs runs indices).map st.contents).reverse k = some e ↔
      Newest st (taken runs indices) k e := by
  have member : ∀ {h}, h ∈ sortedInputs runs indices ↔ h ∈ taken runs indices :=
    (sortedInputsPerm runs indices).mem_iff
  have inRuns : ∀ {h}, h ∈ sortedInputs runs indices → h ∈ runs := fun inside => by
    obtain ⟨i, -, found⟩ := List.mem_filterMap.mp (member.mp inside)
    exact List.mem_of_getElem? found
  rw [resolveNewest (sortedInputsAscend runs indices) (fun a left b right same =>
    List.inj_on_of_nodup_map distinct (inRuns left) (inRuns right) same)]
  simp only [Newest, member]

theorem sourcesNone (runs : List SsTableHandle) (indices : List Nat) {k : Key} :
    resolve ((sortedInputs runs indices).map st.contents).reverse k = none ↔
      ∀ h ∈ taken runs indices, (st.contents h)[k]? = none := by
  rw [resolveNone]
  simp only [List.mem_reverse, List.forall_mem_map, (sortedInputsPerm runs indices).mem_iff]

theorem mergeLevelsHolds (distinct : Distinct runs) {all : Entries}
    (ok : mergeLevels st job runs maxLevel = .ok all) (k : Key) (e : Entry) :
    all[k]? = some e ↔ Scanned k ∧ Due st job runs maxLevel k e := by
  unfold mergeLevels at ok
  cases sources : (sortedInputs runs job.sourceRuns).foldlM (readInto st insertAll) ∅ with
  | error failed =>
    rw [sources] at ok
    cases ok
  | ok merged =>
    have read : merged = stackUp (inRange [] maxKey)
        ((sortedInputs runs job.sourceRuns).map st.contents) ∅ := readIntoOk sources
    have mergedGet : merged[k]? = if inRange [] maxKey k then
        resolve ((sortedInputs runs job.sourceRuns).map st.contents).reverse k else none := by
      rw [read, stackUpGet, ExtTreeMap.getElem?_empty, Option.or_none]
    rw [sources] at ok
    simp only [bind, Except.bind, pure, Except.pure] at ok
    by_cases bottom : job.targetLevel = maxLevel
    · rw [if_pos bottom] at ok
      cases targets : job.targetLevelRuns.foldlM (readInto st insertMissing) merged with
      | error failed =>
        rw [targets] at ok
        cases ok
      | ok whole =>
        rw [targets] at ok
        cases ok
        rw [readIntoOk targets, liveGet, insertMissingFold, mergedGet]
        by_cases scanned : inRange [] maxKey k = true
        · have targetsGet : resolve (job.targetLevelRuns.map st.contents) k =
              job.targetLevelRuns.findSome? (fun h => (st.contents h)[k]?) := by
            rw [resolve, List.findSome?_map]
            rfl
          rw [if_pos scanned, if_pos scanned, targetsGet, Option.filter_eq_some_iff, Option.or_eq_some_iff,
            sourcesNewest distinct, sourcesNone]
          simp [Due, Deciding, bottom, Scanned, scanned]
        · simp [scanned, Scanned]
    · rw [if_neg bottom] at ok
      cases ok
      rw [mergedGet]
      by_cases scanned : inRange [] maxKey k = true
      · rw [if_pos scanned, sourcesNewest distinct]
        simp [Due, Deciding, bottom, Scanned, scanned]
      · simp [scanned, Scanned]

theorem someDeciding (distinct : Distinct runs) {k : Key} (held : RemovedHolds st job runs maxLevel k) :
    ∃ e, Deciding st job runs maxLevel k e := by
  cases sources : resolve ((sortedInputs runs job.sourceRuns).map st.contents).reverse k with
  | some e => exact ⟨e, Or.inl ((sourcesNewest distinct job.sourceRuns).mp sources)⟩
  | none =>
    have absent := (sourcesNone runs job.sourceRuns).mp sources
    rcases held with ⟨h, member, here⟩ | ⟨bottom, h, member, here⟩
    · exact absurd (absent h member) here
    · cases targets : job.targetLevelRuns.findSome? (fun h => (st.contents h)[k]?) with
      | some e => exact ⟨e, Or.inr ⟨bottom, absent, targets⟩⟩
      | none => exact absurd (List.findSome?_eq_none_iff.mp targets h member) here

end Compactor

/-- A compaction that succeeds wrote its output, and this holds exactly the deciding entries
that are due, so that no key of a removed run is lost but for a tombstone at the bottom
level, exactly where no key due sorts after the end of a full scan. -/
theorem compactionExact {faults : Nat → Bool} {job : LevelCompactionJob} {runs : List SsTableHandle}
    {n maxLevel : Nat} {st st' : Storage} {result : CompactionResult} (distinct : Distinct runs)
    (done : Compactor.compactLevels faults job runs n maxLevel st = (.ok result, st')) :
    (∀ h ∈ result.output, h.runNumber = n ∧ h.level = job.targetLevel ∧ st'.readRun h = .ok h.run) ∧
    (((∀ k e, result.entries[k]? = some e ↔ Due st job runs maxLevel k e) ∧
      ∀ k, RemovedHolds st job runs maxLevel k → result.entries[k]? = none →
        job.targetLevel = maxLevel ∧ Deciding st job runs maxLevel k none) ↔
    ∀ k e, Due st job runs maxLevel k e → Scanned k) := by
  obtain ⟨all, merged, wrote⟩ := Compactor.mergeAndWriteMerged done
  have holds := Compactor.mergeLevelsHolds distinct merged
  have entries : result.entries = all := by
    cases wrote with
    | nothing empty => exact empty.symm
    | output nonempty h st' written => exact written.entries
  refine ⟨fun h output => ?_, ?_⟩
  · cases wrote with
    | nothing empty => cases output
    | output nonempty x st' written =>
      cases Option.some.inj output
      obtain ⟨dir, number, level, -⟩ := written.handle
      refine ⟨number, level, ?_⟩
      simp only [Storage.readRun, dir, number, written.stored]
  · rw [entries]
    constructor
    · rintro ⟨exact_, -⟩ k e due
      exact ((holds k e).mp ((exact_ k e).mpr due)).1
    · intro scanned
      have exact_ : ∀ k e, all[k]? = some e ↔ Due st job runs maxLevel k e := fun k e => by
        rw [holds, and_iff_right_iff_imp]
        exact scanned k e
      refine ⟨exact_, fun k held missing => ?_⟩
      obtain ⟨e, deciding⟩ := Compactor.someDeciding distinct held
      by_cases due : job.targetLevel = maxLevel → e.isSome
      · rw [(exact_ k e).mpr ⟨deciding, due⟩] at missing
        cases missing
      · obtain ⟨bottom, tombstone⟩ := Classical.not_imp.mp due
        cases e with
        | some value => simp at tombstone
        | none => exact ⟨bottom, deciding⟩

def singleRun (n : Nat) (key : Key) (value : Entry) : SsTableHandle :=
  ⟨.active, n, ⟨(∅ : Entries).insert key value, ExtTreeMap.insert_ne_empty⟩, 0, n⟩

def storedRuns (runs : List SsTableHandle) : Storage :=
  ⟨runs.map (fun h => (h.runNumber, some h.run)), [], fun _ => 1, 10⟩

def moveDown (count : Nat) : LevelCompactionJob := ⟨0, 1, List.range count, []⟩

theorem compactionExactTwo :
    let runs := [singleRun 2 [1] none, singleRun 1 [1] (some [10])]
    ∃ result st', Compactor.compactLevels (fun _ => false) (moveDown 2) runs 3 6 (storedRuns runs) =
        (.ok result, st') ∧ result.entries[([1] : Key)]? = some none ∧
      (∀ h ∈ result.output, h.runNumber = 3 ∧ h.level = 1 ∧ st'.readRun h = .ok h.run) ∧
      (((∀ k e, result.entries[k]? = some e ↔ Due (storedRuns runs) (moveDown 2) runs 6 k e) ∧
        ∀ k, RemovedHolds (storedRuns runs) (moveDown 2) runs 6 k → result.entries[k]? = none →
          (moveDown 2).targetLevel = 6 ∧ Deciding (storedRuns runs) (moveDown 2) runs 6 k none) ↔
      ∀ k e, Due (storedRuns runs) (moveDown 2) runs 6 k e → Scanned k) := by
  intro runs
  have distinct : Distinct runs := by
    have numbers : (runs.map SsTableHandle.runNumber).Nodup := by decide
    exact numbers
  have tested : (match (Compactor.compactLevels (fun _ => false) (moveDown 2) runs 3 6 (storedRuns runs)).1 with
      | .ok result => decide (result.entries[([1] : Key)]? = some none)
      | .error _ => false) = true := by decide +kernel
  cases out : Compactor.compactLevels (fun _ => false) (moveDown 2) runs 3 6 (storedRuns runs) with
  | mk outcome st' =>
    rw [out] at tested
    cases outcome with
    | error e => cases tested
    | ok result => exact ⟨result, st', rfl, of_decide_eq_true tested, compactionExact distinct out⟩

theorem compactionDropsLongKey :
    let runs := [singleRun 1 (maxKey ++ [0]) (some [10])]
    ∃ result st', Compactor.compactLevels (fun _ => false) (moveDown 1) runs 2 6 (storedRuns runs) =
        (.ok result, st') ∧ result.inputsToRemove = [0] ∧
      ¬ ((∀ k e, result.entries[k]? = some e ↔ Due (storedRuns runs) (moveDown 1) runs 6 k e) ∧
        ∀ k, RemovedHolds (storedRuns runs) (moveDown 1) runs 6 k → result.entries[k]? = none →
          (moveDown 1).targetLevel = 6 ∧ Deciding (storedRuns runs) (moveDown 1) runs 6 k none) := by
  intro runs
  have tested : (match (Compactor.compactLevels (fun _ => false) (moveDown 1) runs 2 6 (storedRuns runs)).1 with
      | .ok result => decide (result.entries[maxKey ++ [0]]? = none ∧ result.inputsToRemove = [0])
      | .error _ => false) = true := by decide +kernel
  cases out : Compactor.compactLevels (fun _ => false) (moveDown 1) runs 2 6 (storedRuns runs) with
  | mk outcome st' =>
    rw [out] at tested
    cases outcome with
    | error e => cases tested
    | ok result =>
      obtain ⟨missing, removed⟩ := of_decide_eq_true tested
      refine ⟨result, st', rfl, removed, fun exact_ => ?_⟩
      have held : RemovedHolds (storedRuns runs) (moveDown 1) runs 6 (maxKey ++ [0]) := by
        refine Or.inl ⟨singleRun 1 (maxKey ++ [0]) (some [10]), by simp [taken, moveDown, runs], ?_⟩
        decide +kernel
      exact absurd (exact_.2 _ held missing).1 (by decide)

end CardanoLsm
