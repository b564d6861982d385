import CardanoLsm.Views

/-! Cycles that overlap with other changes of the level vectors. A cycle works on a
copy of the vectors; while its result is still wanted, either the runs it took are the
first ones of their level, or one of them is gone for good. -/
namespace CardanoLsm
open Std Layered

theorem getDSet (levels : Levels) (i j : Nat) (level : List SsTableHandle) :
    (levels.set i level).getD j [] =
      if j = i ∧ i < levels.length then level else levels.getD j [] := by
  simp only [List.getD_eq_getElem?_getD, List.getElem?_set]
  by_cases same : i = j
  · subst same
    by_cases inside : i < levels.length
    · simp [inside]
    · simp [inside]
  · simp [same, Ne.symm same]

theorem writeBackLevel {levels snap : Levels} {maxLevel : Nat} {job : LevelCompactionJob}
    {result : CompactionResult} (length : levels.length = maxLevel + 1)
    (of : Compactor.JobOf snap maxLevel job)
    (removes : result.inputsToRemove = List.range (snap.getD job.sourceLevel []).length) (i : Nat) :
    (Compactor.writeBack levels job.sourceLevel job.targetLevel maxLevel result).1.getD i [] =
      if i = job.targetLevel then
        Compactor.newTarget (levels.getD job.targetLevel []) (decide (job.targetLevel = maxLevel))
          result.output
      else if i = job.sourceLevel then
        (levels.getD job.sourceLevel []).drop (snap.getD job.sourceLevel []).length
      else levels.getD i [] := by
  have below := of.source
  have next := of.target
  have sourceInside : job.sourceLevel < levels.length := by omega
  have targetInside : job.targetLevel < levels.length := by omega
  have apart : job.targetLevel ≠ job.sourceLevel := by omega
  unfold Compactor.writeBack
  rw [removes, Compactor.removeRunsRange]
  cases result.output with
  | none =>
    simp only [getDSet, Compactor.newTarget]
    by_cases target : i = job.targetLevel
    · simp [target, apart]
    · by_cases source : i = job.sourceLevel
      · subst source
        simp [target, sourceInside]
      · simp [target, source]
  | some out =>
    simp only [Compactor.newTarget, decide_eq_true_eq]
    by_cases bottom : job.targetLevel = maxLevel
    · simp only [bottom, if_true, getDSet, List.length_set]
      rw [← bottom]
      by_cases target : i = job.targetLevel
      · simp [target, targetInside]
      · by_cases source : i = job.sourceLevel
        · subst source
          simp [target, sourceInside]
        · simp [target, source]
    · simp only [bottom, if_false, getDSet, List.length_set]
      by_cases target : i = job.targetLevel
      · simp [target, targetInside, apart]
      · by_cases source : i = job.sourceLevel
        · subst source
          simp [target, sourceInside]
        · simp [target, source]

/-- What still ties a cycle to the level vectors. Only where something else may take
runs out of a level (`gone`) can its sources have left. -/
def Tie (gone : Prop) (levels : Levels) (maxLevel : Nat) (snap : Levels) (job : LevelCompactionJob)
    (number : Option Nat) : Prop :=
  (gone ∧ Gone levels snap job) ∨
    Alive levels maxLevel snap job ∧ ∀ n ∈ number, Below levels job.targetLevel n

section Tie
variable {gone : Prop} {levels snap : Levels} {maxLevel : Nat} {job : LevelCompactionJob}
  {number : Option Nat}

theorem Tie.start (levels : Levels) (maxLevel : Nat) (job : LevelCompactionJob) :
    Tie gone levels maxLevel levels job none :=
  Or.inr ⟨⟨⟨[], by simp⟩, fun _ => rfl⟩, fun n member => by cases member⟩

theorem Tie.assign (tie : Tie gone levels maxLevel snap job none) {n : Nat}
    (newest : ∀ h ∈ levels.flatten, h.runNumber < n) :
    Tie gone levels maxLevel snap job (some n) := by
  refine tie.imp_right (fun alive => ⟨alive.1, ?_⟩)
  intro m member
  cases Option.some.inj member
  exact fun h inLevel => newest h (levelSubset inLevel)

theorem Tie.forget (tie : Tie gone levels maxLevel snap job number) :
    Tie gone levels maxLevel snap job none :=
  tie.imp_right (fun alive => ⟨alive.1, fun n member => by cases member⟩)

theorem Tie.alive (tie : Tie gone levels maxLevel snap job number)
    (place : gone → InPlace levels snap job) :
    Alive levels maxLevel snap job ∧ ∀ n ∈ number, Below levels job.targetLevel n := by
  rcases tie with ⟨may, h, member, left⟩ | alive
  · obtain ⟨newer, source⟩ := place may
    exact absurd rfl (left h (by rw [source]; exact List.mem_append_left _ member))
  · exact alive

theorem Tie.push {h : SsTableHandle} (tie : Tie gone levels maxLevel snap job number)
    (selected : Selected maxLevel snap job) (inside : 0 < levels.length)
    (newest : Below levels 0 h.runNumber)
    (other : ∀ x ∈ snap.getD job.sourceLevel [], x.runNumber ≠ h.runNumber) :
    Tie gone (levels.set 0 (levels.getD 0 [] ++ [h])) maxLevel snap job number := by
  have next := selected.job.target
  have target : (levels.set 0 (levels.getD 0 [] ++ [h])).getD job.targetLevel [] =
      levels.getD job.targetLevel [] := by
    rw [getDSet, if_neg (by omega)]
  rcases tie with ⟨may, x, member, left⟩ | ⟨⟨⟨newer, source, later⟩, bottom⟩, below⟩
  · refine Or.inl ⟨may, x, member, ?_⟩
    intro y inLevel
    rw [getDSet] at inLevel
    split at inLevel
    · rename_i here
      rcases List.mem_append.mp inLevel with old | new
      · exact left y (here.1 ▸ old)
      · rw [List.mem_singleton.mp new]
        exact Ne.symm (other x member)
    · exact left y inLevel
  · refine Or.inr ⟨⟨?_, by rw [target]; exact bottom⟩, ?_⟩
    · by_cases first : job.sourceLevel = 0
      · rw [first] at source later ⊢
        refine ⟨newer ++ [h], ?_, ?_⟩
        · rw [getDSet, if_pos ⟨rfl, inside⟩, source, List.append_assoc]
        · intro a inA b inB
          rcases List.mem_append.mp inB with old | new
          · exact later a inA b old
          · rw [List.mem_singleton.mp new]
            exact newest a (by rw [source]; exact List.mem_append_left _ inA)
      · refine ⟨newer, ?_, later⟩
        rw [getDSet, if_neg (by omega), source]
    · intro n member
      unfold Below
      rw [target]
      exact below n member

theorem Tie.writeBack {snap' : Levels} {job' : LevelCompactionJob} {result : CompactionResult}
    (tie : Tie gone levels maxLevel snap job number) (may : gone)
    (selected : Selected maxLevel snap job) (length : levels.length = maxLevel + 1)
    (selected' : Selected maxLevel snap' job')
    (removes : result.inputsToRemove = List.range (snap'.getD job'.sourceLevel []).length)
    (alive' : Alive levels maxLevel snap' job')
    (below' : ∀ out ∈ result.output, Below levels job'.targetLevel out.runNumber)
    (other : ∀ out ∈ result.output, ∀ x ∈ snap.getD job.sourceLevel [], x.runNumber ≠ out.runNumber) :
    Tie gone (Compactor.writeBack levels job'.sourceLevel job'.targetLevel maxLevel result).1
      maxLevel snap job number := by
  have level := writeBackLevel length selected'.job removes
  have next := selected.job.target
  have next' := selected'.job.target
  have source := selected.job.source
  have source' := selected'.job.source
  obtain ⟨newer', split', later'⟩ := alive'.source
  have kept' : (levels.getD job'.sourceLevel []).drop (snap'.getD job'.sourceLevel []).length = newer' := by
    rw [split', List.drop_left]
  by_cases same : job.sourceLevel = job'.sourceLevel
  · -- both cycles took the first runs of the level: the other one removes ours
    have here := level job.sourceLevel
    rw [if_neg (by omega), if_pos same, kept'] at here
    refine Or.inl ⟨may, ?_⟩
    rcases tie with ⟨-, x, member, left⟩ | ⟨⟨⟨newer, split, later⟩, -⟩, -⟩
    · refine ⟨x, member, fun y inNewer => left y ?_⟩
      rw [here] at inNewer
      rw [same, split']
      exact List.mem_append_right _ inNewer
    · obtain ⟨h, rest, ours⟩ := List.exists_cons_of_ne_nil selected.job.nonempty
      obtain ⟨h', rest', theirs⟩ := List.exists_cons_of_ne_nil selected'.job.nonempty
      refine ⟨h, by rw [ours]; exact List.mem_cons_self, ?_⟩
      have first : h = h' := by
        rw [ours, same, split', theirs] at split
        exact (List.cons.inj split).1.symm
      intro y inNewer
      rw [here] at inNewer
      have := later' h' (by rw [theirs]; exact List.mem_cons_self) y inNewer
      rw [first]
      omega
  · have target : ∀ n, Below levels job.targetLevel n →
        Below (Compactor.writeBack levels job'.sourceLevel job'.targetLevel maxLevel result).1
          job.targetLevel n := by
      intro n below
      unfold Below
      rw [level, if_neg (by omega)]
      split
      · intro h member
        rename_i here
        rw [← here] at member
        exact below h (List.mem_of_mem_drop member)
      · exact below
    have bottom : job.targetLevel = maxLevel →
        (Compactor.writeBack levels job'.sourceLevel job'.targetLevel maxLevel result).1.getD
          job.targetLevel [] = levels.getD job.targetLevel [] := by
      intro last
      rw [level, if_neg (by omega), if_neg (by omega)]
    by_cases onto : job.sourceLevel = job'.targetLevel
    · -- the output of the other cycle is added behind our sources
      have middle : job'.targetLevel ≠ maxLevel := by omega
      have here := level job.sourceLevel
      rw [if_pos onto] at here
      simp only [middle, decide_false] at here
      rcases tie with ⟨-, x, member, left⟩ | ⟨⟨⟨newer, split, later⟩, last⟩, below⟩
      · refine Or.inl ⟨may, x, member, ?_⟩
        rw [here, ← onto]
        cases out : result.output with
        | none => exact left
        | some h =>
          intro y inLevel
          rcases List.mem_append.mp inLevel with old | new
          · exact left y old
          · rw [List.mem_singleton.mp new]
            exact Ne.symm (other h out x member)
      · refine Or.inr ⟨⟨?_, fun atBottom => (bottom atBottom).trans (last atBottom)⟩,
          fun n member => target n (below n member)⟩
        rw [here, ← onto]
        cases out : result.output with
        | none => exact ⟨newer, split, later⟩
        | some h =>
          refine ⟨newer ++ [h], ?_, ?_⟩
          · simp only [Compactor.newTarget, Bool.false_eq_true, if_false, split, List.append_assoc]
          · intro a inA b inB
            rcases List.mem_append.mp inB with old | new
            · exact later a inA b old
            · rw [List.mem_singleton.mp new]
              refine below' h out a ?_
              rw [← onto, split]
              exact List.mem_append_left _ inA
    · have here := level job.sourceLevel
      rw [if_neg onto, if_neg same] at here
      rcases tie with ⟨-, x, member, left⟩ | ⟨⟨⟨newer, split, later⟩, last⟩, below⟩
      · exact Or.inl ⟨may, x, member, by rw [here]; exact left⟩
      · exact Or.inr ⟨⟨⟨newer, by rw [here]; exact split, later⟩,
          fun atBottom => (bottom atBottom).trans (last atBottom)⟩,
          fun n member => target n (below n member)⟩

theorem clearedLevel (levels : Levels) (maxLevel : Nat) (output : Option SsTableHandle) {i : Nat}
    (other : i ≠ maxLevel) : (State.clearedLevels levels maxLevel output).getD i [] = [] := by
  have blank : (levels.map (fun _ => ([] : List SsTableHandle))).getD i [] = [] := by
    rw [List.getD_eq_getElem?_getD, List.getElem?_map]
    cases levels[i]? <;> rfl
  unfold State.clearedLevels
  cases output with
  | none => exact blank
  | some out =>
    dsimp only
    rw [getDSet, if_neg (by omega)]
    exact blank

theorem Tie.cleared (may : gone) (selected : Selected maxLevel snap job) (output : Option SsTableHandle) :
    Tie gone (State.clearedLevels levels maxLevel output) maxLevel snap job number := by
  obtain ⟨h, rest, ours⟩ := List.exists_cons_of_ne_nil selected.job.nonempty
  have below := selected.job.source
  refine Or.inl ⟨may, h, by rw [ours]; exact List.mem_cons_self, ?_⟩
  rw [clearedLevel levels maxLevel output (by omega)]
  intro x member
  cases member

end Tie
end CardanoLsm
