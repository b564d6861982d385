import CardanoLsm.Sound

/-! What the level vectors read as, and how the changes that the code makes to them
act on that reading: a flush puts a run on top, a write-back exchanges the runs a cycle
took for its output, `compact_all` exchanges everything. -/
namespace CardanoLsm
open Std Layered

def Scanned (k : Key) : Prop := inRange [] maxKey k = true

def EntriesKeys (P : Key → Prop) (m : Entries) : Prop := ∀ k : Key, m[k]? ≠ none → P k

def RunsKeys (P : Key → Prop) (runs : List SsTableHandle) : Prop :=
  ∀ h ∈ runs, EntriesKeys P h.run.entries

instance (runs : List SsTableHandle) : Decidable (RunsKeys Scanned runs) :=
  decidable_of_iff (∀ h ∈ runs, ∀ k ∈ h.run.index, inRange [] maxKey k = true) <| by
    simp only [Run.index, ExtTreeMap.mem_keys, ExtTreeMap.mem_iff_isSome_getElem?, RunsKeys, EntriesKeys,
      Scanned, Option.isSome_iff_ne_none]

def byNumber (runs : List SsTableHandle) : List SsTableHandle := (sortByRunNumber runs).reverse

/-- What `removeRuns` takes away are the runs that the cycle cloned. A level that was emptied
since is not in place, although nothing is taken from it then. -/
def InPlace (levels snap : Levels) (job : LevelCompactionJob) : Prop :=
  ∃ newer, levels.getD job.sourceLevel [] = snap.getD job.sourceLevel [] ++ newer

instance (levels snap : Levels) (job : LevelCompactionJob) : Decidable (InPlace levels snap job) :=
  decidable_of_iff (snap.getD job.sourceLevel [] <+: levels.getD job.sourceLevel [])
    ⟨fun ⟨newer, same⟩ => ⟨newer, same.symm⟩, fun ⟨newer, same⟩ => ⟨newer, same.symm⟩⟩

def Gone (levels snap : Levels) (job : LevelCompactionJob) : Prop :=
  ∃ h ∈ snap.getD job.sourceLevel [], ∀ x ∈ levels.getD job.sourceLevel [], x.runNumber ≠ h.runNumber

structure Alive (levels : Levels) (maxLevel : Nat) (snap : Levels) (job : LevelCompactionJob) : Prop where
  source : ∃ newer, levels.getD job.sourceLevel [] = snap.getD job.sourceLevel [] ++ newer ∧
    ∀ a ∈ snap.getD job.sourceLevel [], ∀ b ∈ newer, a.runNumber < b.runNumber
  bottom : job.targetLevel = maxLevel →
    levels.getD job.targetLevel [] = snap.getD job.targetLevel []

def Below (levels : Levels) (level n : Nat) : Prop := ∀ h ∈ levels.getD level [], h.runNumber < n

def aboveSource (levels snap : Levels) (job : LevelCompactionJob) : List SsTableHandle :=
  rangeOrder (levels.take job.sourceLevel) ++
    byNumber ((levels.getD job.sourceLevel []).drop (snap.getD job.sourceLevel []).length)

/-- A merge into the bottom level whose entries are all tombstones writes nothing and
leaves the target run as it is: every live key of that run must then be held by
something newer. `top` is what lies above the level vectors. -/
def BottomSafe (top : List Entries) (levels snap : Levels) (maxLevel : Nat) (job : LevelCompactionJob) :
    Prop :=
  job.targetLevel = maxLevel →
    (∃ k, visible (layersOf (byNumber (snap.getD job.sourceLevel []) ++ levels.getD maxLevel [])) k ≠ none) ∨
    ∀ k, visible (layersOf (levels.getD maxLevel [])) k ≠ none →
      resolve (top ++ layersOf (aboveSource levels snap job)) k ≠ none

def OrdersAgree (top : List Entries) (levels : Levels) : Prop :=
  ∀ k, resolve top k = none →
    visible (layersOf (byNumber levels.flatten)) k = visible (layersOf (rangeOrder levels)) k

theorem Distinct.level {levels : Levels} (distinct : Distinct levels.flatten) (i : Nat) :
    Distinct (levels.getD i []) := by
  rw [List.getD_eq_getElem?_getD]
  cases found : levels[i]? with
  | none => exact List.nodup_nil
  | some level => exact distinct.sublist (List.sublist_flatten_of_mem (List.mem_of_getElem? found))

@[simp] theorem layersAppend (first second : List SsTableHandle) :
    layersOf (first ++ second) = layersOf first ++ layersOf second := List.map_append

theorem layersReverse (runs : List SsTableHandle) : (layersOf runs).reverse = layersOf runs.reverse :=
  List.map_reverse.symm

@[simp] theorem rangeOrderAppend (first second : Levels) :
    rangeOrder (first ++ second) = rangeOrder first ++ rangeOrder second := List.flatMap_append

@[simp] theorem rangeOrderCons (level : List SsTableHandle) (rest : Levels) :
    rangeOrder (level :: rest) = byNumber level ++ rangeOrder rest := rfl

@[simp] theorem rangeOrderNil : rangeOrder [] = [] := rfl

theorem byNumberAppend {older newer : List SsTableHandle} (distinct : Distinct (older ++ newer))
    (before : ∀ a ∈ older, ∀ b ∈ newer, a.runNumber < b.runNumber) :
    byNumber (older ++ newer) = byNumber newer ++ byNumber older := by
  rw [byNumber, sortAppend (distinct.sublist (List.sublist_append_left _ _))
    (distinct.sublist (List.sublist_append_right _ _)) before, List.reverse_append]
  rfl

theorem byNumberSnoc {runs : List SsTableHandle} {h : SsTableHandle} (distinct : Distinct runs)
    (newest : ∀ x ∈ runs, x.runNumber < h.runNumber) :
    byNumber (runs ++ [h]) = h :: byNumber runs := by
  have single : Distinct (runs ++ [h]) := by
    rw [Distinct, List.map_append]
    refine List.nodup_append.mpr ⟨distinct, by simp, ?_⟩
    intro a inA b inB
    obtain ⟨x, member, rfl⟩ := List.mem_map.mp inA
    rw [List.mem_singleton.mp inB]
    exact Nat.ne_of_lt (newest x member)
  rw [byNumberAppend single (fun a inA b inB => by
    rw [List.mem_singleton.mp inB]
    exact newest a inA)]
  rfl

theorem byNumberOne {runs : List SsTableHandle} (small : runs.length ≤ 1) : byNumber runs = runs := by
  match runs, small with
  | [], _ => rfl
  | [h], _ => rfl

theorem pushOrder {levels : Levels} {h : SsTableHandle} (distinct : Distinct levels.flatten)
    (newest : Below levels 0 h.runNumber) (inside : 0 < levels.length) :
    rangeOrder (levels.set 0 (levels.getD 0 [] ++ [h])) = h :: rangeOrder levels := by
  have first := distinct.level 0
  obtain ⟨l0, rest, split⟩ := List.exists_cons_of_length_pos inside
  unfold Below at newest
  rw [split] at newest first ⊢
  simp only [List.getD_cons_zero] at newest first
  simp only [List.set_cons_zero, List.getD_cons_zero, rangeOrderCons, byNumberSnoc first newest,
    List.cons_append]

section Merge
variable {sources targets : List SsTableHandle}

theorem RunsKeys.outside {P : Key → Prop} {runs : List SsTableHandle} (keys : RunsKeys P runs) {k : Key}
    (outside : ¬ P k) : resolve (layersOf runs) k = none := by
  rw [resolveNone]
  intro m member
  obtain ⟨h, inside, rfl⟩ := List.mem_map.mp member
  by_contra held
  exact outside (keys h inside k held)

theorem RunsKeys.mono {P : Key → Prop} {runs more : List SsTableHandle} (keys : RunsKeys P more)
    (sub : ∀ h ∈ runs, h ∈ more) : RunsKeys P runs := fun h member => keys h (sub h member)

theorem byNumberMem {runs : List SsTableHandle} {h : SsTableHandle} : h ∈ byNumber runs ↔ h ∈ runs := by
  simp [byNumber]

theorem mergedSourcesResolve (keys : RunsKeys Scanned sources) (k : Key) :
    (Compactor.mergedSources sources)[k]? = resolve (layersOf (byNumber sources)) k := by
  rw [Compactor.mergedSourcesGet, layersReverse]
  by_cases scanned : inRange [] maxKey k = true
  · simp only [scanned, if_true, byNumber]
  · rw [if_neg scanned]
    exact ((keys.mono fun h member => byNumberMem.mp member).outside scanned).symm

theorem mergedBottomVisible (keys : RunsKeys Scanned sources) (keysBelow : RunsKeys Scanned targets)
    (k : Key) : ((Compactor.mergedJob sources targets true)[k]?).join =
      visible (layersOf (byNumber sources ++ targets)) k := by
  rw [Compactor.mergedBottomJoin, layersReverse]
  by_cases scanned : inRange [] maxKey k = true
  · simp only [scanned, if_true, layersAppend, byNumber]
  · rw [if_neg scanned, visible, layersAppend, resolveAppend, keysBelow.outside scanned,
      (keys.mono fun h member => byNumberMem.mp member).outside scanned]
    rfl

theorem visibleSingle (m : Entries) (k : Key) : visible [m] k = (m[k]?).join := by
  simp [visible]

theorem tierTarget {result : CompactionResult} {level : Nat} {indices : List Nat}
    (keys : RunsKeys Scanned sources) (distinct : Distinct targets)
    (yields : Yields (Compactor.mergedSources sources) level indices result)
    (below : ∀ out ∈ result.output, ∀ x ∈ targets, x.runNumber < out.runNumber) (k : Key) :
    resolve (layersOf (byNumber (Compactor.newTarget targets false result.output))) k =
      resolve (layersOf (byNumber sources ++ byNumber targets)) k := by
  have merged := mergedSourcesResolve keys k
  have yields := yields.2
  cases out : result.output with
  | none =>
    simp only [out] at yields
    rw [yields, ExtTreeMap.getElem?_empty] at merged
    simp [Compactor.newTarget, ← merged]
  | some h =>
    simp only [out] at yields
    rw [← yields.1] at merged
    simp only [Compactor.newTarget, Bool.false_eq_true, if_false]
    rw [byNumberSnoc distinct (below h out), layersAppend, resolveAppend, ← merged]
    exact resolveCons _ _ _

theorem bottomTarget {result : CompactionResult} {level : Nat} {indices : List Nat}
    (keys : RunsKeys Scanned sources) (keysBelow : RunsKeys Scanned targets)
    (yields : Yields (Compactor.mergedJob sources targets true) level indices result) (k : Key) :
    visible (layersOf (byNumber sources ++ targets)) k =
      match result.output with
      | some h => visible (layersOf (byNumber (Compactor.newTarget targets true (some h)))) k
      | none => none := by
  have merged := mergedBottomVisible keys keysBelow k
  have yields := yields.2
  cases out : result.output with
  | none =>
    simp only [out] at yields
    rw [yields, ExtTreeMap.getElem?_empty] at merged
    exact merged.symm
  | some h =>
    simp only [out] at yields
    rw [← yields.1] at merged
    rw [← merged]
    exact (visibleSingle _ k).symm

theorem bottomNothing {result : CompactionResult} {level : Nat} {indices : List Nat}
    (yields : Yields (Compactor.mergedJob sources targets true) level indices result)
    (keys : RunsKeys Scanned sources) (keysBelow : RunsKeys Scanned targets) :
    result.output = none ↔ ∀ k, visible (layersOf (byNumber sources ++ targets)) k = none := by
  constructor
  · intro out k
    rw [bottomTarget keys keysBelow yields k, out]
  · intro blank
    cases out : result.output with
    | none => rfl
    | some h =>
      -- an output is a run: it holds a key, and the bottom level holds values only
      have yields := yields.2
      simp only [out] at yields
      obtain ⟨k, member⟩ := List.exists_mem_of_ne_nil _ h.run.indexNonempty
      rw [Run.index, ExtTreeMap.mem_keys, ExtTreeMap.mem_iff_isSome_getElem?, yields.1] at member
      obtain ⟨e, held⟩ := Option.isSome_iff_exists.mp member
      have live := Compactor.mergedBottomLive held
      have none := mergedBottomVisible keys keysBelow k
      rw [blank k, held] at none
      cases e with
      | none => simp at live
      | some v => simp at none

end Merge

section WriteBack
variable {levels snap : Levels} {maxLevel : Nat} {job : LevelCompactionJob} {result : CompactionResult}

theorem writeBackSplit (length : levels.length = maxLevel + 1) (selected : Selected maxLevel snap job)
    (removes : result.inputsToRemove = List.range (snap.getD job.sourceLevel []).length) :
    ∃ pre post, levels = pre ++ levels.getD job.sourceLevel [] :: levels.getD job.targetLevel [] :: post ∧
      pre.length = job.sourceLevel ∧
      (Compactor.writeBack levels job.sourceLevel job.targetLevel maxLevel result).1 =
        pre ++ (levels.getD job.sourceLevel []).drop (snap.getD job.sourceLevel []).length ::
          Compactor.newTarget (levels.getD job.targetLevel []) (decide (job.targetLevel = maxLevel))
            result.output :: post := by
  have below := selected.job.source
  obtain ⟨pre, post, split, here⟩ :=
    Compactor.splitLevels (show job.sourceLevel + 1 < levels.length by omega)
  refine ⟨pre, post, by rw [selected.job.target]; exact split, here, ?_⟩
  have same : result = ⟨result.output, List.range (snap.getD job.sourceLevel []).length⟩ := by
    rw [← removes]
  have change := Compactor.writeBackEq pre post (levels.getD job.sourceLevel [])
    (levels.getD (job.sourceLevel + 1) []) maxLevel (snap.getD job.sourceLevel []).length result.output
  rw [here, ← split, ← same] at change
  rw [selected.job.target, change]

theorem writeBackOrder (length : levels.length = maxLevel + 1) (distinct : Distinct levels.flatten)
    (selected : Selected maxLevel snap job) (alive : Alive levels maxLevel snap job)
    (removes : result.inputsToRemove = List.range (snap.getD job.sourceLevel []).length) :
    rangeOrder levels = aboveSource levels snap job ++ (byNumber (snap.getD job.sourceLevel []) ++
        (byNumber (levels.getD job.targetLevel []) ++ rangeOrder (levels.drop (job.targetLevel + 1)))) ∧
      rangeOrder (Compactor.writeBack levels job.sourceLevel job.targetLevel maxLevel result).1 =
        aboveSource levels snap job ++ (byNumber (Compactor.newTarget (levels.getD job.targetLevel [])
          (decide (job.targetLevel = maxLevel)) result.output) ++
            rangeOrder (levels.drop (job.targetLevel + 1))) := by
  obtain ⟨pre, post, split, here, written⟩ := writeBackSplit length selected removes
  obtain ⟨newer, source, later⟩ := alive.source
  have sorted : byNumber (levels.getD job.sourceLevel []) =
      byNumber newer ++ byNumber (snap.getD job.sourceLevel []) := by
    have whole := distinct.level job.sourceLevel
    rw [source] at whole ⊢
    exact byNumberAppend whole later
  have kept : (levels.getD job.sourceLevel []).drop (snap.getD job.sourceLevel []).length = newer := by
    rw [source, List.drop_left]
  have upper : levels.take job.sourceLevel = pre := by
    rw [split, ← here, List.take_left]
  have lower : levels.drop (job.targetLevel + 1) = post := by
    have skip : job.targetLevel + 1 = pre.length + 2 := by
      have := selected.job.target
      omega
    rw [skip, ← List.drop_drop, split, List.drop_left]
    rfl
  rw [written, aboveSource, upper, lower, kept]
  constructor
  · conv_lhs => rw [split]
    simp only [rangeOrderAppend, rangeOrderCons, sorted, List.append_assoc]
  · simp only [rangeOrderAppend, rangeOrderCons, List.append_assoc]

theorem bottomLast (length : levels.length = maxLevel + 1) (bottom : job.targetLevel = maxLevel) :
    rangeOrder (levels.drop (job.targetLevel + 1)) = [] := by
  rw [List.drop_eq_nil_of_le (by omega), rangeOrderNil]

theorem writeBackView {top : List Entries} (length : levels.length = maxLevel + 1)
    (distinct : Distinct levels.flatten) (selected : Selected maxLevel snap job)
    (alive : Alive levels maxLevel snap job)
    (yields : Yields (jobEntries maxLevel snap job) job.targetLevel
      (List.range (snap.getD job.sourceLevel []).length) result)
    (below : job.targetLevel ≠ maxLevel → ∀ out ∈ result.output,
      Below levels job.targetLevel out.runNumber)
    (sourceKeys : RunsKeys Scanned (snap.getD job.sourceLevel []))
    (targetKeys : job.targetLevel = maxLevel → RunsKeys Scanned (levels.getD maxLevel []))
    (small : (levels.getD maxLevel []).length ≤ 1)
    (safe : BottomSafe top levels snap maxLevel job) (k : Key) :
    visible (top ++ layersOf (rangeOrder
      (Compactor.writeBack levels job.sourceLevel job.targetLevel maxLevel result).1)) k =
        visible (top ++ layersOf (rangeOrder levels)) k := by
  obtain ⟨before, after⟩ := writeBackOrder length distinct selected alive yields.1
  rw [before, after, layersAppend (aboveSource levels snap job),
    layersAppend (aboveSource levels snap job), ← List.append_assoc top, ← List.append_assoc top]
  refine visibleReplace _ (fun free => ?_)
  by_cases bottom : job.targetLevel = maxLevel
  · have last := bottomLast length bottom
    subst bottom
    have one := byNumberOne small
    have target := alive.bottom rfl
    have targetKeys := targetKeys rfl
    have yields : Yields (Compactor.mergedJob (snap.getD job.sourceLevel [])
        (levels.getD job.targetLevel []) true) job.targetLevel
        (List.range (snap.getD job.sourceLevel []).length) result := by
      simpa only [jobEntries, eq_self, decide_true, ← target] using yields
    have read := bottomTarget sourceKeys targetKeys yields k
    simp only [eq_self, decide_true, last, one, List.append_nil]
    rw [read]
    cases out : result.output with
    | some h => rfl
    | none =>
      have blank := (bottomNothing yields sourceKeys targetKeys).mp out
      simp only [Compactor.newTarget]
      rw [one]
      rcases safe rfl with ⟨k', live⟩ | hidden
      · exact absurd (blank k') live
      · by_contra live
        exact hidden k live free
  · simp only [bottom, decide_false] at yields ⊢
    have yields : Yields (Compactor.mergedSources (snap.getD job.sourceLevel [])) job.targetLevel
        (List.range (snap.getD job.sourceLevel []).length) result := by
      simpa only [jobEntries, bottom, decide_false, Compactor.mergedJob, Bool.false_eq_true,
        if_false] using yields
    have read := tierTarget sourceKeys (distinct.level job.targetLevel) yields
      (fun out member x inTarget => below bottom out member x inTarget) k
    rw [← List.append_assoc (byNumber (snap.getD job.sourceLevel []))]
    generalize byNumber (snap.getD job.sourceLevel []) ++ byNumber (levels.getD job.targetLevel []) =
      old at read ⊢
    rw [layersAppend, layersAppend, visible, visible, resolveAppend, resolveAppend, read]

end WriteBack

theorem installView {top : List Entries} {levels : Levels} {maxLevel : Nat}
    {all : List SsTableHandle} {indices : List Nat} {result : CompactionResult}
    (inside : maxLevel < levels.length) (keys : RunsKeys Scanned all)
    (yields : Yields (live (Compactor.mergedSources all)) 0 indices result) (k : Key) :
    visible (top ++ layersOf (rangeOrder (State.clearedLevels levels maxLevel result.output))) k =
      visible (top ++ layersOf (byNumber all)) k := by
  refine visibleReplace _ (fun _ => ?_)
  have blank : ∀ n, rangeOrder (List.replicate n []) = [] := by
    intro n
    simp [rangeOrder, sortByRunNumber]
  have merged := mergedSourcesResolve keys k
  have yields := yields.2
  cases out : result.output with
  | none =>
    simp only [out] at yields
    have joined := liveJoin (Compactor.mergedSources all) k
    rw [yields, ExtTreeMap.getElem?_empty, merged] at joined
    simp only [State.clearedLevels, List.map_const', blank]
    exact joined
  | some h =>
    simp only [out] at yields
    have joined := liveJoin (Compactor.mergedSources all) k
    rw [← yields.1, merged] at joined
    obtain ⟨pre, post, split, here⟩ : ∃ pre post, levels = pre ++ levels[maxLevel] :: post ∧
        pre.length = maxLevel := ⟨levels.take maxLevel, levels.drop (maxLevel + 1), by simp, by simp; omega⟩
    have only : rangeOrder (State.clearedLevels levels maxLevel (some h)) = [h] := by
      rw [split]
      simp only [State.clearedLevels, List.map_append, List.map_cons]
      rw [← here]
      simp [List.getD_eq_getElem?_getD, blank, byNumber, sortByRunNumber]
    rw [only]
    exact (visibleSingle _ k).trans joined

end CardanoLsm
