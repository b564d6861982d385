import CardanoLsm.Sound

/-! How a session starts: what `open` and `open_snapshot` find on disk, and that the
structural invariant holds of the tree they return. -/
namespace CardanoLsm
open Std Layered

structure Storage.AtRest (st : Storage) : Prop where
  counters : ∀ c, st.refcounts c = 0
  distinct : (st.active.map Prod.fst).Nodup

def Storage.stopped (st : Storage) : Storage := { st with refcounts := fun _ => 0 }

theorem lookupUnlisted {files : RunFiles} {n : Nat} :
    files.lookup n = none ↔ n ∉ files.map Prod.fst := Assoc.lookupNone

theorem foldlMaxListed (numbers : List Nat) (m : Nat) : numbers.foldl max m = m ∨ numbers.foldl max m ∈ numbers := by
  induction numbers generalizing m with
  | nil => exact Or.inl rfl
  | cons n numbers ih =>
    rw [List.foldl_cons]
    rcases ih (max m n) with same | later
    · rw [same]
      rcases Nat.le_total n m with below | above
      · exact Or.inl (Nat.max_eq_left below)
      · exact Or.inr (by rw [Nat.max_eq_right above]; exact List.mem_cons_self)
    · exact Or.inr (List.mem_cons_of_mem _ later)

theorem leFoldlMax (numbers : List Nat) : ∀ n ∈ numbers, n ≤ numbers.foldl max 0 := by
  have general : ∀ (numbers : List Nat) (start : Nat),
      start ≤ numbers.foldl max start ∧ ∀ n ∈ numbers, n ≤ numbers.foldl max start := by
    intro numbers
    induction numbers with
    | nil => exact fun start => ⟨Nat.le_refl _, fun n member => by cases member⟩
    | cons first rest ih =>
      intro start
      obtain ⟨above, all⟩ := ih (max start first)
      rw [List.foldl_cons]
      refine ⟨by omega, fun n member => ?_⟩
      rcases List.mem_cons.mp member with rfl | later
      · omega
      · exact all n later
  exact (general numbers 0).2

namespace Owns
variable {st st' : Storage} {live : Multiset SsTableHandle}

theorem nothing (counters : ∀ c, st.refcounts c = 0) : Owns st 0 := by
  refine ⟨⟨fun c => by rw [counters c, Multiset.countP_zero], ?_, ?_, ?_⟩, ?_⟩
  all_goals exact fun h member => absurd member (Multiset.notMem_zero h)

theorem openOk {n : Nat} {h : SsTableHandle} (ok : SsTableHandle.open st n = (.ok h, st')) :
    h.dir = .active ∧ h.runNumber = n ∧ h.level = 0 ∧ h.refcount = st.nextRefcount ∧
      st.active.lookup n = some (some h.run) ∧
      st' = { st with refcounts := Function.update st.refcounts st.nextRefcount 1,
                      nextRefcount := st.nextRefcount + 1 } := by
  unfold SsTableHandle.open at ok
  split at ok
  · simp at ok
  · rename_i run found
    cases ok
    exact ⟨rfl, rfl, rfl, rfl, Option.join_eq_some_iff.mp found, rfl⟩

theorem opened (own : Owns st live) {n : Nat} {h : SsTableHandle}
    (ok : SsTableHandle.open st n = (.ok h, st')) (fresh : ∀ x ∈ live, x.runNumber ≠ n) (level : Nat) :
    Owns st' ({ h with level := level } ::ₘ live) := by
  obtain ⟨dir, number, -, counter, found, rfl⟩ := openOk ok
  have counts := own.counts.create (h := { h with level := level }) (by
    intro x member
    exact number ▸ fresh x member) counter
    (by simp only [Storage.runAt, Storage.files, number, found, Option.join_some]) (fun _ _ => rfl)
  refine ⟨counts, fun x member => ?_⟩
  rcases Multiset.mem_cons.mp member with rfl | old
  · exact dir
  · exact own.inActive x old

theorem dropAll {hs : List SsTableHandle} (own : Owns st (↑hs + live)) :
    Owns (hs.foldl Storage.dropHandle st) live := by
  induction hs generalizing st with
  | nil => simpa using own
  | cons h rest ih =>
    refine ih (Owns.dropHandle (own.congr ?_))
    rw [← Multiset.cons_coe, Multiset.cons_add]

end Owns

theorem openError {st st' : Storage} {n : Nat} {e : Error}
    (failed : SsTableHandle.open st n = (.error e, st')) : st' = st := by
  unfold SsTableHandle.open at failed
  split at failed
  · cases failed
    rfl
  · simp at failed

structure Opens (numbers : List Nat) (st : Storage) (hs : List SsTableHandle) (st' : Storage) : Prop where
  owns : Owns st' ↑hs
  distinct : Distinct hs
  listed : ∀ h ∈ hs, h.runNumber ∈ numbers
  active : st'.active = st.active

theorem Opens.snoc {numbers : List Nat} {st₀ st st' : Storage} {hs : List SsTableHandle}
    (before : Opens numbers st₀ hs st) {n : Nat} (unseen : n ∉ numbers) {h : SsTableHandle}
    (ok : SsTableHandle.open st n = (.ok h, st')) (level : Nat) :
    Opens (numbers ++ [n]) st₀ (hs ++ [{ h with level := level }]) st' := by
  obtain ⟨-, number, -, -, -, left⟩ := Owns.openOk ok
  have fresh : ∀ x ∈ hs, x.runNumber ≠ n := fun x member same => unseen (same ▸ before.listed x member)
  refine ⟨?_, ?_, ?_, ?_⟩
  · have own := before.owns.opened ok (fun x member => fresh x (Multiset.mem_coe.mp member)) level
    refine own.congr ?_
    rw [← Multiset.coe_add, Multiset.coe_singleton, add_comm, Multiset.singleton_add]
  · rw [Distinct, List.map_append]
    refine List.nodup_append.mpr ⟨before.distinct, by simp, ?_⟩
    intro a inA b inB
    obtain ⟨x, member, rfl⟩ := List.mem_map.mp inA
    rw [List.mem_singleton.mp inB]
    simp only [number]
    exact fresh x member
  · intro x member
    rcases List.mem_append.mp member with old | new
    · exact List.mem_append_left _ (before.listed x old)
    · rw [List.mem_singleton.mp new]
      simp [number]
  · rw [left]
    exact before.active

namespace LsmTree

theorem openListedOpens (numbers : List Nat) {seen : List Nat} {acc : List SsTableHandle}
    {st₀ st : Storage} (before : Opens seen st₀ acc st) (once : (seen ++ numbers).Nodup) :
    Opens (seen ++ numbers) st₀ (numbers.foldl openNext (acc, st)).1
      (numbers.foldl openNext (acc, st)).2 := by
  induction numbers generalizing seen acc st with
  | nil => simpa using before
  | cons n rest ih =>
    have regroup : seen ++ n :: rest = (seen ++ [n]) ++ rest := by simp
    have unseen : n ∉ seen := fun member =>
      (List.nodup_append.mp once).2.2 n member n List.mem_cons_self rfl
    rw [regroup] at once ⊢
    rw [List.foldl_cons]
    unfold openNext
    split
    · rename_i h st' ok
      exact ih (before.snoc unseen ok h.level) once
    · rename_i e st' failed
      rw [openError failed]
      exact ih ⟨before.owns, before.distinct,
        fun x member => List.mem_append_left _ (before.listed x member), before.active⟩ once

theorem openListedLevel (numbers : List Nat) {acc : List SsTableHandle} (st : Storage)
    (before : ∀ h ∈ acc, h.level = 0) : ∀ h ∈ (numbers.foldl openNext (acc, st)).1, h.level = 0 := by
  induction numbers generalizing acc st with
  | nil => exact before
  | cons n rest ih =>
    rw [List.foldl_cons]
    unfold openNext
    split
    · rename_i h st' ok
      obtain ⟨-, -, level, -, -, -⟩ := Owns.openOk ok
      refine ih st' (fun x member => ?_)
      rcases List.mem_append.mp member with old | new
      · exact before x old
      · rw [List.mem_singleton.mp new]
        exact level
    · rename_i e st' failed
      exact ih st' before

theorem openRunsPairs {name : String} {runs : List SnapshotRun} {opened hs : List SsTableHandle} {st st' : Storage}
    (ok : openRuns name runs opened st = (.ok hs, st')) :
    st'.active = st.active ∧ ∃ more, hs = opened ++ more ∧ List.Forall₂ (fun (run : SnapshotRun) h =>
      h.dir = .active ∧ h.runNumber = run.runNumber ∧ h.level = run.level ∧
        st.active.lookup run.runNumber = some (some h.run)) runs more := by
  induction runs generalizing opened st with
  | nil =>
    cases ok
    exact ⟨rfl, [], by simp, .nil⟩
  | cons run rest ih =>
    unfold openRuns at ok
    split at ok
    · rename_i h st₁ first
      obtain ⟨dir, number, -, -, found, left⟩ := Owns.openOk first
      have same : st₁.active = st.active := by rw [left]
      obtain ⟨active, more, rfl, pairs⟩ := ih ok
      rw [same] at active pairs
      exact ⟨active, _, List.append_assoc _ _ _, .cons ⟨dir, number, rfl, found⟩ pairs⟩
    · cases ok

theorem openRunsOpens {name : String} {runs : List SnapshotRun} {seen : List Nat}
    {opened hs : List SsTableHandle} {st₀ st st' : Storage} (before : Opens seen st₀ opened st)
    (once : (seen ++ runs.map SnapshotRun.runNumber).Nodup)
    (ok : openRuns name runs opened st = (.ok hs, st')) :
    Opens (seen ++ runs.map SnapshotRun.runNumber) st₀ hs st' := by
  induction runs generalizing seen opened st with
  | nil =>
    cases ok
    simpa using before
  | cons run rest ih =>
    have regroup : seen ++ (run :: rest).map SnapshotRun.runNumber =
        (seen ++ [run.runNumber]) ++ rest.map SnapshotRun.runNumber := by simp
    have unseen : run.runNumber ∉ seen := fun member =>
      (List.nodup_append.mp once).2.2 _ member _ List.mem_cons_self rfl
    rw [regroup] at once ⊢
    unfold openRuns at ok
    split at ok
    · rename_i h st₁ first
      exact ih (before.snoc unseen first run.level) once ok
    · cases ok

theorem linkRunsOk {name : String} {runs : List SnapshotRun} {st st' : Storage}
    (once : (st.active.map Prod.fst).Nodup) (ok : linkRuns name runs st = (.ok (), st')) :
    (st.active.map Prod.fst ++ runs.map SnapshotRun.runNumber).Nodup ∧
      st' = { st with active := st.active ++ runs.map (fun run =>
        (run.runNumber, ((st.files (.snapshot name)).lookup run.runNumber).join)) } := by
  induction runs generalizing st with
  | nil =>
    cases ok
    exact ⟨by simpa using once, by simp⟩
  | cons run rest ih =>
    unfold linkRuns at ok
    split at ok
    · cases ok
    · rename_i content stored
      split at ok
      · cases ok
      · rename_i free
        have absent : run.runNumber ∉ st.active.map Prod.fst := by
          rw [← lookupUnlisted]
          exact Option.not_isSome_iff_eq_none.mp free
        have once' : ((st.active ++ [(run.runNumber, content)]).map Prod.fst).Nodup := by
          rw [List.map_append]
          refine List.nodup_append.mpr ⟨once, by simp, ?_⟩
          intro a inA b inB
          rw [List.mem_singleton.mp inB]
          rintro rfl
          exact absent inA
        obtain ⟨all, left⟩ := ih once' ok
        refine ⟨by simpa using all, ?_⟩
        rw [left, List.map_cons, stored, Option.join_some, List.append_assoc]
        rfl

end LsmTree

theorem assemblePerm (maxLevel : Nat) (sstables : List SsTableHandle) :
    (assemble maxLevel sstables).flatten.Perm (sstables.filter (fun h => decide (h.level ≤ maxLevel))) := by
  have levels : ∀ n, ((List.range n).map (fun level =>
      sortByMinKey (sstables.filter (fun h => h.level == level)))).flatten.Perm
        (sstables.filter (fun h => decide (h.level < n))) := by
    intro n
    induction n with
    | zero => simp
    | succ n ih =>
      rw [List.range_succ, List.map_append, List.flatten_append, List.map_singleton,
        List.flatten_singleton]
      refine (ih.append (List.perm_insertionSort _ _)).trans ?_
      have split := List.filter_append_perm (fun h : SsTableHandle => decide (h.level < n))
        (sstables.filter (fun h => decide (h.level < n + 1)))
      rw [List.filter_filter, List.filter_filter] at split
      refine List.Perm.trans ?_ split
      rw [show (sstables.filter (fun h => decide (h.level < n))) = sstables.filter
        (fun h => decide (h.level < n) && decide (h.level < n + 1)) from List.filter_congr (by
          intro h _
          by_cases below : h.level < n
          · simp [below, show h.level < n + 1 by omega]
          · simp [below]),
        show (sstables.filter (fun h => h.level == n)) = sstables.filter
        (fun h => !decide (h.level < n) && decide (h.level < n + 1)) from List.filter_congr (by
          intro h _
          by_cases here : h.level = n
          · simp [here]
          · simp only [beq_eq_false_iff_ne.mpr here]
            by_cases below : h.level < n
            · simp [below]
            · simp [below, show ¬ h.level < n + 1 by omega])]
  have all := levels (maxLevel + 1)
  simp only [Nat.lt_succ_iff] at all
  exact all

theorem startSound {config : LsmConfig} {seq maxRunNumber : Nat} {sstables : List SsTableHandle}
    {st : Storage} (owns : Owns st ↑(sstables.filter (fun h => decide (h.level ≤ 6))))
    (distinct : Distinct sstables) (unused : ∀ n, maxRunNumber < n → st.active.lookup n = none)
    (overflowChecks : Bool) :
    Sound (.begin (LsmTree.start config seq maxRunNumber sstables, st) overflowChecks) := by
  have perm := assemblePerm 6 sstables
  refine ⟨⟨?_, by simp [State.outputs, State.allocated, State.begin, Foreground.outputs,
      Foreground.allocated], fun h _ inside => ?_, fun n cause => ?_, fun n member => ?_⟩, ?_, ?_, ?_, ?_, ?_⟩
  · refine owns.congr ?_
    simp only [State.settled, State.settledBase, State.outputs, State.begin, State.heldHandles,
      Foreground.clones, Foreground.outputs, Option.elim_none, List.flatMap_nil, List.append_nil,
      Multiset.coe_nil, add_zero]
    exact (Multiset.coe_eq_coe.mpr perm).symm
  · cases inside
  · rcases cause with member | high
    · cases member
    · exact unused n high
  · cases member
  · exact Nat.succ_pos 5
  · refine ⟨?_, ?_, rfl, rfl⟩
    · simp [LsmTree.snapshot, State.begin, LsmTree.start, assemble]
    · have some : Distinct (sstables.filter (fun h => decide (h.level ≤ 6))) :=
        distinct.sublist List.filter_sublist
      exact (perm.map _).nodup_iff.mpr some
  · exact fun snap member => by cases member
  · trivial
  · exact fun c member => by cases member

inductive Starts : State → Prop where
  | opened (config : LsmConfig) (st : Storage) (rest : st.AtRest) (overflowChecks : Bool) :
      Starts (.begin (LsmTree.open config st) overflowChecks)
  | openedSnapshot (name : String) (st : Storage) (rest : st.AtRest) (t : LsmTree) (st' : Storage)
      (ok : LsmTree.openSnapshot name st = (.ok t, st')) (overflowChecks : Bool) :
      Starts (.begin (t, st') overflowChecks)

namespace Starts

theorem fresh (config : LsmConfig) (overflowChecks : Bool := false) : Starts (.fresh config overflowChecks) :=
  .opened config Storage.empty ⟨fun _ => rfl, List.nodup_nil⟩ overflowChecks

theorem opensNothing {st : Storage} (counters : ∀ c, st.refcounts c = 0) : Opens [] st [] st :=
  ⟨Owns.nothing counters, List.nodup_nil, fun _ member => absurd member List.not_mem_nil, rfl⟩

theorem dropAllActive (hs : List SsTableHandle) {st : Storage} {n : Nat}
    (absent : st.active.lookup n = none) : (hs.foldl Storage.dropHandle st).active.lookup n = none := by
  induction hs generalizing st with
  | nil => exact absent
  | cons h rest ih => exact ih (Ledger.dropActive st h absent)

theorem openSound (config : LsmConfig) {st : Storage} (rest : st.AtRest) (overflowChecks : Bool := false) :
    Sound (.begin (LsmTree.open config st) overflowChecks) := by
  have opens := LsmTree.openListedOpens (st.active.map Prod.fst) (opensNothing rest.counters)
    (by simpa using rest.distinct)
  have level : ∀ h ∈ (LsmTree.openListed (st.active.map Prod.fst) st).1, h.level = 0 :=
    LsmTree.openListedLevel (st.active.map Prod.fst) st (fun _ member => absurd member List.not_mem_nil)
  refine startSound ?_ opens.distinct (fun n high => ?_) overflowChecks
  · rw [List.filter_eq_self.mpr (fun h member => by simp [level h member])]
    exact opens.owns
  · have same := opens.active
    rw [LsmTree.openListed, same, lookupUnlisted]
    intro member
    have := leFoldlMax _ n member
    omega

structure OpensSnapshot (name : String) (st : Storage) (metadata : SnapshotMetadata)
    (sstables : List SsTableHandle) (linked opened : Storage) : Prop where
  loaded : PersistentSnapshot.load st name = .ok metadata
  once : (metadata.runs.map SnapshotRun.runNumber).Nodup
  active : linked.active = metadata.runs.map (fun run =>
    (run.runNumber, ((st.files (.snapshot name)).lookup run.runNumber).join))
  opens : Opens (metadata.runs.map SnapshotRun.runNumber) linked sstables opened
  pairs : List.Forall₂ (fun (run : SnapshotRun) h => h.runNumber = run.runNumber ∧
    h.level = run.level ∧ linked.active.lookup run.runNumber = some (some h.run)) metadata.runs sstables

theorem openSnapshotSteps {name : String} {st st' : Storage} {t : LsmTree}
    (ok : LsmTree.openSnapshot name st = (.ok t, st')) :
    ∃ metadata linked sstables opened, PersistentSnapshot.load st name = .ok metadata ∧
      LsmTree.linkRuns name metadata.runs { st with active := [] } = (.ok (), linked) ∧
      LsmTree.openRuns name metadata.runs [] linked = (.ok sstables, opened) ∧
      t = LsmTree.start metadata.config metadata.sequenceNumber
        ((metadata.runs.map SnapshotRun.runNumber).foldl max 0) sstables ∧
      st' = (sstables.filter (fun h => decide (6 < h.level))).foldl Storage.dropHandle opened := by
  unfold LsmTree.openSnapshot at ok
  split at ok
  · simp at ok
  · rename_i metadata loaded
    split at ok
    · simp at ok
    · rename_i linked link
      split at ok
      · simp at ok
      · rename_i sstables opened runs
        cases ok
        exact ⟨metadata, linked, sstables, opened, loaded, link, runs, rfl, rfl⟩

theorem linkedRuns {name : String} {runs : List SnapshotRun} {st linked : Storage}
    (link : LsmTree.linkRuns name runs { st with active := [] } = (.ok (), linked)) :
    (runs.map SnapshotRun.runNumber).Nodup ∧ linked.refcounts = st.refcounts ∧ linked.active = runs.map (fun run =>
      (run.runNumber, ((st.files (.snapshot name)).lookup run.runNumber).join)) := by
  have empty : (({ st with active := [] } : Storage).active.map Prod.fst).Nodup := List.nodup_nil
  obtain ⟨once, left⟩ := LsmTree.linkRunsOk empty link
  exact ⟨by simpa using once, by rw [left], by rw [left]; rfl⟩

theorem openSnapshotOk {name : String} {st st' : Storage} (counters : ∀ c, st.refcounts c = 0)
    {t : LsmTree} (ok : LsmTree.openSnapshot name st = (.ok t, st')) :
    ∃ metadata sstables linked opened, OpensSnapshot name st metadata sstables linked opened ∧
      t = LsmTree.start metadata.config metadata.sequenceNumber
        ((metadata.runs.map SnapshotRun.runNumber).foldl max 0) sstables ∧
      st' = (sstables.filter (fun h => decide (6 < h.level))).foldl Storage.dropHandle opened := by
  obtain ⟨metadata, linked, sstables, opened, loaded, link, runs, tree, storage⟩ := openSnapshotSteps ok
  obtain ⟨once, refcounts, active⟩ := linkedRuns link
  have opens := LsmTree.openRunsOpens (opensNothing (fun c => refcounts ▸ counters c)) (by simpa using once) runs
  obtain ⟨-, more, same, pairs⟩ := LsmTree.openRunsPairs runs
  rw [List.nil_append] at same opens
  subst same
  exact ⟨metadata, sstables, linked, opened, ⟨loaded, once, active, opens, pairs.imp (fun _ _ pair => pair.2)⟩,
    tree, storage⟩

theorem levelSplit (sstables : List SsTableHandle) : (↑sstables : Multiset SsTableHandle) =
    ↑(sstables.filter (fun h => decide (6 < h.level))) +
      ↑(sstables.filter (fun h => decide (h.level ≤ 6))) := by
  have split := List.filter_append_perm (fun h : SsTableHandle => decide (6 < h.level)) sstables
  rw [Multiset.coe_add, Multiset.coe_eq_coe]
  simpa only [← decide_not, Nat.not_lt] using split.symm

theorem openSnapshotSound {name : String} {st st' : Storage} (counters : ∀ c, st.refcounts c = 0)
    {t : LsmTree} (ok : LsmTree.openSnapshot name st = (.ok t, st')) (overflowChecks : Bool := false) :
    Sound (.begin (t, st') overflowChecks) := by
  obtain ⟨metadata, sstables, linked, opened, done, rfl, rfl⟩ := openSnapshotOk counters ok
  refine startSound (Owns.dropAll (done.opens.owns.congr (levelSplit sstables))) done.opens.distinct
    (fun n high => ?_) overflowChecks
  refine dropAllActive _ ?_
  have numbers : linked.active.map Prod.fst = metadata.runs.map SnapshotRun.runNumber := by
    rw [done.active, List.map_map]
    rfl
  rw [done.opens.active, lookupUnlisted, numbers]
  intro member
  have := leFoldlMax _ n member
  omega

theorem sound {s : State} (starts : Starts s) : Sound s := by
  cases starts with
  | opened config st rest overflowChecks => exact openSound config rest overflowChecks
  | openedSnapshot name st rest t st' ok overflowChecks => exact openSnapshotSound rest.counters ok overflowChecks

end Starts
end CardanoLsm
