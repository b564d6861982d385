import CardanoLsm.Recovery
import CardanoLsm.SnapshotFiles

/-! `open_snapshot` with the links of the single files (`lib.rs`): `active/` is emptied and
refilled before the snapshot is known to be usable. What a failing call leaves, and what
`open` then reads. -/
namespace CardanoLsm
open Std Layered Script
open SnapshotFiles (components)

abbrev RunDirectory (C : Type) := List (Nat × (Component → Option C))

namespace RunDirectory
variable {C : Type}

def file (dir : RunDirectory C) (n : Nat) (c : Component) : Option C :=
  (dir.lookup n).bind (fun files => files c)

def put (dir : RunDirectory C) (n : Nat) (c : Component) (content : C) : RunDirectory C :=
  if (dir.lookup n).isSome then
    dir.map (fun f => if f.1 = n then (n, Function.update f.2 c (some content)) else f)
  else dir ++ [(n, Function.update (fun _ => none) c (some content))]

def hardLink (source : RunDirectory C) (n : Nat) (c : Component) (dir : RunDirectory C) :
    Option (RunDirectory C) :=
  match source.file n c with
  | none => none
  | some content => if (dir.file n c).isSome then none else some (dir.put n c content)

end RunDirectory

def openedRun {C : Type} (verify : (Component → Option C) → Option Run) (files : Component → Option C) :
    Option Run :=
  if components.all (fun c => (files c).isSome) then verify files else none

def RunDirectory.runs {C : Type} (verify : (Component → Option C) → Option Run) (dir : RunDirectory C) :
    RunFiles :=
  (dir.filter (fun f => (f.2 .keyops).isSome)).map (fun f => (f.1, openedRun verify f.2))

def linkOps {C : Type} (source : RunDirectory C) (run : SnapshotRun) : List (Op FileOp (RunDirectory C)) :=
  components.map (fun c => attempt (.hardLink c) (source.hardLink run.runNumber c))

def LsmTree.openSnapshotFiles {C : Type} (verify : (Component → Option C) → Option Run)
    (faults : Nat → Bool) (source : RunDirectory C) (name : String) (st : Storage) :
    Except Error LsmTree × Storage :=
  match PersistentSnapshot.load st name with
  | .error e => (.error e, st)
  | .ok metadata =>
    match Script.run faults 0 (metadata.runs.flatMap (linkOps source)) [] with
    | (some op, active) => (.error (.io op), { st with active := active.runs verify })
    | (none, active) =>
      match openRuns name metadata.runs [] { st with active := active.runs verify } with
      | (.error e, st) => (.error e, st)
      | (.ok sstables, st) =>
        (.ok (start metadata.config metadata.sequenceNumber
            ((metadata.runs.map SnapshotRun.runNumber).foldl max 0) sstables),
          (sstables.filter (fun h => decide (6 < h.level))).foldl Storage.dropHandle st)

/-- The same with `max_run_number + 1` in `u64`; `none` is its panic in a build that checks
for overflows. -/
def LsmTree.openSnapshotWord {C : Type} (overflowChecks : Bool) (verify : (Component → Option C) → Option Run)
    (faults : Nat → Bool) (source : RunDirectory C) (name : String) (st : Storage) :
    Option (Except Error LsmTree × Storage) :=
  match openSnapshotFiles verify faults source name st with
  | (.ok tree, st) =>
    (fitWord overflowChecks tree.nextRunNumber).map (fun next => (.ok { tree with nextRunNumber := next }, st))
  | (.error e, st) => some (.error e, st)

def ReadsSame (st st' : Storage) : Prop :=
  ∀ config : LsmConfig,
    (∀ lo hi, (LsmTree.open config st).1.range (LsmTree.open config st).2 lo hi =
      (LsmTree.open config st').1.range (LsmTree.open config st').2 lo hi) ∧
    ∀ hash k, (LsmTree.open config st).1.get hash (LsmTree.open config st).2 k =
      (LsmTree.open config st').1.get hash (LsmTree.open config st').2 k

namespace FoundRun

def minKey (f : FoundRun) : Key := f.content.elim [] Run.minKey

def lookupOrder (found : List FoundRun) : List FoundRun :=
  ((found.filter (fun f => f.content.isSome)).insertionSort
    (fun a b => (compare a.minKey b.minKey).isLE = true)).reverse

def firstValue (found : List FoundRun) (k : Key) : Option Value :=
  (lookupOrder found).findSome? (fun f => (f.entries[k]?).join)

def Alike (found found' : List FoundRun) : Prop :=
  ∀ k, visible (newestFirst found) k = visible (newestFirst found') k ∧
    firstValue found k = firstValue found' k

end FoundRun

theorem scanLevelZero {hs : List SsTableHandle} (zero : ∀ h ∈ hs, h.level = 0) :
    scanOrder (assemble 6 hs) = (sortByMinKey hs).reverse := by
  have here : hs.filter (fun h => h.level == 0) = hs :=
    List.filter_eq_self.mpr (fun h member => by simp [zero h member])
  have none : ∀ level, hs.filter (fun h => h.level == level + 1) = [] :=
    fun level => List.filter_eq_nil_iff.mpr (fun h member => by simp [zero h member])
  rw [assemble, List.range_succ_eq_map, List.map_cons, here, List.map_map, scanOrder, List.flatMap_cons]
  have blank : ((List.range 6).map ((fun level => sortByMinKey (hs.filter (fun h => h.level == level))) ∘
      Nat.succ)).flatMap List.reverse = [] := by
    rw [List.flatMap_map, List.flatMap_eq_nil_iff]
    intro level _
    simp only [Function.comp_apply, Nat.succ_eq_add_one, none, sortByMinKey, List.insertionSort_nil,
      List.reverse_nil]
  rw [blank, List.append_nil]

theorem openLookup (config : LsmConfig) (hash : KeyHash) {st : Storage} (rest : st.AtRest) (k : Key) :
    (LsmTree.open config st).1.get hash (LsmTree.open config st).2 k =
      .ok (FoundRun.firstValue st.found k) := by
  have readable := (Starts.openSound config rest).treeReadable
  have level : ∀ h ∈ (LsmTree.openListed (st.active.map Prod.fst) st).1, h.level = 0 :=
    LsmTree.openListedLevel (st.active.map Prod.fst) st (fun _ member => absurd member List.not_mem_nil)
  have all := openListedFound (st.active.map Prod.fst) [] st
  rw [List.map_nil, List.nil_append] at all
  have order : ((sortByMinKey (LsmTree.openListed (st.active.map Prod.fst) st).1).reverse).map
      SsTableHandle.found = FoundRun.lookupOrder st.found := by
    rw [List.map_reverse, FoundRun.lookupOrder]
    refine congrArg List.reverse ?_
    refine Eq.trans ?_ (congrArg _ all)
    exact List.map_insertionSort _ _ SsTableHandle.found _ (fun _ _ _ _ => Iff.rfl)
  have looked : (LsmTree.open config st).1.get hash (LsmTree.open config st).2 k =
      .ok (scanView (MemTable.new 0) [] (assemble 6 (LsmTree.openListed (st.active.map Prod.fst) st).1) k) :=
    lookupEq hash (MemTable.new 0) [] readable k
  have fresh : resolve (memLayers (MemTable.new 0) []) k = none := by
    simp [memLayers, MemTable.new, resolve]
  rw [looked, scanView, fresh, scanLevelZero level, FoundRun.firstValue, ← order, List.findSome?_map]
  rfl

theorem readsSame {st st' : Storage} (rest : st.AtRest) (rest' : st'.AtRest) :
    ReadsSame st st' ↔ FoundRun.Alike st.found st'.found := by
  constructor
  · intro same k
    obtain ⟨ranges, lookups⟩ := same ⟨1, 1⟩
    constructor
    · show st.recovered k = st'.recovered k
      rw [← openView ⟨1, 1⟩ rest k, ← openView ⟨1, 1⟩ rest' k]
      exact LsmTree.viewOfRange (Starts.openSound _ rest).treeReadable (Starts.openSound _ rest').treeReadable
        (ranges k k)
    · have looked := lookups (fun _ _ => 0) k
      rw [openLookup _ _ rest, openLookup _ _ rest'] at looked
      exact Except.ok.inj looked
  · intro alike config
    constructor
    · intro lo hi
      refine LsmTree.rangeSame (Starts.openSound _ rest).treeReadable (Starts.openSound _ rest').treeReadable
        (fun k _ => ?_)
      exact (openView config rest k).trans ((alike k).1.trans (openView config rest' k).symm)
    · intro hash k
      rw [openLookup _ _ rest, openLookup _ _ rest', (alike k).2]

inductive Each {α : Type} (P : List α → α → Prop) : List α → Prop
  | nil : Each P []
  | snoc {front : List α} {a : α} (before : Each P front) (here : P front a) : Each P (front ++ [a])

theorem firstFailure {α : Type} (P : List α → α → Prop) (l : List α) :
    Each P l ∨ ∃ front a back, l = front ++ a :: back ∧ Each P front ∧ ¬ P front a := by
  induction l using List.reverseRecOn with
  | nil => exact Or.inl .nil
  | append_singleton l a ih =>
    rcases ih with each | ⟨front, x, back, rfl, each, fails⟩
    · by_cases here : P l a
      · exact Or.inl (.snoc each here)
      · exact Or.inr ⟨l, a, [], rfl, each, here⟩
    · exact Or.inr ⟨front, x, back ++ [a], by simp, each, fails⟩

theorem Each.all {α : Type} {p : α → Prop} {l : List α} (each : Each (fun _ a => p a) l) : ∀ a ∈ l, p a := by
  induction each with
  | nil => exact fun _ member => absurd member List.not_mem_nil
  | snoc _ here ih =>
    intro a member
    rcases List.mem_append.mp member with old | new
    · exact ih a old
    · rw [List.mem_singleton.mp new]
      exact here

namespace RunDirectory
variable {C : Type} {source dir : RunDirectory C} {faults : Nat → Bool} {n : Nat}

def filesOf (source : RunDirectory C) (n : Nat) (done : List Component) : Component → Option C :=
  fun c => if c ∈ done then source.file n c else none

def partly (source dir : RunDirectory C) (n : Nat) (done : List Component) : RunDirectory C :=
  if done = [] then dir else dir ++ [(n, source.filesOf n done)]

theorem lookupNew (absent : n ∉ dir.map Prod.fst) (files : Component → Option C) :
    (dir ++ [(n, files)]).lookup n = some files := by
  rw [List.lookup_append, Assoc.lookupNone.mpr absent]
  simp

theorem linkStep (absent : n ∉ dir.map Prod.fst) {done : List Component} {c : Component} (new : c ∉ done)
    (there : (source.file n c).isSome = true) :
    source.hardLink n c (source.partly dir n done) = some (source.partly dir n (done ++ [c])) := by
  obtain ⟨content, found⟩ := Option.isSome_iff_exists.mp there
  have grown : Function.update (source.filesOf n done) c (some content) = source.filesOf n (done ++ [c]) := by
    funext d
    by_cases same : d = c
    · subst same
      simp [filesOf, found]
    · simp [filesOf, same]
  rw [hardLink, found]
  by_cases first : done = []
  · subst first
    have free : dir.lookup n = none := Assoc.lookupNone.mpr absent
    have nothing : source.filesOf n [] = fun _ => none := by
      funext d
      simp [filesOf]
    rw [nothing] at grown
    simpa [partly, file, put, free] using grown
  · have free : (source.partly dir n done).file n c = none := by
      simp [partly, first, file, lookupNew absent, filesOf, new]
    have others : dir.map (fun f => if f.1 = n then (n, Function.update f.2 c (some content)) else f) = dir := by
      refine (List.map_congr_left (fun f member => ?_)).trans (List.map_id _)
      have other : f.1 ≠ n := fun same => absent (same ▸ List.mem_map_of_mem member)
      rw [if_neg other, id_eq]
    simp only [free, Option.isSome_none, Bool.false_eq_true, if_false]
    simp [partly, first, put, lookupNew absent, others, grown]

variable (source faults) in
theorem linkComponents (absent : n ∉ dir.map Prod.fst) (cs done : List Component)
    (once : (done ++ cs).Nodup) (i : Nat) :
    let ops := cs.map (fun c => attempt (FileOp.hardLink c) (source.hardLink n c))
    let ready := ∀ p ∈ cs.zipIdx i, faults p.2 = false ∧ (source.file n p.1).isSome = true
    ready ∧ Script.run faults i ops (source.partly dir n done) = (none, source.partly dir n (done ++ cs)) ∨
      ¬ ready ∧ ∃ op pre c rest, cs = pre ++ c :: rest ∧
        Script.run faults i ops (source.partly dir n done) = (some op, source.partly dir n (done ++ pre)) := by
  induction cs generalizing done i with
  | nil =>
    refine Or.inl ⟨fun _ member => absurd member List.not_mem_nil, ?_⟩
    rw [List.append_nil]
    rfl
  | cons c cs ih =>
    simp only [List.map_cons, List.zipIdx_cons, List.mem_cons, forall_eq_or_imp]
    have new : c ∉ done := fun member =>
      (List.nodup_append.mp once).2.2 c member c List.mem_cons_self rfl
    have regroup : done ++ c :: cs = (done ++ [c]) ++ cs := by simp
    by_cases first : faults i = false ∧ (source.file n c).isSome = true
    · obtain ⟨enabled, effect⟩ : (attempt (FileOp.hardLink c) (source.hardLink n c)).enabled (source.partly dir n done) = true ∧
          (attempt (FileOp.hardLink c) (source.hardLink n c)).effect (source.partly dir n done) =
            source.partly dir n (done ++ [c]) := attemptEffect (linkStep absent new first.2)
      simp only [Script.run, first.1, enabled, effect, Bool.not_true, Bool.or_self, Bool.false_eq_true, if_false,
        first.2, and_self, true_and]
      rcases ih (done ++ [c]) (regroup ▸ once) (i + 1) with ⟨ready, ran⟩ | ⟨unready, op, pre, d, rest, split, ran⟩
      · exact Or.inl ⟨ready, by rw [ran, regroup]⟩
      · exact Or.inr ⟨unready, op, c :: pre, d, rest, by rw [split, List.cons_append], by rw [ran]; simp⟩
    · refine Or.inr ⟨fun ready => first ready.1, .hardLink c, [], c, cs, rfl, ?_⟩
      rw [List.append_nil, Script.run, if_pos ?_]
      · rfl
      · cases fault : faults i with
        | true => rfl
        | false =>
          have gone : source.file n c = none := by simpa [fault] using first
          simp [attempt, hardLink, gone]

end RunDirectory

section Links
variable {C : Type} {source : RunDirectory C} {faults : Nat → Bool}

def Linkable (faults : Nat → Bool) (source : RunDirectory C) (before : List SnapshotRun) (run : SnapshotRun) :
    Prop :=
  run.runNumber ∉ before.map SnapshotRun.runNumber ∧
    ∀ p ∈ components.zipIdx (5 * before.length),
      faults p.2 = false ∧ (source.file run.runNumber p.1).isSome = true

def linkedRuns (source : RunDirectory C) (runs : List SnapshotRun) : RunDirectory C :=
  runs.map (fun run => (run.runNumber, source.filesOf run.runNumber components))

theorem linkedNumbers (source : RunDirectory C) (runs : List SnapshotRun) :
    (linkedRuns source runs).map Prod.fst = runs.map SnapshotRun.runNumber := by
  rw [linkedRuns, List.map_map]
  rfl

theorem linkedSnoc (source : RunDirectory C) (runs : List SnapshotRun) (run : SnapshotRun) :
    source.partly (linkedRuns source runs) run.runNumber components = linkedRuns source (runs ++ [run]) := by
  have some : components ≠ [] := by decide
  simp [RunDirectory.partly, some, linkedRuns]

theorem linkOpsLength (source : RunDirectory C) (runs : List SnapshotRun) :
    (runs.flatMap (linkOps source)).length = 5 * runs.length := by
  induction runs with
  | nil => rfl
  | cons run rest ih =>
    have five : (linkOps source run).length = 5 := rfl
    rw [List.flatMap_cons, List.length_append, ih, five, List.length_cons]
    omega

theorem linkAll {runs : List SnapshotRun} (each : Each (Linkable faults source) runs) :
    Script.run faults 0 (runs.flatMap (linkOps source)) [] = (none, linkedRuns source runs) := by
  induction each with
  | nil => rfl
  | @snoc before run _ here ih =>
    have absent : run.runNumber ∉ (linkedRuns source before).map Prod.fst := linkedNumbers source before ▸ here.1
    rcases RunDirectory.linkComponents source faults absent components [] (by decide)
      (5 * before.length) with ⟨-, ran⟩ | ⟨unready, -⟩
    · rw [List.flatMap_append, runAppend ih, linkOpsLength, List.flatMap_singleton, Nat.zero_add]
      rw [List.nil_append, linkedSnoc] at ran
      exact ran
    · exact absurd here.2 unready

theorem Each.linked {runs : List SnapshotRun} (each : Each (Linkable faults source) runs) :
    (runs.map SnapshotRun.runNumber).Nodup ∧
      ∀ run ∈ runs, ∀ c ∈ components, (source.file run.runNumber c).isSome = true := by
  induction each with
  | nil => exact ⟨List.nodup_nil, fun _ member => absurd member List.not_mem_nil⟩
  | @snoc before run _ here ih =>
    constructor
    · rw [List.map_append]
      refine List.nodup_append.mpr ⟨ih.1, List.nodup_singleton _, ?_⟩
      rintro a old b new rfl
      exact here.1 (List.mem_singleton.mp new ▸ old)
    · intro x member c inside
      rcases List.mem_append.mp member with old | new
      · exact ih.2 x old c inside
      · obtain ⟨j, low, found⟩ := List.mem_iff_getElem.mp inside
        rw [List.mem_singleton.mp new]
        refine (here.2 (c, 5 * before.length + j) ?_).2
        rw [List.mk_add_mem_zipIdx_iff_getElem?, ← found]
        exact List.getElem?_eq_getElem low

theorem linkFails {linked : List SnapshotRun} (rest : List SnapshotRun) {run : SnapshotRun}
    (each : Each (Linkable faults source) linked) (fails : ¬ Linkable faults source linked run) :
    ∃ op dir, Script.run faults 0 ((linked ++ run :: rest).flatMap (linkOps source)) [] = (some op, dir) ∧
      (dir = linkedRuns source linked ∨ ∃ files, dir = linkedRuns source linked ++ [(run.runNumber, files)] ∧
        run.runNumber ∉ linked.map SnapshotRun.runNumber ∧ ∃ c ∈ components, files c = none) := by
  have stopped : ∃ op dir, Script.run faults (5 * linked.length) (linkOps source run) (linkedRuns source linked) =
      (some op, dir) ∧ (dir = linkedRuns source linked ∨ ∃ files,
        dir = linkedRuns source linked ++ [(run.runNumber, files)] ∧
          run.runNumber ∉ linked.map SnapshotRun.runNumber ∧ ∃ c ∈ components, files c = none) := by
    by_cases double : run.runNumber ∈ linked.map SnapshotRun.runNumber
    · -- the first of its files is there already
      obtain ⟨once, there⟩ := each.linked
      obtain ⟨twin, inside, same⟩ := List.mem_map.mp double
      have listed : (linkedRuns source linked).lookup run.runNumber =
          some (source.filesOf twin.runNumber components) :=
        Assoc.lookupOnce (by rwa [linkedNumbers]) (same ▸ List.mem_map_of_mem inside)
      have held : ((linkedRuns source linked).file run.runNumber .keyops).isSome = true := by
        rw [RunDirectory.file, listed, Option.bind_some, RunDirectory.filesOf, if_pos (by decide)]
        exact there twin inside .keyops (by decide)
      refine ⟨.hardLink .keyops, _, ?_, Or.inl rfl⟩
      rw [linkOps, components, List.map_cons, Script.run, if_pos]
      · rfl
      · have refused : source.hardLink run.runNumber .keyops (linkedRuns source linked) = none := by
          unfold RunDirectory.hardLink
          split
          · rfl
          · rw [if_pos held]
        simp [attempt, refused]
    · have absent : run.runNumber ∉ (linkedRuns source linked).map Prod.fst := linkedNumbers source linked ▸ double
      rcases RunDirectory.linkComponents source faults absent components [] (by decide)
        (5 * linked.length) with ⟨ready, -⟩ | ⟨-, op, pre, c, post, split, ran⟩
      · exact absurd ⟨double, ready⟩ fails
      · refine ⟨op, _, ran, ?_⟩
        rw [List.nil_append, RunDirectory.partly]
        by_cases first : pre = []
        · exact Or.inl (if_pos first)
        · refine Or.inr ⟨_, if_neg first, double, c, split ▸ List.mem_append_right _ List.mem_cons_self, ?_⟩
          have once : (pre ++ c :: post).Nodup := split ▸ (by decide : components.Nodup)
          have new : c ∉ pre := fun member => (List.nodup_append.mp once).2.2 c member c List.mem_cons_self rfl
          rw [RunDirectory.filesOf, if_neg new]
  obtain ⟨op, dir, ran, left⟩ := stopped
  refine ⟨op, dir, ?_, left⟩
  rw [List.flatMap_append, runAppend (linkAll each), linkOpsLength, Nat.zero_add, List.flatMap_cons]
  exact runAppendStopped ran

end Links

theorem Owns.dropDistinct {st : Storage} {hs : List SsTableHandle} (own : Owns st ↑hs) (distinct : Distinct hs) :
    (hs.foldl Storage.dropHandle st).active =
      st.active.filter (fun f => decide (f.1 ∉ hs.map SsTableHandle.runNumber)) := by
  induction hs generalizing st with
  | nil => simp
  | cons h rest ih =>
    obtain ⟨fresh, later⟩ := List.nodup_cons.mp distinct
    have member : h ∈ (↑(h :: rest) : Multiset SsTableHandle) := List.mem_cons_self
    have last : st.refcounts h.refcount = 1 := by
      rw [own.counts.countNum member, Multiset.coe_countP, List.countP_cons_of_pos (by simp)]
      refine congrArg (· + 1) (List.countP_eq_zero.mpr (fun x inside => ?_))
      simp only [decide_eq_true_eq]
      exact fun same => fresh (List.mem_map.mpr ⟨x, inside, same⟩)
    have removed : (st.dropHandle h).active = st.active.filter (fun f => f.1 != h.runNumber) := by
      simp [Storage.dropHandle, last, own.inActive h member, Storage.removeFiles]
    rw [List.foldl_cons, ih (Owns.dropHandle own) later, removed, List.filter_filter]
    refine List.filter_congr (fun f _ => ?_)
    rw [List.map_cons]
    by_cases here : f.1 = h.runNumber <;> simp [here]

namespace LsmTree

theorem openRunsAppend {name : String} {first second : List SnapshotRun} {opened hs : List SsTableHandle}
    {st st' : Storage} (ok : openRuns name first opened st = (.ok hs, st')) :
    openRuns name (first ++ second) opened st = openRuns name second hs st' := by
  induction first generalizing opened st with
  | nil =>
    cases ok
    rfl
  | cons run rest ih =>
    rw [List.cons_append, openRuns]
    unfold openRuns at ok
    split at ok
    · rename_i h st₁ here
      exact ih ok
    · cases ok

theorem openRunsFails (name : String) (before after : List SnapshotRun) (run : SnapshotRun) (st : Storage)
    (counters : ∀ c, st.refcounts c = 0) (once : (before.map SnapshotRun.runNumber).Nodup)
    (opens : ∀ x ∈ before, (st.runAt .active x.runNumber).isSome)
    (fails : st.runAt .active run.runNumber = none) :
    ∃ e st', openRuns name (before ++ run :: after) [] st = (.error e, st') ∧
      (∀ c, st'.refcounts c = 0) ∧
      st'.active = st.active.filter (fun f => decide (f.1 ∉ before.map SnapshotRun.runNumber)) := by
  obtain ⟨hs, st₁, ok, active, pairs⟩ := openRunsEnds name [] st opens
  rw [List.nil_append] at ok
  have opened := openRunsOpens (Starts.opensNothing counters) (by simpa using once) ok
  have numbers : hs.map SsTableHandle.runNumber = before.map SnapshotRun.runNumber :=
    Assoc.relatedMap (pairs.imp (fun _ _ pair => congrArg FoundRun.number pair.2))
  have closed : SsTableHandle.open st₁ run.runNumber = (.error (.io (.read .checksums)), st₁) := by
    have gone : st₁.runAt .active run.runNumber = none := by
      rw [← fails, Storage.runAt, Storage.runAt, Storage.files, Storage.files, active]
    rw [SsTableHandle.open, gone]
  refine ⟨.loadFailed run.runNumber name (.io (.read .checksums)), hs.foldl Storage.dropHandle st₁, ?_, ?_, ?_⟩
  · rw [openRunsAppend ok, openRuns, closed]
  · have own : Owns st₁ (↑hs + 0) := by
      rw [add_zero]
      exact opened.owns
    intro c
    have none := (Owns.dropAll own).counts.counted c
    rwa [Multiset.countP_zero] at none
  · rw [Owns.dropDistinct opened.owns opened.distinct, numbers, active]

end LsmTree

section Leaves
variable {C : Type} {verify : (Component → Option C) → Option Run} {faults : Nat → Bool}
  {source : RunDirectory C}

def contentOf (verify : (Component → Option C) → Option Run) (source : RunDirectory C) (run : SnapshotRun) :
    Option Run := openedRun verify (source.filesOf run.runNumber components)

def contentsFound (verify : (Component → Option C) → Option Run) (source : RunDirectory C)
    (runs : List SnapshotRun) : List FoundRun :=
  runs.map (fun run => ⟨run.runNumber, 0, contentOf verify source run⟩)

/-- The runs of the snapshot that a failing call leaves behind: those before the first whose
files cannot all be linked, or those after the first that does not pass its checks. -/
inductive LeavesBehind (verify : (Component → Option C) → Option Run) (faults : Nat → Bool)
    (source : RunDirectory C) : List SnapshotRun → List SnapshotRun → Prop
  | unlinked {before after : List SnapshotRun} {run : SnapshotRun} (linked : Each (Linkable faults source) before)
      (fails : ¬ Linkable faults source before run) :
      LeavesBehind verify faults source (before ++ run :: after) before
  | unopened {before after : List SnapshotRun} {run : SnapshotRun}
      (linked : Each (Linkable faults source) (before ++ run :: after))
      (opens : ∀ x ∈ before, (contentOf verify source x).isSome = true)
      (fails : contentOf verify source run = none) :
      LeavesBehind verify faults source (before ++ run :: after) after

theorem foundOnce (st : Storage) (once : (st.active.map Prod.fst).Nodup) :
    st.found = st.active.map (fun f => ⟨f.1, 0, f.2⟩) := by
  rw [Storage.found, List.map_map]
  refine List.map_congr_left (fun f member => ?_)
  simp only [Function.comp_apply, Storage.runAt, Storage.files, Assoc.lookupOnce once member, Option.join_some]

theorem FoundRun.alikeComplete {found kept kept' : List FoundRun}
    (same : kept.filter (fun f => f.content.isSome) = kept'.filter (fun f => f.content.isSome)) :
    Alike found kept ↔ Alike found kept' := by
  simp only [Alike, newestFirst, complete, firstValue, lookupOrder, same]

theorem linkedRunsListed (verify : (Component → Option C) → Option Run) {runs : List SnapshotRun}
    (each : Each (Linkable faults source) runs) :
    (linkedRuns source runs).runs verify = runs.map (fun run => (run.runNumber, contentOf verify source run)) := by
  have listed : (linkedRuns source runs).filter (fun f => (f.2 .keyops).isSome) = linkedRuns source runs := by
    refine List.filter_eq_self.mpr (fun f member => ?_)
    obtain ⟨run, inside, rfl⟩ := List.mem_map.mp member
    have first : Component.keyops ∈ components := by decide
    simpa only [RunDirectory.filesOf, if_pos first] using each.linked.2 run inside .keyops first
  rw [RunDirectory.runs, listed, linkedRuns, List.map_map]
  rfl

theorem numbersListed (verify : (Component → Option C) → Option Run) {dir : RunDirectory C}
    (once : (dir.map Prod.fst).Nodup) : ((dir.runs verify).map Prod.fst).Nodup := by
  rw [RunDirectory.runs, List.map_map]
  exact once.sublist (List.filter_sublist.map Prod.fst)

theorem runsAppend (verify : (Component → Option C) → Option Run) (dir dir' : RunDirectory C) :
    RunDirectory.runs verify (dir ++ dir') = dir.runs verify ++ dir'.runs verify := by
  simp only [RunDirectory.runs, List.filter_append, List.map_append]

theorem foundActive (st : Storage) (counters : ∀ c, st.refcounts c = 0) {active : RunFiles}
    (once : (active.map Prod.fst).Nodup) : ({ st with active := active } : Storage).AtRest ∧
      ({ st with active := active } : Storage).found = active.map (fun f => ⟨f.1, 0, f.2⟩) :=
  ⟨⟨counters, once⟩, foundOnce { st with active := active } once⟩

theorem unlinkedLeaves {name : String} {st : Storage} (counters : ∀ c, st.refcounts c = 0)
    {metadata : SnapshotMetadata} (loaded : PersistentSnapshot.load st name = .ok metadata)
    {before after : List SnapshotRun} {run : SnapshotRun} (listed : metadata.runs = before ++ run :: after)
    (linked : Each (Linkable faults source) before) (fails : ¬ Linkable faults source before run) :
    ∃ e st', LsmTree.openSnapshotFiles verify faults source name st = (.error e, st') ∧ st'.AtRest ∧
      (before.map SnapshotRun.runNumber).Sublist (st'.active.map Prod.fst) ∧
        st'.found.filter (fun f => f.content.isSome) =
          (contentsFound verify source before).filter (fun f => f.content.isSome) := by
  obtain ⟨op, dir, ran, shape⟩ := linkFails after linked fails
  have once : (dir.map Prod.fst).Nodup := by
    rcases shape with rfl | ⟨files, rfl, absent, -⟩
    · rw [linkedNumbers]
      exact linked.linked.1
    · rw [List.map_append, linkedNumbers]
      refine List.nodup_append.mpr ⟨linked.linked.1, List.nodup_singleton _, ?_⟩
      intro a old b new same
      rw [same, List.mem_singleton.mp new] at old
      exact absent old
  obtain ⟨rest, found⟩ := foundActive st counters (numbersListed verify once)
  refine ⟨.io op, _, ?_, rest, ?_, ?_⟩
  · simp only [LsmTree.openSnapshotFiles, loaded, listed, ran]
  · have kept : (before.map SnapshotRun.runNumber).Sublist (((linkedRuns source before).runs verify).map Prod.fst) := by
      rw [linkedRunsListed verify linked, List.map_map]
      exact List.Sublist.refl _
    rcases shape with rfl | ⟨files, rfl, -⟩
    · exact kept
    · rw [runsAppend, List.map_append]
      exact kept.trans (List.sublist_append_left _ _)
  · rw [found]
    rcases shape with rfl | ⟨files, rfl, -, c, inside, missing⟩
    · rw [linkedRunsListed verify linked, List.map_map]
      rfl
    · -- the run whose link failed is not complete
      have incomplete : openedRun verify files = none := by
        rw [openedRun, if_neg]
        intro all
        have here := List.all_eq_true.mp all c inside
        rw [missing] at here
        cases here
      have skipped : ((RunDirectory.runs verify [(run.runNumber, files)]).map
          (fun f => (⟨f.1, 0, f.2⟩ : FoundRun))).filter (fun f => f.content.isSome) = [] := by
        refine List.filter_eq_nil_iff.mpr (fun f member => ?_)
        simp only [RunDirectory.runs, List.mem_map, List.mem_filter, List.mem_singleton] at member
        obtain ⟨g, ⟨x, ⟨rfl, -⟩, rfl⟩, rfl⟩ := member
        simp [incomplete]
      rw [runsAppend, List.map_append, List.filter_append, skipped, List.append_nil,
        linkedRunsListed verify linked, List.map_map]
      rfl

theorem unopenedLeaves {name : String} {st : Storage} (counters : ∀ c, st.refcounts c = 0)
    {metadata : SnapshotMetadata} (loaded : PersistentSnapshot.load st name = .ok metadata)
    {before after : List SnapshotRun} {run : SnapshotRun} (listed : metadata.runs = before ++ run :: after)
    (linked : Each (Linkable faults source) (before ++ run :: after))
    (opens : ∀ x ∈ before, (contentOf verify source x).isSome = true)
    (fails : contentOf verify source run = none) :
    ∃ e st', LsmTree.openSnapshotFiles verify faults source name st = (.error e, st') ∧ st'.AtRest ∧
      (after.map SnapshotRun.runNumber).Sublist (st'.active.map Prod.fst) ∧
        st'.found.filter (fun f => f.content.isSome) =
          (contentsFound verify source after).filter (fun f => f.content.isSome) := by
  obtain ⟨once, -⟩ := linked.linked
  have ran := linkAll linked
  have active := linkedRunsListed verify linked
  have numbers : (((linkedRuns source (before ++ run :: after)).runs verify).map Prod.fst) =
      (before ++ run :: after).map SnapshotRun.runNumber := by
    rw [active, List.map_map]
    rfl
  have content : ∀ x ∈ before ++ run :: after,
      ({ st with active := (linkedRuns source (before ++ run :: after)).runs verify } : Storage).runAt
        .active x.runNumber = contentOf verify source x := by
    intro x member
    have found : ((linkedRuns source (before ++ run :: after)).runs verify).lookup x.runNumber =
        some (contentOf verify source x) :=
      Assoc.lookupOnce (numbers ▸ once) (active ▸ List.mem_map_of_mem member)
    rw [Storage.runAt, Storage.files, found, Option.join_some]
  obtain ⟨e, st', failed, counters', left⟩ := LsmTree.openRunsFails name before after run
    { st with active := (linkedRuns source (before ++ run :: after)).runs verify } counters
    (once.sublist ((List.sublist_append_left before (run :: after)).map _))
    (fun x member => (content x (List.mem_append_left _ member)) ▸ opens x member)
    ((content run (List.mem_append_right _ List.mem_cons_self)).trans fails)
  -- the numbers of the runs opened before are not those of the others
  have remains : st'.active = (run :: after).map (fun x => (x.runNumber, contentOf verify source x)) := by
    rw [List.map_append] at once
    have gone : before.filter (fun x => decide (x.runNumber ∉ before.map SnapshotRun.runNumber)) = [] :=
      List.filter_eq_nil_iff.mpr (fun x member => by simpa using ⟨x, member, rfl⟩)
    have stay : (run :: after).filter (fun x => decide (x.runNumber ∉ before.map SnapshotRun.runNumber)) =
        run :: after := by
      refine List.filter_eq_self.mpr (fun x member => decide_eq_true (fun old => ?_))
      exact (List.nodup_append.mp once).2.2 _ old _ (List.mem_map_of_mem member) rfl
    rw [left, active, List.filter_map]
    simp only [Function.comp_def, List.filter_append, gone, stay, List.nil_append]
  have once' : (st'.active.map Prod.fst).Nodup := by
    rw [remains, List.map_map]
    exact once.sublist ((List.sublist_append_right before (run :: after)).map _)
  refine ⟨e, st', ?_, ⟨counters', once'⟩, ?_, ?_⟩
  · simp only [LsmTree.openSnapshotFiles, loaded, listed, ran, failed]
  · rw [remains, List.map_map, List.map_cons]
    exact List.sublist_cons_self _ _
  · rw [foundOnce st' once', remains, List.map_map, List.map_cons, List.filter_cons_of_neg (by simp [fails])]
    rfl

theorem LeavesBehind.leaves {name : String} {st : Storage} (counters : ∀ c, st.refcounts c = 0)
    {metadata : SnapshotMetadata} (loaded : PersistentSnapshot.load st name = .ok metadata)
    {runs left : List SnapshotRun} (leaves : LeavesBehind verify faults source runs left)
    (listed : metadata.runs = runs) :
    ∃ e st', LsmTree.openSnapshotFiles verify faults source name st = (.error e, st') ∧ st'.AtRest ∧
      (left.map SnapshotRun.runNumber).Sublist (st'.active.map Prod.fst) ∧
        st'.found.filter (fun f => f.content.isSome) =
          (contentsFound verify source left).filter (fun f => f.content.isSome) := by
  cases leaves with
  | unlinked linked fails => exact unlinkedLeaves counters loaded listed linked fails
  | unopened linked opens fails => exact unopenedLeaves counters loaded listed linked opens fails

theorem leavesBehind {name : String} {st st' : Storage} {metadata : SnapshotMetadata} {e : Error}
    (loaded : PersistentSnapshot.load st name = .ok metadata)
    (failed : LsmTree.openSnapshotFiles verify faults source name st = (.error e, st')) :
    ∃ left, LeavesBehind verify faults source metadata.runs left := by
  rcases firstFailure (Linkable faults source) metadata.runs with linked | ⟨before, run, after, split, linked, fails⟩
  · rcases firstFailure (fun _ run => (contentOf verify source run).isSome = true) metadata.runs with
      opens | ⟨before, run, after, split, opens, fails⟩
    · -- every run is linked and opens
      exfalso
      have active := linkedRunsListed verify linked
      have content : ∀ x ∈ metadata.runs,
          (({ st with active := (linkedRuns source metadata.runs).runs verify } : Storage).runAt
            .active x.runNumber).isSome = true := by
        intro x member
        have found : ((linkedRuns source metadata.runs).runs verify).lookup x.runNumber =
            some (contentOf verify source x) := by
          refine Assoc.lookupOnce ?_ (active ▸ List.mem_map_of_mem member)
          rw [active, List.map_map]
          exact linked.linked.1
        rw [Storage.runAt, Storage.files, found, Option.join_some]
        exact opens.all x member
      obtain ⟨hs, st₁, ok, -, -⟩ := LsmTree.openRunsEnds name [] _ content
      simp only [LsmTree.openSnapshotFiles, loaded, linkAll linked, ok] at failed
      cases failed
    · rw [split] at linked ⊢
      exact ⟨after, .unopened linked opens.all (Option.not_isSome_iff_eq_none.mp fails)⟩
  · rw [split]
    exact ⟨before, .unlinked linked fails⟩

theorem listedOnce {l l' : List FoundRun} {numbers : List Nat} (once : numbers.Nodup) (perm : l.Perm l')
    (left : (l.map FoundRun.number).Sublist numbers) (right : (l'.map FoundRun.number).Sublist numbers) : l = l' := by
  have rising : numbers.Pairwise (fun a b => numbers.idxOf a ≤ numbers.idxOf b) := by
    rw [List.pairwise_iff_getElem]
    intro i j low high before
    rw [once.idxOf_getElem i low, once.idxOf_getElem j high]
    exact Nat.le_of_lt before
  have rises : ∀ some : List FoundRun, (some.map FoundRun.number).Sublist numbers →
      some.Pairwise (fun a b => numbers.idxOf a.number ≤ numbers.idxOf b.number) := by
    intro some sub
    have kept := rising.sublist sub
    rwa [List.pairwise_map] at kept
  refine List.Perm.eq_of_pairwise (fun a b inLeft inRight ab ba => ?_) (rises l left) (rises l' right) perm
  have listed : a.number ∈ numbers := left.subset (List.mem_map_of_mem inLeft)
  have same : a.number = b.number := (List.idxOf_inj listed).mp (Nat.le_antisymm ab ba)
  exact List.inj_on_of_nodup_map (once.sublist left) inLeft (perm.mem_iff.mpr inRight) same

theorem relisted {st' : Storage} (rest : st'.AtRest) {active : RunFiles} (listing : active.Perm st'.active) :
    ({ st' with active := active } : Storage).AtRest ∧
      ({ st' with active := active } : Storage).found.Perm st'.found := by
  have once : (active.map Prod.fst).Nodup := (listing.map Prod.fst).nodup_iff.mpr rest.distinct
  obtain ⟨rest', found⟩ := foundActive st' rest.counters once
  refine ⟨rest', ?_⟩
  rw [found, foundOnce st' rest.distinct]
  exact listing.map _

theorem foundListed {st' : Storage} (rest : st'.AtRest) {left order : List SnapshotRun}
    (found : st'.found.filter (fun f => f.content.isSome) =
      (contentsFound verify source left).filter (fun f => f.content.isSome))
    {active : RunFiles} (listing : active.Perm st'.active) (perm : order.Perm left)
    (listed : (order.map SnapshotRun.runNumber).Sublist (active.map Prod.fst)) :
    ({ st' with active := active } : Storage).found.filter (fun f => f.content.isSome) =
      (contentsFound verify source order).filter (fun f => f.content.isSome) := by
  obtain ⟨rest', moved⟩ := relisted rest listing
  refine listedOnce rest'.distinct ?_ ?_ ?_
  · have contents : (contentsFound verify source order).Perm (contentsFound verify source left) := perm.map _
    exact (moved.filter _).trans (found ▸ (contents.filter _).symm)
  · have numbers : ({ st' with active := active } : Storage).found.map FoundRun.number = active.map Prod.fst := by
      rw [Storage.found, List.map_map]
      exact List.map_id _
    exact numbers ▸ List.filter_sublist.map FoundRun.number
  · have numbers : (contentsFound verify source order).map FoundRun.number = order.map SnapshotRun.runNumber := by
      rw [contentsFound, List.map_map]
      rfl
    exact (List.filter_sublist.map FoundRun.number).trans (numbers ▸ listed)

theorem someOrder {left : List SnapshotRun} {numbers listing : List Nat} (perm : listing.Perm numbers)
    (once : numbers.Nodup) (kept : (left.map SnapshotRun.runNumber).Sublist numbers) :
    ∃ order : List SnapshotRun, order.Perm left ∧ (order.map SnapshotRun.runNumber).Sublist listing := by
  have same : (listing.filter (fun n => decide (n ∈ left.map SnapshotRun.runNumber))).Perm
      (left.map SnapshotRun.runNumber) := by
    refine (List.perm_ext_iff_of_nodup ((perm.nodup_iff.mpr once).filter _) (once.sublist kept)).mpr (fun n => ?_)
    rw [List.mem_filter, decide_eq_true_eq, perm.mem_iff]
    exact ⟨And.right, fun member => ⟨kept.subset member, member⟩⟩
  have named : List.Forall₂ (fun n (run : SnapshotRun) => run.runNumber = n) (left.map SnapshotRun.runNumber) left :=
    List.forall₂_map_left_iff.mpr (List.forall₂_same.mpr (fun _ _ => rfl))
  obtain ⟨order, pairs, moved⟩ := List.perm_comp_forall₂ same named
  refine ⟨order, moved, ?_⟩
  rw [Assoc.relatedMap (g := id) pairs, List.map_id]
  exact List.filter_sublist

end Leaves

/-- A failing call leaves a directory that reads as before, in whichever order it is listed,
exactly if the runs of the snapshot that it leaves behind, in this order, read as the runs in
`active/` before. -/
theorem failedOpenSnapshot {C : Type} (verify : (Component → Option C) → Option Run) (faults : Nat → Bool)
    (source : RunDirectory C) (name : String) {st st' : Storage} (rest : st.AtRest)
    {metadata : SnapshotMetadata} (loaded : PersistentSnapshot.load st name = .ok metadata) {e : Error}
    (failed : LsmTree.openSnapshotFiles verify faults source name st = (.error e, st'))
    {active : RunFiles} (listing : active.Perm st'.active) :
    ReadsSame st { st' with active := active } ↔
      ∃ left order, LeavesBehind verify faults source metadata.runs left ∧ order.Perm left ∧
        (order.map SnapshotRun.runNumber).Sublist (active.map Prod.fst) ∧
          FoundRun.Alike st.found (contentsFound verify source order) := by
  have after : ∀ left, LeavesBehind verify faults source metadata.runs left → st'.AtRest ∧
      (left.map SnapshotRun.runNumber).Sublist (st'.active.map Prod.fst) ∧ ∀ order : List SnapshotRun, order.Perm left →
        (order.map SnapshotRun.runNumber).Sublist (active.map Prod.fst) →
          (ReadsSame st { st' with active := active } ↔ FoundRun.Alike st.found (contentsFound verify source order)) := by
    intro left leaves
    obtain ⟨e', st₁, result, rest', kept, found⟩ := leaves.leaves rest.counters loaded rfl
    rw [failed] at result
    cases result
    refine ⟨rest', kept, fun order perm listed => ?_⟩
    rw [readsSame rest (relisted rest' listing).1, FoundRun.alikeComplete (foundListed rest' found listing perm listed)]
  constructor
  · intro same
    obtain ⟨left, leaves⟩ := leavesBehind loaded failed
    obtain ⟨rest', kept, reads⟩ := after left leaves
    obtain ⟨order, perm, listed⟩ := someOrder (listing.map Prod.fst) rest'.distinct kept
    exact ⟨left, order, leaves, perm, listed, (reads order perm listed).mp same⟩
  · rintro ⟨left, order, leaves, perm, listed, alike⟩
    exact ((after left leaves).2.2 order perm listed).mpr alike

theorem openSnapshotLinked {C : Type} {verify : (Component → Option C) → Option Run} {faults : Nat → Bool}
    {source : RunDirectory C} {name : String} {st : Storage} {metadata : SnapshotMetadata}
    (loaded : PersistentSnapshot.load st name = .ok metadata)
    (linked : Each (Linkable faults source) metadata.runs)
    (stored : ∀ run ∈ metadata.runs, (st.files (.snapshot name)).lookup run.runNumber =
      some (contentOf verify source run)) :
    LsmTree.openSnapshotFiles verify faults source name st = LsmTree.openSnapshot name st := by
  have runs := LsmTree.linkRunsListed name { st with active := [] } (contentOf verify source)
    (by simpa using linked.linked.1) stored
  rw [List.nil_append] at runs
  cases opened : LsmTree.openRuns name metadata.runs []
      { st with active := metadata.runs.map (fun run => (run.runNumber, contentOf verify source run)) } with
  | mk outcome st' =>
    cases outcome <;> simp only [LsmTree.openSnapshotFiles, LsmTree.openSnapshot, loaded, linkAll linked,
      linkedRunsListed verify linked, runs, opened]

theorem keptNonempty : (∅ : Entries).insert [5] (some [10]) ≠ ∅ := ExtTreeMap.insert_ne_empty

def keptRun : Run := ⟨(∅ : Entries).insert [5] (some [10]), keptNonempty⟩

def beforeRestore : Storage :=
  ⟨[(1, some keptRun)],
    [("s", ⟨[(2, none)], some ⟨1, "", ⟨1, 4⟩, [⟨2, [6], [6], 1, 0⟩], 2⟩⟩)], fun _ => 0, 0⟩

def withoutBlobs : RunDirectory (List UInt8) := [(2, fun c => if c = .blobs then none else some [])]

def restored : Except Error LsmTree × Storage :=
  LsmTree.openSnapshotFiles (fun _ => none) noFaults withoutBlobs "s" beforeRestore

theorem restoreFails : restored = (.error (.io (.hardLink .blobs)), { beforeRestore with active := [(2, none)] }) := by
  rfl

def halfRestorable : Storage :=
  ⟨[(1, some keptRun)],
    [("s", ⟨[(2, some keptRun), (3, none)],
      some ⟨1, "", ⟨1, 4⟩, [⟨2, [5], [5], 1, 0⟩, ⟨3, [6], [6], 1, 0⟩], 2⟩⟩)], fun _ => 0, 0⟩

def blobsMissing : RunDirectory (List UInt8) :=
  [(2, fun _ => some []), (3, fun c => if c = .blobs then none else some [])]

theorem failedOpenSnapshotUnnoticed : ReadsSame halfRestorable
    { halfRestorable with active := [(3, none), (2, some keptRun)] } := by
  have failed : LsmTree.openSnapshotFiles (fun _ => some keptRun) noFaults blobsMissing "s" halfRestorable =
      (.error (.io (.hardLink .blobs)), { halfRestorable with active := [(2, some keptRun), (3, none)] }) := rfl
  have linkable : Each (Linkable noFaults blobsMissing) [⟨2, [5], [5], 1, 0⟩] := by
    refine Each.snoc .nil ⟨by simp, fun p _ => ⟨rfl, ?_⟩⟩
    simp [blobsMissing, RunDirectory.file]
  have unlinkable : ¬ Linkable noFaults blobsMissing [⟨2, [5], [5], 1, 0⟩] ⟨3, [6], [6], 1, 0⟩ := by
    rintro ⟨-, ready⟩
    have here := ready (.blobs, 6) (by decide)
    cases here.2
  have rest : halfRestorable.AtRest := ⟨fun _ => rfl, by decide⟩
  refine (failedOpenSnapshot (fun _ => some keptRun) noFaults blobsMissing "s" rest rfl failed
    (List.Perm.swap _ _ [])).mpr ⟨[⟨2, [5], [5], 1, 0⟩], [⟨2, [5], [5], 1, 0⟩],
      .unlinked linkable unlinkable, List.Perm.refl _, ?_, fun k => ⟨rfl, rfl⟩⟩
  exact List.sublist_cons_self 3 [2]

theorem failedOpenSnapshotLoses : ∃ st', restored = (.error (.io (.hardLink .blobs)), st') ∧
    (LsmTree.open ⟨1, 4⟩ beforeRestore).1.range (LsmTree.open ⟨1, 4⟩ beforeRestore).2 [5] [5] = [([5], [10])] ∧
      (LsmTree.open ⟨1, 4⟩ st').1.range (LsmTree.open ⟨1, 4⟩ st').2 [5] [5] = [] ∧ ¬ ReadsSame beforeRestore st' := by
  have before : (LsmTree.open ⟨1, 4⟩ beforeRestore).1.range (LsmTree.open ⟨1, 4⟩ beforeRestore).2 [5] [5] =
      [([5], [10])] := by decide +kernel
  have after : (LsmTree.open ⟨1, 4⟩ { beforeRestore with active := [(2, none)] }).1.range
      (LsmTree.open ⟨1, 4⟩ { beforeRestore with active := [(2, none)] }).2 [5] [5] = [] := by decide +kernel
  refine ⟨_, restoreFails, before, after, fun same => ?_⟩
  have ranges := (same ⟨1, 4⟩).1 [5] [5]
  rw [before, after] at ranges
  cases ranges

end CardanoLsm
