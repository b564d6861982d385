import CardanoLsm.DiskRuns

/-! Opening the directory of a process that stopped without running destructors: the steps
that keep what an opening would find equal to what the level vectors hold. -/
namespace CardanoLsm
open Std Layered Numbered

def Finishing (s : State) (a : Action) : Prop :=
  a.Clean ∧ ((∃ faults, a = .foreground faults) ∨ ((∃ faults, a = .background faults) ∧ s.background.isSome))

def Around (s u : State) : Prop := ∃ bs, Trace.Run State.step Finishing s bs u

def Foreground.landed : Foreground → List Entries
  | .flushWritten h _ => [h.run.entries]
  | _ => []

def State.tables (s : State) (k : Key) : Option Value :=
  visible (s.foreground.landed ++ layersOf (rangeOrder s.tree.levels)) k

def MergeSafe (s : State) (n : Nat) (entries : Entries) : Prop :=
  ∀ x ∈ entries.toList, resolve (newestFirst (above s.storage.onDisk n)) x.1 ≠ none ∨ s.tables x.1 = x.2

def Cycle.CrashSafe (gone : Prop) (s : State) : Cycle → Prop
  | .numbered _ snap job n _ => MergeSafe s n (jobEntries s.tree.maxLevel snap job)
  | .merged g snap job _ _ => s.tree.compactionGeneration = g →
    (gone → InPlace s.tree.levels snap job) ∧ KeysInside s.tree.levels snap s.tree.maxLevel job ∧
      BottomSafe s.foreground.landed s.tree.levels snap s.tree.maxLevel job
  | _ => True

/-- The conditions, on the state before a step, under which neither the step nor a stop
inside it parts the runs on disk from the level vectors. -/
structure CrashSafe (gone : Prop) (s : State) (a : Action) : Prop where
  flush : ∀ faults old n after, a = .foreground faults → s.foreground = .flushNumbered old n after →
    FlushSafe s.storage n old.data
  cycle : ∀ c ∈ s.cycleOf a, c.CrashSafe gone s
  compactAll : a = .compactAll → RunsKeys Scanned s.tree.levels.flatten ∧ OrdersAgree [] s.tree.levels
  rollback : ∀ i snap, a = .rollback i → s.held[i]? = some snap → ∀ k,
    visible (layersOf (rangeOrder snap.levels)) k = visible (layersOf (rangeOrder s.tree.levels)) k
  collect : ∀ i h, a = .collect i → s.garbage[i]? = some h → s.storage.refcounts h.refcount = 1 →
    DropSafe s.storage h
  lone : ¬ gone → a ≠ .compact ∧ a ≠ .compactAll

section Merge
variable {s : State} {snap : Levels} {job : LevelCompactionJob} {n : Nat}

theorem mergeSafeInPlace (sound : Sound s) (small : (s.tree.levels.getD s.tree.maxLevel []).length ≤ 1)
    (selected : Selected s.tree.maxLevel snap job) (alive : Alive s.tree.levels s.tree.maxLevel snap job)
    (keys : KeysInside s.tree.levels snap s.tree.maxLevel job)
    (free : ∀ k, (jobEntries s.tree.maxLevel snap job)[k]? ≠ none →
      resolve (s.foreground.landed ++ layersOf (aboveSource s.tree.levels snap job)) k = none) :
    MergeSafe s n (jobEntries s.tree.maxLevel snap job) := by
  intro x member
  have held := ExtTreeMap.mem_toList_iff_getElem?_eq_some.mp member
  have length : s.tree.levels.length = s.tree.maxLevel + 1 := sound.tree.length
  have distinct : Distinct s.tree.levels.flatten := sound.tree.distinct
  let nothing : CompactionResult := ⟨none, List.range (snap.getD job.sourceLevel []).length⟩
  obtain ⟨order, -⟩ := writeBackOrder length distinct selected alive (show nothing.inputsToRemove = _ from rfl)
  refine Or.inr ?_
  rw [State.tables, order, layersAppend, ← List.append_assoc, visibleThrough (free x.1 (by simp [held]))]
  by_cases bottom : job.targetLevel = s.tree.maxLevel
  · have target := alive.bottom bottom
    have read := mergedBottomVisible keys.sources (keys.targets bottom) x.1
    rw [bottomLast length bottom, List.append_nil, bottom, byNumberOne small, ← read]
    rw [jobEntries, ← target, decide_eq_true bottom, bottom] at held
    rw [held, Option.join_some]
  · have read := mergedSourcesResolve keys.sources x.1
    simp only [jobEntries, bottom, decide_false, Compactor.mergedJob, Bool.false_eq_true, if_false] at held
    rw [held] at read
    rw [layersAppend]
    exact visibleHidden read.symm _

end Merge

/-- What is on disk when the process stops in this state or inside its next step. A step
that stops at a file operation leaves what it leaves when this operation fails; a run is
removed with the first of its files, by which it is listed. -/
def Stops (gone : Prop) (s : State) (st : Storage) : Prop :=
  st = s.storage ∨ ∃ a t, CrashSafe gone s a ∧ s.step a = some t ∧ st = t.storage

def Foreground.Gathers (levels : Levels) : Foreground → Prop
  | .compactAllCloned all | .compactAllNumbered all _ | .compactAllMerged all _ =>
    ∀ k, visible (layersOf (byNumber all)) k = visible (layersOf (rangeOrder levels)) k
  | _ => True

structure Recovers (gone : Prop) (s : State) : Prop where
  sound : Sound s
  content : Content gone s
  once : s.storage.Once
  gathers : s.foreground.Gathers s.tree.levels
  disk : ∀ k, s.storage.recovered k = s.tables k

theorem BottomSafe.under {lower upper : List Entries} {levels snap : Levels} {maxLevel : Nat} {job : LevelCompactionJob}
    (more : ∀ k, resolve lower k ≠ none → resolve upper k ≠ none) (safe : BottomSafe lower levels snap maxLevel job) :
    BottomSafe upper levels snap maxLevel job := by
  intro bottom
  refine (safe bottom).imp_right (fun hidden k live => ?_)
  have held := hidden k live
  rw [resolveAppend] at held ⊢
  cases here : resolve lower k with
  | none =>
    rw [here, Option.none_or] at held
    cases resolve upper k <;> simp [held]
  | some e =>
    obtain ⟨e', there⟩ := Option.ne_none_iff_exists'.mp (more k (by simp [here]))
    simp [there]

theorem Foreground.landedInFlight (f : Foreground) (k : Key) (held : resolve f.landed k ≠ none) :
    resolve f.inFlight k ≠ none := by
  cases f with
  | flushWritten h after => exact held
  | _ => exact absurd rfl held

theorem CrashSafe.stepOk {gone : Prop} {s : State} {a : Action} (safe : CrashSafe gone s a) (clean : a.Clean) :
    StepOk gone s a := by
  refine ⟨clean, fun c here => ?_, fun called => ?_, safe.lone⟩
  · have cycle := safe.cycle c here
    cases c with
    | merged g snap job runs result =>
      intro wanted
      obtain ⟨place, keys, bottom⟩ := cycle wanted
      refine ⟨place, keys, bottom.under (fun k held => ?_)⟩
      rw [State.top, resolveCons]
      cases s.tree.memtable.data[k]? with
      | none => simpa using s.foreground.landedInFlight k held
      | some e => simp
    | _ => trivial
  · exact ⟨(safe.compactAll called).1, fun k _ => (safe.compactAll called).2 k rfl⟩

theorem mergeUnseen {s : State} {faults : Nat → Bool} {inputs : List SsTableHandle}
    {merge : Storage → Except Error Entries} {indices : List Nat} {n level : Nat} {all : Entries} (once : s.storage.Once)
    (unused : s.storage.active.lookup n = none) (reads : merge s.storage = .ok all) (safe : MergeSafe s n all)
    (disk : ∀ k, s.storage.recovered k = s.tables k) (k : Key) :
    (Compactor.mergeAndWrite faults inputs merge indices n level s.storage).2.recovered k = s.tables k := by
  rcases Compactor.mergeAndWriteWrites faults inputs merge indices n level s.storage with kept | ⟨i, written, same, wrote⟩
  · rw [kept]
    exact disk k
  · cases Except.ok.inj (reads.symm.trans same)
    rw [wrote, ← disk k]
    have once' := SsTableWriter.writeOnce faults i n all level once
    rcases SsTableWriter.writeRuns faults i n all level unused with nothing | ⟨run, here, rfl, others⟩
    · exact Storage.recoveredSame once once' nothing k
    · exact Storage.writeUnseen once once' unused here others
        (fun x member => (safe x member).imp_right (fun read => (disk x.1).trans read)) k

namespace Cycle.Moves
variable {gone : Prop} {faults : Nat → Bool} {s t : State} {c : Cycle} {p : Progress}
  {rest : Multiset SsTableHandle} {outputs : List SsTableHandle} {allocated : List Nat}

theorem recovered (moved : Cycle.Moves faults s c p t) (book : Book s c rest outputs allocated)
    (shape : c.Shape s.tree.maxLevel s.tree.compactionGeneration) (once : s.storage.Once) (safe : c.CrashSafe gone s)
    (disk : ∀ k, s.storage.recovered k = s.tables k) (k : Key) : t.storage.recovered k = s.tables k := by
  have cloned : ∀ hs, (s.storage.cloneAll hs).recovered k = s.tables k := fun hs =>
    (Storage.recoveredActive (Ledger.cloneActive hs s.storage).1 k).trans (disk k)
  cases moved with
  | nothing g none => exact cloned _
  | select g job selected => exact cloned _
  | number g snap job => exact cloned _
  | failed g snap job n runs e st failed =>
    obtain ⟨selected, rfl⟩ := shape.2
    have unused := book.unused n (Or.inl (by simp [Cycle.allocated]))
    rw [show st = _ from (congrArg Prod.snd failed).symm]
    exact mergeUnseen once unused (mergeReads selected (clonesReadable book)) safe disk k
  | merge g snap job n runs result st done =>
    obtain ⟨selected, rfl⟩ := shape.2
    have unused := book.unused n (Or.inl (by simp [Cycle.allocated]))
    rw [show st = _ from (congrArg Prod.snd done).symm]
    exact mergeUnseen once unused (mergeReads selected (clonesReadable book)) safe disk k
  | stale g snap job runs result changed => exact disk k
  | writeBack g snap job runs result current => exact disk k

theorem tables (moved : Cycle.Moves faults s c p t)
    (tree : SnapshotShape s.tree.maxLevel s.tree.sequenceNumber s.tree.snapshot)
    (small : (s.tree.levels.getD s.tree.maxLevel []).length ≤ 1)
    (shape : c.Shape s.tree.maxLevel s.tree.compactionGeneration) (current : c.Current gone s.tree)
    (safe : c.CrashSafe gone s) (k : Key) :
    visible (s.foreground.landed ++ layersOf (rangeOrder t.tree.levels)) k = s.tables k := by
  cases moved with
  | writeBack g snap job runs result wanted =>
    obtain ⟨place, keys, bottom⟩ := safe wanted
    obtain ⟨alive, below⟩ := Tie.alive (current wanted.symm) place
    obtain ⟨selected, rfl, yields⟩ := shape.2
    exact writeBackView tree.length tree.distinct selected alive yields
      (fun _ out member => below out.runNumber (Option.mem_map_of_mem _ member)) keys.sources keys.targets small bottom k
  | _ => rfl

end Cycle.Moves

namespace State.Moves
variable {gone : Prop} {s t : State} {a : Action}

theorem cycleAt {faults : Nat → Bool} {c : Cycle} (here : s.foreground = .compacting c) :
    c ∈ s.cycleOf (.foreground faults) := by
  simp [cycleOf, here, Foreground.cycle]

def Flushes (s : State) (a : Action) : Prop :=
  ∃ faults old n after, a = .foreground faults ∧ s.foreground = .flushNumbered old n after

theorem tablesKept (moved : Moves s a t) (recovers : Recovers gone s) (safe : CrashSafe gone s a)
    (noFlush : ¬ Flushes s a) (k : Key) : t.tables k = s.tables k := by
  obtain ⟨sound, content, once, gathers, -⟩ := recovers
  cases moved with
  | wrote a memtable isWrite idle data => simp only [tables, return_, withTree, idle, Foreground.landed]
  | wroteFull a memtable isWrite idle data nonempty => simp only [tables, at_, withTree, idle, Foreground.landed]
  | refused i snap idle found future => simp only [tables, return_, discard, idle, Foreground.landed]
  | rollback i snap idle found past =>
    simp only [tables, return_, discard, withTree, idle, Foreground.landed, List.nil_append]
    exact safe.rollback i snap rfl found k
  | compact idle => simp only [tables, at_, idle, Foreground.landed]
  | compactAllNothing idle none => simp only [tables, return_, idle, Foreground.landed]
  | compactAllClone idle some => simp only [tables, at_, cloneAll, idle, Foreground.landed]
  | saveFlush name label idle nonempty => simp only [tables, at_, withTree, idle, Foreground.landed]
  | saveNoFlush name label idle empty => simp only [tables, at_, withTree, idle, Foreground.landed]
  | flushNumber faults old after here => simp only [tables, at_, allocate, here, Foreground.landed]
  | flushFailed faults old n after e st here failed => exact absurd ⟨faults, old, n, after, rfl, here⟩ noFlush
  | flushWrite faults old n after h st here done => exact absurd ⟨faults, old, n, after, rfl, here⟩ noFlush
  | flushPush faults h after f r here quiet ends =>
    have above := content.aboveL0
    rw [here] at above
    have inside := levelsInside sound
    have pushed := pushOrder sound.tree.distinct above (show 0 < s.tree.levels.length by omega)
    have none : f.landed = [] := by cases quiet <;> rfl
    simp only [tables, pushL0, withLevels, none, here]
    exact congrArg (fun runs => visible (layersOf runs) k) pushed
  | drained faults after f r here quiet ends =>
    have none : f.landed = [] := by cases quiet <;> rfl
    simp only [tables, here]
    rw [none]
    rfl
  | compacting t faults c c' here moved =>
    obtain ⟨shape, current, -⟩ := foregroundCycle sound content here
    have read := moved.tables sound.tree content.bottom shape current (safe.cycle c (cycleAt here)) k
    rw [here] at read
    exact read
  | compacted t faults c r here moved =>
    obtain ⟨shape, current, -⟩ := foregroundCycle sound content here
    have read := moved.tables sound.tree content.bottom shape current (safe.cycle c (cycleAt here)) k
    rw [here] at read
    exact read
  | compactAllNumber faults all here => simp only [tables, at_, allocate, here, Foreground.landed]
  | compactAllFailed faults all n e st here failed => simp only [tables, return_, discard, here, Foreground.landed]
  | compactAllMerge faults all n result st here done => simp only [tables, at_, here, Foreground.landed]
  | compactAllInstall faults all result here =>
    have shape := sound.foreground
    have gathered := content.gathered
    rw [here] at shape gathered gathers
    have inside := levelsInside sound
    have read := @installView [] _ _ _ _ _ (show s.tree.maxLevel < s.tree.levels.length by omega) gathered.1 shape.2.2 k
    simp only [tables, return_, discard, withLevels, here, Foreground.landed]
    exact read.trans (gathers k)
  | saveClone faults name label here => simp only [tables, at_, cloneAll, here, Foreground.landed]
  | saveCreate faults name label seq all r st here created => simp only [tables, return_, discard, here, Foreground.landed]
  | background t faults c c' here moved =>
    have read := moved.tables sound.tree content.bottom (sound.background c here) (content.background c here)
      (safe.cycle c here) k
    rw [← moved.frame.foreground] at read
    exact read
  | backgroundEnd t faults c r here moved =>
    have read := moved.tables sound.tree content.bottom (sound.background c here) (content.background c here)
      (safe.cycle c here) k
    rw [← moved.frame.foreground] at read
    exact read
  | _ => rfl

theorem diskKept (moved : Moves s a t) (recovers : Recovers gone s) (safe : CrashSafe gone s a)
    (noFlush : ¬ Flushes s a) (k : Key) : t.storage.recovered k = s.tables k := by
  obtain ⟨sound, content, once, gathers, disk⟩ := recovers
  have sameActive : ∀ st : Storage, st.active = s.storage.active → st.recovered k = s.tables k := fun st same =>
    (Storage.recoveredActive same k).trans (disk k)
  have all : ∀ (faults : Nat → Bool) {runs : List SsTableHandle} {n : Nat}, s.foreground = .compactAllNumbered runs n →
      (Compactor.compact faults (List.range runs.length) runs n s.storage).2.recovered k = s.tables k := by
    intro faults runs n here
    have keys := content.gathered
    rw [here] at gathers keys
    have readable : Readable s.storage runs := (bookAt sound here).readable (fun x member => by
      simp only [Foreground.clones, Multiset.mem_add, Multiset.mem_coe]
      exact Or.inl (Or.inr member))
    refine mergeUnseen once ((bookAt sound here).unused n (Or.inl (by simp [Foreground.allocated])))
      (Compactor.mergeAllAll readable) (fun x member => Or.inr ?_) disk k
    have held := ExtTreeMap.mem_toList_iff_getElem?_eq_some.mp member
    have read := liveJoin (Compactor.mergedSources runs) x.1
    rw [held, mergedSourcesResolve keys.1] at read
    rw [tables, here]
    exact ((gathers x.1).symm.trans read.symm)
  cases moved with
  | snapshot idle => exact sameActive _ (Ledger.cloneActive _ _).1
  | cloneSnapshot i snap found => exact sameActive _ (Ledger.cloneActive _ _).1
  | compactAllClone idle some => exact sameActive _ (Ledger.cloneActive _ _).1
  | saveClone faults name label here => exact sameActive _ (Ledger.cloneActive _ _).1
  | saveCreate faults name label seq runs r st here created =>
    refine sameActive st ?_
    rw [← PersistentSnapshot.createActive faults name label runs seq s.tree.config s.storage, created]
  | flushFailed faults old n after e st here failed => exact absurd ⟨faults, old, n, after, rfl, here⟩ noFlush
  | flushWrite faults old n after h st here done => exact absurd ⟨faults, old, n, after, rfl, here⟩ noFlush
  | compacting t faults c c' here moved =>
    exact moved.recovered (bookCycle sound here) (foregroundCycle sound content here).1 once (safe.cycle c (cycleAt here)) disk k
  | compacted t faults c r here moved =>
    exact moved.recovered (bookCycle sound here) (foregroundCycle sound content here).1 once (safe.cycle c (cycleAt here)) disk k
  | background t faults c c' here moved =>
    exact moved.recovered (bookBackground sound here) (sound.background c here) once (safe.cycle c here) disk k
  | backgroundEnd t faults c r here moved =>
    exact moved.recovered (bookBackground sound here) (sound.background c here) once (safe.cycle c here) disk k
  | compactAllFailed faults runs n e st here failed =>
    have left := all faults here
    rwa [failed] at left
  | compactAllMerge faults runs n result st here done =>
    have left := all faults here
    rwa [done] at left
  | collect i h found =>
    have live : h ∈ s.settled + ↑s.outputs := by
      simp only [settled, settledBase, Multiset.mem_add, Multiset.mem_coe]
      exact Or.inl (Or.inl (Or.inl (Or.inl (Or.inr (List.mem_of_getElem? found)))))
    exact (Storage.dropUnseen once (sound.ledger.owns.inActive h live) (sound.ledger.owns.counts.stored h live)
      (safe.collect i h rfl found) k).trans (disk k)
  | _ => exact disk k

end State.Moves

/-! A flush: the run is on disk before it is in the level vectors. -/

theorem flushOnTop {gone : Prop} {s : State} {old : MemTable} {n : Nat} {after : AfterFlush} (recovers : Recovers gone s)
    (here : s.foreground = .flushNumbered old n after) (safe : FlushSafe s.storage n old.data) {st : Storage} {run : Run}
    (once : st.Once) (stored : st.runAt .active n = some run) (same : run.entries = old.data)
    (others : ∀ m, m ≠ n → st.runAt .active m = s.storage.runAt .active m) (k : Key) :
    st.recovered k = visible (old.data :: layersOf (rangeOrder s.tree.levels)) k := by
  have unused := (State.Moves.bookAt recovers.sound here).unused n (Or.inl (by simp [Foreground.allocated]))
  have disk := recovers.disk k
  rw [State.tables, here] at disk
  rw [Storage.writeOnTop recovers.once once unused stored others (same ▸ safe) k, same, visibleCons, visibleCons]
  exact congrArg (fun older => Option.elim _ older id) disk

theorem flushLeaves {gone : Prop} {s t : State} {faults : Nat → Bool} {old : MemTable} {n : Nat} {after : AfterFlush}
    (recovers : Recovers gone s) (here : s.foreground = .flushNumbered old n after)
    (safe : FlushSafe s.storage n old.data) (taken : s.step (.foreground faults) = some t) :
    (∀ k, t.storage.recovered k = s.tables k) ∨
      ∀ k, t.storage.recovered k = visible (old.data :: layersOf (rangeOrder s.tree.levels)) k := by
  have left : t.storage = (SsTableWriter.write faults 0 n old.data 0 s.storage).2 := by
    simp only [State.step, State.stepForeground, here] at taken
    split at taken <;> (cases taken; rename_i out; rw [out]; rfl)
  have unused := (State.Moves.bookAt recovers.sound here).unused n (Or.inl (by simp [Foreground.allocated]))
  have once := SsTableWriter.writeOnce faults 0 n old.data 0 recovers.once
  rw [left]
  rcases SsTableWriter.writeRuns faults 0 n old.data 0 unused with nothing | ⟨run, stored, same, others⟩
  · exact Or.inl (fun k => (Storage.recoveredSame recovers.once once nothing k).trans (recovers.disk k))
  · exact Or.inr (fun k => flushOnTop recovers here safe once stored same others k)

theorem flushWrites {s : State} {old : MemTable} {n : Nat} {after : AfterFlush} (sound : Sound s)
    (here : s.foreground = .flushNumbered old n after) {faults : Nat → Bool} (clean : ∀ j, faults j = false) :
    ∃ h st, SsTableWriter.write faults 0 n old.data 0 s.storage = (.ok h, st) ∧
      s.step (.foreground faults) = some ({ s with storage := st }.at_ (.flushWritten h after)) := by
  have nonempty := sound.foreground
  rw [here] at nonempty
  have unused := (State.Moves.bookAt sound here).unused n (Or.inl (by simp [Foreground.allocated]))
  obtain ⟨h, st, done⟩ := SsTableWriter.writeSucceeds clean 0 0 unused nonempty
  exact ⟨h, st, done, by simp only [State.step, State.stepForeground, here, done]⟩

theorem flushPushes {s : State} {h : SsTableHandle} {after : AfterFlush} (here : s.foreground = .flushWritten h after) :
    ∃ u, s.step (.foreground noFaults) = some u ∧ u.tree.levels = (s.pushL0 h).tree.levels := by
  have finished : ∀ m : State, (m.afterFlush after).tree = m.tree := fun m => by cases after <;> rfl
  simp only [State.step, State.stepForeground, here]
  split
  · exact ⟨_, rfl, rfl⟩
  · split
    · exact ⟨_, rfl, rfl⟩
    · exact ⟨_, rfl, congrArg LsmTree.levels (finished _)⟩

theorem State.Moves.gathersStep {gone : Prop} {s t : State} {a : Action} (moved : Moves s a t) (recovers : Recovers gone s)
    (safe : CrashSafe gone s a) (noFlush : ¬ Flushes s a) : t.foreground.Gathers t.tree.levels := by
  have kept := moved.tablesKept recovers safe noFlush
  have gathers := recovers.gathers
  have across : t.foreground = s.foreground → t.foreground.Gathers t.tree.levels := by
    intro foreground
    simp only [tables, foreground] at kept
    rw [foreground]
    cases here : s.foreground with
    | compactAllCloned all =>
      rw [here] at gathers kept
      exact fun k => (gathers k).trans (kept k).symm
    | compactAllNumbered all n =>
      rw [here] at gathers kept
      exact fun k => (gathers k).trans (kept k).symm
    | compactAllMerged all result =>
      rw [here] at gathers kept
      exact fun k => (gathers k).trans (kept k).symm
    | _ => trivial
  cases moved with
  | compactAllClone idle some => exact fun k => (safe.compactAll rfl).2 k rfl
  | compactAllNumber faults all here =>
    rw [here] at gathers
    exact gathers
  | compactAllMerge faults all n result st here done =>
    rw [here] at gathers
    exact gathers
  | flushPush faults h after f r here quiet ends => cases quiet <;> trivial
  | drained faults after f r here quiet ends => cases quiet <;> trivial
  | background t faults c c' here moved => exact across moved.frame.foreground
  | backgroundEnd t faults c r here moved => exact across moved.frame.foreground
  | snapshot idle => exact across rfl
  | cloneSnapshot i snap found => exact across rfl
  | dropSnapshot i snap found => exact across rfl
  | begin faults none => exact across rfl
  | collect i h found => exact across rfl
  | _ => trivial

theorem Recovers.step {gone : Prop} {s t : State} {a : Action} (recovers : Recovers gone s) (clean : a.Clean)
    (safe : CrashSafe gone s a) (taken : s.step a = some t) : Recovers gone t := by
  have moved := State.stepMoves taken
  have sound := moved.sound recovers.sound
  have content := moved.content recovers.sound recovers.content (safe.stepOk clean)
  have once := moved.effect.once recovers.once
  by_cases flushes : State.Moves.Flushes s a
  · obtain ⟨faults, old, n, after, rfl, here⟩ := flushes
    obtain ⟨h, st, done, wrote⟩ := flushWrites recovers.sound here clean
    cases Option.some.inj (wrote.symm.trans taken)
    have written := SsTableWriter.writeOk done
    have others : ∀ m, m ≠ n → st.runAt .active m = s.storage.runAt .active m := fun m other => by
      simp only [Storage.runAt, Storage.files, written.others m other]
    refine ⟨sound, content, once, trivial, fun k => ?_⟩
    have read := flushOnTop recovers here (safe.flush faults old n after rfl here) once written.stored written.entries
      others k
    rw [← written.entries] at read
    exact read
  · exact ⟨sound, content, once, moved.gathersStep recovers safe flushes, fun k =>
      (moved.diskKept recovers safe flushes k).trans (moved.tablesKept recovers safe flushes k).symm⟩

theorem Recovers.settles {gone : Prop} {s : State} (recovers : Recovers gone s) :
    ∃ u, Around s u ∧ ∀ k, visible (layersOf (rangeOrder u.tree.levels)) k = s.tables k := by
  cases here : s.foreground with
  | flushWritten h after =>
    obtain ⟨u, pushed, levels⟩ := flushPushes here
    refine ⟨u, ⟨_, .cons pushed ⟨fun _ => rfl, Or.inl ⟨noFaults, rfl⟩⟩ (.nil u)⟩, fun k => ?_⟩
    have above := recovers.content.aboveL0
    rw [here] at above
    have inside := State.Moves.levelsInside recovers.sound
    have order : rangeOrder u.tree.levels = h :: rangeOrder s.tree.levels := by
      rw [levels]
      exact pushOrder recovers.sound.tree.distinct above (by omega)
    rw [order, State.tables, here]
    rfl
  | _ =>
    refine ⟨s, ⟨_, .nil s⟩, fun k => ?_⟩
    rw [State.tables, here]
    rfl

theorem Recovers.stops {gone : Prop} {s : State} {st : Storage} (recovers : Recovers gone s) (stops : Stops gone s st) :
    ∃ u, Around s u ∧ ∀ k, st.recovered k = visible (layersOf (rangeOrder u.tree.levels)) k := by
  obtain ⟨u, around, same⟩ := recovers.settles
  rcases stops with rfl | ⟨a, t, safe, taken, rfl⟩
  · exact ⟨u, around, fun k => (recovers.disk k).trans (same k).symm⟩
  · by_cases flushes : State.Moves.Flushes s a
    · obtain ⟨faults, old, n, after, rfl, here⟩ := flushes
      have flush := safe.flush faults old n after rfl here
      rcases flushLeaves recovers here flush taken with kept | written
      · exact ⟨u, around, fun k => (kept k).trans (same k).symm⟩
      · -- the flush goes on: its run is written whole, then pushed
        obtain ⟨h, st, done, wrote⟩ := flushWrites recovers.sound here (show ∀ j, noFaults j = false from fun _ => rfl)
        have next := recovers.step (a := .foreground noFaults) (fun _ => rfl)
          ⟨fun _ old n after _ here' => by cases here.symm.trans here'; exact flush, fun c inside => by
            simp [State.cycleOf, here, Foreground.cycle] at inside, nofun, nofun, nofun, fun _ => ⟨nofun, nofun⟩⟩ wrote
        obtain ⟨v, ⟨bs, later⟩, pushed⟩ := next.settles
        refine ⟨v, ⟨_, .cons wrote ⟨fun _ => rfl, Or.inl ⟨noFaults, rfl⟩⟩ later⟩, fun k => ?_⟩
        rw [written k, pushed k, State.tables, ← (SsTableWriter.writeOk done).entries]
        rfl
    · exact ⟨u, around, fun k => ((State.stepMoves taken).diskKept recovers safe flushes k).trans (same k).symm⟩

theorem Starts.covered {s : State} (starts : Starts s) : ∀ n run, s.storage.runAt .active n = some run →
    ∃ h ∈ s.tree.levels.flatten, h.runNumber = n := by
  intro n run stored
  cases starts with
  | opened config st rest overflowChecks =>
    have opens := LsmTree.openListedOpens (st.active.map Prod.fst) (opensNothing rest.counters)
      (by simpa using rest.distinct)
    have level : ∀ h ∈ (LsmTree.openListed (st.active.map Prod.fst) st).1, h.level = 0 :=
      LsmTree.openListedLevel (st.active.map Prod.fst) st (fun _ member => absurd member List.not_mem_nil)
    have all : (LsmTree.openListed (st.active.map Prod.fst) st).1.map SsTableHandle.found =
        st.found.filter (fun f => f.content.isSome) := openListedFound (st.active.map Prod.fst) [] st
    have here : st.runAt .active n = some run := by
      rw [← stored]
      exact (congrArg (fun files : RunFiles => (files.lookup n).join) opens.active).symm
    have onDisk := Storage.onDiskMem.mpr ⟨run, here, rfl⟩
    rw [Storage.onDisk, FoundRun.complete, ← all, List.map_map] at onDisk
    obtain ⟨h, member, same⟩ := List.mem_map.mp onDisk
    refine ⟨h, ?_, congrArg Prod.fst same⟩
    refine (assemblePerm 6 _).mem_iff.mpr (List.mem_filter.mpr ⟨member, ?_⟩)
    simp [level h member]
  | openedSnapshot name st rest t st' ok overflowChecks =>
    refine StartsEmpty.snapshotCovered rest.counters ok n (fun unlisted => ?_)
    have lost : st'.runAt .active n = none := by
      simp only [Storage.runAt, Storage.files, unlisted]
      rfl
    cases lost.symm.trans stored

theorem Starts.recovered {s : State} (starts : Starts s) (k : Key) :
    s.storage.recovered k = visible (layersOf (byNumber s.tree.levels.flatten)) k := by
  have sound := starts.sound
  have stored : ∀ h ∈ s.tree.levels.flatten, s.storage.runAt .active h.runNumber = some h.run := fun h member =>
    sound.ledger.owns.counts.stored h (Multiset.mem_add.mpr (Or.inl (State.Moves.levelsSettled s h member)))
  have distinct : ((s.tree.levels.flatten.map (fun h => (h.runNumber, h.run.entries))).map Prod.fst).Nodup := by
    rw [List.map_map]
    exact sound.tree.distinct
  have same : newestFirst s.storage.onDisk =
      newestFirst (s.tree.levels.flatten.map (fun h => (h.runNumber, h.run.entries))) := by
    refine newestFirstSame distinct (Storage.onDiskDistinct starts.once) (fun x => ?_)
    obtain ⟨n, entries⟩ := x
    rw [Storage.onDiskMem, List.mem_map]
    constructor
    · rintro ⟨run, found, rfl⟩
      obtain ⟨h, member, rfl⟩ := starts.covered n run found
      have here := (stored h member).symm.trans found
      exact ⟨h, member, by rw [Option.some.inj here]⟩
    · rintro ⟨h, member, pair⟩
      obtain ⟨rfl, rfl⟩ := Prod.mk.inj pair
      exact ⟨h.run, stored h member, rfl⟩
  rw [Storage.recovered, same, layersNumbered]

def LsmTree.InOrder (t : LsmTree) : Prop := OrdersAgree [] t.levels ∧ (t.levels.getD t.maxLevel []).length ≤ 1

theorem openInOrder (config : LsmConfig) {st : Storage} (rest : st.AtRest) : (LsmTree.open config st).1.InOrder := by
  have starts := Starts.opened config st rest false
  have level : ∀ h ∈ (LsmTree.openListed (st.active.map Prod.fst) st).1, h.level = 0 :=
    LsmTree.openListedLevel (st.active.map Prod.fst) st (fun _ member => absurd member List.not_mem_nil)
  refine ⟨fun k _ => ?_, ?_⟩
  · have same : (LsmTree.open config st).2.recovered k = st.recovered k := Storage.recoveredActive
      (LsmTree.openListedOpens (st.active.map Prod.fst) (Starts.opensNothing rest.counters)
        (by simpa using rest.distinct)).active k
    rw [← tablesView]
    exact (starts.recovered k).symm.trans (same.trans (openView config rest k).symm)
  · have none : (LsmTree.openListed (st.active.map Prod.fst) st).1.filter (fun h => h.level == 6) = [] :=
      List.filter_eq_nil_iff.mpr (fun h member => by simp [level h member])
    simp [LsmTree.open, LsmTree.start, assemble, none, sortByMinKey]

theorem Starts.recovers {gone : Prop} {s : State} (starts : Starts s) (ordered : s.tree.InOrder) : Recovers gone s := by
  have begun : s.foreground = .idle ∧ s.background = none ∧ s.held = [] := by cases starts <;> exact ⟨rfl, rfl, rfl⟩
  obtain ⟨idle, quiet, none⟩ := begun
  refine ⟨starts.sound, ⟨?_, ?_, ?_, ordered.2, ?_, ?_, fun _ => ?_⟩, starts.once, ?_, fun k => ?_⟩
  · rw [idle]
    trivial
  · intro c here
    cases idle.symm.trans here
  · intro c here
    rw [quiet] at here
    cases here
  · intro snap member
    rw [none] at member
    cases member
  · rw [idle]
    trivial
  · rw [idle]
    rfl
  · rw [idle]
    trivial
  · rw [starts.recovered, State.tables, idle]
    exact ordered.1 k rfl

theorem Around.sound {s u : State} (around : Around s u) (sound : Sound s) : Sound u := by
  obtain ⟨bs, ran⟩ := around
  exact Sound.run ran sound

/-- In a run whose steps are all safe, opening the directory gives back, wherever the process
stops, the tables as they were just before or just after the operations under way. -/
theorem crashRecovers {gone : Prop} {s₀ s : State} {as : List Action} (starts : Starts s₀) (ordered : s₀.tree.InOrder)
    (ran : Trace.Run State.step (fun s a => a.Clean ∧ CrashSafe gone s a) s₀ as s) {st : Storage}
    (stops : Stops gone s st) (config : LsmConfig) :
    ∃ u, Around s u ∧ ∀ lo hi,
      (LsmTree.open config st.stopped).1.range (LsmTree.open config st.stopped).2 lo hi =
        u.tree.tables.range u.storage lo hi := by
  have recovers : Recovers gone s := ran.invariant (I := Recovers gone)
    (fun _ _ _ taken safe recovers => recovers.step safe.1 safe.2 taken) (starts.recovers ordered)
  have listed : st.Once := by
    rcases stops with rfl | ⟨a, t, -, taken, rfl⟩
    · exact recovers.once
    · exact (State.stepMoves taken).effect.once recovers.once
  have rest : st.stopped.AtRest := ⟨fun _ => rfl, listed⟩
  obtain ⟨u, around, same⟩ := recovers.stops stops
  have tables : Readable u.storage u.tree.tables.levels.flatten := (around.sound recovers.sound).treeReadable
  refine ⟨u, around, fun lo hi => LsmTree.rangeSame (Starts.openSound config rest).treeReadable tables (fun k _ => ?_)⟩
  rw [tablesView u.tree k, ← same k]
  exact openView config rest k

instance (s : State) (n : Nat) (entries : Entries) : Decidable (MergeSafe s n entries) :=
  inferInstanceAs (Decidable (∀ x ∈ entries.toList, _))

def Cycle.crashChecked (s : State) : Cycle → Bool
  | .numbered _ snap job n _ => decide (MergeSafe s n (jobEntries s.tree.maxLevel snap job))
  | .merged g snap job _ _ => decide (s.tree.compactionGeneration = g → InPlace s.tree.levels snap job ∧
      RunsKeys Scanned (snap.getD job.sourceLevel []) ∧ job.targetLevel ≠ s.tree.maxLevel)
  | _ => true

def flushChecked (s : State) : Bool :=
  match s.foreground with
  | .flushNumbered old n _ => decide (FlushSafe s.storage n old.data)
  | _ => true

def crashChecked (s : State) (a : Action) : Bool :=
  (s.cycleOf a).all (Cycle.crashChecked s) &&
    match a with
    | .foreground _ => flushChecked s
    | .collect i => s.garbage[i]?.all (fun h =>
        decide (s.storage.refcounts h.refcount = 1 → DropSafe s.storage h))
    | .compactAll => decide (RunsKeys Scanned s.tree.levels.flatten ∧
        byNumber s.tree.levels.flatten = rangeOrder s.tree.levels)
    | .rollback _ => false
    | _ => true

theorem crashSafeOf {s : State} {a : Action} (checked : crashChecked s a = true) : CrashSafe True s a := by
  obtain ⟨cycles, checked⟩ := Bool.and_eq_true_iff.mp checked
  refine ⟨?_, fun c here => ?_, ?_, ?_, ?_, fun alone => absurd trivial alone⟩
  · rintro faults old n after rfl here
    simp only [flushChecked, here] at checked
    exact of_decide_eq_true checked
  · rw [Option.mem_def.mp here, Option.all_some] at cycles
    cases c with
    | numbered g snap job n runs =>
      have merged : MergeSafe s n (jobEntries s.tree.maxLevel snap job) := of_decide_eq_true cycles
      exact merged
    | merged g snap job runs result =>
      intro wanted
      obtain ⟨place, keys, middle⟩ := of_decide_eq_true cycles wanted
      exact ⟨fun _ => place, ⟨keys, fun bottom => absurd bottom middle⟩, fun bottom => absurd bottom middle⟩
    | _ => trivial
  · rintro rfl
    obtain ⟨keys, same⟩ := of_decide_eq_true checked
    exact ⟨keys, fun k _ => by rw [same]⟩
  · rintro i snap rfl
    cases checked
  · rintro i h rfl found
    simp only [found, Option.all_some] at checked
    exact of_decide_eq_true checked

def clearingScript : List Action :=
  .insert [1] [10] :: ownSteps 3 ++ .compact :: ownSteps 4 ++ List.replicate 3 (.collect 0) ++
    .delete [1] :: ownSteps 3 ++ .compactAll :: ownSteps 3

theorem crashRecoversCleared : ∃ s st,
    Trace.Run State.step (fun s a => a.Clean ∧ CrashSafe True s a) (.fresh ⟨1, 1⟩) (clearingScript ++ [.collect 1]) s ∧
      Stops True s st ∧ st.active.map Prod.fst = [3] ∧ ∃ u, Around s u ∧ ∀ lo hi,
        (LsmTree.open ⟨1, 1⟩ st.stopped).1.range (LsmTree.open ⟨1, 1⟩ st.stopped).2 lo hi =
          u.tree.tables.range u.storage lo hi := by
  have clean : ∀ a ∈ clearingScript ++ [.collect 1], a.Clean := by
    simp [clearingScript, ownSteps, noFaults, Action.Clean]
  have ended : (Trace.execWhile State.step crashChecked (.fresh ⟨1, 1⟩) (clearingScript ++ [.collect 1])).any (fun s =>
      crashChecked s (.collect 2) && (s.step (.collect 2)).any (fun t =>
        decide (t.storage.active.map Prod.fst = [3]))) = true := by decide +kernel
  have allowed : ∀ s, ∀ a ∈ clearingScript ++ [.collect 1], crashChecked s a = true → a.Clean ∧ CrashSafe True s a :=
    fun s a member checked => ⟨clean a member, crashSafeOf checked⟩
  obtain ⟨s, ran, tested⟩ := Trace.runTo allowed ended
  obtain ⟨checked, dropped⟩ := Bool.and_eq_true_iff.mp tested
  obtain ⟨t, taken, left⟩ := (Option.any_eq_true _ _).mp dropped
  have stops : Stops True s t.storage := Or.inr ⟨.collect 2, t, crashSafeOf checked, taken, rfl⟩
  exact ⟨s, t.storage, ran, stops, of_decide_eq_true left, crashRecovers (Starts.fresh ⟨1, 1⟩)
    (openInOrder ⟨1, 1⟩ ⟨fun _ => rfl, List.nodup_nil⟩) ran stops ⟨1, 1⟩⟩

def droppingScript : List Action := clearingScript ++ List.replicate 3 (.collect 0)

theorem aroundQuiet {s u : State} (idle : s.foreground = .idle) (quiet : s.background = none)
    (around : Around s u) : u = s := by
  obtain ⟨bs, ran⟩ := around
  cases ran with
  | nil => rfl
  | cons taken finishing tail =>
    obtain ⟨-, ⟨faults, rfl⟩ | ⟨-, running⟩⟩ := finishing
    · simp [State.step, State.stepForeground, idle] at taken
    · simp [quiet] at running

theorem crashResurrects : ∃ s, Trace.Run State.step (fun _ a => a.Clean) (.fresh ⟨1, 1⟩) droppingScript s ∧
    Stops True s s.storage ∧
      (LsmTree.open ⟨1, 1⟩ s.storage.stopped).1.range (LsmTree.open ⟨1, 1⟩ s.storage.stopped).2 [1] [1] =
        [([1], [10])] ∧
          ∀ u, Around s u → u.tree.tables.range u.storage [1] [1] = [] := by
  have clean : ∀ a ∈ droppingScript, a.Clean := by
    simp [droppingScript, clearingScript, ownSteps, noFaults, Action.Clean]
  have ended : (Trace.execWhile State.step (fun _ _ => true) (.fresh ⟨1, 1⟩) droppingScript).any (fun s =>
      let opened := LsmTree.open ⟨1, 1⟩ s.storage.stopped
      State.isIdle s.foreground && s.background.isNone &&
        decide (opened.1.range opened.2 [1] [1] = [([1], [10])]) &&
          decide (s.tree.tables.range s.storage [1] [1] = [])) = true := by decide +kernel
  obtain ⟨s, ran, tested⟩ := Trace.runTo (fun _ a member _ => clean a member) ended
  simp only [Bool.and_eq_true, decide_eq_true_eq] at tested
  obtain ⟨⟨⟨idle, quiet⟩, reopened⟩, gone⟩ := tested
  refine ⟨s, ran, Or.inl rfl, reopened, fun u around => ?_⟩
  rw [aroundQuiet (State.idleOfIsIdle idle) (Option.isNone_iff_eq_none.mp quiet) around]
  exact gone

end CardanoLsm
