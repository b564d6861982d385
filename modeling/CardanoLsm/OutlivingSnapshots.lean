import CardanoLsm.Sessions

/-! In-memory snapshots that outlive their tree. Each session counts its own handles of a file name,
so the last handle of one session removes what a later one holds under the same number. -/
namespace CardanoLsm
open Std Layered Script

def State.inUse (s : State) : List SsTableHandle := s.tree.levels.flatten ++ heldHandles s.held ++ s.outputs

def Stored (st : Storage) (hs : List SsTableHandle) : Prop :=
  ∀ h ∈ hs, h.dir = .active ∧ st.runAt .active h.runNumber = some h.run

namespace Sessions

def Intact (w : Sessions) : Prop :=
  Readable w.session.storage w.session.tree.levels.flatten ∧
    ∀ snap ∈ w.session.held, Readable w.session.storage snap.levels.flatten

/-- The last handle of a counter drops only where no handle in use names a run of the same number; a snapshot is
opened only where its runs, complete and each for a level that there is, include those of the in-memory snapshots. -/
def Spares (w : Sessions) : SessionsAction → Prop
  | .own (.collect i) => ∀ h, w.session.garbage[i]? = some h → w.session.storage.refcounts h.refcount = 1 →
      ∀ x ∈ w.session.inUse, x.runNumber ≠ h.runNumber
  | .openSnapshot name => ∀ metadata, PersistentSnapshot.load w.session.storage name = .ok metadata →
      ∀ x ∈ State.heldHandles w.session.held, (metadata.runs.map SnapshotRun.runNumber).Nodup ∧
        (∀ run ∈ metadata.runs, (w.session.storage.runAt (.snapshot name) run.runNumber).isSome) ∧
          ∃ run ∈ metadata.runs, run.runNumber = x.runNumber ∧ run.level ≤ 6 ∧
            w.session.storage.runAt (.snapshot name) run.runNumber = some x.run
  | _ => True

end Sessions

theorem Stored.readable {st : Storage} {hs : List SsTableHandle} (stored : Stored st hs) : Readable st hs := by
  intro h member
  obtain ⟨dir, found⟩ := stored h member
  rw [Storage.readRun, dir, found]

theorem Stored.same {st st' : Storage} {hs : List SsTableHandle} (active : st'.active = st.active)
    (stored : Stored st hs) : Stored st' hs := by
  intro h member
  rw [Storage.runAt, Storage.files, active]
  exact stored h member

theorem mem_inUse {s : State} {h : SsTableHandle} : h ∈ s.inUse ↔ h ∈ s.tree.levels.flatten ∨
    h ∈ State.heldHandles s.held ∨ h ∈ s.foreground.outputs ∨ h ∈ s.background.elim [] Cycle.outputs := by
  simp only [State.inUse, State.outputs, List.mem_append, or_assoc]

theorem SsTableWriter.Written.stays {n level : Nat} {entries : Entries} {st st' : Storage} {h : SsTableHandle}
    (written : SsTableWriter.Written n entries level st h st') :
    h.dir = .active ∧ st'.runAt .active h.runNumber = some h.run := by
  obtain ⟨dir, number, -, -⟩ := written.handle
  exact ⟨dir, by rw [number]; exact written.stored⟩

theorem Compactor.Merged.stays {n level : Nat} {indices : List Nat} {all : Entries} {st st' : Storage}
    {result : CompactionResult} (merged : Compactor.Merged n level indices all st result st') :
    ∀ h ∈ result.output, h.dir = .active ∧ st'.runAt .active h.runNumber = some h.run := by
  cases merged with
  | nothing empty => exact nofun
  | output nonempty h st' written =>
    intro x member
    cases Option.mem_some.mp member
    exact written.stays

theorem Cycle.Moves.inUse {faults : Nat → Bool} {s t : State} {c : Cycle} {p : Progress}
    (moved : Cycle.Moves faults s c p t) (arranged : c.Arranged s.tree.maxLevel)
    (length : s.tree.levels.length = s.tree.maxLevel + 1) {h : SsTableHandle}
    (member : h ∈ t.tree.levels.flatten ∨ h ∈ p.outputs) : h ∈ s.tree.levels.flatten ∨ h ∈ c.outputs ∨
      h.dir = .active ∧ t.storage.runAt .active h.runNumber = some h.run := by
  cases moved with
  | merge g snap job n runs result st done =>
    rcases member with here | output
    · exact Or.inl here
    · obtain ⟨all, -, merged⟩ := Compactor.mergeAndWriteMerged done
      exact Or.inr (Or.inr (merged.stays h (by simpa [Progress.outputs, Cycle.outputs] using output)))
  | writeBack g snap job runs result current =>
    obtain ⟨picked, rfl, removes⟩ := arranged
    rcases member with here | output
    · have before := Multiset.mem_of_le (writeBackLe length picked.job removes) (Multiset.mem_coe.mpr here)
      rcases List.mem_append.mp (Multiset.mem_coe.mp before) with old | new
      · exact Or.inl old
      · exact Or.inr (Or.inl new)
    · cases output
  | _ =>
    rcases member with here | output
    · exact Or.inl here
    · cases output

theorem Cycle.Moves.keepsInUse {faults : Nat → Bool} {s t : State} {c : Cycle} {p : Progress}
    (moved : Cycle.Moves faults s c p t) (arranged : c.Arranged s.tree.maxLevel)
    (length : s.tree.levels.length = s.tree.maxLevel + 1) (own : ∀ x ∈ c.outputs, x ∈ s.inUse) {h : SsTableHandle}
    (member : h ∈ t.tree.levels.flatten ∨ h ∈ p.outputs) :
    h ∈ s.inUse ∨ h.dir = .active ∧ t.storage.runAt .active h.runNumber = some h.run := by
  rcases moved.inUse arranged length member with old | output | new
  · exact Or.inl (mem_inUse.mpr (Or.inl old))
  · exact Or.inl (own h output)
  · exact Or.inr new

theorem heldSub {held : List LsmSnapshot} {i : Nat} {h : SsTableHandle}
    (member : h ∈ State.heldHandles (held.eraseIdx i)) : h ∈ State.heldHandles held := by
  obtain ⟨snap, inside, here⟩ := List.mem_flatMap.mp member
  exact List.mem_flatMap.mpr ⟨snap, List.mem_of_mem_eraseIdx inside, here⟩

theorem heldOf {held : List LsmSnapshot} {i : Nat} {snap : LsmSnapshot} {h : SsTableHandle}
    (found : held[i]? = some snap) (member : h ∈ snap.levels.flatten) : h ∈ State.heldHandles held :=
  List.mem_flatMap.mpr ⟨snap, List.mem_of_getElem? found, member⟩

theorem heldSnocSub {held : List LsmSnapshot} {snap : LsmSnapshot} {h : SsTableHandle}
    (member : h ∈ State.heldHandles (held ++ [snap])) : h ∈ State.heldHandles held ∨ h ∈ snap.levels.flatten := by
  simpa [State.heldHandles, or_comm] using member

namespace State.Moves
variable {s t : State} {a : Action} {h : SsTableHandle}

theorem ownOutputs {c : Cycle} (here : s.foreground = .compacting c) : ∀ x ∈ c.outputs, x ∈ s.inUse := by
  intro x output
  rw [mem_inUse, here]
  exact Or.inr (Or.inr (Or.inl output))

theorem backgroundOutputs {c : Cycle} (here : s.background = some c) : ∀ x ∈ c.outputs, x ∈ s.inUse := by
  intro x output
  rw [mem_inUse, here]
  exact Or.inr (Or.inr (Or.inr output))

theorem treeInUse (moved : State.Moves s a t) (arranged : s.Arranged) (member : h ∈ t.tree.levels.flatten) :
    h ∈ s.inUse ∨ h.dir = .active ∧ t.storage.runAt .active h.runNumber = some h.run := by
  cases moved with
  | rollback i snap idle found past => exact Or.inl (mem_inUse.mpr (Or.inr (Or.inl (heldOf found member))))
  | flushPush faults x after f r here quiet ends =>
    refine Or.inl (mem_inUse.mpr ?_)
    obtain ⟨level, inside, member⟩ := List.mem_flatten.mp member
    rcases List.mem_or_eq_of_mem_set inside with old | rfl
    · exact Or.inl (List.mem_flatten.mpr ⟨level, old, member⟩)
    · rcases List.mem_append.mp member with old | new
      · exact Or.inl (levelSubset old)
      · exact Or.inr (Or.inr (Or.inl (by rw [here]; exact new)))
  | compacting t faults c c' here moved =>
    have cycle := arranged.foreground
    rw [here] at cycle
    exact moved.keepsInUse cycle arranged.length (ownOutputs here) (Or.inl member)
  | compacted t faults c r here moved =>
    have cycle := arranged.foreground
    rw [here] at cycle
    exact moved.keepsInUse cycle arranged.length (ownOutputs here) (Or.inl member)
  | compactAllInstall faults all result here =>
    have inside : s.tree.maxLevel < s.tree.levels.length := by
      have := arranged.length
      omega
    simp only [State.discard, State.withLevels, State.return_, clearedFlatten s.tree.levels inside] at member
    exact Or.inl (mem_inUse.mpr (Or.inr (Or.inr (Or.inl (by rw [here]; exact member)))))
  | background t faults c c' here moved =>
    exact moved.keepsInUse (arranged.background c here) arranged.length (backgroundOutputs here) (Or.inl member)
  | backgroundEnd t faults c r here moved =>
    exact moved.keepsInUse (arranged.background c here) arranged.length (backgroundOutputs here) (Or.inl member)
  | _ => exact Or.inl (mem_inUse.mpr (Or.inl member))

theorem heldInUse (moved : State.Moves s a t) (member : h ∈ State.heldHandles t.held) : h ∈ s.inUse := by
  rw [mem_inUse]
  cases moved with
  | snapshot idle =>
    rcases heldSnocSub member with old | new
    · exact Or.inr (Or.inl old)
    · exact Or.inl new
  | cloneSnapshot i snap found =>
    rcases heldSnocSub member with old | new
    · exact Or.inr (Or.inl old)
    · exact Or.inr (Or.inl (heldOf found new))
  | refused i snap idle found future => exact Or.inr (Or.inl (heldSub member))
  | rollback i snap idle found past => exact Or.inr (Or.inl (heldSub member))
  | dropSnapshot i snap found => exact Or.inr (Or.inl (heldSub member))
  | compacting t faults c c' here moved => exact Or.inr (Or.inl (moved.frame.held ▸ member))
  | compacted t faults c r here moved => exact Or.inr (Or.inl (moved.frame.held ▸ member))
  | background t faults c c' here moved => exact Or.inr (Or.inl (moved.frame.held ▸ member))
  | backgroundEnd t faults c r here moved => exact Or.inr (Or.inl (moved.frame.held ▸ member))
  | _ => exact Or.inr (Or.inl member)

theorem foregroundInUse (moved : State.Moves s a t) (arranged : s.Arranged) (member : h ∈ t.foreground.outputs) :
    h ∈ s.inUse ∨ h.dir = .active ∧ t.storage.runAt .active h.runNumber = some h.run := by
  have kept : h ∈ s.foreground.outputs → h ∈ s.inUse := fun same => mem_inUse.mpr (Or.inr (Or.inr (Or.inl same)))
  cases moved with
  | flushWrite faults old n after x st here done =>
    cases List.mem_singleton.mp member
    exact Or.inr (SsTableWriter.writeOk done).stays
  | flushPush faults x after f r here quiet ends =>
    rw [show f.outputs = [] from quiet.outputs] at member
    cases member
  | drained faults after f r here quiet ends =>
    rw [show f.outputs = [] from quiet.outputs] at member
    cases member
  | compacting t faults c c' here moved =>
    have cycle := arranged.foreground
    rw [here] at cycle
    exact moved.keepsInUse cycle arranged.length (ownOutputs here) (Or.inr member)
  | compactAllMerge faults all n result st here done =>
    obtain ⟨entries, -, merged⟩ := Compactor.mergeAndWriteMerged done
    exact Or.inr (merged.stays h (by simpa [State.at_, Foreground.outputs] using member))
  | background t faults c c' here moved => exact Or.inl (kept (moved.frame.foreground ▸ member))
  | backgroundEnd t faults c r here moved => exact Or.inl (kept (moved.frame.foreground ▸ member))
  | snapshot | cloneSnapshot | dropSnapshot | begin | collect => exact Or.inl (kept member)
  | _ => cases member

theorem backgroundInUse (moved : State.Moves s a t) (arranged : s.Arranged)
    (member : h ∈ t.background.elim [] Cycle.outputs) :
    h ∈ s.inUse ∨ h.dir = .active ∧ t.storage.runAt .active h.runNumber = some h.run := by
  have kept : h ∈ s.background.elim [] Cycle.outputs → h ∈ s.inUse := fun same =>
    mem_inUse.mpr (Or.inr (Or.inr (Or.inr same)))
  cases moved with
  | compacting t faults c c' here moved => exact Or.inl (kept (moved.frame.background ▸ member))
  | compacted t faults c r here moved => exact Or.inl (kept (moved.frame.background ▸ member))
  | begin faults none => cases member
  | background t faults c c' here moved =>
    exact moved.keepsInUse (arranged.background c here) arranged.length (backgroundOutputs here) (Or.inr member)
  | backgroundEnd t faults c r here moved => cases member
  | _ => exact Or.inl (kept member)

theorem inUse (moved : State.Moves s a t) (arranged : s.Arranged) (member : h ∈ t.inUse) :
    h ∈ s.inUse ∨ h.dir = .active ∧ t.storage.runAt .active h.runNumber = some h.run := by
  rcases mem_inUse.mp member with inLevels | held | front | back
  · exact moved.treeInUse arranged inLevels
  · exact Or.inl (moved.heldInUse held)
  · exact moved.foregroundInUse arranged front
  · exact moved.backgroundInUse arranged back

end State.Moves

theorem SsTableWriter.writeStays (faults : Nat → Bool) (i n : Nat) (entries : Entries) (level : Nat) {st : Storage}
    {m : Nat} {run : Run} (there : st.runAt .active m = some run) :
    (write faults i n entries level st).2.runAt .active m = some run := by
  have listed : st.active.lookup m = some (some run) := Option.join_eq_some_iff.mp there
  have apart : st.active.lookup n = none → m ≠ n := by
    rintro unused rfl
    rw [unused] at listed
    cases listed
  cases out : write faults i n entries level st with
  | mk outcome st' =>
    cases outcome with
    | ok h =>
      have written := writeOk out
      rw [Storage.runAt, Storage.files, written.others m (apart written.unused)]
      exact there
    | error e =>
      by_cases same : m = n
      · subst same
        have stopped : Script.run faults i (newOps m) st = (some (.createNew .keyops), st) := by
          simp [newOps, Script.run, listed]
        rw [write, stopped] at out
        cases out
        exact there
      · rw [(writeError out).runAt same]
        exact there

theorem Effect.stays {s : State} {a : Action} {st : Storage} (effect : Effect s a st) {x : SsTableHandle}
    (stored : s.storage.runAt .active x.runNumber = some x.run)
    (spared : ∀ i, a = .collect i → ∀ h, s.garbage[i]? = some h → s.storage.refcounts h.refcount = 1 →
      x.runNumber ≠ h.runNumber) : st.runAt .active x.runNumber = some x.run := by
  cases effect with
  | clone a hs =>
    rw [Storage.runAt, Storage.files, (Ledger.cloneActive hs s.storage).1]
    exact stored
  | write a faults i n entries level mine => exact SsTableWriter.writeStays faults i n entries level stored
  | drop i h found =>
    by_cases last : s.storage.refcounts h.refcount = 1
    · rw [Storage.runAt, Storage.files, LsmTree.dropElsewhere (spared i rfl h found last)]
      exact stored
    · rw [Storage.dropHandle, if_neg last]
      exact stored
  | create faults name label seq all here =>
    rw [Storage.runAt, Storage.files, PersistentSnapshot.createActive]
    exact stored

theorem openListedStored (numbers : List Nat) {acc : List SsTableHandle} {st : Storage} (before : Stored st acc) :
    (numbers.foldl LsmTree.openNext (acc, st)).2.active = st.active ∧
      Stored (numbers.foldl LsmTree.openNext (acc, st)).2 (numbers.foldl LsmTree.openNext (acc, st)).1 := by
  induction numbers generalizing acc st with
  | nil => exact ⟨rfl, before⟩
  | cons n numbers ih =>
    rw [List.foldl_cons, LsmTree.openNext]
    split
    · rename_i h st' ok
      obtain ⟨dir, number, -, -, found, left⟩ := Owns.openOk ok
      have same : st'.active = st.active := by rw [left]
      have more : Stored st' (acc ++ [h]) := by
        intro x member
        rcases List.mem_append.mp member with old | new
        · exact before.same same x old
        · cases List.mem_singleton.mp new
          refine ⟨dir, ?_⟩
          rw [Storage.runAt, Storage.files, same, number, found, Option.join_some]
      exact ⟨(ih more).1.trans same, (ih more).2⟩
    · rename_i e st' failed
      rw [openError failed]
      exact ih before

theorem openSnapshotLeaves {name : String} {st st' : Storage} {t : LsmTree} (ok : LsmTree.openSnapshot name st = (.ok t, st')) :
    ∃ metadata, PersistentSnapshot.load st name = .ok metadata ∧ (metadata.runs.map SnapshotRun.runNumber).Nodup ∧
      (∀ run ∈ metadata.runs, run.level ≤ 6 →
        st'.runAt .active run.runNumber = st.runAt (.snapshot name) run.runNumber) ∧
      ∀ h ∈ t.levels.flatten, h.dir = .active ∧ ∃ run ∈ metadata.runs, run.level ≤ 6 ∧ h.runNumber = run.runNumber ∧
        st.runAt (.snapshot name) run.runNumber = some h.run := by
  obtain ⟨metadata, linked, sstables, opened, loaded, link, runs, rfl, rfl⟩ := Starts.openSnapshotSteps ok
  obtain ⟨once, -, active⟩ := Starts.linkedRuns link
  obtain ⟨same, more, all, pairs⟩ := LsmTree.openRunsPairs runs
  rw [List.nil_append] at all
  subst sstables
  have stored : ∀ run ∈ metadata.runs, linked.active.lookup run.runNumber = some (st.runAt (.snapshot name) run.runNumber) := by
    intro run member
    refine Assoc.lookupOnce ?_ ?_
    · rw [active, List.map_map]
      exact once
    · rw [active]
      exact List.mem_map.mpr ⟨run, member, rfl⟩
  have paired : ∀ h ∈ more, ∃ run ∈ metadata.runs, h.dir = .active ∧ h.runNumber = run.runNumber ∧
      h.level = run.level ∧ linked.active.lookup run.runNumber = some (some h.run) := fun h member =>
    Assoc.relatedRight pairs member
  refine ⟨metadata, loaded, once, fun run member shallow => ?_, fun h member => ?_⟩
  · have apart : ∀ h ∈ more.filter (fun h => decide (6 < h.level)), run.runNumber ≠ h.runNumber := by
      intro h inside number
      obtain ⟨here, deep⟩ := List.mem_filter.mp inside
      obtain ⟨run', member', -, number', level, -⟩ := paired h here
      have equal : run = run' := List.inj_on_of_nodup_map once member member' (number.trans number')
      subst equal
      have deep := of_decide_eq_true deep
      omega
    rw [Storage.runAt, Storage.files, LsmTree.dropAllElsewhere apart, same, stored run member, Option.join_some]
  · have inside := (assemblePerm 6 more).mem_iff.mp member
    obtain ⟨here, shallow⟩ := List.mem_filter.mp inside
    obtain ⟨run, member', dir, number, level, found⟩ := paired h here
    refine ⟨dir, run, member', level ▸ of_decide_eq_true shallow, number, ?_⟩
    rw [stored run member'] at found
    exact Option.some.inj found

theorem openSnapshotComplete {name : String} {st : Storage} {metadata : SnapshotMetadata}
    (loaded : PersistentSnapshot.load st name = .ok metadata) (once : (metadata.runs.map SnapshotRun.runNumber).Nodup)
    (complete : ∀ run ∈ metadata.runs, (st.runAt (.snapshot name) run.runNumber).isSome) :
    ∃ t st', LsmTree.openSnapshot name st = (.ok t, st') := by
  have linked : LsmTree.linkRuns name metadata.runs { st with active := [] } = (.ok (), { st with
      active := metadata.runs.map (fun run => (run.runNumber, st.runAt (.snapshot name) run.runNumber)) }) :=
    LsmTree.linkRunsEnds name { st with active := [] } (by simpa using once) complete
  have stored : ∀ run ∈ metadata.runs, (metadata.runs.map (fun run =>
      (run.runNumber, st.runAt (.snapshot name) run.runNumber))).lookup run.runNumber =
        some (st.runAt (.snapshot name) run.runNumber) := by
    intro run member
    refine Assoc.lookupOnce ?_ (List.mem_map.mpr ⟨run, member, rfl⟩)
    rw [List.map_map]
    exact once
  obtain ⟨sstables, opened, ends, -, -⟩ := LsmTree.openRunsEnds name [] { st with active := metadata.runs.map (fun run =>
      (run.runNumber, st.runAt (.snapshot name) run.runNumber)) } (fun run member => by
    rw [Storage.runAt, Storage.files, stored run member, Option.join_some]
    exact complete run member)
  unfold LsmTree.openSnapshot
  simp only [loaded, linked, ends, List.nil_append]
  exact ⟨_, _, rfl⟩

namespace Sessions
variable {w w' : Sessions}

theorem Booked.inUseShut (booked : Booked w) (shut : w.isOpen = false) :
    w.session.inUse = State.heldHandles w.session.held := by
  obtain ⟨idle, joined, none⟩ := booked.closed shut
  simp [State.inUse, State.outputs, Foreground.outputs, idle, joined, none]

theorem ownStored (booked : Booked w) (stored : Stored w.session.storage w.session.inUse) {a : Action} {s : State}
    (spared : Spares w (.own a)) (taken : w.session.step a = some s) : Stored s.storage s.inUse := by
  have moved := State.stepMoves taken
  intro x member
  rcases moved.inUse booked.arranged member with old | new
  · obtain ⟨dir, found⟩ := stored x old
    refine ⟨dir, moved.effect.stays found (fun i same h there last => ?_)⟩
    subst same
    exact spared h there last x old
  · exact new

theorem Booked.storedOpens (booked : Booked w) (shut : w.isOpen = false) {t : LsmTree} {st : Storage}
    {r : Option (Except Error Unit)} (levels : Stored st t.levels.flatten)
    (held : Stored st (State.heldHandles w.session.held)) (isOpen : Bool) :
    Stored (Sessions.mk { w.session with tree := t, storage := st, returned := r } isOpen).session.storage
      (Sessions.mk { w.session with tree := t, storage := st, returned := r } isOpen).session.inUse := by
  obtain ⟨idle, joined, -⟩ := booked.closed shut
  intro x member
  simp only [State.inUse, State.outputs, Foreground.outputs, idle, joined, Option.elim_none, List.append_nil,
    List.mem_append] at member
  rcases member with here | there
  · exact levels x here
  · exact held x there

theorem openSnapshotStored (booked : Booked w) (shut : w.isOpen = false)
    (stored : Stored w.session.storage w.session.inUse) {name : String} (spared : Spares w (.openSnapshot name))
    {t : LsmTree} {st : Storage} (ok : LsmTree.openSnapshot name w.session.storage = (.ok t, st)) :
    Stored st t.levels.flatten ∧ Stored st (State.heldHandles w.session.held) := by
  obtain ⟨metadata, loaded, -, kept, levels⟩ := openSnapshotLeaves ok
  refine ⟨fun x member => ?_, fun x member => ?_⟩
  · obtain ⟨dir, run, inside, shallow, number, found⟩ := levels x member
    exact ⟨dir, by rw [number, kept run inside shallow, found]⟩
  · obtain ⟨-, -, run, inside, number, shallow, found⟩ := spared metadata loaded x member
    refine ⟨(stored x (booked.inUseShut shut ▸ member)).1, ?_⟩
    rw [← number, kept run inside shallow, found]

theorem failedOpenStored (booked : Booked w) (shut : w.isOpen = false)
    (stored : Stored w.session.storage w.session.inUse) {name : String} (spared : Spares w (.openSnapshot name))
    {e : Error} {st : Storage} (failed : LsmTree.openSnapshot name w.session.storage = (.error e, st)) :
    Stored st (State.heldHandles w.session.held) := by
  intro x member
  cases loaded : PersistentSnapshot.load w.session.storage name with
  | error reason =>
    simp only [LsmTree.openSnapshot, loaded, Prod.mk.injEq] at failed
    rw [← failed.2]
    exact stored x (booked.inUseShut shut ▸ member)
  | ok metadata =>
    obtain ⟨once, complete, -⟩ := spared metadata loaded x member
    obtain ⟨t, st', opened⟩ := openSnapshotComplete loaded once complete
    rw [failed] at opened
    cases opened

theorem storedStep (booked : Booked w) (stored : Stored w.session.storage w.session.inUse) {a : SessionsAction}
    (spared : Spares w a) (taken : w.step a = some w') : Stored w'.session.storage w'.session.inUse := by
  cases a with
  | own a =>
    simp only [Sessions.step, Option.ite_none_right_eq_some] at taken
    obtain ⟨s, stepped, rfl⟩ := Option.map_eq_some_iff.mp taken.2
    exact ownStored booked stored spared stepped
  | close =>
    simp only [Sessions.step, Option.ite_none_right_eq_some, Option.some.injEq] at taken
    obtain ⟨-, rfl⟩ := taken
    intro x member
    refine stored x (mem_inUse.mpr (Or.inr ?_))
    simpa [State.discard, State.withTree, emptiedFlatten] using mem_inUse.mp member
  | «open» config =>
    simp only [Sessions.step, Option.ite_none_left_eq_some, Option.some.injEq, Bool.not_eq_true] at taken
    obtain ⟨shut, rfl⟩ := taken
    have none : Stored w.session.storage [] := fun _ member => absurd member List.not_mem_nil
    obtain ⟨active, listed⟩ := openListedStored (w.session.storage.active.map Prod.fst) none
    rw [booked.inUseShut shut] at stored
    refine booked.storedOpens shut (fun x member => ?_) (stored.same active) true
    exact listed x (List.mem_filter.mp ((assemblePerm 6 _).mem_iff.mp member)).1
  | openSnapshot name =>
    simp only [Sessions.step, Option.ite_none_left_eq_some, Bool.not_eq_true] at taken
    obtain ⟨shut, taken⟩ := taken
    split at taken
    · rename_i t st opened
      cases taken
      obtain ⟨levels, held⟩ := openSnapshotStored booked shut stored spared opened
      exact booked.storedOpens shut levels held true
    · rename_i e st failed
      cases taken
      have empty : Stored st w.session.tree.levels.flatten := by
        rw [(booked.closed shut).2.2]
        exact fun _ member => absurd member List.not_mem_nil
      exact booked.storedOpens shut empty (failedOpenStored booked shut stored spared failed) false
  | deleteSnapshot name =>
    simp only [Sessions.step, Option.ite_none_right_eq_some, Option.some.injEq, Bool.and_eq_true] at taken
    obtain ⟨⟨-, idle⟩, rfl⟩ := taken
    obtain ⟨st, r, same, active, -⟩ := deleteSnapshotLeaves w.session name
    rw [same]
    refine Stored.same active (fun x member => stored x ?_)
    simpa [State.inUse, State.outputs, State.return_, State.idleOfIsIdle idle, Foreground.outputs] using member
  | exit =>
    cases taken
    intro x member
    simp [State.inUse, State.outputs, State.heldHandles, Foreground.outputs, emptiedFlatten] at member

theorem sparedIntact {st : Storage} (counters : ∀ c, st.refcounts c = 0) {overflowChecks : Bool}
    {actions : List SessionsAction} (ran : Trace.Run Sessions.step Spares (on st overflowChecks) actions w) :
    w.Intact := by
  have kept := ran.invariant (I := fun x => Booked x ∧ Stored x.session.storage x.session.inUse)
    (fun _ _ _ taken spared kept => ⟨kept.1.step taken, storedStep kept.1 kept.2 spared taken⟩)
    ⟨Booked.on counters, fun _ member => absurd member List.not_mem_nil⟩
  refine ⟨Stored.readable (fun x member => ?_), fun snap inside => Stored.readable (fun x member => ?_)⟩
  · exact kept.2 x (mem_inUse.mpr (Or.inl member))
  · exact kept.2 x (mem_inUse.mpr (Or.inr (Or.inl (List.mem_flatMap.mpr ⟨snap, inside, member⟩))))

def leavingScript : List SessionsAction :=
  [.open ⟨1, 1⟩, .own (.insert [1] [10])] ++ (ownSteps 3).map .own ++
    [.own .snapshot, .close, .own (.collect 0), .open ⟨1, 1⟩]

def sparesLast (w : Sessions) : SessionsAction → Bool
  | .own (.collect i) => w.session.garbage[i]?.all (fun h => w.session.storage.refcounts h.refcount != 1)
  | .openSnapshot _ => false
  | _ => true

theorem sparesLastSpares (a : SessionsAction) (ok : sparesLast w a = true) : Spares w a := by
  cases a with
  | own a =>
    cases a with
    | collect i =>
      intro h there last
      simp [sparesLast, there, last] at ok
    | _ => trivial
  | openSnapshot name => cases ok
  | _ => trivial

theorem sparedIntactLeaving : ∃ w, Trace.Run Sessions.step Spares (on Storage.empty) leavingScript w ∧
    w.isOpen = true ∧ w.session.tree.levels.flatten.length = 1 ∧ (State.heldHandles w.session.held).length = 1 ∧
      w.Intact := by
  have ended : (Trace.execWhile Sessions.step sparesLast (on Storage.empty) leavingScript).any (fun w =>
      w.isOpen && decide (w.session.tree.levels.flatten.length = 1) &&
        decide ((State.heldHandles w.session.held).length = 1)) = true := by
    decide +kernel
  obtain ⟨w, ran, tested⟩ := Trace.runTo (fun _ a _ ok => sparesLastSpares a ok) ended
  simp only [Bool.and_eq_true, decide_eq_true_eq] at tested
  exact ⟨w, ran, tested.1.1, tested.1.2, tested.2, sparedIntact (fun _ => rfl) ran⟩

theorem outlivingSnapshotHarms : ¬ ∀ (actions : List SessionsAction) (w : Sessions),
    Trace.Run Sessions.step (fun _ _ => True) (on Storage.empty) actions w → w.Intact := by
  intro always
  have ended : (Trace.execWhile Sessions.step (fun _ _ => true) (on Storage.empty)
      (leavingScript ++ [.own (.dropSnapshot 0), .own (.collect 0)])).any (fun w =>
        w.session.tree.levels.flatten.any (fun h => decide (w.session.storage.readRun h ≠ .ok h.run))) = true := by
    decide +kernel
  obtain ⟨w, ran, tested⟩ := Trace.runTo (fun _ _ _ _ => trivial) ended
  obtain ⟨h, member, lost⟩ := List.any_eq_true.mp tested
  exact of_decide_eq_true lost ((always _ w ran).1 h member)

end Sessions
end CardanoLsm
