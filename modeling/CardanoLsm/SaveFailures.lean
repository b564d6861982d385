import CardanoLsm.SavedSnapshots

/-! A save that fails. `create` makes the directory of the snapshot first and takes nothing
back, so only what fails before that leaves the name free. -/
namespace CardanoLsm
open Std Layered Script

def Storage.listSnapshots (st : Storage) : List String :=
  (st.snapshots.map Prod.fst).insertionSort (· ≤ ·)

theorem Storage.unlisted {st : Storage} {name : String} :
    name ∉ st.listSnapshots ↔ st.snapshots.lookup name = none := by
  rw [listSnapshots, (List.perm_insertionSort _ _).mem_iff, Assoc.lookupNone]

namespace PersistentSnapshot
variable {name label : String} {sstables : List SsTableHandle} {seq : Nat} {config : LsmConfig}

def Modifies (name : String) (st st' : Storage) : Prop :=
  st'.snapshots = st.snapshots ∨ ∃ f, st'.snapshots = (st.modifySnapshot name f).snapshots

theorem Modifies.others {st st' : Storage} (modifies : Modifies name st st') {other : String}
    (apart : other ≠ name) : st'.snapshots.lookup other = st.snapshots.lookup other := by
  rcases modifies with same | ⟨f, same⟩
  · rw [same]
  · rw [same, Storage.modifySnapshot, Assoc.lookupModify, if_neg apart]

theorem Modifies.stays {st st' : Storage} (modifies : Modifies name st st')
    (there : (st.snapshots.lookup name).isSome) : (st'.snapshots.lookup name).isSome := by
  rcases modifies with same | ⟨f, same⟩
  · rwa [same]
  · rw [same, Storage.modifySnapshot, Assoc.lookupModify, if_pos rfl, Option.isSome_map]
    exact there

theorem linkModifies (h : SsTableHandle) : ∀ op ∈ linkOps name h, ∀ st, Modifies name st (op.effect st) := by
  intro op member st
  simp only [linkOps, List.mem_cons, List.not_mem_nil, or_false] at member
  rcases member with rfl | rfl | rfl | rfl | rfl | rfl | rfl | rfl
  · exact Or.inl rfl
  · exact Or.inr ⟨_, rfl⟩
  · exact Or.inl rfl
  · exact Or.inl rfl
  · exact Or.inl rfl
  · exact Or.inr ⟨_, rfl⟩
  · exact Or.inl rfl
  · show Modifies name st ((st.cloneHandle h).dropHandle { h with dir := .snapshot name })
    unfold Storage.dropHandle
    dsimp only
    split
    · exact Or.inr ⟨fun s => { s with runs := s.runs.filter (fun f => f.1 != h.runNumber) }, rfl⟩
    · exact Or.inl rfl

theorem metadataModifies (metadata : SnapshotMetadata) :
    ∀ op ∈ metadataOps name metadata, ∀ st, Modifies name st (op.effect st) := by
  intro op member st
  rcases List.mem_append.mp member with before | after
  · rcases List.mem_append.mp before with first | written
    · obtain ⟨o, _, rfl⟩ := List.mem_map.mp first
      exact Or.inl rfl
    · cases List.mem_singleton.mp written
      exact Or.inr ⟨_, rfl⟩
  · obtain ⟨o, _, rfl⟩ := List.mem_map.mp after
    exact Or.inl rfl

def contentOps (name label : String) (sstables : List SsTableHandle) (seq : Nat) (config : LsmConfig) :
    List (Op FileOp Storage) :=
  sstables.flatMap (linkOps name) ++ metadataOps name ⟨1, label, config, sstables.map describe, seq⟩

theorem contentModifies : ∀ op ∈ contentOps name label sstables seq config, ∀ st,
    Modifies name st (op.effect st) := by
  intro op member st
  rcases List.mem_append.mp member with linked | written
  · obtain ⟨h, _, inside⟩ := List.mem_flatMap.mp linked
    exact linkModifies h op inside st
  · exact metadataModifies _ op written st

theorem createOthers (faults : Nat → Bool) (st : Storage) {other : String} (apart : other ≠ name) :
    (create faults name label sstables seq config st).2.snapshots.lookup other = st.snapshots.lookup other := by
  unfold create
  split
  · rfl
  · have kept : (Script.run faults 0 (createOps name label sstables seq config) st).2.snapshots.lookup other =
        st.snapshots.lookup other := by
      refine runKeeps (P := fun s : Storage => s.snapshots.lookup other = st.snapshots.lookup other)
        (fun op member s _ before => ?_) rfl
      rcases List.mem_cons.mp member with rfl | content
      · dsimp only
        rw [Assoc.lookupCons, if_neg apart]
        exact before
      · exact ((contentModifies op content s).others apart).trans before
    split <;> rename_i stopped <;> rwa [stopped] at kept

theorem createFree {faults : Nat → Bool} {st : Storage} (absent : st.snapshots.lookup name = none) :
    (create faults name label sstables seq config st).2.snapshots.lookup name = none ↔ faults 0 = true := by
  have ready : ¬ (st.snapshots.lookup name).isSome = true := by simp [absent]
  have left : (create faults name label sstables seq config st).2 =
      (Script.run faults 0 (createOps name label sstables seq config) st).2 := by
    unfold create
    rw [if_neg ready]
    split <;> rename_i stopped <;> rw [stopped]
  rw [left]
  show (Script.run faults 0 (_ :: contentOps name label sstables seq config) st).2.snapshots.lookup name = none ↔ _
  unfold Script.run
  by_cases first : faults 0 = true
  · simp only [first, Bool.true_or, if_true, absent]
  · have kept : ((Script.run faults 1 (contentOps name label sstables seq config)
        { st with snapshots := (name, ⟨[], none⟩) :: st.snapshots }).2.snapshots.lookup name).isSome := by
      refine runKeeps (P := fun s : Storage => (s.snapshots.lookup name).isSome)
        (fun op member s _ before => (contentModifies op member s).stays before) ?_
      rw [Assoc.lookupCons, if_pos rfl]
      rfl
    simp only [first, Bool.not_true, Bool.or_self, Bool.false_eq_true, if_false, iff_false, Nat.zero_add]
    exact fun none => by simp [none] at kept

theorem linkEnds {st : Storage} (absent : st.snapshots.lookup name = none) {done : RunFiles} {h : SsTableHandle}
    (place : h.dir = .active) (stored : (st.runAt .active h.runNumber).isSome)
    (fresh : h.runNumber ∉ done.map Prod.fst) (positive : 0 < st.refcounts h.refcount) :
    Ends (linkOps name h) (linking st name ⟨done, none⟩) (linking st name ⟨done ++ [linked st h], none⟩) := by
  rw [← linkFinal absent place fresh positive]
  have source : (((linking st name ⟨done, none⟩).files h.dir).lookup h.runNumber).isSome := by
    obtain ⟨run, found⟩ := Option.isSome_iff_exists.mp stored
    rw [place]
    show (st.active.lookup h.runNumber).isSome = true
    rw [show st.active.lookup h.runNumber = some (some run) from Option.join_eq_some_iff.mp found]
    rfl
  have target : (((linking st name ⟨done, none⟩).files (.snapshot name)).lookup h.runNumber).isNone := by
    have files : (linking st name ⟨done, none⟩).files (.snapshot name) = done := by
      simp only [Storage.files, linking, Assoc.lookupCons, if_true, Option.map_some, Option.getD_some]
    rw [files, Option.isNone_iff_eq_none, Assoc.lookupNone]
    exact fresh
  have enabled : ∀ op ∈ (linkOps name h).take 2, op.enabled (linking st name ⟨done, none⟩) = true := by
    intro op member
    simp only [linkOps, List.take, List.mem_cons, List.not_mem_nil, or_false] at member
    rcases member with rfl | rfl
    · rfl
    · simp only [source, target, Bool.and_self]
  refine Ends.append (Ends.one (enabled _ List.mem_cons_self))
    (Ends.append (Ends.one (enabled _ (List.mem_cons_of_mem _ List.mem_cons_self)))
      (Ends.append (Ends.still [FileOp.hardLink .blobs, FileOp.hardLink .filter, FileOp.hardLink .index])
        (Ends.append (Ends.one ?_) (Ends.always ?_ _))))
  · simp only [modifyLinking absent, place, linkingActive]
    exact stored
  · intro op member st
    simp only [List.mem_cons, List.not_mem_nil, or_false] at member
    rcases member with rfl | rfl <;> rfl

theorem linksEnds {st : Storage} (absent : st.snapshots.lookup name = none) {hs : List SsTableHandle}
    {done : RunFiles} (active : ∀ h ∈ hs, h.dir = .active)
    (stored : ∀ h ∈ hs, (st.runAt .active h.runNumber).isSome)
    (once : (done.map Prod.fst ++ hs.map SsTableHandle.runNumber).Nodup)
    (positive : ∀ h ∈ hs, 0 < st.refcounts h.refcount) :
    Ends (hs.flatMap (linkOps name)) (linking st name ⟨done, none⟩)
      (linking st name ⟨done ++ hs.map (linked st), none⟩) := by
  induction hs generalizing done with
  | nil =>
    rw [List.map_nil, List.append_nil]
    exact Ends.nil _
  | cons h rest ih =>
    have fresh : h.runNumber ∉ done.map Prod.fst := fun member =>
      (List.nodup_append.mp once).2.2 _ member _ List.mem_cons_self rfl
    have first := linkEnds absent (active h List.mem_cons_self) (stored h List.mem_cons_self) fresh
      (positive h List.mem_cons_self)
    have later := ih (fun x member => active x (List.mem_cons_of_mem h member))
      (fun x member => stored x (List.mem_cons_of_mem h member))
      (show ((done ++ [linked st h]).map Prod.fst ++ rest.map SsTableHandle.runNumber).Nodup by
        simpa [linked] using once)
      (fun x member => positive x (List.mem_cons_of_mem h member))
    rw [List.append_assoc] at later
    exact Ends.append first later

theorem createSucceeds {faults : Nat → Bool} (clean : ∀ j, faults j = false) {st : Storage}
    (absent : st.snapshots.lookup name = none) (active : ∀ h ∈ sstables, h.dir = .active)
    (stored : ∀ h ∈ sstables, (st.runAt .active h.runNumber).isSome) (distinct : Distinct sstables)
    (positive : ∀ h ∈ sstables, 0 < st.refcounts h.refcount) :
    (create faults name label sstables seq config st).1 = .ok () := by
  have ready : ¬ (st.snapshots.lookup name).isSome = true := by simp [absent]
  have linked : Ends (sstables.flatMap (linkOps name)) (linking st name ⟨[], none⟩) _ :=
    linksEnds absent active stored distinct positive
  have written : ∀ metadata, ∀ op ∈ metadataOps name metadata, ∀ s, op.enabled s = true := by
    intro metadata op member s
    simp only [metadataOps, List.mem_append, List.mem_map, List.mem_singleton] at member
    rcases member with (⟨_, _, rfl⟩ | rfl) | ⟨_, _, rfl⟩ <;> rfl
  have ends : Ends (createOps name label sstables seq config) st _ :=
    Ends.append (Ends.append (Ends.one rfl) linked) (Ends.always (written _) _)
  unfold create
  rw [if_neg ready, ends faults 0 (fun j _ _ => clean j)]

end PersistentSnapshot

def AfterFlush.saves : AfterFlush → Option String
  | .finish => none
  | .saveSnapshot name _ => some name

def Foreground.saves : Foreground → Option String
  | .flushing _ after | .flushNumbered _ _ after | .flushWritten _ after | .backPressure after => after.saves
  | .saving name _ | .saveCloned name _ _ _ => some name
  | _ => none

theorem State.afterFlushSaves (s : State) (after : AfterFlush) :
    (s.afterFlush after).foreground.saves = after.saves := by
  cases after <;> rfl

inductive SaveStep (name : String) (m : State) (a : Action) (t : State) : Prop where
  | continues (saves : t.foreground.saves = some name) (same : t.storage.snapshots = m.storage.snapshots)
  | flushFailed (faults : Nat → Bool) (own : a = .foreground faults) (old : MemTable) (n : Nat)
      (after : AfterFlush) (e : Error) (st : Storage) (here : m.foreground = .flushNumbered old n after)
      (failed : SsTableWriter.write faults 0 n old.data 0 m.storage = (.error e, st))
      (left : t = { m with storage := st }.return_ (.error e))
  | created (faults : Nat → Bool) (own : a = .foreground faults) (label : String) (seq : Nat)
      (all : List SsTableHandle) (here : m.foreground = .saveCloned name label seq all)
      (left : t = ({ m with storage := (PersistentSnapshot.create faults name label all seq m.tree.config
        m.storage).2 }.discard all).return_
          (PersistentSnapshot.create faults name label all seq m.tree.config m.storage).1)
  | panicked (stops : t.foreground = .panicked)

theorem State.savesAfterPush {m t : State} {faults : Nat → Bool} {h : SsTableHandle} {after : AfterFlush}
    (here : m.foreground = .flushWritten h after) (taken : m.stepForeground faults = some t) :
    t.foreground = .panicked ∨ t.foreground.saves = after.saves := by
  simp only [stepForeground, here] at taken
  split at taken
  · cases taken
    exact Or.inl rfl
  · split at taken
    · cases taken
      exact Or.inr rfl
    · cases taken
      exact Or.inr (afterFlushSaves _ after)

theorem State.savesAfterWait {m t : State} {faults : Nat → Bool} {after : AfterFlush}
    (here : m.foreground = .backPressure after) (taken : m.stepForeground faults = some t) :
    t.foreground = .panicked ∨ t.foreground.saves = after.saves := by
  simp only [stepForeground, here] at taken
  split at taken
  · cases taken
    exact Or.inl rfl
  · split at taken
    · cases taken
      exact Or.inr (afterFlushSaves _ after)
    · cases taken

theorem State.saveStep {name : String} {m t : State} {a : Action} (sound : Sound m)
    (saves : m.foreground.saves = some name) (taken : m.step a = some t) : SaveStep name m a t := by
  have moved := State.stepMoves taken
  have busy : m.foreground ≠ .idle := fun idle => by rw [idle] at saves; cases saves
  have kept := moved.effect.snapshots sound
  cases moved with
  | wrote a memtable isWrite idle data => exact absurd idle busy
  | wroteFull a memtable isWrite idle data nonempty => exact absurd idle busy
  | snapshot idle => exact absurd idle busy
  | refused i snap idle found future => exact absurd idle busy
  | rollback i snap idle found past => exact absurd idle busy
  | compact idle => exact absurd idle busy
  | compactAllNothing idle none => exact absurd idle busy
  | compactAllClone idle some => exact absurd idle busy
  | saveFlush name label idle nonempty => exact absurd idle busy
  | saveNoFlush name label idle empty => exact absurd idle busy
  | flushNumber faults old after here =>
    rw [here] at saves
    exact .continues saves rfl
  | flushFailed faults old n after e st here failed => exact .flushFailed faults rfl old n after e st here failed rfl
  | flushWrite faults old n after h st here done =>
    rw [here] at saves
    exact .continues saves (kept (fun _ _ _ _ _ _ other => by cases here.symm.trans other))
  | flushPush faults h after f r here quiet ends =>
    rw [here] at saves
    rcases savesAfterPush here taken with stops | same
    · exact .panicked stops
    · exact .continues (same.trans saves) rfl
  | drained faults after f r here quiet ends =>
    rw [here] at saves
    rcases savesAfterWait here taken with stops | same
    · exact .panicked stops
    · exact .continues (same.trans saves) rfl
  | saveClone faults name' label here =>
    rw [here] at saves
    exact .continues saves (kept (fun _ _ _ _ _ _ other => by cases here.symm.trans other))
  | saveCreate faults name' label seq all r st here created =>
    rw [here] at saves
    cases saves
    exact .created faults rfl label seq all here (by rw [created])
  | cloneSnapshot i snap found => exact .continues saves (kept nofun)
  | dropSnapshot i snap found => exact .continues saves (kept nofun)
  | begin faults none => exact .continues saves (kept nofun)
  | background t faults c c' here moved =>
    exact .continues (by simpa only [moved.frame.foreground] using saves) (kept nofun)
  | backgroundEnd t faults c r here moved =>
    exact .continues (by simpa only [moved.frame.foreground] using saves) (kept nofun)
  | collect i h found => exact .continues saves (kept nofun)
  | compacting t faults c c' here moved => rw [here] at saves; cases saves
  | compacted t faults c r here moved => rw [here] at saves; cases saves
  | compactAllNumber faults all here => rw [here] at saves; cases saves
  | compactAllFailed faults all n e st here failed => rw [here] at saves; cases saves
  | compactAllMerge faults all n result st here done => rw [here] at saves; cases saves
  | compactAllInstall faults all result here => rw [here] at saves; cases saves

theorem State.savesNext {m t : State} {a : Action} (taken : m.step a = some t) :
    t.foreground.saves = m.foreground.saves ∨ t.foreground.saves = none ∨
      ∃ name label, a = .saveSnapshot name label ∧ t.foreground.saves = some name := by
  cases State.stepMoves taken with
  | wrote a memtable isWrite idle data => exact Or.inr (Or.inl rfl)
  | wroteFull a memtable isWrite idle data nonempty => exact Or.inr (Or.inl rfl)
  | refused i snap idle found future => exact Or.inr (Or.inl rfl)
  | rollback i snap idle found past => exact Or.inr (Or.inl rfl)
  | compact idle => exact Or.inr (Or.inl rfl)
  | compactAllNothing idle none => exact Or.inr (Or.inl rfl)
  | compactAllClone idle some => exact Or.inr (Or.inl rfl)
  | saveFlush name label idle nonempty => exact Or.inr (Or.inr ⟨name, label, rfl, rfl⟩)
  | saveNoFlush name label idle empty => exact Or.inr (Or.inr ⟨name, label, rfl, rfl⟩)
  | flushNumber faults old after here => exact Or.inl (by rw [here]; rfl)
  | flushFailed faults old n after e st here failed => exact Or.inr (Or.inl rfl)
  | flushWrite faults old n after h st here done => exact Or.inl (by rw [here]; rfl)
  | flushPush faults h after f r here quiet ends =>
    rcases savesAfterPush here taken with stops | same
    · exact Or.inr (Or.inl (congrArg Foreground.saves stops))
    · exact Or.inl (same.trans (by rw [here]; rfl))
  | drained faults after f r here quiet ends =>
    rcases savesAfterWait here taken with stops | same
    · exact Or.inr (Or.inl (congrArg Foreground.saves stops))
    · exact Or.inl (same.trans (by rw [here]; rfl))
  | compacting t faults c c' here moved => exact Or.inr (Or.inl rfl)
  | compacted t faults c r here moved => exact Or.inr (Or.inl rfl)
  | compactAllNumber faults all here => exact Or.inr (Or.inl rfl)
  | compactAllFailed faults all n e st here failed => exact Or.inr (Or.inl rfl)
  | compactAllMerge faults all n result st here done => exact Or.inr (Or.inl rfl)
  | compactAllInstall faults all result here => exact Or.inr (Or.inl rfl)
  | saveClone faults name label here => exact Or.inl (by rw [here]; rfl)
  | saveCreate faults name label seq all r st here created => exact Or.inr (Or.inl rfl)
  | background t faults c c' here moved => exact Or.inl (congrArg Foreground.saves moved.frame.foreground)
  | backgroundEnd t faults c r here moved => exact Or.inl (congrArg Foreground.saves moved.frame.foreground)
  | _ => exact Or.inl rfl

theorem State.staysPanicked {m t : State} {a : Action} (stopped : m.foreground = .panicked)
    (taken : m.step a = some t) : t.foreground = .panicked := by
  cases State.stepMoves taken with
  | cloneSnapshot i snap found => exact stopped
  | dropSnapshot i snap found => exact stopped
  | begin faults none => exact stopped
  | background t faults c c' here moved => exact moved.frame.foreground.trans stopped
  | backgroundEnd t faults c r here moved => exact moved.frame.foreground.trans stopped
  | collect i h found => exact stopped
  | _ => simp_all only [reduceCtorEq]

def Free (name : String) (s : State) : Prop :=
  s.storage.snapshots.lookup name = none ∧ s.foreground.saves ≠ some name

theorem Free.next {name : String} {m t : State} {a : Action} (free : Free name m) (sound : Sound m)
    (other : ∀ label, a ≠ .saveSnapshot name label) (taken : m.step a = some t) : Free name t := by
  obtain ⟨absent, saves⟩ := free
  have saves' : t.foreground.saves ≠ some name := by
    rcases State.savesNext taken with same | none | ⟨name', label, rfl, begun⟩
    · rwa [same]
    · rw [none]
      exact nofun
    · rw [begun]
      rintro ⟨rfl⟩
      exact other label rfl
  refine ⟨?_, saves'⟩
  by_cases creates : ∃ faults name' label seq all, a = .foreground faults ∧
      m.foreground = .saveCloned name' label seq all
  · obtain ⟨faults, name', label, seq, all, rfl, here⟩ := creates
    simp only [State.step, State.stepForeground, here, Option.some.injEq] at taken
    subst taken
    rw [here] at saves
    refine (PersistentSnapshot.createOthers faults m.storage ?_).trans absent
    rintro rfl
    exact saves rfl
  · rw [(State.stepMoves taken).effect.snapshots sound (fun faults name' label seq all own here =>
      creates ⟨faults, name', label, seq, all, own, here⟩)]
    exact absent

def UnderWay (s : State) (_ : Action) : Prop := s.foreground ≠ .idle

def Unfailing (s : State) (a : Action) : Prop :=
  s.foreground ≠ .idle ∧ ∀ faults, a = .foreground faults → ∀ j, faults j = false

def SavesLater (t : State) (name : String) : Prop :=
  ∀ as u label v bs w, Trace.Run State.step (fun _ a => ∀ label, a ≠ .saveSnapshot name label) t as u →
    u.step (.saveSnapshot name label) = some v → Trace.Run State.step Unfailing v bs w →
      w.foreground = .idle → w.returned = some (.ok ())

def SavesNow (t : State) (name : String) : Prop :=
  ∀ label, ∃ w, Trace.exec State.step t (.saveSnapshot name label :: ownSteps 2) = some w ∧
    w.foreground = .idle ∧ w.returned = some (.ok ())

theorem State.createSucceeds {m : State} (sound : Sound m) {faults : Nat → Bool} (clean : ∀ j, faults j = false)
    {name label : String} {seq : Nat} {all : List SsTableHandle}
    (here : m.foreground = .saveCloned name label seq all) (distinct : Distinct all)
    (absent : m.storage.snapshots.lookup name = none) :
    (PersistentSnapshot.create faults name label all seq m.tree.config m.storage).1 = .ok () := by
  have live : ∀ h ∈ all, h ∈ m.settled + ↑m.outputs := by
    intro h member
    simp only [State.settled, here, Foreground.clones, Multiset.mem_add, Multiset.mem_coe]
    exact Or.inl (Or.inl (Or.inr member))
  have own := sound.ledger.owns
  exact PersistentSnapshot.createSucceeds clean absent (fun h member => own.inActive h (live h member))
    (fun h member => by rw [own.counts.stored h (live h member)]; rfl) distinct
    (fun h member => own.counts.positive (live h member))

structure SaveReady (s : State) : Prop where
  sound : Sound s
  emptied : Emptied s
  cloned : ∀ name label seq all, s.foreground = .saveCloned name label seq all → Distinct all

theorem SaveReady.next {s t : State} {a : Action} (ready : SaveReady s) (taken : s.step a = some t) :
    SaveReady t := by
  have moved := State.stepMoves taken
  refine ⟨moved.sound ready.sound, moved.emptied ready.emptied, ?_⟩
  cases moved with
  | saveClone faults name label here =>
    intro name' label' seq all same
    cases same
    exact ready.sound.tree.distinct
  | flushPush faults h after f r here quiet ends =>
    intro name label seq all same
    dsimp only at same
    subst same
    cases quiet
  | drained faults after f r here quiet ends =>
    intro name label seq all same
    dsimp only at same
    subst same
    cases quiet
  | snapshot idle => exact ready.cloned
  | cloneSnapshot i snap found => exact ready.cloned
  | dropSnapshot i snap found => exact ready.cloned
  | begin faults none => exact ready.cloned
  | collect i h found => exact ready.cloned
  | background t faults c c' here moved => exact fun _ _ _ _ same => ready.cloned _ _ _ _ (moved.frame.foreground.symm.trans same)
  | backgroundEnd t faults c r here moved => exact fun _ _ _ _ same => ready.cloned _ _ _ _ (moved.frame.foreground.symm.trans same)
  | _ => exact nofun

theorem SaveReady.run {ok : State → Action → Prop} {s₀ s : State} {as : List Action} (starts : Starts s₀)
    (ran : Trace.Run State.step ok s₀ as s) : SaveReady s := by
  refine ran.invariant (fun _ _ _ taken _ ready => ready.next taken) ⟨starts.sound, ?_, ?_⟩
  · cases starts <;> exact nofun
  · cases starts <;> exact nofun

theorem State.saveCalled {name label : String} {s m : State} (called : s.step (.saveSnapshot name label) = some m) :
    m.foreground.saves = some name ∧ m.storage = s.storage := by
  cases State.stepMoves called with
  | wrote a memtable isWrite idle data => cases isWrite
  | wroteFull a memtable isWrite idle data nonempty => cases isWrite
  | saveFlush name label idle nonempty => exact ⟨rfl, rfl⟩
  | saveNoFlush name label idle empty => exact ⟨rfl, rfl⟩

theorem Free.savesLater {name : String} {t : State} (free : Free name t) (ready : SaveReady t) :
    SavesLater t name := by
  intro as u label v bs w ran called during ended
  obtain ⟨ready', free'⟩ : SaveReady u ∧ Free name u := ran.invariant (I := fun x => SaveReady x ∧ Free name x)
    (fun x a y taken other holds => ⟨holds.1.next taken, holds.2.next holds.1.sound other taken⟩) ⟨ready, free⟩
  obtain ⟨saves, storage⟩ := State.saveCalled called
  obtain ⟨-, holds⟩ := during.invariant (I := fun x => SaveReady x ∧
      ((x.foreground.saves = some name ∧ x.storage.snapshots.lookup name = none) ∨
        (x.foreground = .idle ∧ x.returned = some (.ok ())) ∨ x.foreground = .panicked))
    (fun x a y taken unfailing holds => by
      obtain ⟨ready, saving | ⟨idle, -⟩ | stopped⟩ := holds
      · refine ⟨ready.next taken, ?_⟩
        cases State.saveStep ready.sound saving.1 taken with
        | continues saves same => exact Or.inl ⟨saves, same ▸ saving.2⟩
        | flushFailed faults own old n after e st here failed left =>
          exact (State.Moves.flushDone ready.sound (unfailing.2 faults own) here failed).elim
        | created faults own label seq all here left =>
          subst left
          exact Or.inr (Or.inl ⟨rfl, congrArg some (State.createSucceeds ready.sound (unfailing.2 faults own) here
            (ready.cloned _ _ _ _ here) saving.2)⟩)
        | panicked stops => exact Or.inr (Or.inr stops)
      · exact absurd idle unfailing.1
      · exact ⟨ready.next taken, Or.inr (Or.inr (State.staysPanicked stopped taken))⟩)
    ⟨ready'.next called, Or.inl ⟨saves, storage ▸ free'.1⟩⟩
  rcases holds with ⟨saves, -⟩ | ⟨-, ok⟩ | stopped
  · rw [ended] at saves
    cases saves
  · exact ok
  · cases ended.symm.trans stopped

theorem Free.savesNow {name : String} {t : State} (free : Free name t) (ready : SaveReady t)
    (idle : t.foreground = .idle) (empty : t.tree.memtable.data = ∅) : SavesNow t name := by
  intro label
  have none : t.tree.memtable.isEmpty = true := by simp [MemTable.isEmpty, empty]
  let v := (t.withTree { t.tree with memtable := MemTable.new t.tree.sequenceNumber }).at_ (.saving name label)
  let w := (v.cloneAll v.tree.levels.flatten).at_
    (.saveCloned name label v.tree.sequenceNumber v.tree.levels.flatten)
  have called : t.step (.saveSnapshot name label) = some v := by
    simp only [State.step, State.call, State.isIdle, idle, State.beginFlush, none, if_true, State.afterFlush]
    rfl
  have cloned : v.step (.foreground noFaults) = some w := rfl
  have ready : SaveReady w := (ready.next called).next cloned
  have absent : w.storage.snapshots.lookup name = Option.none :=
    (congrArg (List.lookup name) (Ledger.cloneActive v.tree.levels.flatten v.storage).2).trans free.1
  have made := State.createSucceeds ready.sound (show ∀ j, noFaults j = false from fun _ => rfl)
    (show w.foreground = .saveCloned name label v.tree.sequenceNumber v.tree.levels.flatten from rfl)
    (ready.cloned _ _ _ _ rfl) absent
  obtain ⟨x, saved, ended, ok⟩ : ∃ x, w.step (.foreground noFaults) = some x ∧ x.foreground = .idle ∧
      x.returned = some (.ok ()) := ⟨_, rfl, rfl, congrArg some made⟩
  refine ⟨x, ?_, ended, ok⟩
  simp only [ownSteps, List.replicate, Trace.exec, called, cloned, saved, Option.bind_some]

/-- A save that fails leaves no trace exactly when it fails in its flush or in making the
directory of the snapshot. -/
theorem saveAllOrNothing {s₀ s m₀ m t : State} {as bs : List Action} {name label : String}
    {faults : Nat → Bool} {e : Error} (starts : Starts s₀)
    (ran : Trace.Run State.step (fun _ _ => True) s₀ as s) (new : name ∉ s.storage.listSnapshots)
    (called : s.step (.saveSnapshot name label) = some m₀) (during : Trace.Run State.step UnderWay m₀ bs m)
    (fails : m.step (.foreground faults) = some t) (ended : t.foreground = .idle)
    (_error : t.returned = some (.error e)) :
    (name ∉ t.storage.listSnapshots ∧ SavesNow t name ∧ SavesLater t name) ↔
      ∀ name' label seq all, m.foreground = .saveCloned name' label seq all → faults 0 = true := by
  have before := SaveReady.run starts ran
  obtain ⟨begun, storage⟩ := State.saveCalled called
  obtain ⟨ready, saving⟩ := during.invariant (I := fun x => SaveReady x ∧
      (x.foreground = .idle ∨ x.foreground = .panicked ∨
        (x.foreground.saves = some name ∧ x.storage.snapshots.lookup name = none)))
    (fun x a y taken busy holds => by
      refine ⟨holds.1.next taken, ?_⟩
      rcases holds.2.resolve_left busy with stopped | ⟨saves, absent⟩
      · exact Or.inr (Or.inl (State.staysPanicked stopped taken))
      · cases State.saveStep holds.1.sound saves taken with
        | continues saves same => exact Or.inr (Or.inr ⟨saves, same ▸ absent⟩)
        | flushFailed faults own old n after e st here failed left => exact Or.inl (by rw [left]; rfl)
        | created faults own label seq all here left => exact Or.inl (by rw [left]; rfl)
        | panicked stops => exact Or.inr (Or.inl stops))
    ⟨before.next called, Or.inr (Or.inr ⟨begun, storage ▸ Storage.unlisted.mp new⟩)⟩
  have busy : m.foreground ≠ .idle := fun idle => by simp [State.step, State.stepForeground, idle] at fails
  have lives : m.foreground ≠ .panicked := fun stopped => by
    simp [State.step, State.stepForeground, stopped] at fails
  obtain ⟨saves, absent⟩ := (saving.resolve_left busy).resolve_left lives
  have swapped : m.tree.memtable.data = ∅ := by
    refine ready.emptied ?_
    cases f : m.foreground <;> rw [f] at saves <;> first | rfl | cases saves
  have free : t.tree.memtable = m.tree.memtable → t.storage.snapshots.lookup name = none →
      name ∉ t.storage.listSnapshots ∧ SavesNow t name ∧ SavesLater t name := by
    intro same absent
    have free : Free name t := ⟨absent, by rw [ended]; intro saves; cases saves⟩
    exact ⟨Storage.unlisted.mpr absent, free.savesNow (ready.next fails) ended (same ▸ swapped),
      free.savesLater (ready.next fails)⟩
  cases State.saveStep ready.sound saves fails with
  | continues saves same =>
    rw [ended] at saves
    cases saves
  | flushFailed faults' own old n after e st here failed left =>
    have same : t.storage.snapshots = m.storage.snapshots := by
      rw [left]
      exact (congrArg (fun out => out.2.snapshots) failed).symm.trans (SsTableWriter.writeSnapshots _ _ _ _ _ _)
    have elsewhere : ∀ name' label seq all, m.foreground = .saveCloned name' label seq all → faults 0 = true :=
      fun name' label seq all other => by cases here.symm.trans other
    exact ⟨fun _ => elsewhere, fun _ => free (by rw [left]; rfl) (same ▸ absent)⟩
  | created faults' own label' seq all here left =>
    cases own
    have made : t.storage.snapshots.lookup name = none ↔ faults 0 = true := by
      rw [left]
      exact PersistentSnapshot.createFree absent
    constructor
    · exact fun gone _ _ _ _ _ => made.mp (Storage.unlisted.mp gone.1)
    · exact fun first => free (by rw [left]; rfl) (made.mpr (first _ _ _ _ here))
  | panicked stops => cases ended.symm.trans stops

theorem failedSaveRun (faults : Nat → Bool) (n : Nat) (test : State → State → Bool)
    (ended : (Trace.execWhile State.step (fun _ _ => true) (.fresh ⟨4, 1⟩) [.insert [1] [10]]).any (fun s =>
      (s.step (.saveSnapshot "a" "b")).any (fun m₀ =>
        (Trace.execWhile State.step (fun u _ => !State.isIdle u.foreground) m₀ (ownSteps n)).any (fun m =>
          decide ("a" ∉ s.storage.listSnapshots) && (m.step (.foreground faults)).any (fun t =>
            failed t && test m t)))) = true) :
    ∃ s m₀ m t e, Trace.Run State.step (fun _ _ => True) (.fresh ⟨4, 1⟩) [.insert [1] [10]] s ∧
      "a" ∉ s.storage.listSnapshots ∧ s.step (.saveSnapshot "a" "b") = some m₀ ∧
        Trace.Run State.step UnderWay m₀ (ownSteps n) m ∧ m.step (.foreground faults) = some t ∧
          t.foreground = .idle ∧ t.returned = some (.error e) ∧ test m t = true := by
  have allowed : ∀ u, ∀ a ∈ ownSteps n, (!State.isIdle u.foreground) = true → UnderWay u a := by
    intro u a _ busy idle
    rw [idle] at busy
    cases busy
  obtain ⟨s, m₀, m, ran, called, during, tested⟩ := Trace.runThen (fun _ _ _ _ => trivial) allowed ended
  obtain ⟨new, fails⟩ := Bool.and_eq_true_iff.mp tested
  obtain ⟨t, fails, ends⟩ := (Option.any_eq_true _ _).mp fails
  obtain ⟨ends, tested⟩ := Bool.and_eq_true_iff.mp ends
  obtain ⟨idle, e, error⟩ := failedOf ends
  exact ⟨s, m₀, m, t, e, ran, of_decide_eq_true new, called, during, fails, idle, error, tested⟩

def inFlush (m : State) : Bool :=
  match m.foreground with
  | .flushNumbered _ _ _ => true
  | _ => false

theorem saveAllOrNothingFlush : ∃ s m₀ m t,
    Trace.Run State.step (fun _ _ => True) (.fresh ⟨4, 1⟩) [.insert [1] [10]] s ∧
      s.step (.saveSnapshot "a" "b") = some m₀ ∧ Trace.Run State.step UnderWay m₀ (ownSteps 1) m ∧
        m.step (.foreground allFail) = some t ∧
          "a" ∉ t.storage.listSnapshots ∧ SavesNow t "a" ∧ SavesLater t "a" := by
  obtain ⟨s, m₀, m, t, e, ran, new, called, during, fails, idle, error, flush⟩ :=
    failedSaveRun allFail 1 (fun m _ => inFlush m) (by decide +kernel)
  refine ⟨s, m₀, m, t, ran, called, during, fails,
    (saveAllOrNothing (Starts.fresh ⟨4, 1⟩) ran new called during fails idle error).mpr ?_⟩
  intro name label seq all here
  simp [inFlush, here] at flush

theorem saveLeavesName : ∃ s m₀ m t e w,
    Trace.Run State.step (fun _ _ => True) (.fresh ⟨4, 1⟩) [.insert [1] [10]] s ∧
      "a" ∉ s.storage.listSnapshots ∧ s.step (.saveSnapshot "a" "b") = some m₀ ∧
        Trace.Run State.step UnderWay m₀ (ownSteps 4) m ∧
          m.step (.foreground (fun j => j == 2)) = some t ∧ t.foreground = .idle ∧
            t.returned = some (.error e) ∧ "a" ∈ t.storage.listSnapshots ∧
              Trace.exec State.step t (.saveSnapshot "a" "b" :: ownSteps 2) = some w ∧
                w.returned = some (.error (.invalidOperation "Snapshot 'a' already exists")) := by
  obtain ⟨s, m₀, m, t, e, ran, new, called, during, fails, idle, error, tested⟩ :=
    failedSaveRun (fun j => j == 2) 4 (fun _ t => decide ("a" ∈ t.storage.listSnapshots) &&
      (Trace.exec State.step t (.saveSnapshot "a" "b" :: ownSteps 2)).any (fun w : State =>
        decide (w.returned = some (.error (.invalidOperation "Snapshot 'a' already exists")))))
      (by decide +kernel)
  obtain ⟨listed, again⟩ := Bool.and_eq_true_iff.mp tested
  obtain ⟨w, again, refused⟩ := (Option.any_eq_true _ _).mp again
  exact ⟨s, m₀, m, t, e, w, ran, new, called, during, fails, idle, error, of_decide_eq_true listed, again,
    of_decide_eq_true refused⟩

end CardanoLsm
