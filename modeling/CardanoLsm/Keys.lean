import CardanoLsm.Overlap

/-! The keys of a session: what holds of every key that is written holds of every key in
the memtables, the snapshots and the run files. -/
namespace CardanoLsm
open Std Layered

def Foreground.inFlight : Foreground → List Entries
  | .flushing old _ | .flushNumbered old _ _ => [old.data]
  | .flushWritten h _ => [h.run.entries]
  | _ => []

@[simp] theorem Foreground.Quiet.inFlight {f : Foreground} (quiet : f.Quiet) : f.inFlight = [] := by
  cases quiet <;> rfl

structure Keyed (P : Key → Prop) (s : State) : Prop where
  files : ∀ n run, s.storage.active.lookup n = some (some run) → EntriesKeys P run.entries
  memtable : EntriesKeys P s.tree.memtable.data
  inFlight : ∀ m ∈ s.foreground.inFlight, EntriesKeys P m
  held : ∀ snap ∈ s.held, EntriesKeys P snap.memtable.data

theorem Keyed.runs {P : Key → Prop} {s : State} (keyed : Keyed P s) {next : Nat}
    {settled : Multiset SsTableHandle} {outputs : List SsTableHandle} {allocated : List Nat}
    (book : Ledger s.storage next settled outputs allocated) {runs : List SsTableHandle}
    (members : ∀ h ∈ runs, h ∈ settled) : RunsKeys P runs := fun h member =>
  keyed.files h.runNumber h.run (book.listed (Multiset.mem_add.mpr (Or.inl (members h member))))

section Entries
variable {P : Key → Prop} {m : Entries}

theorem EntriesKeys.empty : EntriesKeys P ∅ :=
  fun _ held => absurd ExtTreeMap.getElem?_empty held

theorem EntriesKeys.insertAll (keys : EntriesKeys P m) {ws : List (Key × Entry)}
    (new : ∀ w ∈ ws, P w.1) : EntriesKeys P (insertAll m ws) := by
  intro k held
  rw [insertAllGet] at held
  cases written : pick ws.reverse k with
  | none =>
    rw [written, Option.none_or] at held
    exact keys k held
  | some e =>
    have one : pick ws.reverse k ≠ none := by simp [written]
    rw [ne_eq, pickNone, not_forall] at one
    obtain ⟨w, one⟩ := one
    simp only [List.mem_reverse, ne_eq, Classical.not_imp, not_not] at one
    exact one.2 ▸ new w one.1

theorem EntriesKeys.live (keys : EntriesKeys P m) : EntriesKeys P (live m) := by
  intro k held
  refine keys k (fun none => held ?_)
  rw [liveGet, none]
  rfl

variable {sources targets : List SsTableHandle}

theorem RunsKeys.merged (keys : RunsKeys P sources) : EntriesKeys P (Compactor.mergedSources sources) := by
  intro k held
  by_contra outside
  refine held ?_
  have none := (keys.mono fun h member => byNumberMem.mp member : RunsKeys P (byNumber sources)).outside
    outside
  rw [byNumber, ← layersReverse] at none
  rw [Compactor.mergedSourcesGet, none, ite_self]

theorem RunsKeys.mergedJob (keys : RunsKeys P sources) (keysBelow : RunsKeys P targets) (bottom : Bool) :
    EntriesKeys P (Compactor.mergedJob sources targets bottom) := by
  cases bottom with
  | false => exact keys.merged
  | true =>
    refine EntriesKeys.live (fun k held => ?_)
    by_contra outside
    refine held ?_
    have none : (Compactor.mergedSources sources)[k]? = none := by
      by_contra some
      exact outside (keys.merged k some)
    rw [Compactor.insertMissingFold, none, keysBelow.outside outside, ite_self, Option.or_none]

end Entries

theorem Keyed.fresh (P : Key → Prop) (config : LsmConfig) {overflowChecks : Bool} :
    Keyed P (.fresh config overflowChecks) := by
  refine ⟨?_, .empty, ?_, ?_⟩
  · exact fun n run found => by cases found
  · exact fun m member => by cases member
  · exact fun snap member => by cases member

theorem SsTableWriter.Stores.keys {P : Key → Prop} {entries : Entries} {st st' : Storage}
    (stores : Stores entries st st') (keys : EntriesKeys P entries)
    (files : ∀ m run, st.active.lookup m = some (some run) → EntriesKeys P run.entries) :
    ∀ m run, st'.active.lookup m = some (some run) → EntriesKeys P run.entries := by
  intro m run found
  rcases stores m run found with old | same
  · exact files m run old
  · rw [same]
    exact keys

namespace Cycle.Moves
variable {faults : Nat → Bool} {s t : State} {c : Cycle} {p : Progress}
  {rest : Multiset SsTableHandle} {outputs : List SsTableHandle} {allocated : List Nat}

abbrev Book (s : State) (c : Cycle) (rest : Multiset SsTableHandle) (outputs : List SsTableHandle)
    (allocated : List Nat) : Prop :=
  Ledger s.storage s.tree.nextRunNumber (↑s.tree.levels.flatten + ↑s.garbage + ↑c.clones + rest)
    (c.outputs ++ outputs) (c.allocated ++ allocated)

theorem bookClones {x : SsTableHandle} (member : x ∈ c.clones) :
    x ∈ (↑s.tree.levels.flatten + ↑s.garbage + ↑c.clones + rest : Multiset SsTableHandle) := by
  simp only [Multiset.mem_add, Multiset.mem_coe]
  exact Or.inl (Or.inr member)

theorem bookLevels {x : SsTableHandle} (member : x ∈ s.tree.levels.flatten) :
    x ∈ (↑s.tree.levels.flatten + ↑s.garbage + ↑c.clones + rest : Multiset SsTableHandle) := by
  simp only [Multiset.mem_add, Multiset.mem_coe]
  exact Or.inl (Or.inl (Or.inl member))

theorem files {P : Key → Prop} (moved : Cycle.Moves faults s c p t)
    (book : Book s c rest outputs allocated)
    (shape : c.Shape s.tree.maxLevel s.tree.compactionGeneration) (keyed : Keyed P s) :
    ∀ n run, t.storage.active.lookup n = some (some run) → EntriesKeys P run.entries := by
  have before := keyed.files
  have merging : ∀ g snap job n, c = .numbered g snap job n (snap.getD job.sourceLevel []) →
      Selected s.tree.maxLevel snap job → ∀ m run, (Compactor.compactLevels faults job
        (snap.getD job.sourceLevel []) n s.tree.maxLevel s.storage).2.active.lookup m = some (some run) →
          EntriesKeys P run.entries := by
    rintro g snap job n rfl selected
    have keys : RunsKeys P snap.flatten := keyed.runs book (fun h member =>
      bookClones (List.mem_append_left _ (List.mem_append_left _ member)))
    have stores : SsTableWriter.Stores (jobEntries s.tree.maxLevel snap job) s.storage
        (Compactor.compactLevels faults job (snap.getD job.sourceLevel []) n s.tree.maxLevel s.storage).2 :=
      Compactor.mergeAndWriteStores (mergeReads selected (clonesReadable book))
    exact stores.keys (RunsKeys.mergedJob (keys.mono fun h member => levelSubset member)
      (keys.mono fun h member => levelSubset member) _) before
  cases moved with
  | nothing g none =>
    simp only [State.discard, State.cloneAll, (Ledger.cloneActive _ s.storage).1]
    exact before
  | select g job selected =>
    simp only [State.cloneAll, (Ledger.cloneActive _ s.storage).1]
    exact before
  | number g snap job =>
    simp only [State.cloneAll, State.allocate, (Ledger.cloneActive _ s.storage).1]
    exact before
  | failed g snap job n runs e st failed =>
    obtain ⟨selected, rfl⟩ := shape.2
    have stored := merging g snap job n rfl selected
    rwa [failed] at stored
  | merge g snap job n runs result st done =>
    obtain ⟨selected, rfl⟩ := shape.2
    have stored := merging g snap job n rfl selected
    rwa [done] at stored
  | stale g snap job runs result changed => exact before
  | writeBack g snap job runs result current => exact before

end Cycle.Moves

namespace State.Moves
variable {P : Key → Prop} {s t : State} {a : Action}

theorem cloneMember {f : Foreground} {x : SsTableHandle} (member : x ∈ f.clones) :
    x ∈ (s.settledBase + ↑f.clones + ↑(s.background.elim [] Cycle.clones) : Multiset SsTableHandle) := by
  simp only [Multiset.mem_add, Multiset.mem_coe]
  exact Or.inl (Or.inr member)

theorem files (moved : Moves s a t) (sound : Sound s) (keyed : Keyed P s) :
    ∀ n run, t.storage.active.lookup n = some (some run) → EntriesKeys P run.entries := by
  have before := keyed.files
  have cloned : ∀ (hs : List SsTableHandle) n run,
      (s.storage.cloneAll hs).active.lookup n = some (some run) → EntriesKeys P run.entries := by
    intro hs
    rw [(Ledger.cloneActive hs s.storage).1]
    exact before
  have written : ∀ faults old n after, s.foreground = .flushNumbered old n after → ∀ m run,
      (SsTableWriter.write faults 0 n old.data 0 s.storage).2.active.lookup m = some (some run) →
        EntriesKeys P run.entries := by
    intro faults old n after here
    have inFlight := keyed.inFlight old.data
    rw [here] at inFlight
    exact (SsTableWriter.writeStores faults 0 n old.data 0 s.storage).keys
      (inFlight (List.mem_singleton.mpr rfl)) before
  have merged : ∀ faults all n, s.foreground = .compactAllNumbered all n → ∀ m run,
      (Compactor.compact faults (List.range all.length) all n s.storage).2.active.lookup m =
        some (some run) → EntriesKeys P run.entries := by
    intro faults all n here
    have book := bookAt sound here
    have readable : Readable s.storage all := book.readable (fun x member => cloneMember member)
    have keys : RunsKeys P all := keyed.runs book (fun x member => cloneMember member)
    have stores : SsTableWriter.Stores (live (Compactor.mergedSources all)) s.storage
        (Compactor.compact faults (List.range all.length) all n s.storage).2 :=
      Compactor.mergeAndWriteStores (Compactor.mergeAllAll readable)
    exact stores.keys keys.merged.live before
  cases moved with
  | snapshot idle => exact cloned _
  | cloneSnapshot i snap found => exact cloned _
  | compactAllClone idle some => exact cloned _
  | saveClone faults name label here => exact cloned _
  | flushFailed faults old n after e st here failed =>
    have stored := written faults old n after here
    rwa [failed] at stored
  | flushWrite faults old n after h st here done =>
    have stored := written faults old n after here
    rwa [done] at stored
  | compacting t faults c c' here moved =>
    have shape := sound.foreground
    rw [here] at shape
    exact moved.files (bookCycle sound here) shape keyed
  | compacted t faults c r here moved =>
    have shape := sound.foreground
    rw [here] at shape
    exact moved.files (bookCycle sound here) shape keyed
  | compactAllFailed faults all n e st here failed =>
    have stored := merged faults all n here
    rwa [failed] at stored
  | compactAllMerge faults all n result st here done =>
    have stored := merged faults all n here
    rwa [done] at stored
  | saveCreate faults name label seq all r st here created =>
    have book := bookAt sound here
    have aside := PersistentSnapshot.createAside (fun h member => book.owns.counts.positive
      (Multiset.mem_add.mpr (Or.inl (cloneMember member)))) created
    intro n run found
    simp only [discard, return_] at found
    rw [aside.active] at found
    exact before n run found
  | background t faults c c' here moved =>
    exact moved.files (bookBackground sound here) (sound.background c here) keyed
  | backgroundEnd t faults c r here moved =>
    exact moved.files (bookBackground sound here) (sound.background c here) keyed
  | collect i h found => exact fun n run listed => before n run (Ledger.dropListed listed)
  | _ => exact before

theorem buffered (moved : Moves s a t) (new : ∀ w ∈ a.writes, P w.1) (keyed : Keyed P s) :
    EntriesKeys P t.tree.memtable.data := by
  have before := keyed.memtable
  cases moved with
  | wrote a memtable isWrite idle data =>
    simp only [withTree, return_, data]
    exact before.insertAll new
  | wroteFull a memtable isWrite idle data nonempty => exact .empty
  | rollback i snap idle found past => exact keyed.held snap (List.mem_of_getElem? found)
  | saveFlush name label idle nonempty => exact .empty
  | saveNoFlush name label idle empty => exact .empty
  | compacting t faults c c' here moved => simpa only [at_, moved.frame.memtable] using before
  | compacted t faults c r here moved => simpa only [return_, moved.frame.memtable] using before
  | background t faults c c' here moved => simpa only [moved.frame.memtable] using before
  | backgroundEnd t faults c r here moved => simpa only [moved.frame.memtable] using before
  | _ => exact before

theorem underWay (moved : Moves s a t) (new : ∀ w ∈ a.writes, P w.1) (keyed : Keyed P s) :
    ∀ m ∈ t.foreground.inFlight, EntriesKeys P m := by
  intro m member
  have before := keyed.inFlight m
  cases moved with
  | wrote a memtable isWrite idle data => cases member
  | wroteFull a memtable isWrite idle data nonempty =>
    rw [List.mem_singleton.mp member, data]
    exact keyed.memtable.insertAll new
  | saveFlush name label idle nonempty =>
    rw [List.mem_singleton.mp member]
    exact keyed.memtable
  | flushNumber faults old after here =>
    rw [here] at before
    exact before member
  | flushWrite faults old n after h st here done =>
    rw [here] at before
    have same : m = old.data := (List.mem_singleton.mp member).trans (SsTableWriter.writeOk done).entries
    exact before (List.mem_singleton.mpr same)
  | flushPush faults h after f r here quiet ends =>
    rw [quiet.inFlight] at member
    cases member
  | drained faults after f r here quiet ends =>
    rw [quiet.inFlight] at member
    cases member
  | background t faults c c' here moved => exact before (moved.frame.foreground ▸ member)
  | backgroundEnd t faults c r here moved => exact before (moved.frame.foreground ▸ member)
  | snapshot idle => exact before member
  | cloneSnapshot i snap found => exact before member
  | dropSnapshot i snap found => exact before member
  | begin faults none => exact before member
  | collect i h found => exact before member
  | _ => cases member

theorem heldKeys (moved : Moves s a t) (keyed : Keyed P s) :
    ∀ snap ∈ t.held, EntriesKeys P snap.memtable.data := by
  intro x member
  have before := keyed.held
  cases moved with
  | snapshot idle =>
    rcases List.mem_append.mp member with old | new
    · exact before x old
    · rw [List.mem_singleton.mp new]
      exact keyed.memtable
  | refused i snap idle found future => exact before x (List.mem_of_mem_eraseIdx member)
  | rollback i snap idle found past => exact before x (List.mem_of_mem_eraseIdx member)
  | cloneSnapshot i snap found =>
    rcases List.mem_append.mp member with old | new
    · exact before x old
    · rw [List.mem_singleton.mp new]
      exact before snap (List.mem_of_getElem? found)
  | dropSnapshot i snap found => exact before x (List.mem_of_mem_eraseIdx member)
  | compacting t faults c c' here moved => exact before x (moved.frame.held ▸ member)
  | compacted t faults c r here moved => exact before x (moved.frame.held ▸ member)
  | background t faults c c' here moved => exact before x (moved.frame.held ▸ member)
  | backgroundEnd t faults c r here moved => exact before x (moved.frame.held ▸ member)
  | _ => exact before x member

theorem keyed (moved : Moves s a t) (sound : Sound s) (new : ∀ w ∈ a.writes, P w.1)
    (keyed : Keyed P s) : Keyed P t :=
  ⟨moved.files sound keyed, moved.buffered new keyed, moved.underWay new keyed,
    moved.heldKeys keyed⟩

end State.Moves
end CardanoLsm
