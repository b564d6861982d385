import CardanoLsm.BackPressure

/-! What no interleaving exceeds: the memtable its limit, L0 the back-pressure bound by more than
one run (`lib.rs`), and the bottom level a single run without tombstones (`compaction.rs`). -/
namespace CardanoLsm
open Std Layered

structure MemTable.Fits (limit : Nat) (m : MemTable) : Prop where
  counted : m.sizeBytes = m.contentLength
  small : m.contentLength < limit ∨ m.data = ∅

theorem MemTable.newFits (limit sequenceNumber : Nat) : (MemTable.new sequenceNumber).Fits limit := ⟨rfl, Or.inr rfl⟩

def Foreground.waiting : Foreground → Nat
  | .backPressure _ | .panicked => 1
  | _ => 0

structure Bounded (most : Nat) (s : State) : Prop where
  trigger : s.tree.config.level0CompactionTrigger * 4 ≤ most
  memtable : s.tree.memtable.Fits s.tree.config.memtableSize
  l0 : (s.tree.levels.getD 0 []).length ≤ most + s.foreground.waiting
  held : ∀ snap ∈ s.held, snap.memtable.Fits s.tree.config.memtableSize ∧ (snap.levels.getD 0 []).length ≤ most

namespace State

theorem insertsCounted (entries : List (Key × Value)) {m : MemTable} (counted : m.sizeBytes = m.contentLength) :
    (entries.foldl (fun m e => m.insert e.1 e.2) m).sizeBytes =
      (entries.foldl (fun m e => m.insert e.1 e.2) m).contentLength := by
  induction entries generalizing m with
  | nil => exact counted
  | cons e rest ih => exact ih (m.applySize counted (.insert e.1 e.2))

theorem deletesCounted (keys : List Key) {m : MemTable} (counted : m.sizeBytes = m.contentLength) :
    (keys.foldl MemTable.delete m).sizeBytes = (keys.foldl MemTable.delete m).contentLength := by
  induction keys generalizing m with
  | nil => exact counted
  | cons key rest ih => exact ih (m.applySize counted (.delete key))

theorem writeSteps {s t : State} {a : Action} (isWrite : a.isWrite = true) (taken : s.step a = some t)
    (counted : s.tree.memtable.sizeBytes = s.tree.memtable.contentLength) :
    s.foreground = .idle ∧
      (t = s.return_ (.ok ()) ∨ ∃ m : MemTable, m.sizeBytes = m.contentLength ∧ t = s.written m) := by
  have called : (if isIdle s.foreground then s.call a else none) = some t := by
    cases a <;> first | exact taken | cases isWrite
  split at called
  · rename_i idle
    refine ⟨idleOfIsIdle idle, ?_⟩
    cases a with
    | insert key value =>
      cases called
      exact Or.inr ⟨_, s.tree.memtable.applySize counted (.insert key value), rfl⟩
    | delete key =>
      cases called
      exact Or.inr ⟨_, s.tree.memtable.applySize counted (.delete key), rfl⟩
    | insertBatch entries =>
      cases called
      split
      · exact Or.inl rfl
      · exact Or.inr ⟨_, insertsCounted entries counted, rfl⟩
    | deleteBatch keys =>
      cases called
      split
      · exact Or.inl rfl
      · exact Or.inr ⟨_, deletesCounted keys counted, rfl⟩
    | _ => cases isWrite
  · cases called

theorem writtenFits {s : State} {m : MemTable} (counted : m.sizeBytes = m.contentLength) :
    (s.written m).tree.memtable.Fits s.tree.config.memtableSize ∧ (s.written m).foreground.waiting = 0 := by
  unfold written
  dsimp only [withTree]
  split
  · unfold beginFlush
    dsimp only [withTree]
    split
    · exact ⟨MemTable.newFits _ _, rfl⟩
    · exact ⟨MemTable.newFits _ _, rfl⟩
  · rename_i small
    have below : m.contentLength < s.tree.config.memtableSize := counted ▸ Nat.lt_of_not_ge small
    exact ⟨⟨counted, Or.inl below⟩, rfl⟩

theorem writtenFrame (s : State) (m : MemTable) : (s.written m).tree.config = s.tree.config ∧
    (s.written m).tree.levels = s.tree.levels ∧ (s.written m).held = s.held := by
  unfold written beginFlush
  dsimp only [withTree]
  split
  · split <;> exact ⟨rfl, rfl, rfl⟩
  · exact ⟨rfl, rfl, rfl⟩

theorem afterFlushWaits (s : State) (after : AfterFlush) : (s.afterFlush after).foreground.waiting = 0 := by
  cases after <;> rfl

theorem afterFlushTree (s : State) (after : AfterFlush) : (s.afterFlush after).tree = s.tree := by
  cases after <;> rfl

theorem pushSteps {s t : State} {faults : Nat → Bool} {h : SsTableHandle} {after : AfterFlush}
    (here : s.foreground = .flushWritten h after) (taken : s.step (.foreground faults) = some t) :
    t.tree.levels = (s.pushL0 h).tree.levels ∧ (t.foreground.waiting = 1 ∨
      t.foreground.waiting = 0 ∧ (t.tree.levels.getD 0 []).length ≤ s.tree.config.level0CompactionTrigger * 4) := by
  simp only [step, stepForeground, here] at taken
  split at taken
  · cases taken
    exact ⟨rfl, Or.inl rfl⟩
  · rename_i critical product
    split at taken
    · cases taken
      exact ⟨rfl, Or.inl rfl⟩
    · rename_i short
      cases taken
      rw [afterFlushTree]
      exact ⟨rfl, Or.inr ⟨afterFlushWaits _ after, Nat.le_trans (Nat.le_of_not_gt short) (fitWordLe product)⟩⟩

theorem drainSteps {s t : State} {faults : Nat → Bool} {after : AfterFlush}
    (here : s.foreground = .backPressure after) (taken : s.step (.foreground faults) = some t) :
    t.tree = s.tree ∧ (t.foreground.waiting = 1 ∨ t.foreground.waiting = 0 ∧
      (s.tree.levels.getD 0 []).length ≤ s.tree.config.level0CompactionTrigger * 2) := by
  simp only [step, stepForeground, here] at taken
  split at taken
  · cases taken
    exact ⟨rfl, Or.inl rfl⟩
  · rename_i limit product
    split at taken
    · rename_i drained
      cases taken
      exact ⟨afterFlushTree s after, Or.inr ⟨afterFlushWaits s after, Nat.le_trans drained (fitWordLe product)⟩⟩
    · cases taken

end State

theorem pushLength {levels : Levels} (some : 0 < levels.length) (h : SsTableHandle) :
    ((levels.set 0 (levels.getD 0 [] ++ [h])).getD 0 []).length = (levels.getD 0 []).length + 1 := by
  rw [getDSet, if_pos ⟨rfl, some⟩, List.length_append, List.length_singleton]

theorem Bounded.cycle {most : Nat} {s t : State} {faults : Nat → Bool} {c : Cycle} {p : Progress} (sound : Sound s)
    (shape : c.Shape s.tree.maxLevel s.tree.compactionGeneration) (moved : Cycle.Moves faults s c p t)
    (bounded : Bounded most s) : Bounded most t := by
  have frame := moved.frame
  have short := moved.l0Length sound.tree shape
  refine ⟨frame.config ▸ bounded.trigger, frame.config ▸ frame.memtable ▸ bounded.memtable, ?_, ?_⟩
  · rw [frame.foreground]
    exact Nat.le_trans short bounded.l0
  · rw [frame.held, frame.config]
    exact bounded.held

theorem State.Moves.config {s t : State} {a : Action} (moved : State.Moves s a t) : t.tree.config = s.tree.config := by
  cases moved with
  | compacting t faults c c' here moved => exact moved.frame.config
  | compacted t faults c r here moved => exact moved.frame.config
  | background t faults c c' here moved => exact moved.frame.config
  | backgroundEnd t faults c r here moved => exact moved.frame.config
  | _ => rfl

theorem Bounded.next {most : Nat} {s t : State} {a : Action} (sound : Sound s) (bounded : Bounded most s)
    (taken : s.step a = some t) : Bounded most t := by
  have whole := bounded
  obtain ⟨trigger, memtable, l0, held⟩ := bounded
  have calm : ∀ f : Foreground, s.foreground = f → f.waiting = 0 → (s.tree.levels.getD 0 []).length ≤ most := by
    intro f here quiet
    rw [here, quiet] at l0
    exact l0
  have wrote : a.isWrite = true → Bounded most t := by
    intro isWrite
    obtain ⟨idle, same | ⟨m, counted, same⟩⟩ := State.writeSteps isWrite taken memtable.counted
    · subst same
      exact ⟨trigger, memtable, calm _ idle rfl, held⟩
    · obtain ⟨fits, waiting⟩ := State.writtenFits (s := s) counted
      obtain ⟨config, levels, kept⟩ := State.writtenFrame s m
      subst same
      refine ⟨config ▸ trigger, config ▸ fits, ?_, ?_⟩
      · rw [levels, waiting]
        exact calm _ idle rfl
      · rw [kept, config]
        exact held
  have moved := State.stepMoves taken
  cases moved with
  | wrote a memtable isWrite idle data => exact wrote isWrite
  | wroteFull a memtable isWrite idle data nonempty => exact wrote isWrite
  | snapshot idle =>
    refine ⟨trigger, memtable, l0, fun snap member => ?_⟩
    rcases List.mem_append.mp member with old | new
    · exact held snap old
    · rw [List.mem_singleton.mp new]
      exact ⟨memtable, calm _ idle rfl⟩
  | refused i snap idle found future =>
    exact ⟨trigger, memtable, calm _ idle rfl, fun x member => held x (List.eraseIdx_subset member)⟩
  | rollback i snap idle found past =>
    obtain ⟨fits, short⟩ := held snap (List.mem_of_getElem? found)
    exact ⟨trigger, fits, short, fun x member => held x (List.eraseIdx_subset member)⟩
  | cloneSnapshot i snap found =>
    refine ⟨trigger, memtable, l0, fun x member => ?_⟩
    rcases List.mem_append.mp member with old | new
    · exact held x old
    · rw [List.mem_singleton.mp new]
      exact held snap (List.mem_of_getElem? found)
  | dropSnapshot i snap found => exact ⟨trigger, memtable, l0, fun x member => held x (List.eraseIdx_subset member)⟩
  | compact idle => exact ⟨trigger, memtable, calm _ idle rfl, held⟩
  | compactAllNothing idle none => exact ⟨trigger, memtable, calm _ idle rfl, held⟩
  | compactAllClone idle some => exact ⟨trigger, memtable, calm _ idle rfl, held⟩
  | saveFlush name label idle nonempty => exact ⟨trigger, MemTable.newFits _ _, calm _ idle rfl, held⟩
  | saveNoFlush name label idle empty => exact ⟨trigger, MemTable.newFits _ _, calm _ idle rfl, held⟩
  | flushNumber faults old after here => exact ⟨trigger, memtable, calm _ here rfl, held⟩
  | flushFailed faults old n after e st here failed => exact ⟨trigger, memtable, calm _ here rfl, held⟩
  | flushWrite faults old n after h st here done => exact ⟨trigger, memtable, calm _ here rfl, held⟩
  | flushPush faults h after f r here quiet ends =>
    have length : s.tree.levels.length = s.tree.maxLevel + 1 := sound.tree.length
    obtain ⟨-, waits⟩ := State.pushSteps here taken
    rw [here] at l0
    refine ⟨trigger, memtable, ?_, held⟩
    have grown := pushLength (by omega : 0 < s.tree.levels.length) h
    simp only [State.pushL0, State.withLevels, Foreground.waiting] at grown waits l0 ⊢
    omega
  | drained faults after f r here quiet ends =>
    obtain ⟨-, ends⟩ := State.drainSteps here taken
    rw [here] at l0
    refine ⟨trigger, memtable, ?_, held⟩
    simp only [Foreground.waiting] at ends l0 ⊢
    omega
  | compacting t faults c c' here moved =>
    have shape := sound.foreground
    rw [here] at shape
    obtain ⟨trigger, memtable, l0, held⟩ := whole.cycle sound shape moved
    rw [moved.frame.foreground, here] at l0
    exact ⟨trigger, memtable, l0, held⟩
  | compacted t faults c r here moved =>
    have shape := sound.foreground
    rw [here] at shape
    obtain ⟨trigger, memtable, l0, held⟩ := whole.cycle sound shape moved
    rw [moved.frame.foreground, here] at l0
    exact ⟨trigger, memtable, l0, held⟩
  | compactAllInstall faults all result here =>
    refine ⟨trigger, memtable, ?_, held⟩
    have positive := sound.positive
    simp only [State.return_, State.discard, State.withLevels]
    rw [clearedLevel _ _ _ (by omega)]
    exact Nat.zero_le _
  | background t faults c c' here moved =>
    obtain ⟨trigger, memtable, l0, held⟩ := whole.cycle sound (sound.background c here) moved
    exact ⟨trigger, memtable, l0, held⟩
  | backgroundEnd t faults c r here moved =>
    obtain ⟨trigger, memtable, l0, held⟩ := whole.cycle sound (sound.background c here) moved
    exact ⟨trigger, memtable, l0, held⟩
  | begin faults none => exact ⟨trigger, memtable, l0, held⟩
  | collect i h found => exact ⟨trigger, memtable, l0, held⟩
  | compactAllNumber faults all here => exact ⟨trigger, memtable, calm _ here rfl, held⟩
  | compactAllFailed faults all n e st here failed => exact ⟨trigger, memtable, calm _ here rfl, held⟩
  | compactAllMerge faults all n result st here done => exact ⟨trigger, memtable, calm _ here rfl, held⟩
  | saveClone faults name label here => exact ⟨trigger, memtable, calm _ here rfl, held⟩
  | saveCreate faults name label seq all r st here created => exact ⟨trigger, memtable, calm _ here rfl, held⟩

/-- In every state of a session, whatever runs beside it and whatever fails, the bytes of the
keys and values in the memtable are below its limit or there are none, and L0 is at most one
run longer than four times the trigger or than it was opened with; without the wait of the
back-pressure it is not that run longer either. -/
theorem buffersBounded {s₀ s : State} {as : List Action} (starts : Starts s₀)
    (ran : Trace.Run State.step (fun _ _ => True) s₀ as s) :
    let most := max (s₀.tree.config.level0CompactionTrigger * 4) (s₀.tree.levels.getD 0 []).length
    (s.tree.memtable.contentLength < s₀.tree.config.memtableSize ∨ s.tree.memtable.data = ∅) ∧
      (s.tree.levels.getD 0 []).length ≤ most + 1 ∧
      ((∀ after, s.foreground ≠ .backPressure after) → s.foreground ≠ .panicked →
        (s.tree.levels.getD 0 []).length ≤ most) := by
  intro most
  have opened : Bounded most s₀ := by
    refine ⟨Nat.le_max_left _ _, ?_, Nat.le_trans (Nat.le_max_right _ _) (Nat.le_add_right _ _), ?_⟩
    · cases starts with
      | opened config st rest overflowChecks => exact MemTable.newFits _ _
      | openedSnapshot name st rest t st' ok overflowChecks =>
        obtain ⟨_, _, _, _, _, _, _, rfl, _⟩ := Starts.openSnapshotSteps ok
        exact MemTable.newFits _ _
    · cases starts <;> exact fun snap member => absurd member List.not_mem_nil
  obtain ⟨-, bounded, config⟩ := ran.invariant
    (I := fun s => Sound s ∧ Bounded most s ∧ s.tree.config = s₀.tree.config) (fun s a t taken _ holds =>
      ⟨(State.stepMoves taken).sound holds.1, holds.2.1.next holds.1 taken,
        (State.stepMoves taken).config.trans holds.2.2⟩) ⟨starts.sound, opened, rfl⟩
  refine ⟨config ▸ bounded.memtable.small, ?_, fun quiet calm => ?_⟩
  · have one : s.foreground.waiting ≤ 1 := by cases s.foreground <;> simp [Foreground.waiting]
    exact Nat.le_trans bounded.l0 (Nat.add_le_add_left one most)
  · have none : s.foreground.waiting = 0 := by
      cases here : s.foreground with
      | backPressure after => exact absurd here (quiet after)
      | panicked => exact absurd here calm
      | _ => rfl
    have short := bounded.l0
    rwa [none] at short

def fiveRuns : List Action :=
  [[1], [2], [3], [4], [5]].flatMap (fun key => .insert key [10] :: ownSteps 3)

theorem buffersBoundedFive : ∃ s, Trace.Run State.step (fun _ _ => True) (.fresh ⟨1, 1⟩) fiveRuns s ∧
    (s.tree.levels.getD 0 []).length = 5 ∧
      (s.tree.levels.getD 0 []).length ≤ max (1 * 4) ((State.fresh ⟨1, 1⟩).tree.levels.getD 0 []).length + 1 := by
  have ended : (Trace.execWhile State.step (fun _ _ => true) (.fresh ⟨1, 1⟩) fiveRuns).any
      (fun s => decide ((s.tree.levels.getD 0 []).length = 5)) = true := by decide +kernel
  have allowed : ∀ s : State, ∀ a ∈ fiveRuns, (fun _ _ => true) s a = true → True := fun _ _ _ _ => trivial
  obtain ⟨s, ran, tested⟩ := Trace.runTo allowed ended
  exact ⟨s, ran, of_decide_eq_true tested, (buffersBounded (Starts.fresh ⟨1, 1⟩) ran).2.1⟩

def NoTombstones (entries : Entries) : Prop := ∀ k : Key, entries[k]? ≠ some none

def LiveBottom (maxLevel : Nat) (levels : Levels) : Prop :=
  ∀ h ∈ levels.getD maxLevel [], NoTombstones h.run.entries

theorem liveNoTombstones (m : Entries) : NoTombstones (live m) := by
  intro k held
  rw [liveGet, Option.filter_eq_some_iff] at held
  cases held.2

theorem liveBottomWriteBack {levels snap : Levels} {maxLevel : Nat} {job : LevelCompactionJob}
    {result : CompactionResult} (length : levels.length = maxLevel + 1) (selected : Selected maxLevel snap job)
    (yields : Yields (jobEntries maxLevel snap job) job.targetLevel
      (List.range (snap.getD job.sourceLevel []).length) result) (bottom : LiveBottom maxLevel levels) :
    LiveBottom maxLevel (Compactor.writeBack levels job.sourceLevel job.targetLevel maxLevel result).1 := by
  have source := selected.job.source
  obtain ⟨removes, output⟩ := yields
  intro h member
  rw [writeBackLevel length selected.job removes maxLevel] at member
  split at member
  · rename_i last
    rw [← last, decide_eq_true rfl] at member
    cases out : result.output with
    | none =>
      rw [out, Compactor.newTarget] at member
      exact bottom h member
    | some made =>
      rw [out] at member output
      simp only [Compactor.newTarget, if_true, List.mem_singleton] at member
      subst member
      -- a job of the bottom level keeps what is live only
      rw [output.1, jobEntries, ← last, decide_eq_true rfl, Compactor.mergedJob, if_pos rfl]
      exact liveNoTombstones _
  · rw [if_neg (by omega)] at member
    exact bottom h member

theorem liveBottomInstall {levels : Levels} {maxLevel : Nat} {all : List SsTableHandle} {indices : List Nat}
    {result : CompactionResult} {level : Nat} (inside : maxLevel < levels.length)
    (yields : Yields (live (Compactor.mergedSources all)) level indices result) :
    LiveBottom maxLevel (State.clearedLevels levels maxLevel result.output) := by
  have whole := State.Moves.clearedFlatten levels inside result.output
  intro h member
  have made : h ∈ result.output.toList := whole ▸ levelSubset member
  obtain ⟨-, output⟩ := yields
  rw [Option.mem_toList.mp made] at output
  rw [output.1]
  exact liveNoTombstones _

structure BottomLive (s : State) : Prop where
  tree : LiveBottom s.tree.maxLevel s.tree.levels
  held : ∀ snap ∈ s.held, LiveBottom s.tree.maxLevel snap.levels

theorem BottomLive.cycle {s t : State} {faults : Nat → Bool} {c : Cycle} {p : Progress} (sound : Sound s)
    (shape : c.Shape s.tree.maxLevel s.tree.compactionGeneration) (moved : Cycle.Moves faults s c p t)
    (bottom : BottomLive s) : BottomLive t := by
  have length : s.tree.levels.length = s.tree.maxLevel + 1 := sound.tree.length
  refine ⟨?_, moved.frame.held ▸ moved.frame.maxLevel ▸ bottom.held⟩
  cases moved with
  | writeBack g snap job runs result current =>
    obtain ⟨selected, rfl, yields⟩ := shape.2
    exact liveBottomWriteBack length selected yields bottom.tree
  | _ => exact bottom.tree

theorem BottomLive.next {s t : State} {a : Action} (sound : Sound s) (bottom : BottomLive s)
    (moved : State.Moves s a t) : BottomLive t := by
  have whole := bottom
  obtain ⟨tree, held⟩ := bottom
  have length : s.tree.levels.length = s.tree.maxLevel + 1 := sound.tree.length
  have positive := sound.positive
  have shape := sound.foreground
  cases moved with
  | snapshot idle =>
    refine ⟨tree, fun snap member => ?_⟩
    rcases List.mem_append.mp member with old | new
    · exact held snap old
    · rw [List.mem_singleton.mp new]
      exact tree
  | refused i snap idle found future => exact ⟨tree, fun x member => held x (List.eraseIdx_subset member)⟩
  | rollback i snap idle found past =>
    exact ⟨held snap (List.mem_of_getElem? found), fun x member => held x (List.eraseIdx_subset member)⟩
  | cloneSnapshot i snap found =>
    refine ⟨tree, fun x member => ?_⟩
    rcases List.mem_append.mp member with old | new
    · exact held x old
    · rw [List.mem_singleton.mp new]
      exact held snap (List.mem_of_getElem? found)
  | dropSnapshot i snap found => exact ⟨tree, fun x member => held x (List.eraseIdx_subset member)⟩
  | flushPush faults h after f r here quiet ends =>
    refine ⟨fun x member => ?_, held⟩
    simp only [State.pushL0, State.withLevels, getDSet, if_neg (show ¬ (s.tree.maxLevel = 0 ∧ 0 < s.tree.levels.length)
      by omega)] at member
    exact tree x member
  | compacting t faults c c' here moved =>
    rw [here] at shape
    obtain ⟨tree, held⟩ := whole.cycle sound shape moved
    exact ⟨tree, held⟩
  | compacted t faults c r here moved =>
    rw [here] at shape
    obtain ⟨tree, held⟩ := whole.cycle sound shape moved
    exact ⟨tree, held⟩
  | compactAllInstall faults all result here =>
    rw [here] at shape
    have inside : s.tree.maxLevel < s.tree.levels.length := by omega
    exact ⟨liveBottomInstall inside shape.2.2, held⟩
  | background t faults c c' here moved =>
    obtain ⟨tree, held⟩ := whole.cycle sound (sound.background c here) moved
    exact ⟨tree, held⟩
  | backgroundEnd t faults c r here moved =>
    obtain ⟨tree, held⟩ := whole.cycle sound (sound.background c here) moved
    exact ⟨tree, held⟩
  | _ => exact ⟨tree, held⟩

theorem bottomNeverDeletes {s₀ s : State} {as : List Action} (starts : Starts s₀)
    (opened : LiveBottom s₀.tree.maxLevel s₀.tree.levels) (ran : Trace.Run State.step (fun _ _ => True) s₀ as s) :
    LiveBottom s.tree.maxLevel s.tree.levels ∧ ∀ snap ∈ s.held, LiveBottom s.tree.maxLevel snap.levels := by
  have free : s₀.held = [] := by cases starts <;> rfl
  obtain ⟨-, bottom⟩ := ran.invariant (I := fun s => Sound s ∧ BottomLive s) (fun s a t taken _ holds =>
      ⟨(State.stepMoves taken).sound holds.1, holds.2.next holds.1 (State.stepMoves taken)⟩)
    ⟨starts.sound, opened, by simp [free]⟩
  exact ⟨bottom.tree, bottom.held⟩

def deletingScript : List Action :=
  .insert [1] [10] :: ownSteps 3 ++ .insert [2] [20] :: ownSteps 3 ++ .delete [1] :: ownSteps 3 ++
    .compactAll :: ownSteps 3

theorem bottomNeverDeletesMerged : ∃ s, Trace.Run State.step (fun _ _ => True) (.fresh ⟨1, 4⟩) deletingScript s ∧
    s.tree.levels.map List.length = [0, 0, 0, 0, 0, 0, 1] ∧ LiveBottom s.tree.maxLevel s.tree.levels := by
  have ended : (Trace.execWhile State.step (fun _ _ => true) (.fresh ⟨1, 4⟩) deletingScript).any
      (fun s => decide (s.tree.levels.map List.length = [0, 0, 0, 0, 0, 0, 1])) = true := by decide +kernel
  have allowed : ∀ s : State, ∀ a ∈ deletingScript, (fun _ _ => true) s a = true → True := fun _ _ _ _ => trivial
  obtain ⟨s, ran, tested⟩ := Trace.runTo allowed ended
  have nothing : LiveBottom (State.fresh ⟨1, 4⟩).tree.maxLevel (State.fresh ⟨1, 4⟩).tree.levels :=
    fun h member => absurd member List.not_mem_nil
  exact ⟨s, ran, of_decide_eq_true tested, (bottomNeverDeletes (Starts.fresh ⟨1, 4⟩) nothing ran).1⟩

end CardanoLsm
