import CardanoLsm.Effects
import CardanoLsm.Calls

/-! Flushes and the background loop (`flush_memtable`, `background_compact_loop`): the
writer signals every flush and waits while L0 is critically large; the loop sleeps until
it is signalled and runs at most one compaction for a signal. -/
namespace CardanoLsm
open Std Layered

inductive Writer where
  | ready
  | posting (entriesFlushed : Nat)
  | notifying
  deriving DecidableEq

inductive Loop where
  | waiting
  | woken
  | weighed (creditsOk : Bool)
  | compacting
  | settling
  deriving DecidableEq

structure Threads where
  session : State
  writer : Writer
  loop : Loop
  mergeCredits : Nat
  shouldRun : Bool

inductive ThreadAction where
  | call (a : Action)
  | own (faults : Nat → Bool)
  | post
  | notify
  | loop (faults : Nat → Bool)
  | collect (i : Nat)

def Action.ofThread : Action → Bool
  | .foreground _ | .background _ => false
  | _ => true

def Action.mayFlush : Action → Bool
  | .saveSnapshot _ _ => true
  | a => a.isWrite

namespace Threads

def l0 (w : Threads) : List SsTableHandle := w.session.tree.levels.getD 0 []
def trigger (w : Threads) : Nat := w.session.tree.config.level0CompactionTrigger

def Loop.holdsLock : Loop → Bool
  | .woken | .weighed _ => true
  | _ => false

def stepLoop (mergeBatchSize : Nat) (faults : Nat → Bool) (w : Threads) : Option Threads :=
  match w.loop with
  | .waiting =>
    if w.shouldRun then some { w with shouldRun := false, loop := .woken } else none
  | .woken => some { w with loop := .weighed (decide (w.mergeCredits ≥ mergeBatchSize)) }
  | .weighed creditsOk =>
    if creditsOk || decide (w.l0.length ≥ w.trigger) then
      some { w with session := w.session.stepBackground faults, loop := .compacting }
    else some { w with loop := .waiting }
  | .compacting =>
    let session := w.session.stepBackground faults
    some { w with session := session, loop := if session.background.isSome then .compacting else .settling }
  | .settling => some { w with mergeCredits := w.mergeCredits - mergeBatchSize, loop := .waiting }

def step (mergeBatchSize : Nat) (w : Threads) (a : ThreadAction) : Option Threads :=
  match a with
  | .call a =>
    if w.writer = .ready ∧ a.ofThread = true then
      (w.session.step a).map (fun session => { w with session := session })
    else none
  | .own faults =>
    if w.writer = .ready then
      (w.session.step (.foreground faults)).map (fun session =>
        { w with
          session := session
          writer := match w.session.foreground with
            | .flushWritten handle _ => .posting handle.numEntries
            | _ => .ready })
    else none
  | .post =>
    match w.writer with
    | .posting entriesFlushed =>
      some { w with mergeCredits := w.mergeCredits + entriesFlushed, writer := .notifying }
    | _ => none
  | .notify =>
    if w.writer = .notifying ∧ Loop.holdsLock w.loop = false then
      some { w with shouldRun := true, writer := .ready }
    else none
  | .loop faults => w.stepLoop mergeBatchSize faults
  | .collect i => (w.session.step (.collect i)).map (fun session => { w with session := session })

def begin (session : State) : Threads := ⟨session, .ready, .waiting, 0, false⟩

structure Waits (w : Threads) : Prop where
  ready : w.writer = .ready
  inside : ∃ after, w.session.foreground = .backPressure after
  critical : w.trigger * 2 < w.l0.length

structure Stuck (w : Threads) : Prop where
  waits : w.Waits
  blocked : w.loop = .waiting
  quiet : w.shouldRun = false

end Threads

def Oversized (levels : Levels) (i : Nat) : Prop :=
  ((levels.getD i []).map SsTableHandle.numEntries).sum > Compactor.levelTargetSize i 4

def L0First (levels : Levels) (maxLevel : Nat) : Prop :=
  Oversized levels 0 ∨ ∀ i, 0 < i → i < maxLevel → ¬ Oversized levels i

structure Undisturbed (_ : Threads) (a : ThreadAction) : Prop where
  writes : ∀ b, a = .call b → b.mayFlush = true
  clean : ∀ faults, a = .loop faults → faults = noFaults

/-- The loop selects a job while the writer waits and has not signalled again: this job
has to be the one of L0. -/
structure Drains (w : Threads) (a : ThreadAction) : Prop extends Undisturbed w a where
  first : ∀ g faults, a = .loop faults → w.session.background = some (.loaded g) → w.Waits → w.shouldRun = false →
    L0First w.session.tree.levels w.session.tree.maxLevel

theorem selectsL0 {levels : Levels} {maxLevel trigger : Nat} {job : LevelCompactionJob}
    (first : L0First levels maxLevel)
    (selected : Compactor.selectJob levels maxLevel trigger = some job) : job.sourceLevel = 0 := by
  unfold Compactor.selectJob at selected
  split at selected
  · rename_i picked
    cases selected
    obtain ⟨pre, i, post, split, found, before⟩ := List.findSome?_eq_some_iff.mp picked
    dsimp only at found
    split at found
    · rename_i large
      cases found
      have inside : i < maxLevel := List.mem_range.mp (split ▸ by simp)
      by_contra deep
      rcases first with zero | none
      · -- the levels are tried in order
        have listed : 0 ∈ pre ++ i :: post := split ▸ List.mem_range.mpr (by omega)
        have sorted : (pre ++ i :: post).Pairwise (· < ·) := split ▸ List.pairwise_lt_range
        have earlier : 0 ∈ pre := by
          rcases List.mem_append.mp listed with early | late
          · exact early
          · rcases List.mem_cons.mp late with here | late
            · exact absurd here.symm deep
            · exact absurd ((List.pairwise_cons.mp (List.pairwise_append.mp sorted).2.1).1 0 late)
                (Nat.not_lt_zero i)
        have passed := before 0 earlier
        dsimp only at passed
        rw [if_pos (by simpa only [Oversized] using zero)] at passed
        cases passed
      · exact none i (Nat.pos_of_ne_zero deep) inside large
    · cases found
  · dsimp only at selected
    split at selected
    · cases selected
    · cases selected
      rfl

theorem selectsDeeper {levels : Levels} {maxLevel trigger : Nat} {job : LevelCompactionJob}
    (passed : ¬ L0First levels maxLevel)
    (selected : Compactor.selectJob levels maxLevel trigger = some job) : job.sourceLevel ≠ 0 := by
  simp only [L0First, not_or, not_forall, not_not] at passed
  obtain ⟨small, i, -, inside, large⟩ := passed
  unfold Compactor.selectJob at selected
  split at selected
  · rename_i picked
    cases selected
    obtain ⟨j, member, found⟩ := List.exists_of_findSome?_eq_some picked
    dsimp only at found
    split at found
    · rename_i exceeds
      cases found
      rintro rfl
      exact small exceeds
    · cases found
  · rename_i none
    have here := List.findSome?_eq_none_iff.mp none i (List.mem_range.mpr inside)
    dsimp only at here
    rw [if_pos (by simpa only [Oversized] using large)] at here
    cases here

theorem selectsSome {levels : Levels} {maxLevel trigger : Nat} (many : trigger ≤ (levels.getD 0 []).length)
    (nonempty : levels.getD 0 [] ≠ []) : Compactor.selectJob levels maxLevel trigger ≠ none := by
  unfold Compactor.selectJob
  split
  · simp
  · have : (levels.getD 0 []).length ≠ 0 := by simpa using nonempty
    dsimp only
    rw [if_neg (by omega)]
    simp

def Cycle.TakesL0 (t : LsmTree) (c : Cycle) : Prop :=
  c.genBefore = t.compactionGeneration ∧
    match c with
    | .loaded _ => True
    | .selected _ snap job | .numbered _ snap job _ _ | .merged _ snap job _ _ =>
      job.sourceLevel = 0 ∧ snap.getD 0 [] = t.levels.getD 0 []

def Threads.Draining (w : Threads) : Prop :=
  w.shouldRun = true ∨ w.loop = .woken ∨ (∃ creditsOk, w.loop = .weighed creditsOk) ∨
    w.loop = .compacting ∧ ∃ c ∈ w.session.background, c.TakesL0 w.session.tree

structure Ticking (w : Threads) : Prop where
  sound : Sound w.session
  cycle : w.session.background.isSome ↔ w.loop = .compacting
  draining : w.Waits → w.Draining

namespace Cycle.Moves
variable {faults : Nat → Bool} {s t : State} {c c' : Cycle}

theorem takesL0 (moved : Cycle.Moves faults s c (.running c') t)
    (first : ∀ g, c = .loaded g → L0First s.tree.levels s.tree.maxLevel) (takes : c.TakesL0 s.tree) :
    c'.TakesL0 t.tree := by
  cases moved with
  | select g job selected => exact ⟨takes.1, selectsL0 (first g rfl) selected, rfl⟩
  | number g snap job => exact takes
  | merge g snap job n runs result st done => exact takes

theorem l0Length {p : Progress} (moved : Cycle.Moves faults s c p t)
    (tree : SnapshotShape s.tree.maxLevel s.tree.sequenceNumber s.tree.snapshot)
    (shape : c.Shape s.tree.maxLevel s.tree.compactionGeneration) :
    (t.tree.levels.getD 0 []).length ≤ (s.tree.levels.getD 0 []).length := by
  cases moved with
  | writeBack g snap job runs result current =>
    obtain ⟨selected, rfl, removes, -⟩ := shape.2
    have length : s.tree.levels.length = s.tree.maxLevel + 1 := tree.length
    have target := selected.job.target
    simp only [State.discard, State.withLevels]
    rw [writeBackLevel length selected.job removes 0, if_neg (by omega)]
    split
    · rename_i source
      rw [← source, List.length_drop]
      omega
    · exact Nat.le_refl _
  | _ => exact Nat.le_refl _

theorem l0Taken {r : Except Error Unit} (moved : Cycle.Moves faults s c (.ended r) t)
    (clean : ∀ j, faults j = false) {rest : Multiset SsTableHandle} {outputs : List SsTableHandle}
    {allocated : List Nat} (book : Book s c rest outputs allocated)
    (tree : SnapshotShape s.tree.maxLevel s.tree.sequenceNumber s.tree.snapshot)
    (shape : c.Shape s.tree.maxLevel s.tree.compactionGeneration) (takes : c.TakesL0 s.tree)
    (many : s.tree.config.level0CompactionTrigger ≤ (s.tree.levels.getD 0 []).length)
    (nonempty : s.tree.levels.getD 0 [] ≠ []) : t.tree.levels.getD 0 [] = [] := by
  cases moved with
  | nothing g none => exact absurd none (selectsSome many nonempty)
  | failed g snap job n runs e st failed =>
    obtain ⟨selected, rfl⟩ := shape.2
    obtain ⟨result, st', done⟩ := mergeEnds selected (clonesReadable book)
      (book.unused n (Or.inl (by simp [Cycle.allocated]))) clean
    rw [done] at failed
    cases failed
  | stale g snap job runs result changed => exact absurd takes.1.symm changed
  | writeBack g snap job runs result current =>
    obtain ⟨selected, rfl, removes, -⟩ := shape.2
    obtain ⟨-, source, whole⟩ := takes
    have length : s.tree.levels.length = s.tree.maxLevel + 1 := tree.length
    have target := selected.job.target
    simp only [State.discard, State.withLevels]
    rw [writeBackLevel length selected.job removes 0, if_neg (by omega), if_pos source.symm, source, whole,
      List.drop_length]

end Cycle.Moves

namespace Threads
variable {mergeBatchSize : Nat} {w w' : Threads}

theorem Waits.some (waits : w.Waits) : w.l0 ≠ [] := by
  intro none
  have critical := waits.critical
  rw [none, List.length_nil] at critical
  omega

theorem Waits.many (waits : w.Waits) : w.trigger ≤ w.l0.length := by
  have critical := waits.critical
  omega

theorem entersAfterPush {s t : State} {faults : Nat → Bool} {after : AfterFlush}
    (taken : s.stepForeground faults = some t) (inside : t.foreground = .backPressure after) :
    ∃ h after', s.foreground = .flushWritten h after' := by
  have passes : ∀ (s : State) next, (s.afterFlush next).foreground ≠ .backPressure after := by
    intro s next
    cases next <;> simp [State.afterFlush, State.return_, State.at_]
  unfold State.stepForeground at taken
  split at taken
  · cases taken
  · cases taken
    simp [State.at_] at inside
  · split at taken
    · cases taken
      simp [State.return_] at inside
    · cases taken
      simp [State.at_] at inside
  · rename_i h after' here
    exact ⟨h, after', here⟩
  · split at taken
    · cases taken
      simp [State.at_] at inside
    · split at taken
      · cases taken
        exact absurd inside (passes _ _)
      · cases taken
  · cases taken
  · split at taken
    · cases taken
      simp [State.at_] at inside
    · cases taken
      simp [State.return_] at inside
  · cases taken
    simp [State.at_] at inside
  · split at taken
    · cases taken
      simp [State.return_] at inside
    · cases taken
      simp [State.at_] at inside
  · cases taken
    simp [State.return_] at inside
  · cases taken
    simp [State.at_] at inside
  · cases taken
    simp [State.return_] at inside

theorem callOutside {s t : State} {a : Action} (flushes : a.mayFlush = true) (taken : s.step a = some t)
    (after : AfterFlush) : t.foreground ≠ .backPressure after := by
  cases State.stepMoves taken with
  | wrote a memtable isWrite idle data => simp [State.return_]
  | wroteFull a memtable isWrite idle data nonempty => simp [State.at_]
  | saveFlush name label idle nonempty => simp [State.at_]
  | saveNoFlush name label idle empty => simp [State.at_]
  | _ => cases flushes

theorem tickingCollected {i : Nat} (ticking : Ticking w)
    (taken : w.step mergeBatchSize (.collect i) = some w') : Ticking w' := by
  obtain ⟨session, collected, rfl⟩ := Option.map_eq_some_iff.mp taken
  have sound := (State.stepMoves collected).sound ticking.sound
  obtain ⟨h, found, rfl⟩ := Option.map_eq_some_iff.mp collected
  exact ⟨sound, ticking.cycle, fun waits => ticking.draining ⟨waits.ready, waits.inside, waits.critical⟩⟩

theorem tickingCalled {a : Action} (ticking : Ticking w) (flushes : a.mayFlush = true)
    (taken : w.step mergeBatchSize (.call a) = some w') : Ticking w' := by
  simp only [step] at taken
  split at taken
  · obtain ⟨session, called, rfl⟩ := Option.map_eq_some_iff.mp taken
    have moved := State.stepMoves called
    have background : session.background = w.session.background := by
      cases moved with
      | wrote a memtable isWrite idle data => rfl
      | wroteFull a memtable isWrite idle data nonempty => rfl
      | saveFlush name label idle nonempty => rfl
      | saveNoFlush name label idle empty => rfl
      | _ => cases flushes
    refine ⟨moved.sound ticking.sound, by simpa only [background] using ticking.cycle, fun waits => ?_⟩
    obtain ⟨after, inside⟩ := waits.inside
    exact absurd inside (callOutside flushes called after)
  · cases taken

theorem ownBackground {s t : State} {faults : Nat → Bool} (moved : State.Moves s (.foreground faults) t) :
    t.background = s.background := by
  cases moved with
  | wrote a memtable isWrite idle data => cases isWrite
  | wroteFull a memtable isWrite idle data nonempty => cases isWrite
  | compacting t faults c c' here moved => exact moved.frame.background
  | compacted t faults c r here moved => exact moved.frame.background
  | _ => rfl

theorem tickingOwn {faults : Nat → Bool} (ticking : Ticking w)
    (taken : w.step mergeBatchSize (.own faults) = some w') : Ticking w' := by
  simp only [step] at taken
  split at taken
  · obtain ⟨session, stepped, rfl⟩ := Option.map_eq_some_iff.mp taken
    have moved := State.stepMoves stepped
    refine ⟨moved.sound ticking.sound, ?_, fun waits => ?_⟩
    · simpa only [ownBackground moved] using ticking.cycle
    · obtain ⟨after, inside⟩ := waits.inside
      obtain ⟨h, after', here⟩ := entersAfterPush stepped inside
      have ready := waits.ready
      simp [here] at ready
  · cases taken

theorem tickingCycles (ticking : Ticking w) (drains : Drains w (.loop noFaults)) (here : w.loop = .compacting) :
    Ticking { w with
      session := w.session.stepBackground noFaults
      loop := if (w.session.stepBackground noFaults).background.isSome then .compacting
        else .settling } := by
  obtain ⟨sound, cycle, draining⟩ := ticking
  have moved := State.backgroundMoves w.session noFaults
  have sound' := moved.sound sound
  -- what is known of the cycle while the writer waits and no other signal is pending
  have taking : w.Waits → w.shouldRun = true ∨ ∀ c ∈ w.session.background, c.TakesL0 w.session.tree ∧
      ∀ g, c = .loaded g → L0First w.session.tree.levels w.session.tree.maxLevel := by
    intro waits
    by_cases signal : w.shouldRun = true
    · exact Or.inl signal
    · refine Or.inr (fun c running => ?_)
      rcases draining waits with pending | woken | ⟨_, weighed⟩ | ⟨-, d, running', takes⟩
      · exact absurd pending signal
      · simp [here] at woken
      · simp [here] at weighed
      · cases Option.some.inj (running.symm.trans running')
        refine ⟨takes, fun g same => drains.first g noFaults rfl (same ▸ running) waits ?_⟩
        simpa using signal
  generalize stepped : w.session.stepBackground noFaults = session at moved sound' ⊢
  cases moved with
  | wrote a memtable isWrite idle data => cases isWrite
  | wroteFull a memtable isWrite idle data nonempty => cases isWrite
  | begin faults none =>
    have running := cycle.mpr here
    simp [none] at running
  | background t faults c c' running moved =>
    have frame := moved.frame
    have levels : t.tree.levels = w.session.tree.levels := moved.levels (fun g snap job runs result same => by
      subst same
      cases moved)
    refine ⟨sound', by simp, fun waits => ?_⟩
    have before : w.Waits := by
      obtain ⟨ready, inside, critical⟩ := waits
      simp only [trigger, l0, frame.foreground, frame.config, levels] at inside critical
      exact ⟨ready, inside, critical⟩
    rcases taking before with signal | takes
    · exact Or.inl signal
    · obtain ⟨takes, first⟩ := takes c running
      exact Or.inr (Or.inr (Or.inr ⟨by simp, c', rfl, moved.takesL0 first takes⟩))
  | backgroundEnd t faults c r running moved =>
    have frame := moved.frame
    have shape := sound.background c running
    refine ⟨sound', by simp, fun waits => ?_⟩
    have after := waits.some
    have shrinks := moved.l0Length sound.tree shape
    have before : w.Waits := by
      obtain ⟨ready, inside, critical⟩ := waits
      simp only [trigger, l0, frame.foreground, frame.config] at inside critical
      exact ⟨ready, inside, Nat.lt_of_lt_of_le critical shrinks⟩
    rcases taking before with signal | takes
    · exact Or.inl signal
    · exact absurd (moved.l0Taken (fun _ => rfl) (State.Moves.bookBackground sound running) sound.tree shape
        (takes c running).1 before.many before.some) after

theorem tickingLoops (ticking : Ticking w) (drains : Drains w (.loop noFaults))
    (taken : w.stepLoop mergeBatchSize noFaults = some w') : Ticking w' := by
  obtain ⟨sound, cycle, draining⟩ := ticking
  unfold stepLoop at taken
  split at taken
  · rename_i here
    split at taken
    · cases taken
      refine ⟨sound, by simpa [here] using cycle, fun _ => Or.inr (Or.inl rfl)⟩
    · cases taken
  · rename_i here
    cases taken
    exact ⟨sound, by simpa [here] using cycle, fun _ => Or.inr (Or.inr (Or.inl ⟨_, rfl⟩))⟩
  · rename_i creditsOk here
    have none : w.session.background = none := by
      rw [← Option.not_isSome_iff_eq_none, cycle, here]
      simp
    split at taken
    · have moved := State.backgroundMoves w.session noFaults
      have begun : w.session.stepBackground noFaults =
          { w.session with background := some (.loaded w.session.tree.compactionGeneration) } := by
        simp only [State.stepBackground, none]
      cases taken
      rw [begun] at moved ⊢
      refine ⟨moved.sound sound, by simp, fun _ => Or.inr (Or.inr (Or.inr ⟨rfl, _, rfl, rfl, trivial⟩))⟩
    · rename_i few
      cases taken
      refine ⟨sound, by simpa [here] using cycle, fun waits => absurd ?_ few⟩
      rw [Bool.or_eq_true, decide_eq_true_eq]
      exact Or.inr waits.many
  · rename_i here
    cases taken
    exact tickingCycles ⟨sound, cycle, draining⟩ drains here
  · rename_i here
    cases taken
    refine ⟨sound, by simpa [here] using cycle, fun waits => ?_⟩
    rcases draining ⟨waits.ready, waits.inside, waits.critical⟩ with signal | woken | ⟨_, weighed⟩ | ⟨running, -⟩
    · exact Or.inl signal
    · simp [here] at woken
    · simp [here] at weighed
    · simp [here] at running

theorem tickingNext {a : ThreadAction} (ticking : Ticking w) (drains : Drains w a)
    (taken : w.step mergeBatchSize a = some w') : Ticking w' := by
  cases a with
  | call a => exact tickingCalled ticking (drains.writes a rfl) taken
  | own faults => exact tickingOwn ticking taken
  | post =>
    simp only [step] at taken
    split at taken
    · cases taken
      exact ⟨ticking.sound, ticking.cycle, fun waits => by cases waits.ready⟩
    · cases taken
  | notify =>
    simp only [step] at taken
    split at taken
    · cases taken
      exact ⟨ticking.sound, ticking.cycle, fun _ => Or.inl rfl⟩
    · cases taken
  | loop faults =>
    obtain rfl := drains.clean faults rfl
    exact tickingLoops ticking drains taken
  | collect i => exact tickingCollected ticking taken

theorem notStuck (ticking : Ticking w) : ¬ w.Stuck := by
  intro stuck
  have blocked := stuck.blocked
  rcases ticking.draining stuck.waits with signal | woken | ⟨_, weighed⟩ | ⟨running, -⟩
  · simp [stuck.quiet] at signal
  · simp [blocked] at woken
  · simp [blocked] at weighed
  · simp [blocked] at running

end Threads

def Cycle.phase : Cycle → Nat
  | .loaded _ => 0
  | .selected _ _ _ => 1
  | .numbered _ _ _ _ _ => 2
  | .merged _ _ _ _ _ => 3

structure PassesBy (w : Threads) (c : Cycle) : Prop where
  sound : Sound w.session
  here : w.loop = .compacting
  running : w.session.background = some c
  waits : w.Waits
  quiet : w.shouldRun = false
  deeper : match c with
    | .loaded _ => ¬ L0First w.session.tree.levels w.session.tree.maxLevel
    | .selected _ _ job | .numbered _ _ job _ _ | .merged _ _ job _ _ => job.sourceLevel ≠ 0

namespace PassesBy
variable {w : Threads} {c : Cycle}

theorem levels0 {faults : Nat → Bool} {s t : State} {p : Progress} (moved : Cycle.Moves faults s c p t)
    (tree : SnapshotShape s.tree.maxLevel s.tree.sequenceNumber s.tree.snapshot)
    (shape : c.Shape s.tree.maxLevel s.tree.compactionGeneration)
    (deeper : ∀ g snap job runs result, c = .merged g snap job runs result → job.sourceLevel ≠ 0) :
    t.tree.levels.getD 0 [] = s.tree.levels.getD 0 [] := by
  cases moved with
  | writeBack g snap job runs result current =>
    obtain ⟨selected, rfl, removes, -⟩ := shape.2
    have length : s.tree.levels.length = s.tree.maxLevel + 1 := tree.length
    have target := selected.job.target
    have source := deeper g snap job _ result rfl
    simp only [State.discard, State.withLevels]
    rw [writeBackLevel length selected.job removes 0, if_neg (by omega), if_neg (by omega)]
  | _ => rfl

theorem next (passes : PassesBy w c) (mergeBatchSize : Nat) : ∃ w', w.step mergeBatchSize (.loop noFaults) = some w' ∧
    w'.Waits ∧ w'.shouldRun = false ∧
      ((∃ c', PassesBy w' c' ∧ c'.phase = c.phase + 1) ∨ c.phase = 3 ∧ w'.loop = .settling) := by
  obtain ⟨sound, here, running, waits, quiet, deeper⟩ := passes
  have shape := sound.background c running
  have book := State.Moves.bookBackground sound running
  have moved := State.backgroundMoves w.session noFaults
  have sound' := moved.sound sound
  have stepped : w.step mergeBatchSize (.loop noFaults) = some { w with
      session := w.session.stepBackground noFaults
      loop := if (w.session.stepBackground noFaults).background.isSome then .compacting
        else .settling } := by
    simp only [Threads.step, Threads.stepLoop, here]
  have source : ∀ g snap job runs result, c = .merged g snap job runs result → job.sourceLevel ≠ 0 := by
    rintro g snap job runs result rfl
    exact deeper
  refine ⟨_, stepped, ?_⟩
  have kept : ∀ {p t}, Cycle.Moves noFaults w.session c p t → ∀ background loop,
      ({ w with
        session := { t with background := background }
        loop := loop } : Threads).Waits := by
    intro p t moved background loop
    have frame := moved.frame
    have level := levels0 moved sound.tree shape source
    obtain ⟨ready, inside, critical⟩ := waits
    refine ⟨ready, by simpa only [frame.foreground] using inside, ?_⟩
    simpa only [Threads.trigger, Threads.l0, frame.config, level] using critical
  generalize w.session.stepBackground noFaults = session at moved sound' ⊢
  cases moved with
  | wrote a memtable isWrite idle data => cases isWrite
  | wroteFull a memtable isWrite idle data nonempty => cases isWrite
  | begin faults none => simp [none] at running
  | background t faults d d' running' moved =>
    cases Option.some.inj (running.symm.trans running')
    refine ⟨kept moved _ _, quiet, Or.inl ⟨d', ⟨sound', by simp, rfl, kept moved _ _, quiet, ?_⟩, ?_⟩⟩
    · cases moved with
      | select g job selected => exact selectsDeeper deeper selected
      | number g snap job => exact deeper
      | merge g snap job n runs result st done => exact deeper
    · cases moved <;> rfl
  | backgroundEnd t faults d r running' moved =>
    cases Option.some.inj (running.symm.trans running')
    refine ⟨kept moved _ _, quiet, Or.inr ⟨?_, by simp⟩⟩
    cases moved with
    | nothing g none => exact absurd none (selectsSome waits.many waits.some)
    | failed g snap job n runs e st failed =>
      obtain ⟨selected, rfl⟩ := shape.2
      obtain ⟨result, st', done⟩ := Cycle.Moves.mergeEnds selected (Cycle.Moves.clonesReadable book)
        (book.unused n (Or.inl (by simp [Cycle.allocated]))) (show ∀ j, noFaults j = false from fun _ => rfl)
      rw [done] at failed
      cases failed
    | stale g snap job runs result changed => rfl
    | writeBack g snap job runs result current => rfl

theorem stuck (passes : PassesBy w c) (mergeBatchSize : Nat) : ∃ as w',
    Trace.Run (Threads.step mergeBatchSize) (fun _ a => a = .loop noFaults) w as w' ∧ w'.Stuck := by
  generalize left : 3 - c.phase = n
  induction n generalizing w c with
  | zero =>
    obtain ⟨m, taken, waits, quiet, ⟨c', passes', phase⟩ | ⟨-, settling⟩⟩ := passes.next mergeBatchSize
    · have small : c'.phase ≤ 3 := by cases c' <;> simp [Cycle.phase]
      omega
    · have settled : m.step mergeBatchSize (.loop noFaults) = some { m with
          mergeCredits := m.mergeCredits - mergeBatchSize
          loop := .waiting } := by
        simp only [Threads.step, Threads.stepLoop, settling]
      exact ⟨[.loop noFaults, .loop noFaults], _, .cons taken rfl (.single settled rfl),
        ⟨waits.ready, waits.inside, waits.critical⟩, rfl, quiet⟩
  | succ n ih =>
    obtain ⟨m, taken, -, -, ⟨c', passes', phase⟩ | ⟨last, -⟩⟩ := passes.next mergeBatchSize
    · obtain ⟨as, w', ran, stuck⟩ := ih passes' (by omega)
      exact ⟨.loop noFaults :: as, w', .cons taken rfl ran, stuck⟩
    · omega

end PassesBy

theorem Starts.ticking {s : State} (starts : Starts s) : Ticking (.begin s) := by
  refine ⟨starts.sound, ?_, fun waits => ?_⟩
  · cases starts <;> simp [Threads.begin, State.begin]
  · obtain ⟨after, inside⟩ := waits.inside
    cases starts <;> simp [Threads.begin, State.begin] at inside

/-- The back-pressure wait is not stuck in any state of a run in which the loop never selects
a deeper level's job while the writer waits and no further signal is pending. -/
theorem backPressureEnds {s₀ : State} (starts : Starts s₀) {mergeBatchSize : Nat} {w : Threads}
    {as : List ThreadAction} (ran : Trace.Run (Threads.step mergeBatchSize) Drains (.begin s₀) as w) :
    ¬ w.Stuck :=
  Threads.notStuck (ran.invariant (fun _ _ _ taken drains ticking => Threads.tickingNext ticking drains taken)
    starts.ticking)

instance (levels : Levels) (i : Nat) : Decidable (Oversized levels i) :=
  inferInstanceAs (Decidable (_ > _))

instance (levels : Levels) (maxLevel : Nat) : Decidable (L0First levels maxLevel) :=
  decidable_of_iff (Oversized levels 0 ∨ ∀ i ∈ List.range maxLevel, 0 < i → ¬ Oversized levels i) <| by
    simp only [L0First, List.mem_range]
    exact or_congr_right ⟨fun h i low inside => h i inside low, fun h i inside low => h i low inside⟩

def isBackPressure : Foreground → Bool
  | .backPressure _ => true
  | _ => false

def waitsNow (w : Threads) : Bool :=
  decide (w.writer = .ready) && isBackPressure w.session.foreground && decide (w.trigger * 2 < w.l0.length)

theorem waitsOf {w : Threads} (now : waitsNow w = true) : w.Waits := by
  simp only [waitsNow, Bool.and_eq_true, decide_eq_true_eq] at now
  obtain ⟨⟨ready, inside⟩, critical⟩ := now
  refine ⟨ready, ?_, critical⟩
  cases here : w.session.foreground with
  | backPressure after => exact ⟨after, rfl⟩
  | _ =>
    rw [here] at inside
    cases inside

def fiveFlushes : List ThreadAction :=
  [[1], [2], [3], [4], [5]].flatMap (fun key =>
    [.call (.insert key [10]), .own noFaults, .own noFaults, .own noFaults, .post, .notify])

theorem fiveUndisturbed {n : Nat} (w : Threads) : ∀ a ∈ fiveFlushes ++ List.replicate n (.loop noFaults),
    Undisturbed w a := by
  intro a member
  simp only [fiveFlushes, List.mem_append, List.mem_flatMap, List.mem_cons, List.mem_replicate, List.not_mem_nil,
    or_false] at member
  rcases member with ⟨key, -, rfl | rfl | rfl | rfl | rfl | rfl⟩ | ⟨-, rfl⟩ <;>
    exact ⟨fun b same => by cases same <;> rfl, fun faults same => by cases same <;> rfl⟩

theorem backPressureEndsOnce : ∃ w, Trace.Run (Threads.step 100) Drains (.begin (.fresh ⟨1, 1⟩))
    (fiveFlushes ++ List.replicate 4 (.loop noFaults)) w ∧ w.Waits ∧ w.shouldRun = false ∧ ¬ w.Stuck := by
  have ended : (Trace.execWhile (Threads.step 100)
      (fun w _ => decide (L0First w.session.tree.levels w.session.tree.maxLevel)) (.begin (.fresh ⟨1, 1⟩))
      (fiveFlushes ++ List.replicate 4 (.loop noFaults))).any (fun w => waitsNow w && !w.shouldRun) = true := by
    decide +kernel
  have allowed : ∀ w : Threads, ∀ a ∈ fiveFlushes ++ List.replicate 4 (.loop noFaults),
      (fun w _ => decide (L0First w.session.tree.levels w.session.tree.maxLevel) :
        Threads → ThreadAction → Bool) w a = true → Drains w a :=
    fun w a member first => ⟨fiveUndisturbed w a member, fun g faults _ _ _ _ => of_decide_eq_true first⟩
  obtain ⟨w, ran, tested⟩ := Trace.runTo allowed ended
  obtain ⟨waits, quiet⟩ := Bool.and_eq_true_iff.mp tested
  exact ⟨w, ran, waitsOf waits, by simpa using quiet, backPressureEnds (Starts.fresh ⟨1, 1⟩) ran⟩

def largeEntries : List (Key × Entry) := (List.range 40001).map (fun i => (List.replicate i 0, some [10]))

theorem largeSize : (insertAll ∅ largeEntries : Entries).size = 40001 := by
  have distinct : largeEntries.Pairwise (fun a b => a.1 ≠ b.1) := by
    rw [largeEntries, List.pairwise_map]
    refine List.nodup_range.imp (fun {i j} different same => different ?_)
    simpa using congrArg List.length same
  rw [insertAllSize distinct (fun e _ => by simp), largeEntries, List.length_map, List.length_range,
    ExtTreeMap.size_empty]

def largeRun : Run := ⟨insertAll ∅ largeEntries, fun none => by
  have size := largeSize
  rw [none, ExtTreeMap.size_empty] at size
  cases size⟩

def largeStorage : Storage :=
  { Storage.empty with
    snapshots := [("a", ⟨[(1, some largeRun)],
      some ⟨1, "b", ⟨1, 1⟩, [⟨1, largeRun.minKey, largeRun.maxKey, largeRun.numEntries, 1⟩], 0⟩⟩)] }

def largeHandle : SsTableHandle := ⟨.active, 1, largeRun, 1, 0⟩

def largeOpened : LsmTree × Storage :=
  (LsmTree.start ⟨1, 1⟩ 0 1 [largeHandle],
    { largeStorage with
      active := [(1, some largeRun)]
      refcounts := Function.update (fun _ => 0) 0 1
      nextRefcount := 1 })

theorem largeOpens : LsmTree.openSnapshot "a" largeStorage = (.ok largeOpened.1, largeOpened.2) := by
  rfl

theorem largeStarts : Starts (.begin largeOpened) :=
  .openedSnapshot "a" largeStorage ⟨fun _ => rfl, List.nodup_nil⟩ _ _ largeOpens false

def BelowL0 (level : List SsTableHandle) (w : Threads) : Prop :=
  w.session.tree.levels.getD 1 [] = level ∧ w.session.tree.maxLevel = 6 ∧ w.session.foreground.plain = true

theorem belowL0 {mergeBatchSize : Nat} {level : List SsTableHandle} {w w' : Threads} {a : ThreadAction}
    (ticking : Ticking w) (taken : w.step mergeBatchSize a = some w') (only : Undisturbed w a)
    (outside : ∀ faults, a = .loop faults → w.loop ≠ .compacting) (below : BelowL0 level w) : BelowL0 level w' := by
  obtain ⟨same, depth, plain⟩ := below
  cases a with
  | call a =>
    simp only [Threads.step] at taken
    split at taken
    · have may := only.writes a rfl
      obtain ⟨session, called, rfl⟩ := Option.map_eq_some_iff.mp taken
      cases State.stepMoves called with
      | wrote a memtable isWrite idle data => exact ⟨same, depth, rfl⟩
      | wroteFull a memtable isWrite idle data nonempty => exact ⟨same, depth, rfl⟩
      | saveFlush name label idle nonempty => exact ⟨same, depth, rfl⟩
      | saveNoFlush name label idle empty => exact ⟨same, depth, rfl⟩
      | _ => cases may
    · cases taken
  | own faults =>
    simp only [Threads.step] at taken
    split at taken
    · obtain ⟨session, stepped, rfl⟩ := Option.map_eq_some_iff.mp taken
      have moved := State.stepMoves stepped
      cases moved with
      | wrote a memtable isWrite idle data => cases isWrite
      | wroteFull a memtable isWrite idle data nonempty => cases isWrite
      | flushPush faults h after f r here quiet ends =>
        refine ⟨?_, depth, by cases quiet <;> rfl⟩
        simpa only [State.pushL0, State.withLevels, getDSet, Nat.one_ne_zero, false_and, if_false] using same
      | drained faults after f r here quiet ends => exact ⟨same, depth, by cases quiet <;> rfl⟩
      | compacting t faults c c' here moved => simp [here, Foreground.plain] at plain
      | compacted t faults c r here moved => simp [here, Foreground.plain] at plain
      | compactAllNumber faults all here => simp [here, Foreground.plain] at plain
      | compactAllFailed faults all n e st here failed => simp [here, Foreground.plain] at plain
      | compactAllMerge faults all n result st here done => simp [here, Foreground.plain] at plain
      | compactAllInstall faults all result here => simp [here, Foreground.plain] at plain
      | _ => exact ⟨same, depth, rfl⟩
    · cases taken
  | post =>
    simp only [Threads.step] at taken
    split at taken
    · cases taken
      exact ⟨same, depth, plain⟩
    · cases taken
  | notify =>
    simp only [Threads.step] at taken
    split at taken
    · cases taken
      exact ⟨same, depth, plain⟩
    · cases taken
  | loop faults =>
    have none : w.session.background = none := by
      rw [← Option.not_isSome_iff_eq_none, ticking.cycle]
      exact outside faults rfl
    simp only [Threads.step, Threads.stepLoop] at taken
    split at taken
    · split at taken
      · cases taken
        exact ⟨same, depth, plain⟩
      · cases taken
    · cases taken
      exact ⟨same, depth, plain⟩
    · split at taken
      · cases taken
        simp only [BelowL0, State.stepBackground, none]
        exact ⟨same, depth, plain⟩
      · cases taken
        exact ⟨same, depth, plain⟩
    · rename_i here
      exact absurd here (outside faults rfl)
    · cases taken
      exact ⟨same, depth, plain⟩
  | collect i =>
    obtain ⟨session, collected, rfl⟩ := Option.map_eq_some_iff.mp taken
    obtain ⟨h, found, rfl⟩ := Option.map_eq_some_iff.mp collected
    exact ⟨same, depth, plain⟩

def outsideCycle (w : Threads) : ThreadAction → Bool
  | .loop _ => decide (w.loop ≠ .compacting)
  | _ => true

def aboutToSelect (w : Threads) : Bool :=
  decide (w.loop = .compacting) && match w.session.background with
    | some (.loaded _) => true
    | _ => false

theorem backPressureStuck : ∃ as w,
    Trace.Run (Threads.step 100) Undisturbed (.begin (.begin largeOpened)) as w ∧ w.Stuck := by
  have ended : (Trace.execWhile (Threads.step 100) outsideCycle (.begin (.begin largeOpened))
      (fiveFlushes ++ List.replicate 3 (.loop noFaults))).any (fun w => waitsNow w && !w.shouldRun && aboutToSelect w &&
        decide (¬ Oversized w.session.tree.levels 0)) = true := by decide +kernel
  have allowed : ∀ w : Threads, ∀ a ∈ fiveFlushes ++ List.replicate 3 (.loop noFaults), outsideCycle w a = true →
      Undisturbed w a ∧ ∀ faults, a = .loop faults → w.loop ≠ .compacting := by
    rintro w a member checked
    refine ⟨fiveUndisturbed w a member, ?_⟩
    rintro faults rfl
    exact of_decide_eq_true checked
  obtain ⟨w, ran, tested⟩ := Trace.runTo allowed ended
  simp only [Bool.and_eq_true, Bool.not_eq_true', decide_eq_true_eq] at tested
  obtain ⟨⟨⟨waits, quiet⟩, selects⟩, small⟩ := tested
  obtain ⟨ticking, below, depth, -⟩ : Ticking w ∧ BelowL0 [largeHandle] w := by
    refine ran.invariant (I := fun w => Ticking w ∧ BelowL0 [largeHandle] w)
      (fun w a w' taken outside holds => ⟨?_, belowL0 holds.1 taken outside.1 outside.2 holds.2⟩)
      ⟨largeStarts.ticking, rfl, rfl, rfl⟩
    refine Threads.tickingNext holds.1 ⟨outside.1, fun g faults loops running _ _ => ?_⟩ taken
    exact absurd (holds.1.cycle.mp (by rw [running]; rfl)) (outside.2 faults loops)
  have passed : ¬ L0First w.session.tree.levels w.session.tree.maxLevel := by
    rintro (zero | none)
    · exact small zero
    · refine none 1 Nat.one_pos (by omega) ?_
      rw [Oversized, below]
      simp only [List.map_cons, List.map_nil, List.sum_cons, List.sum_nil, largeHandle,
        SsTableHandle.numEntries, Run.numEntries, largeRun, largeSize]
      decide
  obtain ⟨here, loaded⟩ := Bool.and_eq_true_iff.mp selects
  cases running : w.session.background with
  | none =>
    rw [running] at loaded
    cases loaded
  | some c =>
    cases c with
    | loaded g =>
      obtain ⟨bs, w', later, stuck⟩ := PassesBy.stuck
        ⟨ticking.sound, of_decide_eq_true here, running, waitsOf waits, quiet, passed⟩ 100
      have alone : Trace.Run (Threads.step 100) Undisturbed w bs w' := by
        refine later.weaken ?_
        rintro u a rfl
        constructor
        · intro b same
          cases same
        · intro faults same
          exact (ThreadAction.loop.inj same).symm
      exact ⟨_, w', (ran.weaken (fun _ _ outside => outside.1)).append alone, stuck⟩
    | _ =>
      rw [running] at loaded
      cases loaded

end CardanoLsm
