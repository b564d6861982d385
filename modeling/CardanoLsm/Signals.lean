import CardanoLsm.BackPressure
import CardanoLsm.Lib.Monitor

/-! The compaction signal at its lock and condition variable (`flush_memtable`,
`background_compact_loop` and `Drop` of `lib.rs`): the loop sleeps until it is told to run or
to shut down, and a drop waits for its thread to return. -/
namespace CardanoLsm
open Std Layered

structure CompactionSignal where
  shouldRun : Bool
  shutdown : Bool

def CompactionSignal.awaited (s : CompactionSignal) : Bool := s.shouldRun || s.shutdown

inductive Owner where
  | ready
  | posting (entriesFlushed : Nat)
  | flushed
  | dropping
  | joining
  | closed
  deriving DecidableEq

inductive Work where
  | waiting
  | woken
  | weighed (creditsOk : Bool)
  | compacting
  | settling
  | ended
  deriving DecidableEq

structure Signalled where
  session : State
  owner : Owner
  work : Work
  mergeCredits : Nat
  monitor : Monitor CompactionSignal

inductive SignalledAction where
  | call (a : Action)
  | own (faults : Nat → Bool)
  | post
  | signal
  | drop
  | join
  | loop (faults : Nat → Bool)
  | wake
  | collect (i : Nat)

def SignalledAction.unlocked : SignalledAction → Option ThreadAction
  | .call a => some (.call a)
  | .own faults => some (.own faults)
  | .post => some .post
  | .signal => some .notify
  | .loop faults => some (.loop faults)
  | .collect i => some (.collect i)
  | .drop | .join | .wake => none

namespace Signalled

def l0 (w : Signalled) : List SsTableHandle := w.session.tree.levels.getD 0 []
def trigger (w : Signalled) : Nat := w.session.tree.config.level0CompactionTrigger

def stepLoop (mergeBatchSize : Nat) (faults : Nat → Bool) (w : Signalled) : Option Signalled :=
  match w.work with
  | .waiting =>
    if w.monitor.waiter = .admitted then
      if w.monitor.shared.shutdown then some { w with work := .ended, monitor := w.monitor.leave .away }
      else some { w with work := .woken, monitor := w.monitor.take (fun s => { s with shouldRun := false }) }
    else (w.monitor.await CompactionSignal.awaited).map (fun monitor => { w with monitor := monitor })
  | .woken => some { w with work := .weighed (decide (w.mergeCredits ≥ mergeBatchSize)) }
  | .weighed creditsOk =>
    if creditsOk || decide (w.l0.length ≥ w.trigger) then
      some { w with
        session := w.session.stepBackground faults
        work := .compacting
        monitor := w.monitor.leave .away }
    else some { w with work := .waiting, monitor := w.monitor.leave .locking }
  | .compacting =>
    let session := w.session.stepBackground faults
    some { w with session := session, work := if session.background.isSome then .compacting else .settling }
  | .settling =>
    some { w with
      mergeCredits := w.mergeCredits - mergeBatchSize
      work := .waiting
      monitor := w.monitor.leave .locking }
  | .ended => none

def step (mergeBatchSize : Nat) (w : Signalled) (a : SignalledAction) : Option Signalled :=
  match a with
  | .call a =>
    if w.owner = .ready ∧ a.ofThread = true then
      (w.session.step a).map (fun session => { w with session := session })
    else none
  | .own faults =>
    if w.owner = .ready then
      (w.session.step (.foreground faults)).map (fun session =>
        { w with
          session := session
          owner := match w.session.foreground with
            | .flushWritten handle _ => .posting handle.numEntries
            | _ => .ready })
    else none
  | .post =>
    match w.owner with
    | .posting entriesFlushed =>
      some { w with
        mergeCredits := w.mergeCredits + entriesFlushed
        owner := .flushed
        monitor := w.monitor.arrive }
    | _ => none
  | .signal =>
    match w.owner with
    | .flushed => (w.monitor.signal (fun s => { s with shouldRun := true })).map (fun monitor =>
        { w with owner := if monitor.signaller = .away then .ready else .flushed, monitor := monitor })
    | .dropping => (w.monitor.signal (fun s => { s with shutdown := true })).map (fun monitor =>
        { w with owner := if monitor.signaller = .away then .joining else .dropping, monitor := monitor })
    | _ => none
  | .drop =>
    if w.owner = .ready ∧ State.isIdle w.session.foreground = true then
      some { w with owner := .dropping, monitor := w.monitor.arrive }
    else none
  | .join => if w.owner = .joining ∧ w.work = .ended then some { w with owner := .closed } else none
  | .loop faults => w.stepLoop mergeBatchSize faults
  | .wake => w.monitor.wake.map (fun monitor => { w with monitor := monitor })
  | .collect i => (w.session.step (.collect i)).map (fun session => { w with session := session })

def begin (session : State) : Signalled := ⟨session, .ready, .waiting, 0, ⟨⟨false, false⟩, .locking, .away⟩⟩

end Signalled

def Work.at_ : Work → Monitor.Waiter → Bool
  | .waiting, .locking | .waiting, .testing | .waiting, .admitted | .waiting, .asleep => true
  | .woken, .inside | .weighed _, .inside => true
  | .compacting, .away | .settling, .away | .ended, .away => true
  | _, _ => false

def Owner.at_ : Owner → Monitor.Signaller → Bool
  | .flushed, .away | .dropping, .away => false
  | .flushed, _ | .dropping, _ => true
  | _, .away => true
  | _, _ => false

def Owner.signals : Owner → Bool
  | .flushed | .dropping => true
  | _ => false

def Owner.told : Owner → Monitor.Signaller → Bool
  | .dropping, .notifying | .dropping, .unlocking => true
  | .joining, _ | .closed, _ => true
  | _, _ => false

structure Guarded (w : Signalled) : Prop where
  ordered : w.monitor.Ordered CompactionSignal.awaited
  work : w.work.at_ w.monitor.waiter = true
  owner : w.owner.at_ w.monitor.signaller = true
  told : w.monitor.shared.shutdown = w.owner.told w.monitor.signaller
  cycle : w.session.background.isSome ↔ w.work = .compacting
  ended : w.work = .ended → w.monitor.shared.shutdown = true
  closed : w.owner = .closed → w.work = .ended

theorem State.Moves.sameBackground {s t : State} {a : Action} (moved : State.Moves s a t)
    (other : ∀ faults, a ≠ .background faults) : t.background = s.background := by
  cases moved with
  | compacting t faults c c' here moved => exact moved.frame.background
  | compacted t faults c r here moved => exact moved.frame.background
  | begin faults none => exact absurd rfl (other faults)
  | background t faults c c' here moved => exact absurd rfl (other faults)
  | backgroundEnd t faults c r here moved => exact absurd rfl (other faults)
  | _ => rfl

namespace Signalled
variable {mergeBatchSize : Nat} {w w' : Signalled}

theorem guardedSession {session : State} (guarded : Guarded w) (same : session.background = w.session.background) :
    Guarded { w with session := session } :=
  ⟨guarded.ordered, guarded.work, guarded.owner, guarded.told, same ▸ guarded.cycle, guarded.ended, guarded.closed⟩

theorem guardedOwn {faults : Nat → Bool} (guarded : Guarded w)
    (taken : w.step mergeBatchSize (.own faults) = some w') : Guarded w' := by
  simp only [step] at taken
  split at taken
  · rename_i here
    obtain ⟨session, stepped, rfl⟩ := Option.map_eq_some_iff.mp taken
    have same := (State.stepMoves stepped).sameBackground (fun f same => by cases same)
    have owner := guarded.owner
    have told := guarded.told
    rw [here] at owner told
    have away : w.monitor.signaller = .away := by
      cases signaller : w.monitor.signaller with
      | away => rfl
      | _ => rw [signaller] at owner; cases owner
    have quiet : w.monitor.shared.shutdown = false := told
    split
    · refine ⟨guarded.ordered, guarded.work, ?_, quiet, same ▸ guarded.cycle, guarded.ended, fun closed => ?_⟩
      · rw [away]
        rfl
      · cases closed
    · refine ⟨guarded.ordered, guarded.work, ?_, quiet, same ▸ guarded.cycle, guarded.ended, fun closed => ?_⟩
      · rw [away]
        rfl
      · cases closed
  · cases taken

theorem guardedSignal (guarded : Guarded w) (taken : w.step mergeBatchSize .signal = some w') : Guarded w' := by
  obtain ⟨ordered, work, owner, told, cycle, ended, closed⟩ := guarded
  have woken : ∀ waiter, w.work.at_ waiter = true → w.work.at_ (Monitor.notified waiter) = true := by
    intro waiter stands
    cases waiter with
    | asleep => cases here : w.work <;> rw [here] at stands <;> first | rfl | cases stands
    | _ => exact stands
  simp only [step] at taken
  split at taken
  · rename_i here
    rw [here] at owner told closed
    have open_ : w.monitor.shared.shutdown = false := told
    obtain ⟨monitor, signalled, rfl⟩ := Option.map_eq_some_iff.mp taken
    have moved := Monitor.signalMoves signalled
    have ordered' := ordered.signal moved
    cases moved with
    | lock locking free =>
      exact ⟨ordered', work, rfl, told, cycle, ended, fun same => by cases same⟩
    | change changing => exact ⟨ordered', work, rfl, told, cycle, ended, fun same => by cases same⟩
    | notify notifying =>
      exact ⟨ordered', woken _ work, rfl, told, cycle, ended, fun same => by cases same⟩
    | unlock unlocking => exact ⟨ordered', work, rfl, told, cycle, ended, fun same => by cases same⟩
  · rename_i here
    rw [here] at owner told closed
    obtain ⟨monitor, signalled, rfl⟩ := Option.map_eq_some_iff.mp taken
    have moved := Monitor.signalMoves signalled
    have ordered' := ordered.signal moved
    cases moved with
    | lock locking free =>
      rw [locking] at told
      exact ⟨ordered', work, rfl, told, cycle, ended, fun same => by cases same⟩
    | change changing => exact ⟨ordered', work, rfl, rfl, cycle, fun _ => rfl, fun same => by cases same⟩
    | notify notifying =>
      rw [notifying] at told
      exact ⟨ordered', woken _ work, rfl, told, cycle, ended, fun same => by cases same⟩
    | unlock unlocking =>
      rw [unlocking] at told
      exact ⟨ordered', work, rfl, told, cycle, ended, fun same => by cases same⟩
  · cases taken

theorem guardedLoop {faults : Nat → Bool} (guarded : Guarded w) (taken : w.stepLoop mergeBatchSize faults = some w') :
    Guarded w' := by
  obtain ⟨ordered, work, owner, told, cycle, ended, closed⟩ := guarded
  have running : ∀ {work' : Work}, w.work = work' → work' ≠ .ended → w.owner ≠ .closed := by
    intro work' here other same
    exact other (here ▸ closed same)
  have idles : w.work ≠ .compacting → ∀ work' : Work, work' ≠ .compacting →
      (w.session.background.isSome = true ↔ work' = .compacting) :=
    fun resting _ rests => iff_of_false (fun some => resting (cycle.mp some)) rests
  have leaves : ∀ next, next = Monitor.Waiter.away ∨ next = .locking →
      (w.monitor.leave next).Ordered CompactionSignal.awaited := by
    intro next outside
    rcases outside with rfl | rfl
    · exact .leave rfl (by decide)
    · exact .leave rfl (by decide)
  unfold stepLoop at taken
  split at taken
  · rename_i here
    have stays : w.owner ≠ .closed := running here (by simp)
    have resting : w.work ≠ .compacting := by simp [here]
    split at taken
    · rename_i admitted
      split at taken
      · rename_i shutdown
        cases taken
        exact ⟨leaves _ (Or.inl rfl), rfl, owner, told, idles resting .ended (by decide),
          fun _ => shutdown, fun _ => rfl⟩
      · cases taken
        have kept := ordered.take (by rw [admitted]; rfl) (fun s => { s with shouldRun := false })
        refine ⟨kept, rfl, owner, told, idles resting .woken (by decide), fun same => ?_,
          fun same => absurd same stays⟩
        cases same
    · obtain ⟨monitor, awaits, rfl⟩ := Option.map_eq_some_iff.mp taken
      have moved := Monitor.awaitMoves awaits
      have ordered' := ordered.await moved
      cases moved with
      | lock locking free => exact ⟨ordered', by rw [here]; rfl, owner, told, cycle, ended, closed⟩
      | enters testing goes => exact ⟨ordered', by rw [here]; rfl, owner, told, cycle, ended, closed⟩
      | sleep testing sleeps => exact ⟨ordered', by rw [here]; rfl, owner, told, cycle, ended, closed⟩
  · rename_i here
    have stays : w.owner ≠ .closed := running here (by simp)
    have resting : w.work ≠ .compacting := by simp [here]
    rw [here] at work
    cases taken
    refine ⟨ordered, ?_, owner, told, idles resting _ (by simp), fun same => ?_,
      fun same => absurd same stays⟩
    · cases waiter : w.monitor.waiter <;> rw [waiter] at work <;> first | rfl | cases work
    · cases same
  · rename_i creditsOk here
    have stays : w.owner ≠ .closed := running here (by simp)
    have resting : w.work ≠ .compacting := by simp [here]
    have none : w.session.background = none := by rwa [← Option.not_isSome_iff_eq_none, cycle]
    split at taken
    · have begun : w.session.stepBackground faults =
          { w.session with background := some (.loaded w.session.tree.compactionGeneration) } := by
        simp only [State.stepBackground, none]
      cases taken
      rw [begun]
      refine ⟨leaves _ (Or.inl rfl), rfl, owner, told, iff_of_true rfl rfl, fun same => ?_,
        fun same => absurd same stays⟩
      cases same
    · cases taken
      refine ⟨leaves _ (Or.inr rfl), rfl, owner, told, idles resting _ (by simp), fun same => ?_,
        fun same => absurd same stays⟩
      cases same
  · rename_i here
    have stays : w.owner ≠ .closed := running here (by simp)
    rw [here] at work
    cases taken
    by_cases more : (w.session.stepBackground faults).background.isSome = true
    · rw [if_pos more]
      refine ⟨ordered, work, owner, told, iff_of_true more rfl, fun same => ?_, fun same => absurd same stays⟩
      cases same
    · rw [if_neg more]
      refine ⟨ordered, ?_, owner, told, iff_of_false more (by simp), fun same => ?_,
        fun same => absurd same stays⟩
      · cases waiter : w.monitor.waiter <;> rw [waiter] at work <;> first | rfl | cases work
      · cases same
  · rename_i here
    have stays : w.owner ≠ .closed := running here (by simp)
    have resting : w.work ≠ .compacting := by simp [here]
    cases taken
    refine ⟨leaves _ (Or.inr rfl), rfl, owner, told, idles resting _ (by simp), fun same => ?_,
      fun same => absurd same stays⟩
    cases same
  · cases taken

theorem ownerAway {owner : Owner} {signaller : Monitor.Signaller} (stands : owner.at_ signaller = true)
    (quiet : owner.signals = false) : signaller = .away := by
  cases signaller with
  | away => rfl
  | _ => cases owner <;> first | (cases stands; done) | cases quiet

theorem guardedNext {a : SignalledAction} (guarded : Guarded w) (taken : w.step mergeBatchSize a = some w') :
    Guarded w' := by
  cases a with
  | call a =>
    simp only [step] at taken
    split at taken
    · rename_i may
      obtain ⟨session, called, rfl⟩ := Option.map_eq_some_iff.mp taken
      refine guardedSession guarded ((State.stepMoves called).sameBackground (fun f same => ?_))
      rw [same] at may
      cases may.2
    · cases taken
  | own faults => exact guardedOwn guarded taken
  | post =>
    simp only [step] at taken
    split at taken
    · rename_i entriesFlushed here
      cases taken
      have owner := guarded.owner
      have told := guarded.told
      rw [here] at owner told
      have away := ownerAway owner rfl
      exact ⟨guarded.ordered.arrive away, guarded.work, rfl, told, guarded.cycle, guarded.ended,
        fun same => by cases same⟩
    · cases taken
  | signal => exact guardedSignal guarded taken
  | drop =>
    simp only [step] at taken
    split at taken
    · rename_i may
      cases taken
      have owner := guarded.owner
      have told := guarded.told
      rw [may.1] at owner told
      have away := ownerAway owner rfl
      exact ⟨guarded.ordered.arrive away, guarded.work, rfl, told, guarded.cycle, guarded.ended,
        fun same => by cases same⟩
    · cases taken
  | join =>
    simp only [step] at taken
    split at taken
    · rename_i both
      cases taken
      have owner := guarded.owner
      have told := guarded.told
      rw [both.1] at owner told
      have away := ownerAway owner rfl
      refine ⟨guarded.ordered, guarded.work, ?_, told, guarded.cycle, guarded.ended, fun _ => both.2⟩
      rw [away]
      rfl
    · cases taken
  | loop faults => exact guardedLoop guarded taken
  | wake =>
    obtain ⟨monitor, woken, rfl⟩ := Option.map_eq_some_iff.mp taken
    have ordered : monitor.Ordered CompactionSignal.awaited := .wake woken
    obtain ⟨asleep, rfl⟩ := Monitor.wakeMoves woken
    have work := guarded.work
    rw [asleep] at work
    refine ⟨ordered, ?_, guarded.owner, guarded.told, guarded.cycle, guarded.ended, guarded.closed⟩
    cases here : w.work <;> rw [here] at work <;> first | rfl | cases work
  | collect i =>
    obtain ⟨session, collected, rfl⟩ := Option.map_eq_some_iff.mp taken
    exact guardedSession guarded ((State.stepMoves collected).sameBackground (fun f same => by cases same))

theorem guardedBegin {s : State} (idle : s.background = none) : Guarded (begin s) := by
  refine ⟨.outside rfl (by simp [begin]), rfl, rfl, rfl, ?_, fun same => ?_, fun same => ?_⟩
  · rw [begin, idle]
    exact iff_of_false (by simp) (by simp)
  · cases same
  · cases same

end Signalled

/-! The signals at the lock and the condition variable do what the guards of `Threads` say. -/

namespace Signalled

def writer (w : Signalled) : Writer :=
  match w.owner, w.monitor.signaller with
  | .posting entriesFlushed, _ => .posting entriesFlushed
  | .flushed, .locking | .flushed, .changing => .notifying
  | _, _ => .ready

def Work.loop : Work → Loop
  | .waiting | .ended => .waiting
  | .woken => .woken
  | .weighed creditsOk => .weighed creditsOk
  | .compacting => .compacting
  | .settling => .settling

def threads (w : Signalled) : Threads :=
  ⟨w.session, w.writer, Work.loop w.work, w.mergeCredits, w.monitor.shared.shouldRun⟩

def Serves (w : Signalled) (a : SignalledAction) : Prop :=
  (∀ b, a = .call b → b.mayFlush = true) ∧ ∀ faults, a = .loop faults → Drains w.threads (.loop faults)

variable {mergeBatchSize : Nat} {w w' : Signalled}

theorem Serves.drains {a : SignalledAction} {b : ThreadAction} (serves : Serves w a) (named : a.unlocked = some b) :
    Drains w.threads b := by
  have other : (∀ c, b ≠ .call c) → (∀ faults, b ≠ .loop faults) → Drains w.threads b := fun calls loops =>
    ⟨⟨fun c same => absurd same (calls c), fun faults same => absurd same (loops faults)⟩,
      fun g faults same => absurd same (loops faults)⟩
  cases a with
  | call a =>
    cases named
    refine ⟨⟨fun c same => ?_, fun faults same => (by cases same)⟩, fun g faults same => (by cases same)⟩
    exact serves.1 c (congrArg SignalledAction.call (ThreadAction.call.inj same))
  | loop faults =>
    cases named
    exact serves.2 faults rfl
  | own faults => cases named; exact other (by simp) (by simp)
  | post => cases named; exact other (by simp) (by simp)
  | signal => cases named; exact other (by simp) (by simp)
  | collect i => cases named; exact other (by simp) (by simp)
  | drop => cases named
  | join => cases named
  | wake => cases named

variable {s₀ : State} {as : List SignalledAction}

end Signalled

end CardanoLsm
