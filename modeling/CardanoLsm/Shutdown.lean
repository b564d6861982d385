import CardanoLsm.Signals

/-! Dropping the tree (`Drop` of `lib.rs`): the owner tells the background thread to shut down
and waits for it to return. -/
namespace CardanoLsm
open Std Layered

def SignalledAction.isLoop : SignalledAction → Bool
  | .loop _ => true
  | _ => false

def Signalled.remaining (w : Signalled) : Nat :=
  match w.work with
  | .woken => 10
  | .weighed _ => 9
  | .compacting => 8 - (w.session.background.map Cycle.phase).getD 0
  | .settling => 4
  | .waiting =>
    match w.monitor.waiter with
    | .admitted => 1
    | .testing => 2
    | _ => 3
  | .ended => 0

theorem Cycle.Moves.phase {faults : Nat → Bool} {s t : State} {c c' : Cycle}
    (moved : Cycle.Moves faults s c (.running c') t) : c'.phase = c.phase + 1 := by
  cases moved <;> rfl

theorem Cycle.phaseBound (c : Cycle) : c.phase ≤ 3 := by
  cases c <;> simp [Cycle.phase]

namespace Signalled
variable {mergeBatchSize : Nat} {w w' : Signalled}

theorem remainingBound (w : Signalled) : w.remaining ≤ 10 := by
  unfold remaining
  split
  · exact Nat.le_refl _
  · omega
  · omega
  · omega
  · split <;> omega
  · omega

theorem remainingLoop {faults : Nat → Bool} (guarded : Guarded w) (told : w.monitor.shared.shutdown = true)
    (taken : w.stepLoop mergeBatchSize faults = some w') :
    w'.monitor.shared.shutdown = true ∧ w'.remaining + 1 ≤ w.remaining := by
  unfold stepLoop at taken
  split at taken
  · rename_i here
    split at taken
    · rename_i admitted
      cases taken
      refine ⟨told, ?_⟩
      simp only [remaining, here, admitted]
      exact Nat.le_refl _
    · obtain ⟨monitor, awaits, rfl⟩ := Option.map_eq_some_iff.mp taken
      cases Monitor.awaitMoves awaits with
      | lock locking free =>
        refine ⟨told, ?_⟩
        simp only [remaining, here, locking]
        exact Nat.le_refl _
      | enters testing goes =>
        refine ⟨told, ?_⟩
        simp only [remaining, here, testing]
        exact Nat.le_refl _
      | sleep testing stays =>
        rw [CompactionSignal.awaited, told, Bool.or_true] at stays
        cases stays
  · rename_i here
    cases taken
    refine ⟨told, ?_⟩
    simp only [remaining, here]
    exact Nat.le_refl _
  · rename_i creditsOk here
    have none : w.session.background = none := by
      rw [← Option.not_isSome_iff_eq_none, guarded.cycle, here]
      intro same
      cases same
    split at taken
    · cases taken
      refine ⟨told, ?_⟩
      have begun : w.session.stepBackground faults =
          { w.session with background := some (.loaded w.session.tree.compactionGeneration) } := by
        simp only [State.stepBackground, none]
      simp only [remaining, here, begun, Option.map_some, Option.getD_some, Cycle.phase]
      exact Nat.le_refl _
    · cases taken
      refine ⟨told, ?_⟩
      simp only [remaining, here, Monitor.leave]
      omega
  · rename_i here
    have running := guarded.cycle.mpr here
    obtain ⟨c, found⟩ := Option.isSome_iff_exists.mp running
    have bound := c.phaseBound
    have moved := State.backgroundMoves w.session faults
    cases taken
    refine ⟨told, ?_⟩
    generalize w.session.stepBackground faults = session at moved
    cases moved with
    | wrote a memtable isWrite idle data => cases isWrite
    | wroteFull a memtable isWrite idle data nonempty => cases isWrite
    | begin faults none =>
      rw [none] at running
      cases running
    | background t faults d d' running' moved =>
      cases Option.some.inj (found.symm.trans running')
      have phase := moved.phase
      simp only [remaining, here, found, Option.isSome_some, if_true, Option.map_some, Option.getD_some]
      omega
    | backgroundEnd t faults d r running' moved =>
      simp only [remaining, here, found, Option.isSome_none, Bool.false_eq_true, if_false, Option.map_some,
        Option.getD_some]
      omega
  · rename_i here
    cases taken
    refine ⟨told, ?_⟩
    simp only [remaining, here, Monitor.leave]
    exact Nat.le_refl _
  · cases taken

theorem remainingAwake (waiter : Monitor.Waiter) (same : w.monitor.waiter = .asleep → waiter = .locking)
    (others : w.monitor.waiter ≠ .asleep → waiter = w.monitor.waiter) :
    ({ w with monitor := { w.monitor with waiter := waiter } } : Signalled).remaining = w.remaining := by
  unfold remaining
  cases here : w.monitor.waiter with
  | asleep => rw [same here]
  | _ => rw [others (by rw [here]; intro same; cases same), here]

theorem toldOwner (guarded : Guarded w) (told : w.monitor.shared.shutdown = true) : w.owner ≠ .ready ∧
    w.owner ≠ .flushed ∧ ∀ entriesFlushed, w.owner ≠ .posting entriesFlushed := by
  have owner := guarded.told.symm.trans told
  refine ⟨fun here => ?_, fun here => ?_, fun entriesFlushed here => ?_⟩
  · rw [here] at owner
    cases owner
  · rw [here] at owner
    cases owner
  · rw [here] at owner
    cases owner

theorem remainingSignal (guarded : Guarded w) (told : w.monitor.shared.shutdown = true)
    (taken : w.step mergeBatchSize .signal = some w') :
    w'.monitor.shared.shutdown = true ∧ w'.remaining = w.remaining := by
  obtain ⟨-, other, -⟩ := toldOwner guarded told
  simp only [step] at taken
  split at taken
  · rename_i here
    exact absurd here other
  · rename_i here
    obtain ⟨monitor, signalled, rfl⟩ := Option.map_eq_some_iff.mp taken
    cases Monitor.signalMoves signalled with
    | lock locking free => exact ⟨told, rfl⟩
    | change changing => exact ⟨rfl, rfl⟩
    | notify notifying =>
      refine ⟨told, ?_⟩
      refine remainingAwake (Monitor.notified w.monitor.waiter) (fun asleep => ?_) (fun awake => ?_)
      · rw [asleep]
        rfl
      · cases here : w.monitor.waiter <;> first | rfl | exact absurd here awake
    | unlock unlocking => exact ⟨told, rfl⟩
  · cases taken

theorem toldNext {a : SignalledAction} (guarded : Guarded w) (told : w.monitor.shared.shutdown = true)
    (taken : w.step mergeBatchSize a = some w') : w'.monitor.shared.shutdown = true ∧
      w'.remaining + (if a.isLoop then 1 else 0) ≤ w.remaining := by
  obtain ⟨notReady, notFlushed, notPosting⟩ := toldOwner guarded told
  cases a with
  | call a =>
    simp only [step, notReady, false_and, if_false] at taken
    cases taken
  | own faults =>
    simp only [step, notReady, if_false] at taken
    cases taken
  | post =>
    cases here : w.owner with
    | posting entriesFlushed => exact absurd here (notPosting entriesFlushed)
    | _ =>
      simp only [step, here] at taken
      cases taken
  | signal =>
    obtain ⟨still, same⟩ := remainingSignal guarded told taken
    exact ⟨still, Nat.le_of_eq same⟩
  | drop =>
    simp only [step, notReady, false_and, if_false] at taken
    cases taken
  | join =>
    simp only [step] at taken
    split at taken
    · cases taken
      exact ⟨told, Nat.le_refl _⟩
    · cases taken
  | loop faults => exact remainingLoop guarded told taken
  | wake =>
    obtain ⟨monitor, woken, rfl⟩ := Option.map_eq_some_iff.mp taken
    obtain ⟨asleep, rfl⟩ := Monitor.wakeMoves woken
    exact ⟨told, Nat.le_of_eq (remainingAwake .locking (fun _ => rfl) (fun awake => absurd asleep awake))⟩
  | collect i =>
    obtain ⟨session, collected, rfl⟩ := Option.map_eq_some_iff.mp taken
    refine ⟨told, Nat.le_of_eq ?_⟩
    have same := (State.stepMoves collected).sameBackground (fun f same => by cases same)
    simp only [remaining, same, SignalledAction.isLoop, Bool.false_eq_true, if_false, Nat.add_zero]

theorem toldLeaves {bs : List SignalledAction} (later : Trace.Run (step mergeBatchSize) (fun _ _ => True) w bs w')
    (guarded : Guarded w) (told : w.monitor.shared.shutdown = true) :
    w'.monitor.shared.shutdown = true ∧ w'.remaining + bs.countP SignalledAction.isLoop ≤ w.remaining := by
  induction later with
  | nil w => exact ⟨told, Nat.le_refl _⟩
  | @cons w m w' b rest taken _ _ ih =>
    obtain ⟨still, less⟩ := toldNext guarded told taken
    obtain ⟨ends, bound⟩ := ih (guardedNext guarded taken) still
    refine ⟨ends, ?_⟩
    rw [List.countP_cons]
    omega

theorem remainingFew (few : w.remaining ≤ 3) : w.work = .waiting ∨ w.work = .ended := by
  cases work : w.work with
  | waiting => exact Or.inl rfl
  | ended => exact Or.inr rfl
  | compacting =>
    simp only [remaining, work] at few
    cases running : w.session.background with
    | none => simp [running] at few
    | some c =>
      have bound := c.phaseBound
      simp only [running, Option.map_some, Option.getD_some] at few
      omega
  | _ =>
    simp only [remaining, work] at few
    omega

theorem toldMoves (guarded : Guarded w) (told : w.monitor.shared.shutdown = true) (faults : Nat → Bool) :
    w.owner = .closed ∨ ∃ a ∈ [SignalledAction.signal, .join, .loop faults],
      (w.step mergeBatchSize a).isSome = true := by
  have owner := guarded.told.symm.trans told
  cases here : w.owner with
  | closed => exact Or.inl rfl
  | joining =>
    right
    have stands := guarded.owner
    rw [here] at stands
    have away := ownerAway stands rfl
    cases work : w.work with
    | ended => exact ⟨.join, by simp, by simp [step, here, work]⟩
    | waiting =>
      refine ⟨.loop faults, by simp, ?_⟩
      have place := guarded.work
      have awake := guarded.ordered.awake (by rw [CompactionSignal.awaited, told, Bool.or_true]) away
      rw [work] at place
      cases waiter : w.monitor.waiter with
      | asleep => exact absurd waiter awake
      | locking => simp [step, stepLoop, work, waiter, Monitor.await, away, Monitor.Signaller.holds]
      | testing => simp [step, stepLoop, work, waiter, Monitor.await]
      | admitted => simp [step, stepLoop, work, waiter, told]
      | away => rw [waiter] at place; cases place
      | inside => rw [waiter] at place; cases place
    | woken => exact ⟨.loop faults, by simp, by simp [step, stepLoop, work]⟩
    | weighed creditsOk =>
      refine ⟨.loop faults, by simp, ?_⟩
      simp only [step, stepLoop, work]
      split <;> rfl
    | compacting => exact ⟨.loop faults, by simp, by simp [step, stepLoop, work]⟩
    | settling => exact ⟨.loop faults, by simp, by simp [step, stepLoop, work]⟩
  | dropping =>
    refine Or.inr ⟨.signal, by simp, ?_⟩
    rw [here] at owner
    cases signaller : w.monitor.signaller with
    | notifying => simp [step, here, Monitor.signal, signaller]
    | unlocking => simp [step, here, Monitor.signal, signaller]
    | _ => rw [signaller] at owner; cases owner
  | _ => rw [here] at owner; cases owner

end Signalled

/-- Dropping the tree always ends: once the shutdown has been signalled, the background thread
takes at most ten more steps, whatever fails in them, and starts no compaction that it had not
woken for; one of the two threads can always go on until `join` returns, and then the thread has
ended and no compaction is under way. -/
theorem dropEnds {s₀ : State} (idle : s₀.background = none) {mergeBatchSize : Nat} {w w' : Signalled}
    {as bs : List SignalledAction} (ran : Trace.Run (Signalled.step mergeBatchSize) (fun _ _ => True) (.begin s₀) as w)
    (told : w.monitor.shared.shutdown = true)
    (later : Trace.Run (Signalled.step mergeBatchSize) (fun _ _ => True) w bs w') :
    bs.countP SignalledAction.isLoop ≤ 10 ∧
      (∀ faults, w'.owner = .closed ∨ ∃ a ∈ [SignalledAction.signal, .join, .loop faults],
        (w'.step mergeBatchSize a).isSome = true) ∧
      (w'.owner = .closed → w'.work = .ended ∧ w'.session.background = none) ∧
      (w.work = .waiting → w'.work = .waiting ∨ w'.work = .ended) := by
  have guarded : Guarded w := ran.invariant (fun _ _ _ taken _ before => Signalled.guardedNext before taken)
    (Signalled.guardedBegin idle)
  have guarded' : Guarded w' := later.invariant (fun _ _ _ taken _ before => Signalled.guardedNext before taken) guarded
  obtain ⟨still, bound⟩ := Signalled.toldLeaves later guarded told
  have most := w.remainingBound
  refine ⟨by omega, Signalled.toldMoves guarded' still, fun closed => ⟨guarded'.closed closed, ?_⟩, fun waiting => ?_⟩
  · rw [← Option.not_isSome_iff_eq_none, guarded'.cycle, guarded'.closed closed]
    intro same
    cases same
  · have few : w.remaining ≤ 3 := by
      simp only [Signalled.remaining, waiting]
      split <;> omega
    exact Signalled.remainingFew (by omega)

def flushedAndDropped : List SignalledAction :=
  [.loop noFaults, .loop noFaults, .call (.insert [1] [10]), .own noFaults, .own noFaults, .own noFaults, .post] ++
    List.replicate 4 .signal ++ .drop :: List.replicate 3 .signal

theorem dropEndsFlushed : ∃ w w', Trace.Run (Signalled.step 100) (fun _ _ => True) (.begin (.fresh ⟨1, 1⟩))
      flushedAndDropped w ∧
    Trace.Run (Signalled.step 100) (fun _ _ => True) w (.signal :: List.replicate 3 (.loop noFaults) ++ [.join]) w' ∧
    w.l0.length = 1 ∧ w'.work = .ended ∧ w'.session.background = none := by
  have ended : (Trace.execWhile (Signalled.step 100) (fun _ _ => true) (.begin (.fresh ⟨1, 1⟩)) flushedAndDropped).any
      (fun w => (Signalled.step 100 w .signal).any (fun m =>
        (Trace.execWhile (Signalled.step 100) (fun _ _ => true) m (List.replicate 3 (.loop noFaults) ++ [.join])).any
          (fun w' => w.monitor.shared.shutdown && decide (w.l0.length = 1) && decide (w'.owner = .closed)))) = true := by
    decide +kernel
  have allowed : ∀ w : Signalled, ∀ a : SignalledAction, (fun _ _ => True : Signalled → SignalledAction → Prop) w a :=
    fun _ _ => trivial
  obtain ⟨w, m, w', ran, called, later, tested⟩ :=
    Trace.runThen (fun w a _ _ => allowed w a) (fun w a _ _ => allowed w a) ended
  simp only [Bool.and_eq_true, decide_eq_true_eq] at tested
  obtain ⟨⟨told, one⟩, closed⟩ := tested
  have after : Trace.Run (Signalled.step 100) (fun _ _ => True) w
      (.signal :: List.replicate 3 (.loop noFaults) ++ [.join]) w' := .cons called trivial later
  obtain ⟨-, -, returned, -⟩ := dropEnds rfl ran told after
  exact ⟨w, w', ran, after, one, returned closed⟩

end CardanoLsm
