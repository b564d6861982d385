import CardanoLsm.Refinement

/-! Compaction beside the other calls: what range reads when cycles, flushes, rollbacks
and `compact_all` interleave. -/
namespace CardanoLsm
open Std Layered

def Cycle.job : Cycle → Option LevelCompactionJob
  | .loaded _ => none
  | .selected _ _ job | .numbered _ _ job _ _ | .merged _ _ job _ _ => some job

structure Restricted (s : State) (a : Action) : Prop where
  clean : a.Clean
  keys : ∀ w ∈ a.writes, Scanned w.1
  middle : ∀ c ∈ s.cycleOf a, ∀ job ∈ c.job, job.targetLevel < s.tree.maxLevel

def middleJobs (s : State) (a : Action) : Bool :=
  (s.cycleOf a).all (fun c => c.job.all (fun job => decide (job.targetLevel < s.tree.maxLevel)))

theorem restrictedOf {s : State} {a : Action} (clean : a.Clean) (keys : ∀ w ∈ a.writes, Scanned w.1)
    (middle : middleJobs s a = true) : Restricted s a := by
  refine ⟨clean, keys, fun c here job some => ?_⟩
  rw [middleJobs, Option.mem_def.mp here, Option.all_some, Option.mem_def.mp some, Option.all_some] at middle
  exact of_decide_eq_true middle

section Restricted
variable {gone : Prop} {P : Key → Prop} {s : State} {a : Action} {c : Cycle}

theorem cycleKeys (sound : Sound s) (keyed : Keyed P s) (here : c ∈ s.cycleOf a) :
    RunsKeys P c.clones := by
  cases a with
  | foreground faults =>
    exact keyed.runs (State.Moves.bookCycle sound (Foreground.cycleSome here))
      (fun h member => Cycle.Moves.bookClones member)
  | background faults =>
    exact keyed.runs (State.Moves.bookBackground sound here)
      (fun h member => Cycle.Moves.bookClones member)
  | _ => simp [State.cycleOf] at here

theorem Restricted.writeBackOk (restricted : Restricted s a) (sound : Sound s) (keyed : Keyed Scanned s)
    (here : c ∈ s.cycleOf a)
    (place : ∀ g snap job runs result, c = .merged g snap job runs result →
      s.tree.compactionGeneration = g → gone → InPlace s.tree.levels snap job) : c.WriteBackOk gone s := by
  cases c with
  | merged g snap job runs result =>
    intro wanted
    have middle := restricted.middle _ here job rfl
    have keys := cycleKeys sound keyed here
    refine ⟨place g snap job runs result rfl wanted, ⟨?_, ?_⟩, ?_⟩
    · exact keys.mono (fun h member => List.mem_append_left _ (levelSubset member))
    · exact fun bottom => absurd bottom (by omega)
    · exact fun bottom => absurd bottom (by omega)
  | _ => trivial

end Restricted

structure OneCompactor (s : State) (a : Action) : Prop extends Restricted s a where
  lone : a ≠ .compact ∧ a ≠ .compactAll

theorem backgroundInvisible {config : LsmConfig} {overflowChecks : Bool} {as : List Action} {t : State}
    (ran : Trace.Run State.step OneCompactor (.fresh config overflowChecks) as t) (idle : t.foreground = .idle)
    (lo hi : Key) : t.tree.range t.storage lo hi = (Reference.empty.run as).range lo hi := by
  have kept : Refines False t (Reference.empty.run as) ∧ Keyed Scanned t := by
    refine ran.simulate (R := fun s r => Refines False s r ∧ Keyed Scanned s)
      (fun s a u r taken ok holds => ?_) ⟨Refines.fresh False config, Keyed.fresh Scanned config⟩
    obtain ⟨refines, keyed⟩ := holds
    have stepOk : StepOk False s a :=
      ⟨ok.clean, fun c here => ok.toRestricted.writeBackOk refines.sound keyed here
        (fun _ _ _ _ _ _ _ may => may.elim), fun calls => absurd calls ok.lone.2, fun _ => ok.lone⟩
    exact ⟨refines.step taken stepOk, (State.stepMoves taken).keyed refines.sound ok.keys keyed⟩
  exact kept.1.range idle lo hi

def noFaults : Nat → Bool := fun _ => false

def besideScript : List Action :=
  [.insert [1] [10], .foreground noFaults, .foreground noFaults, .foreground noFaults,
    .background noFaults, .background noFaults,
    .insert [1] [20], .foreground noFaults, .foreground noFaults, .foreground noFaults,
    .background noFaults, .background noFaults, .background noFaults,
    .snapshot, .delete [1], .foreground noFaults, .foreground noFaults, .foreground noFaults, .rollback 0]

set_option maxRecDepth 10000 in
theorem backgroundInvisibleBeside : ∃ t,
    Trace.Run State.step OneCompactor (.fresh ⟨1, 1⟩) besideScript t ∧
      t.tree.range t.storage [] [9] = [([1], [20])] := by
  have allowed : ∀ s, ∀ a ∈ besideScript, middleJobs s a = true → OneCompactor s a := by
    intro s a member checked
    have fixed : ∀ a ∈ besideScript, a.Clean ∧ (∀ w ∈ a.writes, Scanned w.1) ∧
        a ≠ .compact ∧ a ≠ .compactAll := by
      simp [besideScript, noFaults, Action.Clean, Action.writes, Scanned]
      decide
    obtain ⟨clean, keys, lone⟩ := fixed a member
    exact ⟨restrictedOf clean keys checked, lone⟩
  have ended : (Trace.execWhile State.step middleJobs (.fresh ⟨1, 1⟩) besideScript).any
      (fun t => State.isIdle t.foreground) = true := by decide +kernel
  obtain ⟨t, ran, ends⟩ := Trace.runTo allowed ended
  refine ⟨t, ran, ?_⟩
  rw [backgroundInvisible ran (State.idleOfIsIdle ends)]
  decide +kernel

structure TwoCompactors (s : State) (a : Action) : Prop extends Restricted s a where
  noRollback : ∀ i, a ≠ .rollback i
  noCompactAll : a ≠ .compactAll

structure InPlaceCompactors (s : State) (a : Action) : Prop extends TwoCompactors s a where
  place : ∀ g snap job runs result, Cycle.merged g snap job runs result ∈ s.cycleOf a →
    s.tree.compactionGeneration = g → InPlace s.tree.levels snap job

theorem cycleShape {s : State} {a : Action} {c : Cycle} (sound : Sound s) (here : c ∈ s.cycleOf a) :
    c.Shape s.tree.maxLevel s.tree.compactionGeneration := by
  have shape := sound.foreground
  cases a with
  | foreground faults =>
    rw [Foreground.cycleSome here] at shape
    exact shape
  | background faults => exact sound.background c here
  | _ => simp [State.cycleOf] at here

theorem removedMerged {s : State} {a : Action} {g : Nat} {snap : Levels} {job : LevelCompactionJob}
    {runs : List SsTableHandle} {result : CompactionResult} (sound : Sound s)
    (here : Cycle.merged g snap job runs result ∈ s.cycleOf a) (place : InPlace s.tree.levels snap job) :
    (Compactor.removeRuns (s.tree.levels.getD job.sourceLevel []) result.inputsToRemove).2 = runs := by
  obtain ⟨-, -, rfl, removes, -⟩ := cycleShape sound here
  obtain ⟨newer, source⟩ := place
  rw [removes, Compactor.removeRunsRange, source, List.take_left]

theorem twoCompactors {config : LsmConfig} {overflowChecks : Bool} {as : List Action} {t : State}
    (ran : Trace.Run State.step InPlaceCompactors (.fresh config overflowChecks) as t) :
    (t.foreground = .idle → ∀ lo hi, t.tree.range t.storage lo hi = (Reference.empty.run as).range lo hi) ∧
      ∀ a g snap job runs result, InPlaceCompactors t a →
        Cycle.merged g snap job runs result ∈ t.cycleOf a → t.tree.compactionGeneration = g →
          ∀ h ∈ (Compactor.removeRuns (t.tree.levels.getD job.sourceLevel []) result.inputsToRemove).2,
            h ∈ runs := by
  have kept : Refines True t (Reference.empty.run as) ∧ Keyed Scanned t := by
    refine ran.simulate (R := fun s r => Refines True s r ∧ Keyed Scanned s)
      (fun s a u r taken ok holds => ?_) ⟨Refines.fresh True config, Keyed.fresh Scanned config⟩
    obtain ⟨refines, keyed⟩ := holds
    have stepOk : StepOk True s a :=
      ⟨ok.clean, fun c here => ok.toRestricted.writeBackOk refines.sound keyed here
        (fun g snap job runs result same wanted _ => ok.place g snap job runs result (same ▸ here) wanted),
        fun calls => absurd calls ok.noCompactAll, fun alone => absurd trivial alone⟩
    exact ⟨refines.step taken stepOk, (State.stepMoves taken).keyed refines.sound ok.keys keyed⟩
  refine ⟨fun idle lo hi => kept.1.range idle lo hi, ?_⟩
  intro a g snap job runs result ok here wanted h removed
  rwa [removedMerged kept.1.sound here (ok.place g snap job runs result here wanted)] at removed

def twoScript : List Action :=
  [.insert [1] [10], .foreground noFaults, .foreground noFaults, .foreground noFaults,
    .background noFaults, .compact, .background noFaults, .background noFaults, .background noFaults,
    .background noFaults, .foreground noFaults,
    .insert [1] [20], .foreground noFaults, .foreground noFaults, .foreground noFaults]

theorem twoCompactorsBeside : ∃ t,
    Trace.Run State.step InPlaceCompactors (.fresh ⟨1, 1⟩) twoScript t ∧
      t.tree.range t.storage [] [9] = [([1], [20])] := by
  have allowed : ∀ s, ∀ a ∈ twoScript, (middleJobs s a && stepChecked s a) = true →
      InPlaceCompactors s a := by
    intro s a member checked
    have fixed : ∀ a ∈ twoScript, a.Clean ∧ (∀ w ∈ a.writes, Scanned w.1) ∧
        (∀ i, a ≠ .rollback i) ∧ a ≠ .compactAll := by
      simp [twoScript, noFaults, Action.Clean, Action.writes, Scanned]
      decide
    obtain ⟨clean, keys, noRollback, noCompactAll⟩ := fixed a member
    obtain ⟨middle, checked⟩ := Bool.and_eq_true_iff.mp checked
    refine ⟨⟨restrictedOf clean keys middle, noRollback, noCompactAll⟩, ?_⟩
    intro g snap job runs result here wanted
    exact ((stepOkOf clean checked).cycle _ here wanted).1 trivial
  have ended : (Trace.execWhile State.step (fun s a => middleJobs s a && stepChecked s a)
      (.fresh ⟨1, 1⟩) twoScript).any (fun t => State.isIdle t.foreground) = true := by decide +kernel
  obtain ⟨t, ran, ends⟩ := Trace.runTo allowed ended
  refine ⟨t, ran, ?_⟩
  rw [(twoCompactors ran).1 (State.idleOfIsIdle ends)]
  decide +kernel

def lostScript : List Action :=
  [.insert [1] [10], .foreground noFaults, .foreground noFaults, .foreground noFaults,
    .background noFaults, .background noFaults,
    .compact, .foreground noFaults, .foreground noFaults, .foreground noFaults, .foreground noFaults,
    .insert [2] [20], .foreground noFaults, .foreground noFaults, .foreground noFaults,
    .background noFaults, .background noFaults, .background noFaults]

theorem twoCompactorsLose : ∃ t, Trace.Run State.step TwoCompactors (.fresh ⟨1, 1⟩) lostScript t ∧
    t.foreground = .idle ∧ (t.tree.range t.storage [2] [2] = [] ∧
      (Reference.empty.run lostScript).range [2] [2] = [([2], [20])]) := by
  have allowed : ∀ s, ∀ a ∈ lostScript, middleJobs s a = true → TwoCompactors s a := by
    intro s a member checked
    have fixed : ∀ a ∈ lostScript, a.Clean ∧ (∀ w ∈ a.writes, Scanned w.1) ∧
        (∀ i, a ≠ .rollback i) ∧ a ≠ .compactAll := by
      simp [lostScript, noFaults, Action.Clean, Action.writes, Scanned]
      decide
    obtain ⟨clean, keys, noRollback, noCompactAll⟩ := fixed a member
    exact ⟨restrictedOf clean keys checked, noRollback, noCompactAll⟩
  have ended : (Trace.execWhile State.step middleJobs (.fresh ⟨1, 1⟩) lostScript).any
      (fun t => State.isIdle t.foreground && decide (t.tree.range t.storage [2] [2] = [])) = true := by
    decide +kernel
  obtain ⟨t, ran, ends⟩ := Trace.runTo allowed ended
  obtain ⟨idle, lost⟩ := Bool.and_eq_true_iff.mp ends
  exact ⟨t, ran, State.idleOfIsIdle idle, of_decide_eq_true lost, by decide +kernel⟩

theorem compactAllBeside {config : LsmConfig} {overflowChecks : Bool} {as : List Action} {t : State}
    (ran : Trace.Run State.step (StepOk True) (.fresh config overflowChecks) as t) (idle : t.foreground = .idle)
    (lo hi : Key) : t.tree.range t.storage lo hi = (Reference.empty.run as).range lo hi :=
  (Refines.run ran (Refines.fresh True config)).range idle lo hi

def allScript : List Action :=
  [.insert [1] [10], .foreground noFaults, .foreground noFaults, .foreground noFaults,
    .compactAll, .background noFaults, .background noFaults, .background noFaults, .background noFaults,
    .background noFaults, .foreground noFaults, .foreground noFaults, .foreground noFaults,
    .delete [1], .foreground noFaults, .foreground noFaults, .foreground noFaults]

theorem compactAllBesideCycle : ∃ t,
    Trace.Run State.step (StepOk True) (.fresh ⟨1, 1⟩) allScript t ∧
      t.tree.range t.storage [] [9] = [] := by
  have allowed : ∀ s, ∀ a ∈ allScript, stepChecked s a = true → StepOk True s a := by
    intro s a member checked
    have clean : ∀ a ∈ allScript, a.Clean := by simp [allScript, noFaults, Action.Clean]
    exact stepOkOf (clean a member) checked
  have ended : (Trace.execWhile State.step stepChecked (.fresh ⟨1, 1⟩) allScript).any
      (fun t => State.isIdle t.foreground) = true := by decide +kernel
  obtain ⟨t, ran, ends⟩ := Trace.runTo allowed ended
  refine ⟨t, ran, ?_⟩
  rw [compactAllBeside ran (State.idleOfIsIdle ends)]
  decide +kernel

structure BesideCompactAll (a : Action) : Prop where
  clean : a.Clean
  keys : ∀ w ∈ a.writes, Scanned w.1
  noRollback : ∀ i, a ≠ .rollback i
  noCompact : a ≠ .compact

def staleScript : List Action :=
  [.insert [1] [10], .foreground noFaults, .foreground noFaults, .foreground noFaults,
    .background noFaults, .background noFaults,
    .compactAll, .foreground noFaults, .foreground noFaults, .foreground noFaults,
    .insert [1] [20], .foreground noFaults, .foreground noFaults, .foreground noFaults,
    .background noFaults, .background noFaults, .background noFaults]

theorem compactAllStale : ∃ t,
    Trace.Run State.step (fun _ a => BesideCompactAll a) (.fresh ⟨1, 1⟩) staleScript t ∧
      t.foreground = .idle ∧ (t.tree.range t.storage [1] [1] = [([1], [10])] ∧
        (Reference.empty.run staleScript).range [1] [1] = [([1], [20])]) := by
  have allowed : ∀ s : State, ∀ a ∈ staleScript, (fun _ _ => true) s a = true → BesideCompactAll a := by
    intro s a member _
    have fixed : ∀ a ∈ staleScript, a.Clean ∧ (∀ w ∈ a.writes, Scanned w.1) ∧
        (∀ i, a ≠ .rollback i) ∧ a ≠ .compact := by
      simp [staleScript, noFaults, Action.Clean, Action.writes, Scanned]
      decide
    obtain ⟨clean, keys, noRollback, noCompact⟩ := fixed a member
    exact ⟨clean, keys, noRollback, noCompact⟩
  have ended : (Trace.execWhile State.step (fun _ _ => true) (.fresh ⟨1, 1⟩) staleScript).any
      (fun t => State.isIdle t.foreground && decide (t.tree.range t.storage [1] [1] = [([1], [10])])) =
        true := by decide +kernel
  obtain ⟨t, ran, ends⟩ := Trace.runTo allowed ended
  obtain ⟨idle, stale⟩ := Bool.and_eq_true_iff.mp ends
  exact ⟨t, ran, State.idleOfIsIdle idle, of_decide_eq_true stale, by decide +kernel⟩

end CardanoLsm
