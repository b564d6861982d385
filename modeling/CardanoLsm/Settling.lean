import CardanoLsm.BackPressure
import CardanoLsm.Lib.Amortized

/-! How much compaction there is (`run_compaction`, `compaction.rs`): a run goes down one level
at a time, so the flushed runs pay for every compaction, and a caller that goes on compacting
comes to rest. -/
namespace CardanoLsm
open Std Layered

def levelsBelow (maxLevel : Nat) (levels : Levels) : Nat :=
  ∑ i ∈ Finset.range maxLevel, (maxLevel - i) * (levels.getD i []).length

namespace State

def levelsBelow (s : State) : Nat := CardanoLsm.levelsBelow s.tree.maxLevel s.tree.levels

def installs (s : State) : Action → Nat
  | .background _ =>
    match s.background with
    | some (.merged g _ _ _ _) => if s.tree.compactionGeneration = g then 1 else 0
    | _ => 0
  | _ => 0

def brings (s : State) : Action → Nat
  | .foreground _ =>
    match s.foreground with
    | .flushWritten _ _ => s.tree.maxLevel
    | _ => 0
  | .rollback i => (s.held[i]?).elim 0 (fun snap => CardanoLsm.levelsBelow s.tree.maxLevel snap.levels)
  | _ => 0

end State

def LeavesCompaction (_ : State) (a : Action) : Prop := a ≠ .compact ∧ a ≠ .compactAll

def Cycle.Leads (t : LsmTree) (c : Cycle) : Prop :=
  c.genBefore = t.compactionGeneration →
    match c with
    | .loaded _ => True
    | .selected _ snap job | .numbered _ snap job _ _ | .merged _ snap job _ _ =>
      snap.getD job.sourceLevel [] <+: t.levels.getD job.sourceLevel []

structure LoneCompactor (s : State) : Prop where
  sound : Sound s
  plain : s.foreground.plain = true
  leads : ∀ c ∈ s.background, c.Leads s.tree

theorem levelsBelowPush {maxLevel : Nat} {levels : Levels} (positive : 0 < maxLevel) (length : levels.length = maxLevel + 1)
    (h : SsTableHandle) : levelsBelow maxLevel (levels.set 0 (levels.getD 0 [] ++ [h])) =
      levelsBelow maxLevel levels + maxLevel := by
  have one : ∀ i ∈ Finset.range maxLevel, (maxLevel - i) * ((levels.set 0 (levels.getD 0 [] ++ [h])).getD i []).length =
      (maxLevel - i) * (levels.getD i []).length + if i = 0 then maxLevel else 0 := by
    intro i _
    rw [getDSet]
    by_cases first : i = 0
    · subst first
      simp only [true_and, show 0 < levels.length by omega, if_true, List.length_append, List.length_singleton,
        Nat.sub_zero, Nat.mul_add_one]
    · simp [first]
  rw [levelsBelow, Finset.sum_congr rfl one, Finset.sum_add_distrib, Finset.sum_ite_eq',
    if_pos (Finset.mem_range.mpr positive)]
  rfl

theorem levelsBelowWriteBack {levels snap : Levels} {maxLevel : Nat} {job : LevelCompactionJob}
    {result : CompactionResult} (length : levels.length = maxLevel + 1) (selected : Selected maxLevel snap job)
    (removes : result.inputsToRemove = List.range (snap.getD job.sourceLevel []).length)
    (first : snap.getD job.sourceLevel [] <+: levels.getD job.sourceLevel []) :
    levelsBelow maxLevel (Compactor.writeBack levels job.sourceLevel job.targetLevel maxLevel result).1 + 1 ≤
      levelsBelow maxLevel levels := by
  have source := selected.job.source
  have target := selected.job.target
  have taken : 0 < (snap.getD job.sourceLevel []).length := List.length_pos_iff.mpr selected.job.nonempty
  have covered := first.length_le
  have one : ∀ i ∈ Finset.range maxLevel, (maxLevel - i) *
      ((Compactor.writeBack levels job.sourceLevel job.targetLevel maxLevel result).1.getD i []).length +
        (if i = job.sourceLevel then maxLevel - job.sourceLevel else 0) ≤
      (maxLevel - i) * (levels.getD i []).length +
        if i = job.targetLevel then maxLevel - job.targetLevel else 0 := by
    intro i inside
    rw [writeBackLevel length selected.job removes i]
    by_cases arrives : i = job.targetLevel
    · have other : i ≠ job.sourceLevel := by omega
      have middle : job.targetLevel ≠ maxLevel := by
        have := Finset.mem_range.mp inside
        omega
      subst arrives
      rw [if_pos rfl, if_neg other, if_pos rfl, decide_eq_false middle, Nat.add_zero, ← Nat.mul_add_one]
      refine Nat.mul_le_mul_left _ ?_
      cases result.output with
      | none => exact Nat.le_succ _
      | some output => simp [Compactor.newTarget]
    · rw [if_neg arrives, if_neg arrives, Nat.add_zero]
      by_cases leaves : i = job.sourceLevel
      · subst leaves
        rw [if_pos rfl, if_pos rfl, List.length_drop, ← Nat.mul_add_one]
        exact Nat.mul_le_mul_left _ (by omega)
      · rw [if_neg leaves, if_neg leaves, Nat.add_zero]
  have whole := Finset.sum_le_sum one
  rw [Finset.sum_add_distrib, Finset.sum_add_distrib, Finset.sum_ite_eq', Finset.sum_ite_eq',
    if_pos (Finset.mem_range.mpr source)] at whole
  unfold levelsBelow
  split at whole <;> omega

namespace LoneCompactor
variable {s t : State} {a : Action}

theorem pays (lone : LoneCompactor s) (alone : LeavesCompaction s a) (taken : s.step a = some t) :
    t.levelsBelow + s.installs a ≤ s.levelsBelow + s.brings a := by
  obtain ⟨sound, plain, leads⟩ := lone
  have length : s.tree.levels.length = s.tree.maxLevel + 1 := sound.tree.length
  cases State.stepMoves taken with
  | wrote a memtable isWrite idle data =>
    cases a with
    | insert key value => exact Nat.le_refl _
    | delete key => exact Nat.le_refl _
    | insertBatch entries => exact Nat.le_refl _
    | deleteBatch keys => exact Nat.le_refl _
    | _ => cases isWrite
  | wroteFull a memtable isWrite idle data nonempty =>
    cases a with
    | insert key value => exact Nat.le_refl _
    | delete key => exact Nat.le_refl _
    | insertBatch entries => exact Nat.le_refl _
    | deleteBatch keys => exact Nat.le_refl _
    | _ => cases isWrite
  | rollback i snap idle found past =>
    simp only [State.installs, State.brings, found, Option.elim_some]
    exact Nat.le_add_left _ _
  | compact idle => exact absurd rfl alone.1
  | compactAllNothing idle none => exact absurd rfl alone.2
  | compactAllClone idle some => exact absurd rfl alone.2
  | flushPush faults h after f r here quiet ends =>
    have pushed := levelsBelowPush sound.positive length h
    simp only [State.installs, State.brings, here]
    exact Nat.le_of_eq pushed
  | compacting t faults c c' here moved => simp [here, Foreground.plain] at plain
  | compacted t faults c r here moved => simp [here, Foreground.plain] at plain
  | compactAllNumber faults all here => simp [here, Foreground.plain] at plain
  | compactAllFailed faults all n e st here failed => simp [here, Foreground.plain] at plain
  | compactAllMerge faults all n result st here done => simp [here, Foreground.plain] at plain
  | compactAllInstall faults all result here => simp [here, Foreground.plain] at plain
  | background t faults c c' here moved =>
    cases moved <;> simp only [State.installs, here] <;> exact Nat.le_refl _
  | backgroundEnd t faults c r here moved =>
    cases moved with
    | writeBack g snap job runs result current =>
      obtain ⟨selected, rfl, removes, -⟩ := (sound.background _ here).2
      have less := levelsBelowWriteBack length selected removes (leads _ here current.symm)
      simp only [State.installs, here, current, if_true]
      exact less
    | stale g snap job runs result changed =>
      simp only [State.installs, here, changed, if_false]
      exact Nat.le_refl _
    | _ =>
      simp only [State.installs, here]
      exact Nat.le_refl _
  | begin faults none =>
    simp only [State.installs, none]
    exact Nat.le_refl _
  | _ => exact Nat.le_add_right _ _

theorem pushLeads {levels : Levels} (h : SsTableHandle) (i : Nat) :
    levels.getD i [] <+: (levels.set 0 (levels.getD 0 [] ++ [h])).getD i [] := by
  rw [getDSet]
  split
  · rename_i first
    rw [first.1]
    exact List.prefix_append _ _
  · exact List.prefix_rfl

theorem next (lone : LoneCompactor s) (alone : LeavesCompaction s a) (taken : s.step a = some t) : LoneCompactor t := by
  obtain ⟨sound, plain, leads⟩ := lone
  have moved := State.stepMoves taken
  refine ⟨moved.sound sound, ?_, ?_⟩
  · cases moved with
    | compact idle => exact absurd rfl alone.1
    | compactAllNothing idle none => exact absurd rfl alone.2
    | compactAllClone idle some => exact absurd rfl alone.2
    | flushPush faults h after f r here quiet ends => cases quiet <;> rfl
    | drained faults after f r here quiet ends => cases quiet <;> rfl
    | compacting t faults c c' here moved => simp [here, Foreground.plain] at plain
    | compacted t faults c r here moved => rfl
    | compactAllNumber faults all here => simp [here, Foreground.plain] at plain
    | compactAllMerge faults all n result st here done => simp [here, Foreground.plain] at plain
    | background t faults c c' here moved => exact moved.frame.foreground ▸ plain
    | backgroundEnd t faults c r here moved => exact moved.frame.foreground ▸ plain
    | _ => first | rfl | exact plain
  · cases moved with
    | rollback i snap idle found past =>
      -- the generation has gone past that of every cycle
      intro c here current
      have old := (sound.background c here).1
      rw [current] at old
      exact absurd old (Nat.not_succ_le_self _)
    | compact idle => exact absurd rfl alone.1
    | compactAllNothing idle none => exact absurd rfl alone.2
    | compactAllClone idle some => exact absurd rfl alone.2
    | flushPush faults h after f r here quiet ends =>
      intro c running current
      have before := leads c running current
      cases c with
      | loaded g => trivial
      | _ => exact before.trans (pushLeads h _)
    | compacting t faults c c' here moved => simp [here, Foreground.plain] at plain
    | compacted t faults c r here moved => simp [here, Foreground.plain] at plain
    | compactAllNumber faults all here => simp [here, Foreground.plain] at plain
    | compactAllFailed faults all n e st here failed => simp [here, Foreground.plain] at plain
    | compactAllMerge faults all n result st here done => simp [here, Foreground.plain] at plain
    | compactAllInstall faults all result here => simp [here, Foreground.plain] at plain
    | begin faults none =>
      intro c here
      cases Option.some.inj here
      exact fun _ => trivial
    | background t faults c c' here moved =>
      intro d running
      cases Option.some.inj running
      cases moved with
      | select g job selected => exact fun _ => List.prefix_rfl
      | number g snap job =>
        have before := leads _ here
        exact before
      | merge g snap job n runs result st done =>
        have before := leads _ here
        exact before
    | backgroundEnd t faults c r here moved =>
      intro d running
      cases running
    | _ => exact leads

end LoneCompactor

theorem Starts.lone {s : State} (starts : Starts s) : LoneCompactor s := by
  refine ⟨starts.sound, ?_, ?_⟩
  · cases starts <;> rfl
  · intro c here
    cases starts <;> cases here

theorem compactionsPaid {s t : State} {as : List Action} (starts : Starts s)
    (ran : Trace.Run State.step LeavesCompaction s as t) :
    t.levelsBelow + Trace.total State.step State.installs s as ≤
      s.levelsBelow + Trace.total State.step State.brings s as := by
  have kept := ran.assume (fun _ _ _ taken alone lone => LoneCompactor.next lone alone taken) starts.lone
  exact kept.amortized (fun _ _ _ taken holds => holds.2.pays holds.1 taken)

def oneCompaction : List Action := oneScript ++ List.replicate 5 (.background noFaults)

theorem compactionsPaidOne : ∃ t, Trace.Run State.step LeavesCompaction (.fresh ⟨1, 1⟩) oneCompaction t ∧ t.levelsBelow = 5 ∧
    Trace.total State.step State.installs (.fresh ⟨1, 1⟩) oneCompaction = 1 ∧
    t.levelsBelow + Trace.total State.step State.installs (.fresh ⟨1, 1⟩) oneCompaction ≤
      (State.fresh ⟨1, 1⟩).levelsBelow + Trace.total State.step State.brings (.fresh ⟨1, 1⟩) oneCompaction := by
  have ended : (Trace.execWhile State.step (fun _ _ => true) (.fresh ⟨1, 1⟩) oneCompaction).any
      (fun t => decide (t.levelsBelow = 5)) = true := by decide +kernel
  have allowed : ∀ s : State, ∀ a ∈ oneCompaction, (fun _ _ => true) s a = true → LeavesCompaction s a := by
    intro s a member _
    have fixed : ∀ a ∈ oneCompaction, a ≠ .compact ∧ a ≠ .compactAll := by
      simp [oneCompaction, oneScript, ownSteps]
    exact fixed a member
  obtain ⟨t, ran, below⟩ := Trace.runTo allowed ended
  exact ⟨t, ran, of_decide_eq_true below, by decide +kernel, compactionsPaid (Starts.fresh ⟨1, 1⟩) ran⟩

structure Settled (s : State) : Prop where
  sizes : ∀ i < s.tree.maxLevel, ¬ Oversized s.tree.levels i
  files : (s.tree.levels.getD 0 []).length < s.tree.config.level0CompactionTrigger ∨ s.tree.levels.getD 0 [] = []

def State.Rests (s : State) : Prop :=
  Compactor.selectJob s.tree.levels s.tree.maxLevel s.tree.config.level0CompactionTrigger = none

theorem State.Rests.settled {s : State} (none : s.Rests) : Settled s := by
  unfold State.Rests Compactor.selectJob at none
  split at none
  · cases none
  · rename_i small
    constructor
    · intro i inside large
      have passed := List.findSome?_eq_none_iff.mp small i (List.mem_range.mpr inside)
      dsimp only at passed
      rw [if_pos (by simpa only [Oversized] using large)] at passed
      cases passed
    · dsimp only at none
      split at none
      · rename_i few
        exact few.imp_right List.length_eq_zero_iff.mp
      · cases none

theorem restsBelow {s : State} (positive : 0 < s.tree.maxLevel) (nothing : s.levelsBelow = 0) : s.Rests := by
  cases picked : Compactor.selectJob s.tree.levels s.tree.maxLevel s.tree.config.level0CompactionTrigger with
  | none => exact picked
  | some job =>
    have of := Compactor.selectJobOf positive picked
    have inside := of.source
    have taken : 0 < (s.tree.levels.getD job.sourceLevel []).length := List.length_pos_iff.mpr of.nonempty
    rw [State.levelsBelow, CardanoLsm.levelsBelow] at nothing
    have term := Finset.sum_eq_zero_iff.mp nothing job.sourceLevel (Finset.mem_range.mpr inside)
    have paid := Nat.mul_pos (show 0 < s.tree.maxLevel - job.sourceLevel by omega) taken
    omega

/-- The caller does nothing but `compact`; the handles that go out of scope are dropped
meanwhile. -/
def CompactOnly (_ : State) (a : Action) : Prop := a = .compact ∨ a = .foreground noFaults ∨ ∃ i, a = .collect i

def Action.isCompact : Action → Bool
  | .compact => true
  | _ => false

def Action.drops : Action → Bool
  | .collect _ => true
  | _ => false

def Cycle.Sees (t : LsmTree) (c : Cycle) : Prop :=
  c.genBefore = t.compactionGeneration ∧
    match c with
    | .loaded _ => True
    | .selected _ snap _ | .numbered _ snap _ _ _ | .merged _ snap _ _ _ => snap = t.levels

/-- What holds after the actions of such a caller: of `budget` level descents each call that
has returned used one up or found nothing to do. -/
structure Compacting (budget : Nat) (s : State) (taken : List Action) : Prop where
  sound : Sound s
  asleep : s.background = none
  stands : match s.foreground with
    | .idle => taken.countP (fun a => !a.drops) ≤ 5 * taken.countP Action.isCompact ∧
        (taken.countP Action.isCompact = 0 ∨ s.returned = some (.ok ())) ∧
          (s.Rests ∨ s.levelsBelow + taken.countP Action.isCompact ≤ budget)
    | .compacting c => c.Sees s.tree ∧
        taken.countP (fun a => !a.drops) + 4 ≤ 5 * taken.countP Action.isCompact + c.phase ∧
        (c.phase = 0 ∧ s.Rests ∨ s.levelsBelow + taken.countP Action.isCompact ≤ budget + 1)
    | _ => False

namespace Compacting
variable {budget : Nat} {s t : State} {taken : List Action} {c : Cycle} {faults : Nat → Bool}

theorem advances {p : Progress} (clean : faults = noFaults) (compacting : Compacting budget s taken)
    (here : s.foreground = .compacting c) (moved : Cycle.Moves faults s c p t) :
    match p with
    | .running c' => c'.Sees t.tree ∧ c'.phase = c.phase + 1 ∧ t.levelsBelow = s.levelsBelow ∧
        ¬ (c.phase = 0 ∧ s.Rests)
    | .ended r => r = .ok () ∧ (t.Rests ∨ c.phase = 3 ∧ t.levelsBelow < s.levelsBelow) := by
  obtain ⟨sound, -, stands⟩ := compacting
  have shape := sound.foreground
  have book := State.Moves.booksCycle Ledger.bookkeeping sound.ledger here
  simp only [here] at stands shape
  obtain ⟨⟨generation, sees⟩, -, -⟩ := stands
  cases moved with
  | nothing g none => exact ⟨rfl, Or.inl none⟩
  | select g job selected =>
    refine ⟨⟨generation, rfl⟩, rfl, rfl, fun both => ?_⟩
    have rests : Compactor.selectJob s.tree.levels s.tree.maxLevel
      s.tree.config.level0CompactionTrigger = none := both.2
    rw [selected] at rests
    cases rests
  | number g snap job => exact ⟨⟨generation, sees⟩, rfl, rfl, fun both => absurd both.1 (Nat.succ_ne_zero 0)⟩
  | failed g snap job n runs e st failed =>
    obtain ⟨selected, rfl⟩ := shape.2
    obtain ⟨result, st', done⟩ := Cycle.Moves.mergeEnds selected (Cycle.Moves.clonesReadable book)
      (book.unused n (Or.inl (by simp [Cycle.allocated]))) (show ∀ j, faults j = false by simp [clean, noFaults])
    rw [done] at failed
    cases failed
  | merge g snap job n runs result st done =>
    exact ⟨⟨generation, sees⟩, rfl, rfl, fun both => absurd both.1 (Nat.succ_ne_zero 1)⟩
  | stale g snap job runs result changed => exact absurd generation.symm changed
  | writeBack g snap job runs result current =>
    obtain ⟨selected, rfl, removes, -⟩ := shape.2
    have first : snap.getD job.sourceLevel [] <+: s.tree.levels.getD job.sourceLevel [] := by
      rw [show snap = s.tree.levels from sees]
    exact ⟨rfl, Or.inr ⟨rfl, levelsBelowWriteBack sound.tree.length selected removes first⟩⟩

theorem next {a : Action} (compacting : Compacting budget s taken) (only : CompactOnly s a)
    (stepped : s.step a = some t) : Compacting budget t (a :: taken) := by
  have moved := State.stepMoves stepped
  have sound := moved.sound compacting.sound
  obtain ⟨before, asleep, stands⟩ := id compacting
  rcases only with rfl | rfl | ⟨i, rfl⟩
  · cases moved with
    | wrote a memtable isWrite idle data => cases isWrite
    | wroteFull a memtable isWrite idle data nonempty => cases isWrite
    | compact idle =>
      simp only [idle] at stands
      obtain ⟨short, -, fits⟩ := stands
      have own : (Action.compact :: taken).countP Action.isCompact = taken.countP Action.isCompact + 1 :=
        List.countP_cons_of_pos rfl
      have step : (Action.compact :: taken).countP (fun a => !a.drops) = taken.countP (fun a => !a.drops) + 1 :=
        List.countP_cons_of_pos rfl
      refine ⟨sound, asleep, ⟨rfl, trivial⟩, ?_, ?_⟩
      · rw [own, step]
        omega
      · rcases fits with rests | fits
        · exact Or.inl ⟨rfl, rests⟩
        · rw [own]
          exact Or.inr (Nat.succ_le_succ fits)
  · have own : (Action.foreground noFaults :: taken).countP Action.isCompact = taken.countP Action.isCompact :=
      List.countP_cons_of_neg (by simp [Action.isCompact])
    have step : (Action.foreground noFaults :: taken).countP (fun a => !a.drops) =
        taken.countP (fun a => !a.drops) + 1 := List.countP_cons_of_pos rfl
    cases moved with
    | wrote a memtable isWrite idle data => cases isWrite
    | wroteFull a memtable isWrite idle data nonempty => cases isWrite
    | compacting t faults c c' here moved =>
      simp only [here] at stands
      obtain ⟨sees, phase, below, picks⟩ := advances rfl compacting here moved
      obtain ⟨-, short, fits⟩ := stands
      refine ⟨sound, moved.frame.background.trans asleep, sees, ?_, Or.inr ?_⟩
      · rw [own, step, phase]
        omega
      · have same : (t.at_ (.compacting c')).levelsBelow = s.levelsBelow := below
        rw [own, same]
        exact fits.resolve_left picks
    | compacted t faults c r here moved =>
      simp only [here] at stands
      obtain ⟨rfl, ends⟩ := advances rfl compacting here moved
      obtain ⟨-, short, fits⟩ := stands
      have last : c.phase ≤ 3 := by cases c <;> simp [Cycle.phase]
      refine ⟨sound, moved.frame.background.trans asleep, ?_, Or.inr rfl, ?_⟩
      · rw [own, step]
        omega
      · rcases ends with rests | ⟨third, less⟩
        · exact Or.inl rests
        · have fits := fits.resolve_left (fun both => absurd both.1 (by omega))
          have lower : (t.return_ (.ok ())).levelsBelow < s.levelsBelow := less
          rw [own]
          exact Or.inr (by omega)
    | _ => simp only [*] at stands
  · have own : (Action.collect i :: taken).countP Action.isCompact = taken.countP Action.isCompact :=
      List.countP_cons_of_neg (by simp [Action.isCompact])
    have step : (Action.collect i :: taken).countP (fun a => !a.drops) = taken.countP (fun a => !a.drops) :=
      List.countP_cons_of_neg (by simp [Action.drops])
    cases moved with
    | wrote a memtable isWrite idle data => cases isWrite
    | wroteFull a memtable isWrite idle data nonempty => cases isWrite
    | collect i h found =>
      refine ⟨sound, asleep, ?_⟩
      rw [own, step]
      exact stands

theorem goesOn (compacting : Compacting budget s taken) (busy : s.foreground ≠ .idle) :
    ∃ t, s.step (.foreground noFaults) = some t := by
  have stands := compacting.stands
  cases here : s.foreground with
  | idle => exact absurd here busy
  | compacting c =>
    simp only [State.step, State.stepForeground, here]
    split <;> exact ⟨_, rfl⟩
  | _ => simp only [here] at stands

end Compacting

/-- From every idle state that a run of the session reaches, `compact` called again and again
comes to rest: each call ends after at most five steps and returns Ok, and after as many calls
as the runs have levels below them every level is within its size and L0 below its trigger. -/
theorem compactorSettles {s₀ s t : State} {as bs : List Action} (starts : Starts s₀)
    (ran : Trace.Run State.step (fun _ _ => True) s₀ as s) (idle : s.foreground = .idle)
    (asleep : s.background = none) (calls : Trace.Run State.step CompactOnly s bs t) :
    bs.countP (fun a => !a.drops) ≤ 5 * bs.countP Action.isCompact ∧
      (t.foreground ≠ .idle → ∃ t', t.step (.foreground noFaults) = some t') ∧
        (t.foreground = .idle → (bs.countP Action.isCompact = 0 ∨ t.returned = some (.ok ())) ∧
          (s.levelsBelow ≤ bs.countP Action.isCompact → Settled t)) := by
  have sound := ran.invariant (fun _ _ _ taken _ sound => (State.stepMoves taken).sound sound) starts.sound
  have start : Compacting s.levelsBelow s [] := by
    refine ⟨sound, asleep, ?_⟩
    simp only [idle]
    exact ⟨Nat.le_refl _, Or.inl rfl, Or.inr (Nat.le_refl _)⟩
  have keeps : ∀ u a v taken, u.step a = some v → CompactOnly u a → Compacting s.levelsBelow u taken →
      Compacting s.levelsBelow v (a :: taken) := fun _ _ _ _ stepped only compacting => compacting.next only stepped
  have ended : Compacting s.levelsBelow t (bs.foldl (fun taken a => a :: taken) []) := calls.simulate keeps start
  rw [show bs.foldl (fun taken a => a :: taken) [] = bs.reverse by simp] at ended
  obtain ⟨positive, stands⟩ := And.intro ended.sound.positive ended.stands
  simp only [List.countP_reverse] at stands
  refine ⟨?_, ended.goesOn, fun returned => ?_⟩
  · cases here : t.foreground with
    | idle =>
      simp only [here] at stands
      exact stands.1
    | compacting c =>
      simp only [here] at stands
      have last : c.phase ≤ 3 := by cases c <;> simp [Cycle.phase]
      omega
    | _ => simp only [here] at stands
  · simp only [returned] at stands
    obtain ⟨-, result, fits⟩ := stands
    refine ⟨result, fun enough => ?_⟩
    rcases fits with rests | fits
    · exact rests.settled
    · exact (restsBelow positive (by omega)).settled

def sixCompactions : List Action :=
  ownSteps 4 ++ List.replicate 3 (.collect 0) ++ (List.replicate 5 (.compact :: ownSteps 1)).flatten

theorem compactorSettlesSix : ∃ s bs t, Trace.Run State.step (fun _ _ => True) (.fresh ⟨1, 1⟩) oneScript s ∧
    s.levelsBelow = 6 ∧ Trace.Run State.step CompactOnly s bs t ∧ bs.countP Action.isCompact = 6 ∧ Settled t := by
  have free : ∀ s : State, ∀ a ∈ oneScript, (fun _ _ => true) s a = true → (fun _ _ => True) s a :=
    fun _ _ _ _ => trivial
  have ended : (Trace.execWhile State.step (fun _ _ => true) (.fresh ⟨1, 1⟩) oneScript).any
      (fun s => (s.step .compact).any (fun m => (Trace.execWhile State.step (fun _ _ => true) m sixCompactions).any
        (fun t => State.isIdle s.foreground && s.background.isNone && decide (s.levelsBelow = 6) &&
          State.isIdle t.foreground))) = true := by decide +kernel
  have allowed : ∀ s : State, ∀ a ∈ sixCompactions, (fun _ _ => true) s a = true → CompactOnly s a := by
    intro s a member _
    have fixed : ∀ a ∈ sixCompactions, a = .compact ∨ a = .foreground noFaults ∨ ∃ i, a = .collect i := by
      simp [sixCompactions, ownSteps]
    exact fixed a member
  obtain ⟨s, m, t, ran, called, calls, tested⟩ := Trace.runThen free allowed ended
  simp only [Bool.and_eq_true, Option.isNone_iff_eq_none, decide_eq_true_eq] at tested
  obtain ⟨⟨⟨idle, asleep⟩, six⟩, returned⟩ := tested
  have whole := Trace.Run.cons called (show CompactOnly s .compact from Or.inl rfl) calls
  have counted : (Action.compact :: sixCompactions).countP Action.isCompact = 6 := by decide
  obtain ⟨-, -, settles⟩ := compactorSettles (Starts.fresh ⟨1, 1⟩) ran (State.idleOfIsIdle idle) asleep whole
  exact ⟨s, _, t, ran, six, whole, counted,
    (settles (State.idleOfIsIdle returned)).2 (by rw [six, counted])⟩

end CardanoLsm
