import CardanoLsm.Compactors

/-! Calls that run alone: `compact_all`, one compaction into the bottom level, and calls
that fail. -/
namespace CardanoLsm
open Std Layered

def OwnStep (_ : State) (a : Action) : Prop := ∃ faults, a = .foreground faults

structure Untouched (s m : State) : Prop where
  config : m.tree.config = s.tree.config
  maxLevel : m.tree.maxLevel = s.tree.maxLevel
  memtable : m.tree.memtable = s.tree.memtable
  levels : m.tree.levels = s.tree.levels
  generation : m.tree.compactionGeneration = s.tree.compactionGeneration

theorem soundView {s : State} (sound : Sound s) (k : Key) :
    s.tree.view k = visible (s.tree.memtable.data :: layersOf (rangeOrder s.tree.levels)) k := by
  have none : s.tree.immutableMemtables = [] := sound.tree.immutables
  simp only [LsmTree.view, LsmTree.layers, memLayers, none, List.map_nil, List.reverse_nil,
    List.singleton_append]

theorem rangesSame {s t : State} (sound : Sound s) (sound' : Sound t) :
    (∀ lo hi, t.tree.range t.storage lo hi = s.tree.range s.storage lo hi) ↔
      ∀ k, t.tree.view k = s.tree.view k := by
  constructor
  · exact fun same k => LsmTree.viewOfRange sound'.treeReadable sound.treeReadable (same k k)
  · exact fun same lo hi => LsmTree.rangeSame sound'.treeReadable sound.treeReadable (fun k _ => same k)

def CompactAllAt (s m : State) : Prop :=
  match m.foreground with
  | .compactAllCloned all | .compactAllNumbered all _ | .compactAllMerged all _ =>
    all = s.tree.levels.flatten ∧ Untouched s m
  | .idle => m.returned = some (.ok ()) → ∀ k, m.tree.view k =
      visible (s.tree.memtable.data :: layersOf (byNumber s.tree.levels.flatten)) k
  | _ => False

theorem compactAllStep {s m u : State} {a : Action} (keys : RunsKeys Scanned s.tree.levels.flatten)
    (moved : State.Moves m a u) (own : OwnStep m a) (sound : Sound m) (before : CompactAllAt s m) :
    CompactAllAt s u := by
  obtain ⟨faults, rfl⟩ := own
  cases moved with
  | wrote a memtable isWrite idle data => cases isWrite
  | wroteFull a memtable isWrite idle data nonempty => cases isWrite
  | compactAllNumber faults all here =>
    simp only [CompactAllAt, here] at before
    exact ⟨before.1, before.2.1, before.2.2, before.2.3, before.2.4, before.2.5⟩
  | compactAllFailed faults all n e st here failed => exact fun ok => by cases ok
  | compactAllMerge faults all n result st here done =>
    simp only [CompactAllAt, here] at before
    exact ⟨before.1, before.2.1, before.2.2, before.2.3, before.2.4, before.2.5⟩
  | compactAllInstall faults all result here =>
    have shape := sound.foreground
    have length : m.tree.levels.length = m.tree.maxLevel + 1 := sound.tree.length
    simp only [CompactAllAt, here] at before
    rw [here] at shape
    obtain ⟨rfl, untouched⟩ := before
    intro _ k
    rw [soundView ((State.Moves.compactAllInstall m faults _ result here).sound sound),
      ← untouched.memtable]
    have read : visible ([m.tree.memtable.data] ++ layersOf (rangeOrder (State.clearedLevels
        m.tree.levels m.tree.maxLevel result.output))) k =
          visible ([m.tree.memtable.data] ++ layersOf (byNumber s.tree.levels.flatten)) k :=
      installView (show m.tree.maxLevel < m.tree.levels.length by omega) keys shape.2.2 k
    exact read
  | _ =>
    clear sound keys
    simp only [CompactAllAt, *] at before

theorem compactAllCalled {s m : State} (sound : Sound s) (called : s.step .compactAll = some m) :
    CompactAllAt s m := by
  cases State.stepMoves called with
  | wrote a memtable isWrite idle data => cases isWrite
  | wroteFull a memtable isWrite idle data nonempty => cases isWrite
  | compactAllNothing idle none =>
    intro _ k
    have blank : rangeOrder s.tree.levels = [] := by
      refine List.eq_nil_iff_forall_not_mem.mpr (fun h member => ?_)
      rw [mem_rangeOrder, none] at member
      cases member
    rw [none]
    exact (soundView sound k).trans (by rw [blank]; rfl)
  | compactAllClone idle some => exact ⟨rfl, rfl, rfl, rfl, rfl, rfl⟩

/-- A successful `compact_all` leaves every range as it is exactly where, for the keys the
memtable does not hold, run numbers alone order the runs as the levels do. -/
theorem compactAllKeeps {config : LsmConfig} {overflowChecks : Bool} {as bs : List Action} {s m t : State}
    (ran : Trace.Run State.step (fun _ a => ∀ w ∈ a.writes, Scanned w.1) (.fresh config overflowChecks) as s)
    (called : s.step .compactAll = some m) (own : Trace.Run State.step OwnStep m bs t)
    (idle : t.foreground = .idle) (success : t.returned = some (.ok ())) :
    (∀ lo hi, t.tree.range t.storage lo hi = s.tree.range s.storage lo hi) ↔
      OrdersAgree [s.tree.memtable.data] s.tree.levels := by
  have reached : Sound s ∧ Keyed Scanned s := by
    refine ran.invariant (I := fun s => Sound s ∧ Keyed Scanned s) (fun s a t taken keys holds => ?_)
      ⟨(Starts.fresh config overflowChecks).sound, Keyed.fresh Scanned config⟩
    exact ⟨(State.stepMoves taken).sound holds.1, (State.stepMoves taken).keyed holds.1 keys holds.2⟩
  obtain ⟨sound, keyed⟩ := reached
  have keys : RunsKeys Scanned s.tree.levels.flatten :=
    keyed.runs sound.ledger (fun h member => State.Moves.levelsSettled s h member)
  have ended : Sound t ∧ CompactAllAt s t := by
    refine own.invariant (I := fun u => Sound u ∧ CompactAllAt s u) (fun u a v taken step holds => ?_)
      ⟨(State.stepMoves called).sound sound, compactAllCalled sound called⟩
    exact ⟨(State.stepMoves taken).sound holds.1,
      compactAllStep keys (State.stepMoves taken) step holds.1 holds.2⟩
  obtain ⟨sound', view⟩ := ended
  simp only [CompactAllAt, idle] at view
  rw [rangesSame sound sound']
  constructor
  · intro same k free
    have read := view success k
    rw [same k, soundView sound, visibleCons, visibleCons] at read
    simp only [resolveCons, resolveNil, Option.or_none] at free
    rw [free] at read
    exact read.symm
  · intro agree k
    rw [view success k, soundView sound]
    exact visibleReplace [s.tree.memtable.data] (agree k)

structure BeforeCompactAll (a : Action) : Prop where
  clean : a.Clean
  keys : ∀ w ∈ a.writes, Scanned w.1
  noCompact : a ≠ .compact ∧ a ≠ .compactAll

def ownSteps (n : Nat) : List Action := List.replicate n (.foreground noFaults)

theorem ownStepsAllowed (n : Nat) : ∀ s, ∀ a ∈ ownSteps n, (fun _ _ => true) s a = true → OwnStep s a :=
  fun _ _ member _ => ⟨noFaults, List.eq_of_mem_replicate member⟩

def oneScript : List Action := .insert [1] [10] :: ownSteps 3

theorem compactAllKeepsOne : ∃ s m t,
    Trace.Run State.step (fun _ a => ∀ w ∈ a.writes, Scanned w.1) (.fresh ⟨1, 1⟩) oneScript s ∧
      s.step .compactAll = some m ∧ Trace.Run State.step OwnStep m (ownSteps 3) t ∧
        ∀ lo hi, t.tree.range t.storage lo hi = s.tree.range s.storage lo hi := by
  have allowed : ∀ s : State, ∀ a ∈ oneScript, (fun _ _ => true) s a = true →
      ∀ w ∈ a.writes, Scanned w.1 := by
    have fixed : ∀ a ∈ oneScript, ∀ w ∈ a.writes, Scanned w.1 := by
      simp [oneScript, ownSteps, Action.writes, Scanned]
      decide
    exact fun _ a member _ => fixed a member
  have ended : (Trace.execWhile State.step (fun _ _ => true) (.fresh ⟨1, 1⟩) oneScript).any (fun s =>
      (s.step .compactAll).any (fun m => (Trace.execWhile State.step (fun _ _ => true) m (ownSteps 3)).any
        (fun t => State.isIdle t.foreground && decide (t.returned = some (.ok ())) &&
          decide (byNumber s.tree.levels.flatten = rangeOrder s.tree.levels)))) = true := by
    decide +kernel
  obtain ⟨s, m, t, ran, called, own, ends⟩ := Trace.runThen allowed (ownStepsAllowed 3) ended
  simp only [Bool.and_eq_true, decide_eq_true_eq] at ends
  obtain ⟨⟨idle, success⟩, same⟩ := ends
  exact ⟨s, m, t, ran, called, own, (compactAllKeeps ran called own (State.idleOfIsIdle idle) success).mpr
    (fun k _ => by rw [same])⟩

def renumberScript : List Action :=
  .insert [1] [10] :: ownSteps 3 ++ [.background noFaults, .background noFaults, .insert [1] [20]] ++
    ownSteps 3 ++ List.replicate 3 (.background noFaults)

theorem compactAllSwaps : ∃ s m t,
    Trace.Run State.step (fun _ a => BeforeCompactAll a) (.fresh ⟨1, 1⟩) renumberScript s ∧
      s.foreground = .idle ∧ s.background.isNone ∧
        s.step .compactAll = some m ∧ Trace.Run State.step OwnStep m (ownSteps 3) t ∧
          t.foreground = .idle ∧ t.returned = some (.ok ()) ∧
            s.tree.range s.storage [1] [1] = [([1], [20])] ∧
              t.tree.range t.storage [1] [1] = [([1], [10])] := by
  have allowed : ∀ s : State, ∀ a ∈ renumberScript, (fun _ _ => true) s a = true →
      BeforeCompactAll a := by
    intro s a member _
    have fixed : ∀ a ∈ renumberScript, a.Clean ∧ (∀ w ∈ a.writes, Scanned w.1) ∧
        a ≠ .compact ∧ a ≠ .compactAll := by
      simp [renumberScript, ownSteps, noFaults, Action.Clean, Action.writes, Scanned]
      decide
    obtain ⟨clean, keys, noCompact⟩ := fixed a member
    exact ⟨clean, keys, noCompact⟩
  have ended : (Trace.execWhile State.step (fun _ _ => true) (.fresh ⟨1, 1⟩) renumberScript).any (fun s =>
      (s.step .compactAll).any (fun m => (Trace.execWhile State.step (fun _ _ => true) m (ownSteps 3)).any
        (fun t => State.isIdle s.foreground && s.background.isNone &&
          (State.isIdle t.foreground && decide (t.returned = some (.ok ())) &&
            (decide (s.tree.range s.storage [1] [1] = [([1], [20])]) &&
              decide (t.tree.range t.storage [1] [1] = [([1], [10])])))))) = true := by
    decide +kernel
  obtain ⟨s, m, t, ran, called, own, ends⟩ := Trace.runThen allowed (ownStepsAllowed 3) ended
  simp only [Bool.and_eq_true, decide_eq_true_eq] at ends
  obtain ⟨⟨idle, none⟩, ⟨idle', success⟩, before, after⟩ := ends
  exact ⟨s, m, t, ran, State.idleOfIsIdle idle, none, called, own, State.idleOfIsIdle idle', success,
    before, after⟩

def CompactAt (s : State) (job : LevelCompactionJob) (m : State) : Prop :=
  match m.foreground with
  | .compacting c => Untouched s m ∧ c.genBefore = s.tree.compactionGeneration ∧
    match c with
    | .loaded _ => True
    | .selected _ snap job' | .numbered _ snap job' _ _ | .merged _ snap job' _ _ =>
      snap = s.tree.levels ∧ job' = job
  | .idle => m.returned = some (.ok ()) → ∃ result,
    Yields (jobEntries s.tree.maxLevel s.tree.levels job) job.targetLevel
        (List.range (s.tree.levels.getD job.sourceLevel []).length) result ∧
      m.tree.memtable = s.tree.memtable ∧ m.tree.levels =
        (Compactor.writeBack s.tree.levels job.sourceLevel job.targetLevel s.tree.maxLevel result).1
  | _ => False

theorem compactStep {s m u : State} {a : Action} {job : LevelCompactionJob}
    (select : Compactor.selectJob s.tree.levels s.tree.maxLevel
      s.tree.config.level0CompactionTrigger = some job)
    (moved : State.Moves m a u) (own : OwnStep m a) (sound : Sound m) (before : CompactAt s job m) :
    CompactAt s job u := by
  obtain ⟨faults, rfl⟩ := own
  cases moved with
  | wrote a memtable isWrite idle data => cases isWrite
  | wroteFull a memtable isWrite idle data nonempty => cases isWrite
  | compacting t faults c c' here moved =>
    simp only [CompactAt, here] at before
    obtain ⟨untouched, generation, place⟩ := before
    cases moved with
    | select g job' selected =>
      rw [untouched.levels, untouched.maxLevel, untouched.config, select] at selected
      exact ⟨⟨untouched.1, untouched.2, untouched.3, untouched.4, untouched.5⟩, generation,
        untouched.levels, (Option.some.inj selected).symm⟩
    | number g snap job' =>
      exact ⟨⟨untouched.1, untouched.2, untouched.3, untouched.4, untouched.5⟩, generation, place⟩
    | merge g snap job' n runs result st done =>
      exact ⟨⟨untouched.1, untouched.2, untouched.3, untouched.4, untouched.5⟩, generation, place⟩
  | compacted t faults c r here moved =>
    have shape := sound.foreground
    rw [here] at shape
    simp only [CompactAt, here] at before
    obtain ⟨untouched, generation, place⟩ := before
    cases moved with
    | nothing g none =>
      rw [untouched.levels, untouched.maxLevel, untouched.config, select] at none
      cases none
    | failed g snap job' n runs e st failed => exact fun ok => by cases ok
    | stale g snap job' runs result changed =>
      exact absurd (untouched.generation.trans generation.symm) changed
    | writeBack g snap job' runs result current =>
      obtain ⟨rfl, rfl⟩ := place
      obtain ⟨-, -, rfl, yields⟩ := shape
      rw [untouched.maxLevel] at yields
      refine fun _ => ⟨result, yields, untouched.memtable, ?_⟩
      simp only [State.return_, State.discard, State.withLevels, untouched.levels, untouched.maxLevel]
  | _ =>
    clear sound select
    simp only [CompactAt, *] at before

/-- A compaction into the bottom level that runs alone leaves every range as it is exactly
where something of its inputs is live or everything live in the bottom level is held
by something above the source level. -/
theorem bottomKeeps {s m t : State} {bs : List Action} {job : LevelCompactionJob} (sound : Sound s)
    (keys : RunsKeys Scanned s.tree.levels.flatten)
    (small : (s.tree.levels.getD s.tree.maxLevel []).length ≤ 1)
    (select : Compactor.selectJob s.tree.levels s.tree.maxLevel
      s.tree.config.level0CompactionTrigger = some job)
    (bottom : job.targetLevel = s.tree.maxLevel) (called : s.step .compact = some m)
    (own : Trace.Run State.step OwnStep m bs t) (idle : t.foreground = .idle)
    (success : t.returned = some (.ok ())) :
    (∀ lo hi, t.tree.range t.storage lo hi = s.tree.range s.storage lo hi) ↔
      BottomSafe [s.tree.memtable.data] s.tree.levels s.tree.levels s.tree.maxLevel job := by
  have selected : Selected s.tree.maxLevel s.tree.levels job :=
    ⟨sound.tree.length, sound.tree.distinct, Compactor.selectJobOf sound.positive select⟩
  have first : CompactAt s job m := by
    cases State.stepMoves called with
    | wrote a memtable isWrite idle data => cases isWrite
    | wroteFull a memtable isWrite idle data nonempty => cases isWrite
    | compact idle => exact ⟨⟨rfl, rfl, rfl, rfl, rfl⟩, rfl, trivial⟩
  have ended : Sound t ∧ CompactAt s job t := by
    refine own.invariant (I := fun u => Sound u ∧ CompactAt s job u) (fun u a v taken step holds => ?_)
      ⟨(State.stepMoves called).sound sound, first⟩
    exact ⟨(State.stepMoves taken).sound holds.1,
      compactStep select (State.stepMoves taken) step holds.1 holds.2⟩
  obtain ⟨sound', view⟩ := ended
  simp only [CompactAt, idle] at view
  obtain ⟨result, yields, memtable, levels⟩ := view success
  have alive : Alive s.tree.levels s.tree.maxLevel s.tree.levels job :=
    ⟨⟨[], by simp⟩, fun _ => rfl⟩
  have sourceKeys : RunsKeys Scanned (s.tree.levels.getD job.sourceLevel []) :=
    keys.mono (fun h member => levelSubset member)
  have targetKeys : RunsKeys Scanned (s.tree.levels.getD s.tree.maxLevel []) :=
    keys.mono (fun h member => levelSubset member)
  have read : ∀ k, t.tree.view k = visible ([s.tree.memtable.data] ++ layersOf (rangeOrder
      (Compactor.writeBack s.tree.levels job.sourceLevel job.targetLevel s.tree.maxLevel result).1)) k := by
    intro k
    rw [soundView sound', memtable, levels]
    rfl
  rw [rangesSame sound sound']
  constructor
  · intro same _
    by_contra fails
    obtain ⟨blank, k, live, free⟩ : (∀ k, visible (layersOf (byNumber (s.tree.levels.getD
        job.sourceLevel []) ++ s.tree.levels.getD s.tree.maxLevel [])) k = none) ∧ ∃ k,
        visible (layersOf (s.tree.levels.getD s.tree.maxLevel [])) k ≠ none ∧
          resolve ([s.tree.memtable.data] ++ layersOf (aboveSource s.tree.levels s.tree.levels job)) k =
            none := by
      simpa only [not_or, not_exists, not_forall, ne_eq, not_not, exists_prop] using fails
    refine live ?_
    have last : rangeOrder (s.tree.levels.drop (job.targetLevel + 1)) = [] :=
      bottomLast sound.tree.length bottom
    have one := byNumberOne small
    have length : s.tree.levels.length = s.tree.maxLevel + 1 := sound.tree.length
    obtain ⟨before, after⟩ := writeBackOrder length sound.tree.distinct selected alive yields.1
    have merged : Yields (Compactor.mergedJob (s.tree.levels.getD job.sourceLevel [])
        (s.tree.levels.getD s.tree.maxLevel []) true) job.targetLevel
        (List.range (s.tree.levels.getD job.sourceLevel []).length) result := by
      simpa only [jobEntries, bottom, eq_self, decide_true] using yields
    have nothing := (bottomNothing merged sourceKeys targetKeys).mpr blank
    have whole : s.tree.view k =
        visible ([s.tree.memtable.data] ++ layersOf (rangeOrder s.tree.levels)) k := soundView sound k
    have view := same k
    rw [read k, whole, before, after, layersAppend (aboveSource _ _ _), layersAppend (aboveSource _ _ _),
      ← List.append_assoc, ← List.append_assoc, visibleThrough free, visibleThrough free, last,
      nothing] at view
    simp only [Compactor.newTarget, bottom, List.append_nil, one] at view
    rw [view, blank k]
  · intro safe k
    rw [read k, soundView sound]
    exact writeBackView sound.tree.length sound.tree.distinct selected alive yields
      (fun other => absurd bottom other) sourceKeys (fun _ => targetKeys) small safe k

theorem arranged {s : State} (sound : Sound s) (idle : s.foreground = .idle) (none : s.background = none)
    (free : s.held = []) {levels : Levels} {maxLevel : Nat} (positive : 0 < maxLevel)
    (length : levels.length = maxLevel + 1) (perm : levels.flatten.Perm s.tree.levels.flatten) :
    Sound { s with tree := { s.tree with levels := levels, maxLevel := maxLevel } } := by
  refine ⟨sound.ledger.congr ?_ (.refl _) (.refl _), positive,
    ⟨length, (perm.map _).nodup_iff.mpr sound.tree.distinct, sound.tree.immutables, rfl⟩, ?_, ?_, ?_⟩
  · simp only [State.settled, State.settledBase, Multiset.coe_eq_coe.mpr perm]
  · simp [free]
  · simp only [idle]
    trivial
  · simp [none]

def twoLevels (s : State) : State :=
  { s with tree := { s.tree with levels := s.tree.levels.take 2, maxLevel := 1 } }

def bottomScript (last : Action) : List Action :=
  .insert [1] [10] :: ownSteps 3 ++ List.replicate 5 (.background noFaults) ++ last :: ownSteps 3

def inTwoLevels (s : State) : Bool :=
  State.isIdle s.foreground && s.background.isNone && s.held.isEmpty &&
    decide (s.tree.levels.length = 7) && (s.tree.levels.drop 2).all List.isEmpty

theorem twoLevelsSound {s : State} (sound : Sound s) (rest : inTwoLevels s = true) :
    Sound (twoLevels s) := by
  simp only [inTwoLevels, Bool.and_eq_true, decide_eq_true_eq, List.all_eq_true, List.isEmpty_iff] at rest
  obtain ⟨⟨⟨⟨idle, none⟩, free⟩, seven⟩, empty⟩ := rest
  refine arranged sound (State.idleOfIsIdle idle) (Option.isNone_iff_eq_none.mp none) free Nat.one_pos
    (by simp [seven]) ?_
  conv_rhs => rw [← List.take_append_drop 2 s.tree.levels, List.flatten_append]
  rw [List.flatten_eq_nil_iff.mpr empty, List.append_nil]

def selectsBottom (s : State) : Bool :=
  (Compactor.selectJob s.tree.levels s.tree.maxLevel s.tree.config.level0CompactionTrigger).any
    (fun job => decide (job.targetLevel = s.tree.maxLevel))

def bottomChecked (s : State) : Bool :=
  decide (RunsKeys Scanned s.tree.levels.flatten) &&
    decide ((s.tree.levels.getD s.tree.maxLevel []).length ≤ 1) && selectsBottom s &&
      decide (∀ level ∈ s.tree.levels, Ascending level)

theorem bottomRun {last : Action} {test : State → State → Bool}
    (h : (Trace.execWhile State.step (fun _ _ => true) (.fresh ⟨1, 1⟩) (bottomScript last)).any (fun s =>
      inTwoLevels s && ((twoLevels s).step .compact).any (fun m =>
        (Trace.execWhile State.step (fun _ _ => true) m (ownSteps 4)).any (test (twoLevels s)))) = true) :
    ∃ s m t, Sound s ∧ s.step .compact = some m ∧ Trace.Run State.step OwnStep m (ownSteps 4) t ∧
      test s t = true := by
  obtain ⟨s, ran, rest⟩ := Trace.runTo (fun _ _ _ _ => trivial) h
  obtain ⟨rest, called⟩ := Bool.and_eq_true_iff.mp rest
  obtain ⟨m, called, own⟩ := (Option.any_eq_true _ _).mp called
  obtain ⟨t, own, tested⟩ := Trace.runTo (ownStepsAllowed 4) own
  exact ⟨twoLevels s, m, t, twoLevelsSound (Sound.run ran (Starts.fresh ⟨1, 1⟩).sound) rest, called, own,
    tested⟩

def compactReturned (t : State) : Bool := State.isIdle t.foreground && decide (t.returned = some (.ok ()))

def bottomLive (s t : State) : Bool :=
  bottomChecked s && compactReturned t && decide (visible (layersOf
    (byNumber (s.tree.levels.getD (s.tree.maxLevel - 1) []) ++ s.tree.levels.getD s.tree.maxLevel [])) [1] ≠
      none)

theorem bottomKeepsValues : ∃ s m t, s.step .compact = some m ∧
    Trace.Run State.step OwnStep m (ownSteps 4) t ∧ selectsBottom s = true ∧
      ∀ lo hi, t.tree.range t.storage lo hi = s.tree.range s.storage lo hi := by
  have ended : (Trace.execWhile State.step (fun _ _ => true) (.fresh ⟨1, 1⟩)
      (bottomScript (.insert [2] [20]))).any (fun s => inTwoLevels s && ((twoLevels s).step .compact).any
        (fun m => (Trace.execWhile State.step (fun _ _ => true) m (ownSteps 4)).any
          (bottomLive (twoLevels s)))) = true := by decide +kernel
  obtain ⟨s, m, t, sound, called, own, tested⟩ := bottomRun ended
  simp only [bottomLive, bottomChecked, compactReturned, Bool.and_eq_true, decide_eq_true_eq] at tested
  obtain ⟨⟨⟨⟨⟨keys, small⟩, selects⟩, -⟩, idle, success⟩, live⟩ := tested
  obtain ⟨job, select, bottom⟩ := (Option.any_eq_true _ _).mp selects
  have bottom := of_decide_eq_true bottom
  have source : job.sourceLevel = s.tree.maxLevel - 1 := by
    have := (Compactor.selectJobOf sound.positive select).target
    omega
  refine ⟨s, m, t, called, own, selects, ?_⟩
  refine (bottomKeeps sound keys small select bottom called own (State.idleOfIsIdle idle) success).mpr ?_
  exact fun _ => Or.inl ⟨[1], by rw [source]; exact live⟩

def bottomResurrects (s t : State) : Bool :=
  bottomChecked s && compactReturned t && decide (s.tree.range s.storage [1] [1] = []) &&
    decide (t.tree.range t.storage [1] [1] = [([1], [10])])

theorem bottomLosesDelete : ∃ s m t, Sound s ∧ (∀ level ∈ s.tree.levels, Ascending level) ∧
    (s.tree.levels.getD s.tree.maxLevel []).length ≤ 1 ∧ RunsKeys Scanned s.tree.levels.flatten ∧
      selectsBottom s = true ∧ s.step .compact = some m ∧
        Trace.Run State.step OwnStep m (ownSteps 4) t ∧ t.foreground = .idle ∧
          t.returned = some (.ok ()) ∧ s.tree.range s.storage [1] [1] = [] ∧
            t.tree.range t.storage [1] [1] = [([1], [10])] := by
  have ended : (Trace.execWhile State.step (fun _ _ => true) (.fresh ⟨1, 1⟩)
      (bottomScript (.delete [1]))).any (fun s => inTwoLevels s && ((twoLevels s).step .compact).any
        (fun m => (Trace.execWhile State.step (fun _ _ => true) m (ownSteps 4)).any
          (bottomResurrects (twoLevels s)))) = true := by decide +kernel
  obtain ⟨s, m, t, sound, called, own, tested⟩ := bottomRun ended
  simp only [bottomResurrects, bottomChecked, compactReturned, Bool.and_eq_true, decide_eq_true_eq]
    at tested
  obtain ⟨⟨⟨⟨⟨⟨keys, small⟩, selects⟩, ascending⟩, idle, success⟩, before⟩, after⟩ := tested
  exact ⟨s, m, t, sound, ascending, small, keys, selects, called, own, State.idleOfIsIdle idle, success,
    before, after⟩

end CardanoLsm
