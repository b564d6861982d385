import CardanoLsm.Calls

/-! Calls that fail. Between a call and the operation that fails nothing is lost; what a
failing flush loses is the memtable it took out first. -/
namespace CardanoLsm
open Std Layered

def Beside (s : State) (a : Action) : Prop :=
  (∃ faults, a = .foreground faults) ∨
    (∃ faults, a = .background faults) ∧ ∀ t, s.step a = some t → ∀ k, t.view k = s.view k

inductive MayFail : Action → Prop where
  | write (a : Action) (isWrite : a.isWrite = true) : MayFail a
  | compact : MayFail .compact
  | compactAll : MayFail .compactAll
  | saveSnapshot (name label : String) : MayFail (.saveSnapshot name label)

def NotWritten (a : Action) (k : Key) : Prop := ∀ w ∈ a.writes, w.1 ≠ k

structure Pending (s : State) (a : Action) (m : State) : Prop where
  above : m.foreground.AboveL0 m.tree.levels
  swapped : m.foreground.inFlight ≠ [] → m.tree.memtable.data = ∅
  view : ∀ k, NotWritten a k → m.view k = s.view k

theorem notWrittenGet {a : Action} {k : Key} (other : NotWritten a k) (m : Entries) :
    (insertAll m a.writes)[k]? = m[k]? := by
  have free : pick a.writes.reverse k = none :=
    pickNone.mpr (fun w member => other w (List.mem_reverse.mp member))
  rw [insertAllGet, free, Option.none_or]

theorem pendingCalled {s m : State} {a : Action} (calls : MayFail a) (moved : State.Moves s a m) :
    Pending s a m := by
  cases moved with
  | wrote a memtable isWrite idle data =>
    refine ⟨trivial, fun flight => absurd rfl flight, fun k other => ?_⟩
    simp only [State.view, State.top, State.return_, State.withTree, Foreground.inFlight, idle,
      List.singleton_append, visibleCons, data, notWrittenGet other]
  | wroteFull a memtable isWrite idle data nonempty =>
    refine ⟨trivial, fun _ => rfl, fun k other => ?_⟩
    simp only [State.view, State.top, State.at_, State.withTree, MemTable.new, Foreground.inFlight, idle,
      List.cons_append, List.nil_append, visibleCons, data, notWrittenGet other,
      ExtTreeMap.getElem?_empty, Option.elim_none]
  | compact idle =>
    refine ⟨trivial, fun flight => absurd rfl flight, fun k _ => ?_⟩
    simp only [State.view, State.top, State.at_, idle, Foreground.inFlight]
  | compactAllNothing idle none =>
    refine ⟨trivial, fun flight => absurd rfl flight, fun k _ => ?_⟩
    simp only [State.view, State.top, State.return_, idle, Foreground.inFlight]
  | compactAllClone idle some =>
    refine ⟨trivial, fun flight => absurd rfl flight, fun k _ => ?_⟩
    simp only [State.view, State.top, State.at_, State.cloneAll, idle, Foreground.inFlight]
  | saveFlush name label idle nonempty =>
    refine ⟨trivial, fun _ => rfl, fun k _ => ?_⟩
    simp only [State.view, State.top, State.at_, State.withTree, MemTable.new, idle, Foreground.inFlight,
      List.cons_append, List.nil_append, visibleCons, ExtTreeMap.getElem?_empty, Option.elim_none]
  | saveNoFlush name label idle empty =>
    refine ⟨trivial, fun flight => absurd rfl flight, fun k _ => ?_⟩
    simp only [State.view, State.top, State.at_, State.withTree, MemTable.new, idle, Foreground.inFlight,
      empty]
  | _ => cases calls with
    | write a isWrite => cases isWrite

theorem pendingForeground {s m u : State} {a : Action} {faults : Nat → Bool} (sound : Sound m)
    (pending : Pending s a m) (moved : State.Moves m (.foreground faults) u) :
    u.foreground = .idle ∨ Pending s a u := by
  obtain ⟨above, swapped, view⟩ := pending
  cases moved with
  | wrote a memtable isWrite idle data => cases isWrite
  | wroteFull a memtable isWrite idle data nonempty => cases isWrite
  | flushNumber faults old after here =>
    rw [here] at swapped
    refine Or.inr ⟨fun h member => State.Moves.levelsUnder sound h (levelSubset member), swapped,
      fun k other => ?_⟩
    rw [← view k other]
    simp only [State.view, State.top, State.at_, State.allocate, here, Foreground.inFlight]
  | flushFailed faults old n after e st here failed => exact Or.inl rfl
  | flushWrite faults old n after h st here done =>
    have written := SsTableWriter.writeOk done
    have number : h.runNumber = n := written.handle.2.1
    rw [here] at above swapped
    refine Or.inr ⟨fun x member => number ▸ above x member, fun _ => swapped (by simp [Foreground.inFlight]),
      fun k other => ?_⟩
    rw [← view k other]
    simp only [State.view, State.top, State.at_, here, Foreground.inFlight, written.entries]
  | flushPush faults h after f r here quiet ends =>
    have inside := State.Moves.levelsInside sound
    have none := quiet.inFlight
    rw [here] at above
    have pushed := pushOrder sound.tree.distinct above (show 0 < m.tree.levels.length by omega)
    refine Or.inr ⟨by cases quiet <;> trivial, fun flight => absurd none flight, fun k other => ?_⟩
    rw [← view k other]
    simp only [State.view, State.top, State.pushL0, State.withLevels, none, here]
    exact congrArg (fun runs => visible (m.tree.memtable.data :: layersOf runs) k) pushed
  | drained faults after f r here quiet ends =>
    have none := quiet.inFlight
    refine Or.inr ⟨by cases quiet <;> trivial, fun flight => absurd none flight, fun k other => ?_⟩
    rw [← view k other]
    simp only [State.view, State.top, none, here]
    rfl
  | compacting t faults c c' here moved =>
    have frame := moved.frame
    refine Or.inr ⟨trivial, fun flight => absurd rfl flight, fun k other => ?_⟩
    rw [← view k other]
    have levels : t.tree.levels = m.tree.levels := moved.levels (fun g snap job runs result same => by
      subst same
      cases moved)
    simp only [State.view, State.top, State.at_, here, Foreground.inFlight, frame.memtable, levels]
  | compacted t faults c r here moved => exact Or.inl rfl
  | compactAllNumber faults all here =>
    refine Or.inr ⟨trivial, fun flight => absurd rfl flight, fun k other => ?_⟩
    rw [← view k other]
    simp only [State.view, State.top, State.at_, State.allocate, here, Foreground.inFlight]
  | compactAllFailed faults all n e st here failed => exact Or.inl rfl
  | compactAllMerge faults all n result st here done =>
    refine Or.inr ⟨trivial, fun flight => absurd rfl flight, fun k other => ?_⟩
    rw [← view k other]
    simp only [State.view, State.top, State.at_, here, Foreground.inFlight]
  | compactAllInstall faults all result here => exact Or.inl rfl
  | saveClone faults name label here =>
    refine Or.inr ⟨trivial, fun flight => absurd rfl flight, fun k other => ?_⟩
    rw [← view k other]
    simp only [State.view, State.top, State.at_, State.cloneAll, here, Foreground.inFlight]
  | saveCreate faults name label seq all r st here created => exact Or.inl rfl

theorem pendingBackground {s m u : State} {a : Action} {faults : Nat → Bool} (sound : Sound m)
    (pending : Pending s a m) (moved : State.Moves m (.background faults) u)
    (kept : ∀ k, u.view k = m.view k) : Pending s a u := by
  have view : ∀ k, NotWritten a k → u.view k = s.view k :=
    fun k other => (kept k).trans (pending.view k other)
  have below : ∀ {c p t}, Cycle.Moves faults m c p t → c ∈ m.background →
      m.foreground.AboveL0 t.tree.levels := by
    intro c p t moved here
    have above := pending.above
    have shape := sound.background c here
    cases f : m.foreground with
    | flushNumbered old n after =>
      rw [f] at above
      exact fun h member => above h (moved.level0 sound.tree shape member)
    | flushWritten h after =>
      rw [f] at above
      exact fun x member => above x (moved.level0 sound.tree shape member)
    | _ => trivial
  cases moved with
  | wrote a memtable isWrite idle data => cases isWrite
  | wroteFull a memtable isWrite idle data nonempty => cases isWrite
  | begin faults none => exact ⟨pending.above, pending.swapped, view⟩
  | background t faults c c' here moved =>
    have frame := moved.frame
    refine ⟨?_, ?_, view⟩
    · simpa only [frame.foreground] using below moved here
    · simpa only [frame.foreground, frame.memtable] using pending.swapped
  | backgroundEnd t faults c r here moved =>
    have frame := moved.frame
    refine ⟨?_, ?_, view⟩
    · simpa only [frame.foreground] using below moved here
    · simpa only [frame.foreground, frame.memtable] using pending.swapped

theorem pendingStep {s m u : State} {a b : Action} (sound : Sound m) (taken : m.step b = some u)
    (beside : Beside m b) (pending : m.foreground = .idle ∨ Pending s a m) :
    u.foreground = .idle ∨ Pending s a u := by
  rcases pending with idle | pending
  · rcases beside with ⟨faults, rfl⟩ | ⟨⟨faults, rfl⟩, -⟩
    · simp [State.step, State.stepForeground, idle] at taken
    · refine Or.inl ?_
      cases State.stepMoves taken with
      | wrote a memtable isWrite idle data => cases isWrite
      | wroteFull a memtable isWrite idle data nonempty => cases isWrite
      | begin faults none => exact idle
      | background t faults c c' here moved => exact moved.frame.foreground.trans idle
      | backgroundEnd t faults c r here moved => exact moved.frame.foreground.trans idle
  · rcases beside with ⟨faults, rfl⟩ | ⟨⟨faults, rfl⟩, kept⟩
    · exact pendingForeground sound pending (State.stepMoves taken)
    · exact Or.inr (pendingBackground sound pending (State.stepMoves taken) (kept u taken))

theorem failingStep {s m t : State} {a : Action} {faults : Nat → Bool} {e : Error}
    (pending : Pending s a m) (moved : State.Moves m (.foreground faults) t)
    (ended : t.foreground = .idle) (error : t.returned = some (.error e)) (k : Key)
    (other : NotWritten a k) :
    t.view k = s.view k ↔ ∀ old n after, m.foreground = .flushNumbered old n after →
      ∀ entry, old.data[k]? = some entry → visible (layersOf (rangeOrder m.tree.levels)) k = entry := by
  have same : (∀ old n after, m.foreground ≠ .flushNumbered old n after) → t.view k = m.view k →
      (t.view k = s.view k ↔ ∀ old n after, m.foreground = .flushNumbered old n after →
        ∀ entry, old.data[k]? = some entry → visible (layersOf (rangeOrder m.tree.levels)) k = entry) := by
    intro elsewhere kept
    exact ⟨fun _ old n after here => absurd here (elsewhere old n after),
      fun _ => kept.trans (pending.view k other)⟩
  cases moved with
  | wrote a memtable isWrite idle data => cases isWrite
  | wroteFull a memtable isWrite idle data nonempty => cases isWrite
  | flushFailed faults old n after e st here failed =>
    have empty := pending.swapped (by rw [here]; simp [Foreground.inFlight])
    have before := pending.view k other
    simp only [State.view, State.top, here, Foreground.inFlight, empty, List.cons_append, List.nil_append,
      visibleCons, ExtTreeMap.getElem?_empty, Option.elim_none] at before
    simp only [State.view, State.top, State.return_, Foreground.inFlight, empty, List.cons_append,
      List.nil_append, visibleCons, ExtTreeMap.getElem?_empty, Option.elim_none]
    rw [← before]
    constructor
    · intro same old' n' after' here' entry held
      rw [here] at here'
      cases here'
      rw [same, held]
      rfl
    · intro condition
      cases held : old.data[k]? with
      | none => rfl
      | some entry => exact condition old n after here entry held
  | flushPush faults h after f r here quiet ends =>
    cases (ends ended).symm.trans error
  | drained faults after f r here quiet ends => cases (ends ended).symm.trans error
  | compacted t faults c r here moved =>
    cases Option.some.inj error
    refine same (fun old n after => by simp [here]) ?_
    cases moved with
    | failed g snap job n runs e st failed =>
      simp only [State.view, State.top, State.return_, State.discard, here, Foreground.inFlight]
  | compactAllFailed faults all n e st here failed =>
    refine same (fun old n after => by simp [here]) ?_
    simp only [State.view, State.top, State.return_, State.discard, here, Foreground.inFlight]
  | compactAllInstall faults all result here => cases error
  | saveCreate faults name label seq all r st here created =>
    refine same (fun old n after => by simp [here]) ?_
    simp only [State.view, State.top, State.return_, State.discard, here, Foreground.inFlight]
  | _ => cases ended

def ReportsSame (s t : State) (k : Key) : Prop :=
  ∀ lo hi v, (k, v) ∈ t.tree.range t.storage lo hi ↔ (k, v) ∈ s.tree.range s.storage lo hi

theorem reportsSame {s t : State} (sound : Sound s) (sound' : Sound t) (k : Key) :
    ReportsSame s t k ↔ t.tree.view k = s.tree.view k := by
  constructor
  · intro same
    ext v
    have point := same k k v
    simpa only [LsmTree.rangeMem sound.treeReadable, LsmTree.rangeMem sound'.treeReadable, inRangeSelf,
      true_and] using point
  · intro same lo hi v
    rw [LsmTree.rangeMem sound.treeReadable, LsmTree.rangeMem sound'.treeReadable, same]

/-- A call that fails changes nothing that is read of the keys it does not write, unless
what fails is the write of a flushed run whose entries the levels do not have. -/
theorem failedCall {s₀ s m₀ m t : State} {a : Action} {as bs : List Action} {faults : Nat → Bool}
    {e : Error} (starts : Starts s₀) (ran : Trace.Run State.step (fun _ _ => True) s₀ as s)
    (calls : MayFail a) (called : s.step a = some m₀) (during : Trace.Run State.step Beside m₀ bs m)
    (fails : m.step (.foreground faults) = some t) (ended : t.foreground = .idle)
    (error : t.returned = some (.error e)) :
    (∀ k, NotWritten a k → ReportsSame s t k) ↔
      ∀ old n after, m.foreground = .flushNumbered old n after → ∀ k, NotWritten a k →
        ∀ entry, old.data[k]? = some entry → visible (layersOf (rangeOrder m.tree.levels)) k = entry := by
  have sound := Sound.run ran starts.sound
  have idle : s.foreground.inFlight = [] := by
    cases State.stepMoves called with
    | wrote a memtable isWrite idle data => rw [idle]; rfl
    | wroteFull a memtable isWrite idle data nonempty => rw [idle]; rfl
    | compact idle => rw [idle]; rfl
    | compactAllNothing idle none => rw [idle]; rfl
    | compactAllClone idle some => rw [idle]; rfl
    | saveFlush name label idle nonempty => rw [idle]; rfl
    | saveNoFlush name label idle empty => rw [idle]; rfl
    | _ => cases calls with
      | write a isWrite => cases isWrite
  have reached : Sound m ∧ (m.foreground = .idle ∨ Pending s a m) := by
    refine during.invariant (I := fun m => Sound m ∧ (m.foreground = .idle ∨ Pending s a m))
      (fun u b v taken beside holds => ?_)
      ⟨(State.stepMoves called).sound sound, Or.inr (pendingCalled calls (State.stepMoves called))⟩
    exact ⟨(State.stepMoves taken).sound holds.1, pendingStep holds.1 taken beside holds.2⟩
  obtain ⟨sound', pending⟩ := reached
  have moved := State.stepMoves fails
  have pending : Pending s a m := by
    rcases pending with idle | pending
    · simp [State.step, State.stepForeground, idle] at fails
    · exact pending
  have after := moved.sound sound'
  have step : ∀ k, NotWritten a k → (ReportsSame s t k ↔ ∀ old n after,
      m.foreground = .flushNumbered old n after → ∀ entry, old.data[k]? = some entry →
        visible (layersOf (rangeOrder m.tree.levels)) k = entry) := by
    intro k other
    rw [reportsSame sound after, ← State.idleView sound idle,
      ← State.idleView after (by rw [ended]; rfl)]
    exact failingStep pending moved ended error k other
  constructor
  · exact fun same old n after here k other => (step k other).mp (same k other) old n after here
  · exact fun holds k other => (step k other).mpr (fun old n after here => holds old n after here k other)

def allFail : Nat → Bool := fun _ => true

def failScript : List Action := .insert [1] [10] :: ownSteps 3

theorem duringAllowed (n : Nat) : ∀ s, ∀ a ∈ ownSteps n, (fun _ _ => true) s a = true → Beside s a :=
  fun s a member checked => Or.inl (ownStepsAllowed n s a member checked)

def failsOutside (m : State) : Bool :=
  match m.foreground with
  | .flushNumbered _ _ _ => false
  | _ => true

def failed (t : State) : Bool :=
  State.isIdle t.foreground && match t.returned with
    | some (.error _) => true
    | _ => false

theorem failedOf {t : State} (ends : failed t = true) :
    t.foreground = .idle ∧ ∃ e, t.returned = some (.error e) := by
  obtain ⟨idle, error⟩ := Bool.and_eq_true_iff.mp ends
  refine ⟨State.idleOfIsIdle idle, ?_⟩
  split at error
  · rename_i e returned
    exact ⟨e, returned⟩
  · cases error

theorem failedSave : ∃ s m₀ m t,
    Trace.Run State.step (fun _ _ => True) (.fresh ⟨1, 1⟩) failScript s ∧
      s.step (.saveSnapshot "a" "b") = some m₀ ∧ Trace.Run State.step Beside m₀ (ownSteps 1) m ∧
        m.step (.foreground allFail) = some t ∧ ∀ k, ReportsSame s t k := by
  have ended : (Trace.execWhile State.step (fun _ _ => true) (.fresh ⟨1, 1⟩) failScript).any (fun s =>
      (s.step (.saveSnapshot "a" "b")).any (fun m₀ =>
        (Trace.execWhile State.step (fun _ _ => true) m₀ (ownSteps 1)).any (fun m =>
          failsOutside m && (m.step (.foreground allFail)).any failed))) = true := by decide +kernel
  obtain ⟨s, m₀, m, ran, called, during, tested⟩ :=
    Trace.runThen (fun _ _ _ _ => trivial) (duringAllowed 1) ended
  obtain ⟨outside, fails⟩ := Bool.and_eq_true_iff.mp tested
  obtain ⟨t, fails, ends⟩ := (Option.any_eq_true _ _).mp fails
  obtain ⟨idle, e, error⟩ := failedOf ends
  refine ⟨s, m₀, m, t, ran, called, during, fails, ?_⟩
  have same := failedCall (Starts.fresh ⟨1, 1⟩) ran (.saveSnapshot "a" "b") called during fails idle error
  refine fun k => same.mpr (fun old n after here => ?_) k (fun w member => absurd member List.not_mem_nil)
  simp [failsOutside, here] at outside

theorem failedFlush : ∃ s m₀ m t e,
    Trace.Run State.step (fun _ _ => True) (.fresh ⟨4, 1⟩) [.insert [1] [10]] s ∧
      s.returned = some (.ok ()) ∧ s.step (.insert [2] [20]) = some m₀ ∧
        Trace.Run State.step Beside m₀ (ownSteps 1) m ∧ m.step (.foreground allFail) = some t ∧
          t.foreground = .idle ∧ t.returned = some (.error e) ∧
            s.tree.range s.storage [1] [1] = [([1], [10])] ∧ t.tree.range t.storage [1] [1] = [] := by
  have ended : (Trace.execWhile State.step (fun _ _ => true) (.fresh ⟨4, 1⟩) [.insert [1] [10]]).any
      (fun s => (s.step (.insert [2] [20])).any (fun m₀ =>
        (Trace.execWhile State.step (fun _ _ => true) m₀ (ownSteps 1)).any (fun m =>
          decide (s.returned = some (.ok ())) && decide (s.tree.range s.storage [1] [1] = [([1], [10])]) &&
            (m.step (.foreground allFail)).any (fun t =>
              failed t && decide (t.tree.range t.storage [1] [1] = []))))) = true := by decide +kernel
  obtain ⟨s, m₀, m, ran, called, during, tested⟩ :=
    Trace.runThen (fun _ _ _ _ => trivial) (duringAllowed 1) ended
  simp only [Bool.and_eq_true, decide_eq_true_eq] at tested
  obtain ⟨⟨acknowledged, before⟩, fails⟩ := tested
  obtain ⟨t, fails, ends⟩ := (Option.any_eq_true _ _).mp fails
  obtain ⟨ends, lost⟩ := Bool.and_eq_true_iff.mp ends
  obtain ⟨idle, e, error⟩ := failedOf ends
  exact ⟨s, m₀, m, t, e, ran, acknowledged, called, during, fails, idle, error, before, of_decide_eq_true lost⟩

end CardanoLsm
