import CardanoLsm.Order

/-! Point lookups against the reference model. The scan goes on below a tombstone, so a
deleted key may show an older value; nothing else separates `get` from the map. -/
namespace CardanoLsm
open Std Layered

def Uncovers (runs : List SsTableHandle) (k : Key) : Prop :=
  resolve (layersOf runs) k = some none ∧ ∃ h ∈ runs, ∃ v, h.run.entries[k]? = some (some v)

theorem newestValue {runs : List SsTableHandle} {k : Key} {v : Value}
    (newest : resolve (layersOf runs) k = some (some v)) :
    runs.findSome? (fun h => (h.run.entries[k]?).join) = some v := by
  induction runs with
  | nil => cases newest
  | cons h rest ih =>
    rw [layersOf, List.map_cons, resolveCons] at newest
    rw [List.findSome?_cons]
    cases held : h.run.entries[k]? with
    | none =>
      rw [held, Option.none_or] at newest
      exact ih newest
    | some e =>
      rw [held, Option.some_or] at newest
      cases Option.some.inj newest
      rfl

theorem skipsTombstones (runs : List SsTableHandle) (k : Key) :
    runs.findSome? (fun h => (h.run.entries[k]?).join) = visible (layersOf runs) k ↔ ¬ Uncovers runs k := by
  have values : runs.findSome? (fun h => (h.run.entries[k]?).join) = none ↔
      ¬ ∃ h ∈ runs, ∃ v, h.run.entries[k]? = some (some v) := by
    rw [List.findSome?_eq_none_iff]
    constructor
    · rintro none ⟨h, member, v, held⟩
      have := none h member
      rw [held] at this
      cases this
    · intro none h member
      cases held : h.run.entries[k]? with
      | none => rfl
      | some e =>
        cases e with
        | none => rfl
        | some v => exact absurd ⟨h, member, v, held⟩ none
  cases newest : resolve (layersOf runs) k with
  | none =>
    have absent : ¬ ∃ h ∈ runs, ∃ v, h.run.entries[k]? = some (some v) := by
      rintro ⟨h, member, v, held⟩
      rw [resolveNone.mp newest h.run.entries (List.mem_map_of_mem member)] at held
      cases held
    simp only [values.mpr absent, visible, newest, Uncovers]
    simp
  | some e =>
    cases e with
    | none =>
      simp only [visible, newest, Uncovers, Option.join_some, true_and]
      exact values
    | some v =>
      simp [visible, newest, Uncovers, newestValue newest]

theorem writesNewest {gone : Prop} {s : State} {a : Action} (content : Content gone s)
    (ok : StepOk gone s a) : ∀ c ∈ s.cycleOf a, c.WritesNewest s.tree := by
  intro c here g snap job runs result same wanted add adds _
  subst same
  have current : (Cycle.merged g snap job runs result).Current gone s.tree := by
    cases a with
    | foreground faults => exact content.foreground _ (Foreground.cycleSome here)
    | background faults => exact content.background _ here
    | _ => cases here
  obtain ⟨-, below, -, -⟩ := Cycle.Moves.writeBackAlive wanted.symm current (ok.cycle _ here)
  obtain ⟨out, member, rfl⟩ := Option.map_eq_some_iff.mp adds
  exact below out member

/-- After a run in which nothing fails and every compaction keeps what range reads, a point
lookup returns what the reference map holds, except where it uncovers a deleted value. -/
theorem getRefines {config : LsmConfig} {overflowChecks : Bool} {as : List Action} {s : State}
    (ran : Trace.Run State.step (StepOk True) (.fresh config overflowChecks) as s) (idle : s.foreground = .idle)
    (hash : KeyHash) (k : Key) :
    s.tree.get hash s.storage k = .ok (Reference.empty.run as).map[k]? ↔
      ¬ (s.tree.memtable.get k = none ∧ Uncovers (scanOrder s.tree.levels) k) := by
  obtain ⟨refines, ordered, -⟩ : Refines True s (Reference.empty.run as) ∧ Ordered s.tree.levels ∧
      ∀ snap ∈ s.held, Ordered snap.levels := by
    refine ran.simulate (R := fun s r => Refines True s r ∧ Ordered s.tree.levels ∧
      ∀ snap ∈ s.held, Ordered snap.levels) (fun s a t r taken ok holds => ?_)
      ⟨Refines.fresh True config, fun level member => ?_, fun snap member => ?_⟩
    · obtain ⟨refines, ordered, held⟩ := holds
      have moved := State.stepMoves taken
      exact ⟨refines.step taken ok, moved.treeOrder refines.sound ordered held refines.content.aboveL0
        (writesNewest refines.content ok), moved.heldOrder ordered held⟩
    · have blank : (State.fresh config overflowChecks).tree.levels = List.replicate 7 [] := rfl
      rw [blank] at member
      rw [List.eq_of_mem_replicate member]
      exact List.Pairwise.nil
    · cases member
  have view := refines.tracks.view k
  rw [State.idleView refines.sound (by rw [idle]; rfl), soundView refines.sound, visibleCons,
    ← ordered.scanOrder] at view
  have none : s.tree.immutableMemtables = [] := refines.sound.tree.immutables
  have buffered : resolve (memLayers s.tree.memtable s.tree.immutableMemtables) k =
      s.tree.memtable.data[k]? := by simp [memLayers, none]
  rw [treeGet refines.sound, Except.ok.injEq, ← view, scanView, buffered, MemTable.get]
  cases s.tree.memtable.data[k]? with
  | some e => simp
  | none =>
    simp only [Option.elim_none, true_and]
    exact skipsTombstones _ k

def newerScript : List Action :=
  .insert [1] [10] :: ownSteps 3 ++ List.replicate 5 (.background noFaults) ++ .insert [1] [20] :: ownSteps 3

theorem scriptOk {script : List Action} (clean : ∀ a ∈ script, a.Clean) :
    ∀ s, ∀ a ∈ script, stepChecked s a = true → StepOk True s a :=
  fun _ a member checked => stepOkOf (clean a member) checked

theorem getRefinesNewer : ∃ s,
    Trace.Run State.step (StepOk True) (.fresh ⟨1, 1⟩) newerScript s ∧
      s.tree.levels.flatten.length = 2 ∧ ∀ hash, s.tree.get hash s.storage [1] = .ok (some [20]) := by
  have clean : ∀ a ∈ newerScript, a.Clean := by simp [newerScript, ownSteps, noFaults, Action.Clean]
  have ended : (Trace.execWhile State.step stepChecked (.fresh ⟨1, 1⟩) newerScript).any (fun s =>
      State.isIdle s.foreground && decide (s.tree.levels.flatten.length = 2) &&
        decide (resolve (layersOf (scanOrder s.tree.levels)) [1] = some (some [20]))) = true := by
    decide +kernel
  obtain ⟨s, ran, tested⟩ := Trace.runTo (scriptOk clean) ended
  simp only [Bool.and_eq_true, decide_eq_true_eq] at tested
  obtain ⟨⟨idle, two⟩, newest⟩ := tested
  have value : (Reference.empty.run newerScript).map[([1] : Key)]? = some [20] := by decide +kernel
  refine ⟨s, ran, two, fun hash => ?_⟩
  rw [← value]
  refine (getRefines ran (State.idleOfIsIdle idle) hash [1]).mpr (fun uncovers => ?_)
  have tombstone := uncovers.2.1
  rw [newest] at tombstone
  cases tombstone

def deletedScript : List Action := .insert [1] [10] :: ownSteps 3 ++ .delete [1] :: ownSteps 3

theorem getUncovers : ∃ s,
    Trace.Run State.step (fun _ a => a.Clean) (.fresh ⟨1, 1⟩) deletedScript s ∧ s.foreground = .idle ∧
      (Reference.empty.run deletedScript).map[([1] : Key)]? = none ∧
        ∀ hash, s.tree.get hash s.storage [1] = .ok (some [10]) := by
  have clean : ∀ a ∈ deletedScript, a.Clean := by simp [deletedScript, ownSteps, noFaults, Action.Clean]
  have ended : (Trace.execWhile State.step (fun _ _ => true) (.fresh ⟨1, 1⟩) deletedScript).any (fun s =>
      State.isIdle s.foreground && decide (scanView s.tree.memtable s.tree.immutableMemtables
        s.tree.levels [1] = some [10])) = true := by decide +kernel
  obtain ⟨s, ran, tested⟩ := Trace.runTo (fun _ a member _ => clean a member) ended
  simp only [Bool.and_eq_true, decide_eq_true_eq] at tested
  refine ⟨s, ran, State.idleOfIsIdle tested.1, by decide +kernel, fun hash => ?_⟩
  exact (treeGet (Sound.run ran (Starts.fresh ⟨1, 1⟩).sound) hash [1]).trans (congrArg Except.ok tested.2)

end CardanoLsm
