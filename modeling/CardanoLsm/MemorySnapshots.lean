import CardanoLsm.Calls

/-! Snapshots in memory: what a held snapshot reads, and what a rollback to it gives
back, whatever ran in between. -/
namespace CardanoLsm
open Std Layered

theorem treeGet {s : State} (sound : Sound s) (hash : KeyHash) (k : Key) :
    s.tree.get hash s.storage k =
      .ok (scanView s.tree.memtable s.tree.immutableMemtables s.tree.levels k) :=
  lookupEq hash _ _ sound.treeReadable k

theorem heldGet {s t : State} (sound : Sound s) (sound' : Sound t) (held : s.tree.snapshot ∈ t.held)
    (hash : KeyHash) (k : Key) : s.tree.snapshot.get hash t.storage k = s.tree.get hash s.storage k := by
  rw [treeGet sound]
  exact lookupEq hash _ _ (sound'.heldReadable held) k

theorem rollbackTaken {t : State} {i : Nat} {snap : LsmSnapshot} (sound : Sound t)
    (found : t.held[i]? = some snap) (idle : t.foreground = .idle) :
    t.step (.rollback i) = some ((({ t with held := t.held.eraseIdx i }.withTree
      (t.tree.restore snap)).discard t.tree.levels.flatten).return_ (.ok ())) := by
  have same := (sound.held snap (List.mem_of_getElem? found)).sequenceNumber
  have past : ¬ snap.sequenceNumber > t.tree.sequenceNumber := by omega
  simp only [State.step, idle, State.isIdle, if_true, State.call, found, Option.map_some,
    State.rollbackTo, State.discard, past, if_false, State.withTree]

def Stale (s : State) : Prop := ∀ c ∈ s.background, c.genBefore < s.tree.compactionGeneration

theorem staleStep {s t : State} {a : Action} (moved : State.Moves s a t) (running : s.background.isSome)
    (stale : Stale s) : Stale t := by
  intro d isCycle
  have older := stale d
  cases moved with
  | rollback i snap idle found past => exact Nat.lt_succ_of_lt (older isCycle)
  | compacting t faults c c' here moved =>
    have frame := moved.frame
    simp only [State.at_, frame.background, frame.generation] at isCycle ⊢
    exact older isCycle
  | compacted t faults c r here moved =>
    have frame := moved.frame
    simp only [State.return_, frame.background, frame.generation] at isCycle ⊢
    exact older isCycle
  | begin faults none => simp [none] at running
  | background t faults c c' here moved =>
    have before : c.genBefore < s.tree.compactionGeneration := stale c here
    cases Option.some.inj isCycle
    simp only [moved.frame.generation]
    cases moved <;> exact before
  | backgroundEnd t faults c r here moved => cases isCycle
  | _ => exact older isCycle

theorem staleLevels {s t : State} {faults : Nat → Bool} (stale : Stale s)
    (moved : State.Moves s (.background faults) t) : t.tree.levels = s.tree.levels := by
  have kept : ∀ (t' : State) {c p}, s.background = some c → Cycle.Moves faults s c p t' →
      t'.tree.levels = s.tree.levels := by
    intro t' c p here moved
    cases moved with
    | writeBack g snap job runs result current =>
      have older : g < s.tree.compactionGeneration := stale _ here
      omega
    | _ => rfl
  cases moved with
  | wrote a memtable isWrite idle data => cases isWrite
  | wroteFull a memtable isWrite idle data nonempty => cases isWrite
  | begin faults none => rfl
  | background t faults c c' here moved => exact kept t here moved
  | backgroundEnd t faults c r here moved => exact kept t here moved

/-- A snapshot reads the same for as long as it is held. Rolling back to it succeeds and
gives point lookups and ranges back; the cycle that was running then changes no level. -/
theorem snapshotExact {s₀ s m t : State} {as bs : List Action} (starts : Starts s₀)
    (before : Trace.Run State.step (fun _ _ => True) s₀ as s) (taken : s.step .snapshot = some m)
    (later : Trace.Run State.step (fun _ _ => True) m bs t) (held : s.tree.snapshot ∈ t.held) :
    (∀ hash k, s.tree.snapshot.get hash t.storage k = s.tree.get hash s.storage k) ∧
      ∀ i, t.held[i]? = some s.tree.snapshot → t.foreground = .idle → ∃ u,
        t.step (.rollback i) = some u ∧ u.returned = some (.ok ()) ∧
          (∀ hash k, u.tree.get hash u.storage k = s.tree.get hash s.storage k) ∧
          (∀ lo hi, u.tree.range u.storage lo hi = s.tree.range s.storage lo hi) ∧
          ∀ cs v w faults, Trace.Run State.step (fun x _ => x.background.isSome) u cs v →
            v.background.isSome → v.step (.background faults) = some w →
              w.tree.levels = v.tree.levels := by
  have sound := Sound.run before starts.sound
  have sound' := Sound.run later ((State.stepMoves taken).sound sound)
  refine ⟨heldGet sound sound' held, fun i found idle => ?_⟩
  have rolled := rollbackTaken sound' found idle
  have after := (State.stepMoves rolled).sound sound'
  refine ⟨_, rolled, rfl, fun hash k => ?_, fun lo hi => ?_, ?_⟩
  · rw [treeGet after, treeGet sound]
    rfl
  · exact LsmTree.rangeSame after.treeReadable sound.treeReadable (fun k _ => rfl)
  · intro cs v w faults ran _ stepped
    have stale : Stale v := by
      refine ran.invariant (fun x a y taken running stale =>
        staleStep (State.stepMoves taken) running stale) (fun c isCycle => ?_)
      have older := (sound'.background c isCycle).1
      simp only [State.return_, State.discard, State.withTree, LsmTree.restore]
      omega
    exact staleLevels stale (State.stepMoves stepped)

def laterScript : List Action :=
  .delete [1] :: ownSteps 3 ++ List.replicate 2 (.background noFaults) ++ .compactAll :: ownSteps 3

theorem snapshotExactLater : ∃ s m t : State,
    s.step .snapshot = some m ∧ Trace.Run State.step (fun _ _ => True) m laterScript t ∧
      s.tree.range s.storage [1] [1] = [([1], [10])] ∧ t.tree.range t.storage [1] [1] = [] ∧
        (∀ hash k, s.tree.snapshot.get hash t.storage k = s.tree.get hash s.storage k) ∧
          ∃ u, t.step (.rollback 0) = some u ∧ u.tree.range u.storage [1] [1] = [([1], [10])] := by
  have ended : (Trace.execWhile State.step (fun _ _ => true) (.fresh ⟨1, 1⟩)
      (.insert [1] [10] :: ownSteps 3 ++ List.replicate 3 (.background noFaults))).any (fun s =>
        (s.step .snapshot).any (fun m => (Trace.execWhile State.step (fun _ _ => true) m laterScript).any
          (fun t => State.isIdle t.foreground && decide (t.held[0]? = some s.tree.snapshot) &&
            decide (s.tree.range s.storage [1] [1] = [([1], [10])]) &&
              decide (t.tree.range t.storage [1] [1] = [])))) = true := by decide +kernel
  obtain ⟨s, m, t, before, taken, later, tested⟩ :=
    Trace.runThen (fun _ _ _ _ => trivial) (fun _ _ _ _ => trivial) ended
  simp only [Bool.and_eq_true, decide_eq_true_eq] at tested
  obtain ⟨⟨⟨idle, found⟩, read⟩, gone⟩ := tested
  obtain ⟨reads, rolls⟩ := snapshotExact (Starts.fresh ⟨1, 1⟩) before taken later
    (List.mem_of_getElem? found)
  obtain ⟨u, rolled, -, -, ranges, -⟩ := rolls 0 found (State.idleOfIsIdle idle)
  exact ⟨s, m, t, taken, later, read, gone, reads, u, rolled, (ranges [1] [1]).trans read⟩

/-! The guard of `rollback`. It compares sequence numbers, and no write advances the number of the tree. -/

def OneNumber (s : State) : Prop := ∀ snap ∈ s.held, snap.sequenceNumber = s.tree.sequenceNumber

theorem oneNumberStep {s t : State} {a : Action} (moved : State.Moves s a t) (one : OneNumber s) : OneNumber t := by
  intro snap member
  have cycle : ∀ (t' : State) {c p faults}, Cycle.Moves faults s c p t' → snap ∈ t'.held →
      snap.sequenceNumber = t'.tree.sequenceNumber := fun t' c p faults moved member =>
    (one snap (moved.frame.held ▸ member)).trans moved.frame.sequenceNumber.symm
  cases moved with
  | snapshot idle =>
    rcases List.mem_append.mp member with old | new
    · exact one snap old
    · rw [List.mem_singleton.mp new]
      rfl
  | refused i x idle found future => exact one snap (List.mem_of_mem_eraseIdx member)
  | rollback i x idle found past =>
    exact (one snap (List.mem_of_mem_eraseIdx member)).trans (one x (List.mem_of_getElem? found)).symm
  | cloneSnapshot i x found =>
    rcases List.mem_append.mp member with old | new
    · exact one snap old
    · rw [List.mem_singleton.mp new]
      exact one x (List.mem_of_getElem? found)
  | dropSnapshot i x found => exact one snap (List.mem_of_mem_eraseIdx member)
  | compacting t faults c c' here moved => exact cycle t moved member
  | compacted t faults c r here moved => exact cycle t moved member
  | background t faults c c' here moved => exact cycle t moved member
  | backgroundEnd t faults c r here moved => exact cycle t moved member
  | _ => exact one snap member

inductive Future (s₀ w : State) (b : LsmSnapshot) : Prop where
  | taken {s sa m mb u v : State} {as bs cs ds : List Action} {i : Nat}
      (before : Trace.Run State.step (fun _ _ => True) s₀ as s) (a : s.step .snapshot = some sa)
      (between : Trace.Run State.step (fun _ _ => True) sa bs m) (write : ∃ x ∈ bs, x.writes ≠ [])
      (taken : m.step .snapshot = some mb) (same : b = m.tree.snapshot)
      (until_ : Trace.Run State.step (fun _ _ => True) mb cs u) (found : u.held[i]? = some s.tree.snapshot)
      (back : u.step (.rollback i) = some v) (ok : v.returned = some (.ok ()))
      (since : Trace.Run State.step (fun _ x => x.writes = [] ∧ ∀ j, x ≠ .rollback j) v ds w)

def Refused (w x : State) : Prop :=
  (∃ e, x.returned = some (.error e)) ∧ x.tree.memtable = w.tree.memtable ∧ x.tree.levels = w.tree.levels ∧
    x.tree.sequenceNumber = w.tree.sequenceNumber

theorem rollbackSucceeds {s₀ w : State} {as : List Action} (none : s₀.held = [])
    (ran : Trace.Run State.step (fun _ _ => True) s₀ as w) (idle : w.foreground = .idle) {i : Nat}
    {snap : LsmSnapshot} (found : w.held[i]? = some snap) : ∃ x, w.step (.rollback i) = some x ∧
      x.returned = some (.ok ()) ∧ x.tree.memtable = snap.memtable ∧ x.tree.levels = snap.levels ∧
        x.tree.sequenceNumber = snap.sequenceNumber := by
  have one : OneNumber w := ran.invariant (fun _ _ _ taken _ one => oneNumberStep (State.stepMoves taken) one)
    (fun snap member => by simp [none] at member)
  have number := one snap (List.mem_of_getElem? found)
  have past : ¬ snap.sequenceNumber > w.tree.sequenceNumber := by omega
  refine ⟨{ w with held := w.held.eraseIdx i }.rollbackTo snap, ?_, ?_⟩
  · simp only [State.step, idle, State.isIdle, if_true, State.call, found, Option.map_some]
  · simp only [State.rollbackTo, past, if_false]
    exact ⟨rfl, rfl, rfl, rfl⟩

theorem notRefused {w x : State} (ok : x.returned = some (.ok ())) : ¬ Refused w x := by
  rintro ⟨⟨e, failed⟩, -⟩
  rw [ok] at failed
  cases failed

theorem rollbackNeverRefused {s₀ w : State} {as : List Action} (none : s₀.held = [])
    (ran : Trace.Run State.step (fun _ _ => True) s₀ as w) (idle : w.foreground = .idle) {i : Nat}
    {snap : LsmSnapshot} (found : w.held[i]? = some snap) : ∃ x, w.step (.rollback i) = some x ∧
      (x.returned = some (.ok ()) ∧ x.tree.memtable = snap.memtable ∧ x.tree.levels = snap.levels ∧
        x.tree.sequenceNumber = snap.sequenceNumber) ∧ (Future s₀ w snap → ¬ Refused w x) := by
  obtain ⟨x, taken, succeeds⟩ := rollbackSucceeds none ran idle found
  exact ⟨x, taken, succeeds, fun _ => notRefused succeeds.1⟩

def futureScript : List Action := [.snapshot, .insert [1] [10], .snapshot, .rollback 0]

def State.fresh100 : State := .fresh ⟨100, 4⟩

theorem futureTaken : ∃ w b, Trace.Run State.step (fun _ _ => True) .fresh100 futureScript w ∧
    w.foreground = .idle ∧ w.held[0]? = some b ∧ Future .fresh100 w b := by
  have ended : ((State.fresh100.step .snapshot).any (fun sa => (sa.step (.insert [1] [10])).any (fun m =>
      (m.step .snapshot).any (fun mb => decide (mb.held[0]? = some State.fresh100.tree.snapshot) &&
        (mb.step (.rollback 0)).any (fun w => decide (w.returned = some (.ok ())) && State.isIdle w.foreground &&
          decide (w.held[0]? = some m.tree.snapshot)))))) = true := by decide +kernel
  obtain ⟨sa, a, rest⟩ := (Option.any_eq_true _ _).mp ended
  obtain ⟨m, wrote, rest⟩ := (Option.any_eq_true _ _).mp rest
  obtain ⟨mb, taken, rest⟩ := (Option.any_eq_true _ _).mp rest
  obtain ⟨first, rest⟩ := (Bool.and_eq_true _ _).mp rest
  obtain ⟨w, back, rest⟩ := (Option.any_eq_true _ _).mp rest
  simp only [Bool.and_eq_true, decide_eq_true_eq] at first rest
  obtain ⟨⟨ok, idle⟩, second⟩ := rest
  have ran : Trace.Run State.step (fun _ _ => True) .fresh100 futureScript w :=
    .cons a trivial (.cons wrote trivial (.cons taken trivial (.cons back trivial (.nil w))))
  refine ⟨w, m.tree.snapshot, ran, State.idleOfIsIdle idle, second, ?_⟩
  exact .taken (.nil _) a (.cons wrote trivial (.nil m)) ⟨_, List.mem_cons_self, by simp [Action.writes]⟩ taken rfl
    (.nil mb) first back ok (.nil w)

theorem rollbackNeverRefusedFuture : ∃ w b x, Future .fresh100 w b ∧ w.step (.rollback 0) = some x ∧
    x.returned = some (.ok ()) ∧ x.tree.memtable = b.memtable := by
  obtain ⟨w, b, ran, idle, found, future⟩ := futureTaken
  obtain ⟨x, taken, succeeds, -⟩ := rollbackNeverRefused rfl ran idle found
  exact ⟨w, b, x, future, taken, succeeds.1, succeeds.2.1⟩

theorem rollbackToFuture : ¬ ∀ (s₀ w x : State) (as : List Action) (i : Nat) (b : LsmSnapshot), s₀.held = [] →
    Trace.Run State.step (fun _ _ => True) s₀ as w → w.held[i]? = some b → Future s₀ w b →
      w.step (.rollback i) = some x → Refused w x := by
  intro always
  obtain ⟨w, b, ran, idle, found, future⟩ := futureTaken
  obtain ⟨x, taken, ok, -⟩ := rollbackSucceeds rfl ran idle found
  exact notRefused ok (always _ w x _ 0 b rfl ran found future taken)

end CardanoLsm
