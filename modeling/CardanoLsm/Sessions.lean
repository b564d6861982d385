import CardanoLsm.SaveFailures

/-! Sessions one after the other on one directory: trees that are opened, used and dropped, by one
process or by several in turn, and in-memory snapshots that outlive the tree they were taken from. -/
namespace CardanoLsm
open Std Layered Script

structure Sessions where
  session : State
  isOpen : Bool

inductive SessionsAction where
  | own (a : Action)
  | close
  | open (config : LsmConfig)
  | openSnapshot (name : String)
  | deleteSnapshot (name : String)
  | exit

def Action.outlives : Action → Bool
  | .cloneSnapshot _ | .dropSnapshot _ | .collect _ => true
  | _ => false

def LsmTree.emptied (t : LsmTree) : LsmTree := { t with levels := t.levels.map (fun _ => []) }

def PersistentSnapshot.validate (st : Storage) (name : String) (metadata : SnapshotMetadata) : Except Nat Unit :=
  match metadata.runs.find? (fun run => (st.runAt (.snapshot name) run.runNumber).isNone) with
  | some run => .error run.runNumber
  | none => .ok ()

namespace Sessions

def on (st : Storage) (overflowChecks : Bool := false) : Sessions :=
  ⟨.begin (LsmTree.start ⟨0, 0⟩ 0 0 [], st) overflowChecks, false⟩

def fresh (overflowChecks : Bool := false) : Sessions := on Storage.empty overflowChecks

def deleteSnapshot (s : State) (name : String) : State :=
  match PersistentSnapshot.load s.storage name with
  | .error e => s.return_ (.error e)
  | .ok _ =>
    let left := s.storage.snapshots.filter (fun saved => saved.1 != name)
    { s with storage := { s.storage with snapshots := left } }.return_ (.ok ())

/-- The handles of a tree that is dropped go one by one, like all others that are dropped. A
process that ends runs no destructors. -/
def step (w : Sessions) : SessionsAction → Option Sessions
  | .own a =>
    if w.isOpen || a.outlives then (w.session.step a).map (fun s => { w with session := s }) else none
  | .close =>
    if w.isOpen && State.isIdle w.session.foreground && w.session.background.isNone then
      some ⟨(w.session.withTree w.session.tree.emptied).discard w.session.tree.levels.flatten, false⟩
    else none
  | .open config =>
    if w.isOpen then none
    else
      let opened := LsmTree.open config w.session.storage
      some ⟨{ w.session with tree := opened.1, storage := opened.2, returned := none }, true⟩
  | .openSnapshot name =>
    if w.isOpen then none
    else
      match LsmTree.openSnapshot name w.session.storage with
      | (.ok tree, st) => some ⟨{ w.session with tree := tree, storage := st, returned := none }, true⟩
      | (.error e, st) => some ⟨{ w.session with storage := st, returned := some (.error e) }, false⟩
  | .deleteSnapshot name =>
    if w.isOpen && State.isIdle w.session.foreground then
      some { w with session := deleteSnapshot w.session name }
    else none
  | .exit =>
    some ⟨⟨w.session.tree.emptied, w.session.storage.stopped, [], .idle, none, [], none,
      w.session.overflowChecks⟩, false⟩

structure Booked (w : Sessions) : Prop where
  arranged : w.session.Arranged
  depth : w.session.tree.maxLevel = 6
  books : Tallied w.session.storage w.session.tree.nextRunNumber w.session.settled w.session.outputs
    w.session.allocated
  closed : w.isOpen = false →
    w.session.foreground = .idle ∧ w.session.background = none ∧ w.session.tree.levels.flatten = []

end Sessions

namespace Tallied
variable {st st' : Storage} {next : Nat} {rest : Multiset SsTableHandle} {outputs : List SsTableHandle}
  {allocated : List Nat}

theorem opened {n : Nat} {h : SsTableHandle} (book : Tallied st next rest outputs allocated)
    (ok : SsTableHandle.open st n = (.ok h, st')) (level : Nat) :
    Tallied st' next ({ h with level := level } ::ₘ rest) outputs allocated := by
  obtain ⟨dir, -, -, counter, -, rfl⟩ := Owns.openOk ok
  have created := book.tally.create (show SsTableHandle.refcount { h with level := level } = st.nextRefcount from counter)
  refine ⟨?_, ?_⟩
  · rw [Multiset.cons_add]
    exact created
  · rw [Multiset.cons_add]
    exact cons dir book.inActive

theorem snoc {hs : List SsTableHandle} {h : SsTableHandle}
    (book : Tallied st next (h ::ₘ (↑hs + rest)) outputs allocated) :
    Tallied st next (↑(hs ++ [h]) + rest) outputs allocated := by
  refine book.congr ?_
  simp only [← Multiset.coe_add, Multiset.coe_singleton, ← Multiset.singleton_add]
  abel

theorem openListed (numbers : List Nat) {acc : List SsTableHandle}
    (book : Tallied st next (↑acc + rest) outputs allocated) :
    Tallied (numbers.foldl LsmTree.openNext (acc, st)).2 next
      (↑(numbers.foldl LsmTree.openNext (acc, st)).1 + rest) outputs allocated := by
  induction numbers generalizing acc st with
  | nil => exact book
  | cons n numbers ih =>
    rw [List.foldl_cons, LsmTree.openNext]
    split
    · rename_i h st' ok
      exact ih (snoc (book.opened ok h.level))
    · rename_i e st' failed
      rw [openError failed]
      exact ih book

theorem activeLeft {hs : List SsTableHandle} (book : Tallied st next (↑hs + rest) outputs allocated) :
    ∀ h ∈ hs, h.dir = .active := fun h member =>
  book.inActive h (Multiset.mem_add.mpr (Or.inl (Multiset.mem_add.mpr (Or.inl (Multiset.mem_coe.mpr member)))))

theorem openRuns (name : String) (runs : List SnapshotRun) {acc : List SsTableHandle}
    (book : Tallied st next (↑acc + rest) outputs allocated) :
    match LsmTree.openRuns name runs acc st with
    | (.ok hs, st') => Tallied st' next (↑hs + rest) outputs allocated ∧ st'.snapshots = st.snapshots
    | (.error _, st') => Tallied st' next rest outputs allocated ∧ st'.snapshots = st.snapshots := by
  induction runs generalizing acc st with
  | nil => exact ⟨book, rfl⟩
  | cons run runs ih =>
    rw [LsmTree.openRuns]
    cases first : SsTableHandle.open st run.runNumber with
    | mk outcome st₁ =>
      cases outcome with
      | ok h =>
        have same : st₁.snapshots = st.snapshots := by
          obtain ⟨-, -, -, -, -, rfl⟩ := Owns.openOk first
          rfl
        rw [← same]
        exact ih (snoc (book.opened first run.level))
      | error e =>
        rw [openError first]
        exact ⟨book.dropAll, LsmTree.dropSnapshots book.activeLeft⟩

theorem openListedSnapshots (numbers : List Nat) (acc : List SsTableHandle) (st : Storage) :
    (numbers.foldl LsmTree.openNext (acc, st)).2.snapshots = st.snapshots := by
  induction numbers generalizing acc st with
  | nil => rfl
  | cons n numbers ih =>
    rw [List.foldl_cons, LsmTree.openNext]
    split
    · rename_i h st' ok
      rw [ih]
      obtain ⟨-, -, -, -, -, rfl⟩ := Owns.openOk ok
      rfl
    · rename_i e st' failed
      rw [ih, openError failed]

end Tallied

namespace LsmTree

theorem linkRunsAside (name : String) (runs : List SnapshotRun) (st : Storage) :
    (linkRuns name runs st).2.refcounts = st.refcounts ∧ (linkRuns name runs st).2.nextRefcount = st.nextRefcount ∧
      (linkRuns name runs st).2.snapshots = st.snapshots := by
  induction runs generalizing st with
  | nil => exact ⟨rfl, rfl, rfl⟩
  | cons run runs ih =>
    unfold linkRuns
    split
    · exact ⟨rfl, rfl, rfl⟩
    · split
      · exact ⟨rfl, rfl, rfl⟩
      · exact ih _

end LsmTree

theorem State.outlivesKeeps {s t : State} {a : Action} (outlives : a.outlives = true) (taken : s.step a = some t) :
    t.tree = s.tree ∧ t.foreground = s.foreground ∧ t.background = s.background := by
  cases a with
  | cloneSnapshot i =>
    obtain ⟨snap, -, rfl⟩ := Option.map_eq_some_iff.mp taken
    exact ⟨rfl, rfl, rfl⟩
  | dropSnapshot i =>
    obtain ⟨snap, -, rfl⟩ := Option.map_eq_some_iff.mp taken
    exact ⟨rfl, rfl, rfl⟩
  | collect i =>
    obtain ⟨h, -, rfl⟩ := Option.map_eq_some_iff.mp taken
    exact ⟨rfl, rfl, rfl⟩
  | _ => cases outlives

theorem emptiedFlatten (t : LsmTree) : t.emptied.levels.flatten = [] := by simp [LsmTree.emptied]

namespace Sessions
variable {w w' : Sessions}

theorem Booked.opens (booked : Booked w) (shut : w.isOpen = false) {config : LsmConfig} {seq maxRunNumber : Nat}
    {sstables : List SsTableHandle} {st : Storage} {r : Option (Except Error Unit)}
    (book : Tallied st 0 (↑(sstables.filter (fun h => decide (h.level ≤ 6))) +
      (↑w.session.garbage + ↑(State.heldHandles w.session.held))) [] []) :
    Booked ⟨{ w.session with
      tree := LsmTree.start config seq maxRunNumber sstables, storage := st, returned := r }, true⟩ := by
  obtain ⟨idle, joined, -⟩ := booked.closed shut
  refine ⟨⟨Nat.succ_pos 5, by simp [LsmTree.start, assemble], fun snap member => ?_, ?_, fun c running => ?_⟩, rfl,
    book.congr ?_, nofun⟩
  · exact (booked.arranged.held snap member).trans (by rw [booked.depth]; rfl)
  · show w.session.foreground.Arranged 6
    rw [idle]
    trivial
  · have running : c ∈ w.session.background := running
    rw [joined] at running
    cases running
  · simp only [State.settled, State.settledBase, State.outputs, idle, joined, Foreground.clones, Foreground.outputs,
      Option.elim_none, List.append_nil, Multiset.coe_nil, add_zero, LsmTree.start]
    rw [Multiset.coe_eq_coe.mpr (assemblePerm 6 sstables), add_assoc]

theorem Booked.left (booked : Booked w) (shut : w.isOpen = false) :
    Tallied w.session.storage 0 (↑([] : List SsTableHandle) +
      (↑w.session.garbage + ↑(State.heldHandles w.session.held))) [] [] := by
  obtain ⟨idle, joined, none⟩ := booked.closed shut
  refine booked.books.congr ?_
  simp only [State.settled, State.settledBase, State.outputs, idle, joined, none, Foreground.clones, Foreground.outputs,
    Option.elim_none, List.append_nil, Multiset.coe_nil, add_zero, zero_add]

theorem Booked.own (booked : Booked w) {a : Action} {s : State} (taken : w.session.step a = some s)
    (allowed : w.isOpen = false → a.outlives = true) : Booked { w with session := s } := by
  have moved := State.stepMoves taken
  refine ⟨moved.arranged booked.arranged, moved.maxLevelKept.1.trans booked.depth,
    moved.books Tallied.bookkeeping booked.arranged booked.books, fun shut => ?_⟩
  obtain ⟨tree, foreground, background⟩ := State.outlivesKeeps (allowed shut) taken
  rw [tree, foreground, background]
  exact booked.closed shut

theorem Booked.close (booked : Booked w) (idle : w.session.foreground = .idle) (joined : w.session.background = none) :
    Booked ⟨(w.session.withTree w.session.tree.emptied).discard w.session.tree.levels.flatten, false⟩ := by
  refine ⟨⟨booked.arranged.positive, ?_, booked.arranged.held, ?_, ?_⟩, booked.depth, booked.books.congr ?_,
    fun _ => ⟨idle, joined, emptiedFlatten w.session.tree⟩⟩
  · exact (List.length_map ..).trans booked.arranged.length
  · exact booked.arranged.foreground
  · exact booked.arranged.background
  · simp only [State.settled, State.settledBase, State.outputs, State.discard, State.withTree, emptiedFlatten, idle,
      joined, ← Multiset.coe_add, Multiset.coe_nil]
    abel

theorem Booked.open (booked : Booked w) (shut : w.isOpen = false) (config : LsmConfig) :
    Booked ⟨{ w.session with tree := (LsmTree.open config w.session.storage).1
                             storage := (LsmTree.open config w.session.storage).2
                             returned := none }, true⟩ := by
  have book := Tallied.openListed (w.session.storage.active.map Prod.fst) (booked.left shut)
  refine booked.opens shut ?_
  rw [List.filter_eq_self.mpr (fun h member => ?_)]
  · exact book
  · have level := LsmTree.openListedLevel (w.session.storage.active.map Prod.fst) w.session.storage
      (fun _ member => absurd member List.not_mem_nil) h member
    simp [level]

theorem Booked.storage (booked : Booked w) (shut : w.isOpen = false) {st : Storage} {r : Option (Except Error Unit)}
    (book : Tallied st 0 (↑w.session.garbage + ↑(State.heldHandles w.session.held)) [] []) :
    Booked ⟨{ w.session with storage := st, returned := r }, false⟩ := by
  obtain ⟨idle, joined, none⟩ := booked.closed shut
  refine ⟨⟨booked.arranged.positive, booked.arranged.length, booked.arranged.held, booked.arranged.foreground,
    booked.arranged.background⟩, booked.depth, book.congr ?_, fun _ => ⟨idle, joined, none⟩⟩
  simp only [State.settled, State.settledBase, State.outputs, idle, joined, none, Foreground.clones, Foreground.outputs,
    Option.elim_none, List.append_nil, Multiset.coe_nil, add_zero, zero_add]

theorem openSnapshotBooks {st : Storage} {rest : Multiset SsTableHandle}
    (book : Tallied st 0 (↑([] : List SsTableHandle) + rest) [] []) (name : String) :
    match LsmTree.openSnapshot name st with
    | (.ok tree, st') => ∃ config seq maxRunNumber sstables, tree = LsmTree.start config seq maxRunNumber sstables ∧
        Tallied st' 0 (↑(sstables.filter (fun h => decide (h.level ≤ 6))) + rest) [] [] ∧ st'.snapshots = st.snapshots
    | (.error _, st') => Tallied st' 0 rest [] [] ∧ st'.snapshots = st.snapshots := by
  have bare : Tallied st 0 rest [] [] := book.congr (by rw [Multiset.coe_nil, zero_add])
  unfold LsmTree.openSnapshot
  cases PersistentSnapshot.load st name with
  | error e => exact ⟨bare, rfl⟩
  | ok metadata =>
    have aside := LsmTree.linkRunsAside name metadata.runs { st with active := [] }
    dsimp only
    cases links : LsmTree.linkRuns name metadata.runs { st with active := [] } with
    | mk outcome linked =>
      rw [links] at aside
      cases outcome with
      | error e => exact ⟨bare.restore aside.1 aside.2.1, aside.2.2⟩
      | ok _ =>
        have runs := Tallied.openRuns name metadata.runs (book.restore aside.1 aside.2.1)
        cases all : LsmTree.openRuns name metadata.runs [] linked with
        | mk outcome opened =>
          rw [all] at runs
          dsimp only
          rw [all]
          cases outcome with
          | error e => exact ⟨runs.1, runs.2.trans aside.2.2⟩
          | ok sstables =>
            have split : Tallied opened 0 (↑(sstables.filter (fun h => decide (6 < h.level))) +
                (↑(sstables.filter (fun h => decide (h.level ≤ 6))) + rest)) [] [] := by
              refine runs.1.congr ?_
              rw [Starts.levelSplit sstables]
              abel
            exact ⟨_, _, _, sstables, rfl, split.dropAll,
              (LsmTree.dropSnapshots split.activeLeft).trans (runs.2.trans aside.2.2)⟩

theorem deleteSnapshotLeaves (s : State) (name : String) : ∃ st r,
    deleteSnapshot s name = { s with storage := st }.return_ r ∧ st.active = s.storage.active ∧
      st.refcounts = s.storage.refcounts ∧ st.nextRefcount = s.storage.nextRefcount ∧
        ∀ other, other ≠ name → st.snapshots.lookup other = s.storage.snapshots.lookup other := by
  unfold deleteSnapshot
  cases PersistentSnapshot.load s.storage name with
  | error e => exact ⟨s.storage, .error e, rfl, rfl, rfl, rfl, fun _ _ => rfl⟩
  | ok metadata =>
    refine ⟨_, .ok (), rfl, rfl, rfl, rfl, fun other apart => ?_⟩
    rw [Assoc.lookupFilter, if_neg apart]

theorem Booked.deleteSnapshot (booked : Booked w) (name : String) (idle : w.session.foreground = .idle) :
    Booked { w with session := Sessions.deleteSnapshot w.session name } := by
  obtain ⟨st, r, same, -, refcounts, nextRefcount, -⟩ := deleteSnapshotLeaves w.session name
  rw [same]
  refine ⟨⟨booked.arranged.positive, booked.arranged.length, booked.arranged.held, trivial, booked.arranged.background⟩,
    booked.depth, (booked.books.restore refcounts nextRefcount).congr ?_, fun shut => ⟨rfl, (booked.closed shut).2⟩⟩
  simp only [State.settled, State.settledBase, State.outputs, State.return_, idle]

theorem Booked.exit (booked : Booked w) :
    Booked ⟨⟨w.session.tree.emptied, w.session.storage.stopped, [], .idle, none, [], none,
      w.session.overflowChecks⟩, false⟩ := by
  refine ⟨⟨booked.arranged.positive, ?_, fun _ member => absurd member List.not_mem_nil, trivial, nofun⟩, booked.depth,
    ?_, fun _ => ⟨rfl, rfl, emptiedFlatten w.session.tree⟩⟩
  · exact (List.length_map ..).trans booked.arranged.length
  · have owns : Owns w.session.storage.stopped 0 := Owns.nothing (fun _ => rfl)
    have empty : Tallied w.session.storage.stopped 0 0 [] [] := ⟨by simpa using owns.counts.tally, by simp⟩
    refine empty.congr ?_
    simp [State.settled, State.settledBase, State.outputs, State.heldHandles, Foreground.clones, Foreground.outputs,
      emptiedFlatten]

theorem Booked.on {st : Storage} {overflowChecks : Bool} (counters : ∀ c, st.refcounts c = 0) :
    Booked (on st overflowChecks) := by
  have owns : Owns st 0 := Owns.nothing counters
  have empty : Tallied st 0 0 [] [] := ⟨by simpa using owns.counts.tally, by simp⟩
  exact ⟨⟨Nat.succ_pos 5, rfl, fun _ member => absurd member List.not_mem_nil, trivial, nofun⟩, rfl, empty.congr rfl,
    fun _ => ⟨rfl, rfl, rfl⟩⟩

theorem Booked.fresh {overflowChecks : Bool} : Booked (fresh overflowChecks) := Booked.on (fun _ => rfl)

theorem Booked.step (booked : Booked w) {a : SessionsAction} (taken : w.step a = some w') : Booked w' := by
  cases a with
  | own a =>
    simp only [Sessions.step, Option.ite_none_right_eq_some] at taken
    obtain ⟨allowed, taken⟩ := taken
    obtain ⟨s, stepped, rfl⟩ := Option.map_eq_some_iff.mp taken
    exact booked.own stepped (fun shut => by simpa [shut] using allowed)
  | close =>
    simp only [Sessions.step, Option.ite_none_right_eq_some, Option.some.injEq, Bool.and_eq_true] at taken
    obtain ⟨⟨⟨-, idle⟩, joined⟩, rfl⟩ := taken
    exact booked.close (State.idleOfIsIdle idle) (Option.isNone_iff_eq_none.mp joined)
  | «open» config =>
    simp only [Sessions.step, Option.ite_none_left_eq_some, Option.some.injEq, Bool.not_eq_true] at taken
    obtain ⟨shut, rfl⟩ := taken
    exact booked.open shut config
  | openSnapshot name =>
    simp only [Sessions.step, Option.ite_none_left_eq_some, Bool.not_eq_true] at taken
    obtain ⟨shut, taken⟩ := taken
    have books := openSnapshotBooks (booked.left shut) name
    split at taken
    · rename_i tree st opened
      cases taken
      rw [opened] at books
      obtain ⟨config, seq, maxRunNumber, sstables, rfl, book, -⟩ := books
      exact booked.opens shut book
    · rename_i e st failed
      cases taken
      rw [failed] at books
      exact booked.storage shut books.1
  | deleteSnapshot name =>
    simp only [Sessions.step, Option.ite_none_right_eq_some, Option.some.injEq, Bool.and_eq_true] at taken
    obtain ⟨⟨-, idle⟩, rfl⟩ := taken
    exact booked.deleteSnapshot name (State.idleOfIsIdle idle)
  | exit =>
    cases taken
    exact booked.exit

theorem Booked.run {ok : Sessions → SessionsAction → Prop} {actions : List SessionsAction}
    (ran : Trace.Run Sessions.step ok w actions w') (booked : Booked w) : Booked w' :=
  ran.invariant (fun _ _ _ taken _ booked => booked.step taken) booked

theorem savedEffect (booked : Booked w) {a : Action} {st : Storage} (effect : Effect w.session a st) {name : String}
    {saved : SavedSnapshot} (there : w.session.storage.snapshots.lookup name = some saved) :
    st.snapshots.lookup name = some saved := by
  cases effect with
  | clone a hs => rwa [(Ledger.cloneActive hs w.session.storage).2]
  | write a faults i n entries level mine => rwa [SsTableWriter.writeSnapshots]
  | drop i h found =>
    have live : h ∈ w.session.settled + ↑w.session.outputs := by
      simp only [State.settled, State.settledBase, Multiset.mem_add, Multiset.mem_coe]
      exact Or.inl (Or.inl (Or.inl (Or.inl (Or.inr (List.mem_of_getElem? found)))))
    have same : ([h].foldl Storage.dropHandle w.session.storage).snapshots = w.session.storage.snapshots :=
      LsmTree.dropSnapshots (fun x member => (List.mem_singleton.mp member) ▸ booked.books.inActive h live)
    rw [List.foldl_cons, List.foldl_nil] at same
    rwa [same]
  | create faults other label seq all here =>
    by_cases apart : name = other
    · subst apart
      rw [PersistentSnapshot.create, if_pos (by rw [there]; rfl)]
      exact there
    · rwa [PersistentSnapshot.createOthers faults w.session.storage apart]

theorem savedStep (booked : Booked w) {a : SessionsAction} (taken : w.step a = some w') {name : String}
    (kept : a ≠ .deleteSnapshot name) {saved : SavedSnapshot}
    (there : w.session.storage.snapshots.lookup name = some saved) :
    w'.session.storage.snapshots.lookup name = some saved := by
  cases a with
  | own a =>
    simp only [Sessions.step, Option.ite_none_right_eq_some] at taken
    obtain ⟨s, stepped, rfl⟩ := Option.map_eq_some_iff.mp taken.2
    exact savedEffect booked (State.stepMoves stepped).effect there
  | close =>
    simp only [Sessions.step, Option.ite_none_right_eq_some, Option.some.injEq] at taken
    obtain ⟨-, rfl⟩ := taken
    exact there
  | «open» config =>
    simp only [Sessions.step, Option.ite_none_left_eq_some, Option.some.injEq] at taken
    obtain ⟨-, rfl⟩ := taken
    rw [← there]
    exact congrArg (List.lookup name)
      (Tallied.openListedSnapshots (w.session.storage.active.map Prod.fst) [] w.session.storage)
  | openSnapshot other =>
    simp only [Sessions.step, Option.ite_none_left_eq_some, Bool.not_eq_true] at taken
    obtain ⟨shut, taken⟩ := taken
    have books := openSnapshotBooks (booked.left shut) other
    split at taken
    · rename_i tree st opened
      cases taken
      rw [opened] at books
      obtain ⟨config, seq, maxRunNumber, sstables, -, -, same⟩ := books
      exact (congrArg (List.lookup name) same).trans there
    · rename_i e st failed
      cases taken
      rw [failed] at books
      exact (congrArg (List.lookup name) books.2).trans there
  | deleteSnapshot other =>
    simp only [Sessions.step, Option.ite_none_right_eq_some, Option.some.injEq] at taken
    obtain ⟨-, rfl⟩ := taken
    obtain ⟨st, r, same, -, -, -, others⟩ := deleteSnapshotLeaves w.session other
    have apart : name ≠ other := fun same => kept (same ▸ rfl)
    simp only [same, State.return_, others name apart]
    exact there
  | exit =>
    cases taken
    exact there

/-- What a save that returns `Ok` leaves stays until the snapshot is deleted: it loads, it is valid, and its files
are those of the runs as they were in `active/`. -/
theorem savedIntact {before later : List SessionsAction} {u m : Sessions} {faults : Nat → Bool} {name label : String}
    {seq : Nat} {all : List SsTableHandle} {overflowChecks : Bool}
    (ran : Trace.Run Sessions.step (fun _ _ => True) (Sessions.fresh overflowChecks) before u)
    (saving : u.session.foreground = .saveCloned name label seq all)
    (taken : u.step (.own (.foreground faults)) = some m) (returned : m.session.returned = some (.ok ()))
    (after : Trace.Run Sessions.step (fun _ a => a ≠ .deleteSnapshot name) m later w) :
    ∃ metadata, PersistentSnapshot.load w.session.storage name = .ok metadata ∧
      metadata.runs = all.map PersistentSnapshot.describe ∧
      PersistentSnapshot.validate w.session.storage name metadata = .ok () ∧
      w.session.storage.files (.snapshot name) =
        all.map (fun h => (h.runNumber, u.session.storage.runAt .active h.runNumber)) := by
  have booked := Booked.fresh.run ran
  simp only [Sessions.step, Option.ite_none_right_eq_some] at taken
  obtain ⟨s, stepped, rfl⟩ := Option.map_eq_some_iff.mp taken.2
  have saved : PersistentSnapshot.create faults name label all seq u.session.tree.config u.session.storage =
      (.ok (), s.storage) := by
    simp only [State.step, State.stepForeground, saving, Option.some.injEq] at stepped
    subst stepped
    have ok : (PersistentSnapshot.create faults name label all seq u.session.tree.config u.session.storage).1 = .ok () :=
      Option.some.inj returned
    rw [← ok]
    rfl
  have clones : ∀ h ∈ all, h ∈ u.session.settled := by
    intro h member
    simp only [State.settled, saving, Foreground.clones, Multiset.mem_add, Multiset.mem_coe]
    exact Or.inl (Or.inr member)
  have active : ∀ h ∈ all, h.dir = .active := fun h member =>
    booked.books.inActive h (Multiset.mem_add.mpr (Or.inl (clones h member)))
  have positive : ∀ h ∈ all, 0 < u.session.storage.refcounts h.refcount := fun h member =>
    Tallied.bookkeeping.positive booked.books (clones h member)
  obtain ⟨distinct, complete⟩ := PersistentSnapshot.createComplete active positive saved
  have left := PersistentSnapshot.createOk active distinct positive saved
  have made : s.storage.snapshots.lookup name = some ⟨all.map (PersistentSnapshot.linked u.session.storage),
      some ⟨1, label, u.session.tree.config, all.map PersistentSnapshot.describe, seq⟩⟩ := by
    rw [left, PersistentSnapshot.linking, Assoc.lookupCons, if_pos rfl]
  have there := after.invariant (I := fun x => Booked x ∧ x.session.storage.snapshots.lookup name = some _)
    (fun _ _ _ taken kept there => ⟨there.1.step taken, savedStep there.1 taken kept there.2⟩)
    ⟨booked.own stepped (fun shut => by simp [shut, Action.outlives] at taken), made⟩
  have files : w.session.storage.files (.snapshot name) =
      all.map (fun h => (h.runNumber, u.session.storage.runAt .active h.runNumber)) := by
    rw [Storage.files, there.2]
    exact List.map_congr_left (fun h member => by rw [PersistentSnapshot.linked, active h member])
  refine ⟨_, by rw [PersistentSnapshot.load, there.2], rfl, ?_, files⟩
  have none : (all.map PersistentSnapshot.describe).find? (fun run =>
      (w.session.storage.runAt (.snapshot name) run.runNumber).isNone) = none := by
    rw [List.find?_eq_none]
    intro run member
    obtain ⟨h, inside, rfl⟩ := List.mem_map.mp member
    have once : ((w.session.storage.files (.snapshot name)).map Prod.fst).Nodup := by
      rw [files, List.map_map]
      exact distinct
    have found : (w.session.storage.files (.snapshot name)).lookup h.runNumber =
        some (u.session.storage.runAt .active h.runNumber) :=
      Assoc.lookupOnce once (by rw [files]; exact List.mem_map.mpr ⟨h, inside, rfl⟩)
    obtain ⟨run, stored⟩ := Option.isSome_iff_exists.mp (complete h inside)
    have linked : w.session.storage.runAt (.snapshot name) h.runNumber = some run := by
      rw [Storage.runAt, found, Option.join_some, stored]
    show ¬ (w.session.storage.runAt (.snapshot name) h.runNumber).isNone = true
    rw [linked]
    exact Bool.false_ne_true
  rw [PersistentSnapshot.validate, none]

def savingScript : List SessionsAction :=
  [.open ⟨1, 1⟩, .own (.insert [1] [10])] ++ (ownSteps 3).map .own ++
    [.own (.saveSnapshot "a" "b"), .own (.foreground noFaults)]

def reopeningScript : List SessionsAction :=
  [.own (.collect 0), .close, .own (.collect 0), .open ⟨1, 1⟩, .close, .openSnapshot "a", .close, .own (.collect 0)]

def savesNamed (name : String) (u : Sessions) : Bool :=
  match u.session.foreground with
  | .saveCloned saved _ _ all => saved == name && all.length == 1
  | _ => false

theorem savesNamedOf {name : String} {u : Sessions} (saves : savesNamed name u = true) :
    ∃ label seq all, u.session.foreground = .saveCloned name label seq all ∧ all.length = 1 := by
  unfold savesNamed at saves
  split at saves
  · rename_i saved label seq all here
    simp only [Bool.and_eq_true, beq_iff_eq] at saves
    exact ⟨label, seq, all, saves.1 ▸ here, saves.2⟩
  · cases saves

theorem savedIntactReopened : ∃ u m w : Sessions, ∃ (all : List SsTableHandle) (metadata : SnapshotMetadata),
    Trace.Run Sessions.step (fun _ _ => True) Sessions.fresh savingScript u ∧ all.length = 1 ∧
      u.step (.own (.foreground noFaults)) = some m ∧
        Trace.Run Sessions.step (fun _ a => a ≠ .deleteSnapshot "a") m reopeningScript w ∧
          PersistentSnapshot.load w.session.storage "a" = .ok metadata ∧
            metadata.runs = all.map PersistentSnapshot.describe ∧
              PersistentSnapshot.validate w.session.storage "a" metadata = .ok () := by
  have ended : (Trace.execWhile Sessions.step (fun _ _ => true) fresh savingScript).any (fun u =>
      (u.step (.own (.foreground noFaults))).any (fun m =>
        (Trace.execWhile Sessions.step (fun _ _ => true) m reopeningScript).any (fun _ => savesNamed "a" u &&
          (u.step (.own (.foreground noFaults))).any (fun m => decide (m.session.returned = some (.ok ())))))) = true := by
    decide +kernel
  have others : ∀ w : Sessions, ∀ a ∈ reopeningScript, (fun _ _ => true : Sessions → SessionsAction → Bool) w a = true →
      a ≠ .deleteSnapshot "a" := by
    intro w a member _
    simp only [reopeningScript, List.mem_cons, List.not_mem_nil, or_false] at member
    rcases member with rfl | rfl | rfl | rfl | rfl | rfl | rfl | rfl <;> nofun
  obtain ⟨u, m, w, ran, taken, after, tested⟩ := Trace.runThen (fun _ _ _ _ => trivial) others ended
  rw [taken] at tested
  simp only [Bool.and_eq_true, Option.any_some, decide_eq_true_eq] at tested
  obtain ⟨label, seq, all, saving, one⟩ := savesNamedOf tested.1
  obtain ⟨metadata, loads, runs, valid, -⟩ := savedIntact ran saving taken tested.2 after
  exact ⟨u, m, w, all, metadata, ran, one, taken, after, loads, runs, valid⟩

end Sessions
end CardanoLsm
