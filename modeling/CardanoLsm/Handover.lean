import CardanoLsm.Calls

/-! Dropping a tree while another process opens its directory (`LsmTree`, `Drop` of
`SessionLock` and of `SsTableHandle`). The fields drop in their order: the lock before the
level vectors. -/
namespace CardanoLsm
open Std Layered Assoc

inductive Release where
  | held
  | unlinked
  | closed
  deriving DecidableEq, Repr

structure Handover where
  storage : Storage
  lock : Release
  dropping : List SsTableHandle
  listed : Option (List Nat)
  opened : List SsTableHandle

inductive HandoverAction where
  | unlink
  | close
  | dropNext
  | acquire
  | openNext
  deriving DecidableEq, Repr

namespace Handover

def of (s : State) : Handover := ⟨s.storage, .held, s.tree.levels.flatten, none, []⟩

def step (x : Handover) : HandoverAction → Option Handover
  | .unlink => if x.lock = .held then some { x with lock := .unlinked } else none
  | .close => if x.lock = .unlinked then some { x with lock := .closed } else none
  | .dropNext =>
    if x.lock = .closed then
      match x.dropping with
      | [] => none
      | h :: rest => some { x with storage := x.storage.dropHandle h, dropping := rest }
    else none
  | .acquire =>
    if x.lock ≠ .held ∧ x.listed = none then
      some { x with listed := some (x.storage.active.map Prod.fst) }
    else none
  | .openNext =>
    match x.listed with
    | some (n :: rest) =>
      let opened := LsmTree.openNext (x.opened, x.storage) n
      some { x with storage := opened.2, opened := opened.1, listed := some rest }
    | _ => none

def Safe (s : State) : Prop :=
  ∀ actions x, Trace.Run step (fun _ _ => True) (of s) actions x →
    x.storage.active = s.storage.active ∧ Readable x.storage x.opened

def staying (s : State) : List SsTableHandle := s.garbage ++ State.heldHandles s.held

def live (others : Multiset SsTableHandle) (x : Handover) : Multiset SsTableHandle :=
  ↑x.dropping + others + ↑x.opened

structure Shared (others : Multiset SsTableHandle) (s : State) (x : Handover) : Prop where
  active : x.storage.active = s.storage.active
  counted : ∀ c, x.storage.refcounts c = (live others x).countP (fun h => h.refcount = c)
  bounded : ∀ h ∈ live others x, h.refcount < x.storage.nextRefcount
  stays : ∀ h ∈ x.dropping, ∃ y ∈ others, y.refcount = h.refcount
  readable : ∀ h ∈ x.opened, h.dir = .active ∧ s.storage.runAt .active h.runNumber = some h.run

namespace Shared
variable {others : Multiset SsTableHandle} {s : State} {x x' : Handover}

theorem tally (shared : Shared others s x) : Counted.Tally SsTableHandle.refcount x.storage.refcounts
    x.storage.nextRefcount (live others x) := ⟨shared.counted, shared.bounded⟩

theorem dropNext (shared : Shared others s x) {h : SsTableHandle} {rest : List SsTableHandle}
    (next : x.dropping = h :: rest) :
    Shared others s { x with storage := x.storage.dropHandle h, dropping := rest } := by
  obtain ⟨y, inside, same⟩ := shared.stays h (next ▸ List.mem_cons_self)
  have here : live others x = h ::ₘ live others { x with dropping := rest } := by
    rw [live, live, next, ← Multiset.cons_coe, Multiset.cons_add, Multiset.cons_add]
  have tally := shared.tally
  rw [here] at tally
  have dropped := tally.drop
  -- the handle that stays keeps the counter above one
  have another : 0 < (live others { x with dropping := rest }).countP (fun z => z.refcount = h.refcount) :=
    Multiset.countP_pos.mpr ⟨y, by simp [live, inside], same⟩
  have total := tally.counted h.refcount
  rw [Multiset.countP_cons, if_pos rfl] at total
  have left : x.storage.dropHandle h =
      { x.storage with refcounts := Function.update x.storage.refcounts h.refcount (x.storage.refcounts h.refcount - 1) } := by
    rw [Storage.dropHandle, if_neg (by omega)]
  rw [left]
  exact ⟨shared.active, dropped.counted, dropped.bounded,
    fun z member => shared.stays z (next ▸ List.mem_cons_of_mem h member), shared.readable⟩

theorem openNext (shared : Shared others s x) (n : Nat) (rest : List Nat) :
    Shared others s { x with
      storage := (LsmTree.openNext (x.opened, x.storage) n).2
      opened := (LsmTree.openNext (x.opened, x.storage) n).1
      listed := some rest } := by
  unfold LsmTree.openNext
  split
  · rename_i h st ok
    obtain ⟨dir, number, -, counter, found, rfl⟩ := Owns.openOk ok
    have stored : x.storage.active.lookup n = some (some h.run) := found
    have grown : h ::ₘ live others x = ↑x.dropping + others + ↑(x.opened ++ [h]) := by
      rw [live, ← Multiset.coe_add, Multiset.coe_singleton, ← add_assoc]
      exact ((add_comm _ _).trans (Multiset.singleton_add h _)).symm
    have created := shared.tally.create (h := h) counter
    rw [grown] at created
    refine ⟨shared.active, created.counted, created.bounded, shared.stays, fun z member => ?_⟩
    rcases List.mem_append.mp member with old | new
    · exact shared.readable z old
    · rw [List.mem_singleton.mp new]
      refine ⟨dir, ?_⟩
      rw [number, Storage.runAt, Storage.files, ← shared.active, stored, Option.join_some]
  · rename_i e st failed
    rw [openError failed]
    exact ⟨shared.active, shared.counted, shared.bounded, shared.stays, shared.readable⟩

theorem step (shared : Shared others s x) {a : HandoverAction} (taken : x.step a = some x') :
    Shared others s x' := by
  have same : ∀ lock listed, Shared others s { x with lock := lock, listed := listed } := fun _ _ =>
    ⟨shared.active, shared.counted, shared.bounded, shared.stays, shared.readable⟩
  cases a with
  | unlink =>
    simp only [Handover.step, Option.ite_none_right_eq_some, Option.some.injEq] at taken
    exact taken.2 ▸ same .unlinked x.listed
  | close =>
    simp only [Handover.step, Option.ite_none_right_eq_some, Option.some.injEq] at taken
    exact taken.2 ▸ same .closed x.listed
  | acquire =>
    simp only [Handover.step, Option.ite_none_right_eq_some, Option.some.injEq] at taken
    exact taken.2 ▸ same x.lock (some (x.storage.active.map Prod.fst))
  | dropNext =>
    simp only [Handover.step, Option.ite_none_right_eq_some] at taken
    obtain ⟨-, taken⟩ := taken
    split at taken
    · cases taken
    · rename_i h rest next
      cases taken
      exact shared.dropNext next
  | openNext =>
    simp only [Handover.step] at taken
    split at taken
    · rename_i n rest listed
      cases taken
      exact shared.openNext n rest
    · cases taken

theorem ofSound (sound : Sound s) (idle : s.foreground = .idle) (joined : s.background = none)
    (kept : ∀ h ∈ s.tree.levels.flatten, ∃ y ∈ staying s, y.runNumber = h.runNumber) :
    Shared ↑(staying s) s (of s) := by
  have same : s.settled + ↑s.outputs = live ↑(staying s) (of s) := by
    simp [State.settled, State.settledBase, State.outputs, live, of, staying, idle, joined,
      Foreground.clones, Foreground.outputs]
  have counts := (sound.ledger.owns.congr same).counts
  refine ⟨rfl, counts.counted, counts.bounded, fun h member => ?_, fun h member => absurd member List.not_mem_nil⟩
  obtain ⟨y, inside, number⟩ := kept h member
  refine ⟨y, inside, (counts.shared y ?_ h ?_).mp number⟩
  · simp [live, inside]
  · simp [live, show h ∈ (of s).dropping from member]

end Shared

theorem dropRun {x : Handover} (closed : x.lock = .closed) (front back : List SsTableHandle)
    (dropping : x.dropping = front ++ back) :
    Trace.Run step (fun _ _ => True) x (List.replicate front.length .dropNext)
      { x with storage := front.foldl Storage.dropHandle x.storage, dropping := back } := by
  induction front generalizing x with
  | nil =>
    obtain rfl : x.dropping = back := dropping
    exact .nil _
  | cons h rest ih =>
    have taken : x.step .dropNext =
        some { x with storage := x.storage.dropHandle h, dropping := rest ++ back } := by
      simp only [step, closed, dropping, if_true, List.cons_append]
    exact .cons taken trivial (ih (x := { x with storage := x.storage.dropHandle h, dropping := rest ++ back })
      closed rfl)

theorem dropsFiles {s : State} (sound : Sound s) (idle : s.foreground = .idle) (joined : s.background = none)
    {h : SsTableHandle} (member : h ∈ s.tree.levels.flatten)
    (alone : ∀ y ∈ staying s, y.runNumber ≠ h.runNumber) : ¬ Safe s := by
  intro safe
  obtain ⟨front, back, split⟩ := List.append_of_mem member
  have same : s.settled + ↑s.outputs =
      ↑front + (h ::ₘ (↑back + ↑(staying s))) := by
    simp only [State.settled, State.settledBase, State.outputs, staying, idle, joined, split, Foreground.clones,
      Foreground.outputs, Option.elim_none, List.append_nil, Multiset.coe_nil, add_zero, ← Multiset.coe_add]
    rw [← Multiset.cons_coe, add_assoc, add_assoc, Multiset.cons_add]
  have own := Owns.dropAll (sound.ledger.owns.congr same)
  have last : (front.foldl Storage.dropHandle s.storage).refcounts h.refcount = 1 := by
    have distinct := sound.tree.distinct
    rw [LsmTree.snapshot, split, Distinct, List.map_append, List.map_cons] at distinct
    have fresh := (List.nodup_cons.mp (List.nodup_append.mp distinct).2.1).1
    rw [own.counts.countNum (Multiset.mem_cons_self _ _), Multiset.countP_cons, if_pos rfl]
    refine Nat.add_eq_right.mpr (Multiset.countP_eq_zero.mpr (fun y inside => ?_))
    rcases Multiset.mem_add.mp inside with later | kept
    · exact fun number => fresh (List.mem_map.mpr ⟨y, later, number⟩)
    · exact alone y kept
  have closed : Trace.Run step (fun _ _ => True) (of s) [.unlink, .close] { of s with lock := .closed } :=
    .cons rfl trivial (.cons rfl trivial (.nil _))
  have dropped := dropRun (x := { of s with lock := .closed }) rfl (front ++ [h]) back (by
    rw [List.append_assoc]
    exact split)
  have kept := (safe _ _ (closed.append dropped)).1
  have removed : (s.storage.active.lookup h.runNumber) = none := by
    rw [← kept]
    simp only [of, List.foldl_append, List.foldl_cons, List.foldl_nil, Storage.dropHandle, last, if_true,
      own.inActive h (Multiset.mem_cons_self _ _), Storage.removeFiles, lookupFilter, if_true]
  have listed := sound.ledger.listed (Multiset.mem_add.mpr (Or.inl (State.Moves.levelsSettled s h member)))
  rw [removed] at listed
  cases listed

/-- Dropping an idle tree whose background thread has ended is harmless to a process that
opens the directory in the meantime exactly when a handle of every run stays. -/
theorem dropBesideOpen {ok : State → Action → Prop} {s₀ s : State} {actions : List Action} (starts : Starts s₀)
    (ran : Trace.Run State.step ok s₀ actions s) (idle : s.foreground = .idle) (joined : s.background = none) :
    Safe s ↔ ∀ h ∈ s.tree.levels.flatten, ∃ y ∈ staying s, y.runNumber = h.runNumber := by
  have sound := starts.sound.run ran
  constructor
  · intro safe h member
    by_contra alone
    push Not at alone
    exact dropsFiles sound idle joined member alone safe
  · intro kept steps x run
    have shared := run.invariant (fun _ _ _ taken _ shared => Shared.step shared taken)
      (Shared.ofSound sound idle joined kept)
    refine ⟨shared.active, fun h member => ?_⟩
    obtain ⟨dir, found⟩ := shared.readable h member
    have there : x.storage.runAt .active h.runNumber = some h.run := by
      rw [Storage.runAt, Storage.files, shared.active]
      exact found
    rw [Storage.readRun, dir, there]

def flushedScript : List Action := .insert [1] [10] :: ownSteps 3

theorem dropBesideOpenKept : ∃ s, Trace.Run State.step (fun _ _ => True) (.fresh ⟨1, 1⟩) (flushedScript ++ [.snapshot]) s ∧
    s.tree.levels.flatten.length = 1 ∧ Safe s := by
  have ended : (Trace.execWhile State.step (fun _ _ => true) (.fresh ⟨1, 1⟩) (flushedScript ++ [.snapshot])).any
      (fun s => State.isIdle s.foreground && s.background.isNone && decide (s.tree.levels.flatten.length = 1) &&
        s.tree.levels.flatten.all (fun h => (staying s).any (fun y => y.runNumber == h.runNumber))) = true := by
    decide +kernel
  obtain ⟨s, ran, tested⟩ := Trace.runTo (fun _ _ _ _ => trivial) ended
  simp only [Bool.and_eq_true, List.all_eq_true, List.any_eq_true, beq_iff_eq, decide_eq_true_eq] at tested
  obtain ⟨⟨⟨idle, joined⟩, one⟩, kept⟩ := tested
  exact ⟨s, ran, one, (dropBesideOpen (.fresh ⟨1, 1⟩) ran (State.idleOfIsIdle idle)
    (Option.isNone_iff_eq_none.mp joined)).mpr kept⟩

theorem dropBesideOpenLoses : ∃ s x, Trace.Run State.step (fun _ _ => True) (.fresh ⟨1, 1⟩) flushedScript s ∧
    s.foreground = .idle ∧ s.background = none ∧
      Trace.Run step (fun _ _ => True) (of s) [.unlink, .close, .acquire, .openNext, .dropNext] x ∧
        ¬ Readable x.storage x.opened := by
  have ended : (Trace.execWhile State.step (fun _ _ => true) (.fresh ⟨1, 1⟩) flushedScript).any (fun s =>
      State.isIdle s.foreground && s.background.isNone &&
        (Trace.execWhile step (fun _ _ => true) (of s) [.unlink, .close, .acquire, .openNext, .dropNext]).any (fun x =>
          x.opened.any (fun h => (x.storage.runAt h.dir h.runNumber).isNone))) = true := by
    decide +kernel
  obtain ⟨s, ran, tested⟩ := Trace.runTo (fun _ _ _ _ => trivial) ended
  simp only [Bool.and_eq_true] at tested
  obtain ⟨⟨idle, joined⟩, handed⟩ := tested
  obtain ⟨x, left, lost⟩ := Trace.runTo (fun _ _ _ _ => trivial) handed
  obtain ⟨h, opened, gone⟩ := List.any_eq_true.mp lost
  refine ⟨s, x, ran, State.idleOfIsIdle idle, Option.isNone_iff_eq_none.mp joined, left, fun readable => ?_⟩
  have read := readable h opened
  rw [Storage.readRun, Option.isNone_iff_eq_none.mp gone] at read
  cases read

end Handover
end CardanoLsm
