import CardanoLsm.Storage
import CardanoLsm.Lib.Assoc

/-! What each storage operation does to the files and the counters, and the
ownership invariant: every counter is the number of live handles that share it, and
the files of every live handle are in `active/` with the entries it was created for. -/
namespace CardanoLsm
open Std Layered Script Assoc

theorem lookupComplete (files : RunFiles) (n m : Nat) (content : Option Run) :
    (files.map (fun f => if f.1 = n then (n, content) else f)).lookup m =
      if m = n then (files.lookup m).map (fun _ => content) else files.lookup m :=
  lookupModify files n m (fun _ => content)

namespace Storage

structure Touches (n : Nat) (st st' : Storage) : Prop where
  refcounts : st'.refcounts = st.refcounts
  nextRefcount : st'.nextRefcount = st.nextRefcount
  snapshots : st'.snapshots = st.snapshots
  others : ∀ m, m ≠ n → st'.active.lookup m = st.active.lookup m

theorem touchesRefl (n : Nat) (st : Storage) : Touches n st st :=
  ⟨rfl, rfl, rfl, fun _ _ => rfl⟩

theorem Touches.runAt {n : Nat} {st st' : Storage} (h : Touches n st st') {m : Nat}
    (other : m ≠ n) : st'.runAt .active m = st.runAt .active m := by
  simp only [Storage.runAt, files, h.others m other]

end Storage

namespace SsTableWriter
open Storage

theorem newOpsTouch {n : Nat} {st₀ st : Storage} :
    ∀ op ∈ newOps n, op.enabled st = true → Touches n st₀ st → Touches n st₀ (op.effect st) := by
  intro op member _ h
  simp only [newOps, List.mem_cons, List.not_mem_nil, or_false] at member
  rcases member with rfl | rfl
  · refine ⟨h.refcounts, h.nextRefcount, h.snapshots, fun m other => ?_⟩
    have skip : ([(n, (none : Option Run))]).lookup m = none := by simp [other]
    simp only [List.lookup_append, skip, Option.or_none]
    exact h.others m other
  · exact h

theorem finishOpsTouch {n : Nat} {run : Run} {st₀ st : Storage} :
    ∀ op ∈ finishOps n run, op.enabled st = true → Touches n st₀ st →
      Touches n st₀ (op.effect st) := by
  intro op member _ h
  simp only [finishOps, List.mem_append, List.mem_map, List.mem_singleton] at member
  rcases member with (⟨name, _, rfl⟩ | rfl) | ⟨name, _, rfl⟩
  · exact h
  · refine ⟨h.refcounts, h.nextRefcount, h.snapshots, fun m other => ?_⟩
    simp only [complete, lookupComplete, if_neg other]
    exact h.others m other
  · exact h

theorem newOpsDone {faults : Nat → Bool} {i : Nat} {n : Nat} {st st' : Storage}
    (h : Script.run faults i (newOps n) st = (none, st')) :
    st.active.lookup n = none ∧ st' = { st with active := st.active ++ [(n, none)] } := by
  have done := runDone h
  refine ⟨?_, done⟩
  unfold newOps Script.run at h
  split at h
  · simp at h
  · rename_i passed
    simp only [Bool.or_eq_true, Bool.not_eq_true', not_or, Bool.not_eq_false] at passed
    simpa using passed.2

theorem finishOpsFinal (n : Nat) (run : Run) (st : Storage) :
    Script.final (finishOps n run) st = complete n run st := by
  simp only [finishOps, finalAppend, finalStill]
  rfl

structure Written (n : Nat) (entries : Entries) (level : Nat) (st : Storage)
    (h : SsTableHandle) (st' : Storage) : Prop where
  handle : h.dir = .active ∧ h.runNumber = n ∧ h.level = level ∧ h.refcount = st.nextRefcount
  entries : h.run.entries = entries
  stored : st'.runAt .active n = some h.run
  others : ∀ m, m ≠ n → st'.active.lookup m = st.active.lookup m
  unused : st.active.lookup n = none
  refcounts : st'.refcounts = Function.update st.refcounts st.nextRefcount 1
  nextRefcount : st'.nextRefcount = st.nextRefcount + 1
  snapshots : st'.snapshots = st.snapshots

theorem writeOk {faults : Nat → Bool} {i n level : Nat} {entries : Entries} {st st' : Storage}
    {h : SsTableHandle} (ok : write faults i n entries level st = (.ok h, st')) :
    Written n entries level st h st' := by
  unfold write at ok
  split at ok
  · simp at ok
  · rename_i st₁ opened
    obtain ⟨unused, rfl⟩ := newOpsDone opened
    split at ok
    · simp at ok
    · rename_i nonempty
      dsimp only at ok
      split at ok
      · simp at ok
      · rename_i st₂ finished
        have done := runDone finished
        rw [finishOpsFinal] at done
        subst done
        cases ok
        refine ⟨⟨rfl, rfl, rfl, rfl⟩, rfl, ?_, ?_, unused, rfl, rfl, rfl⟩
        · simp [Storage.runAt, Storage.files, complete, lookupComplete, List.lookup_append, unused]
        · intro m other
          have skip : ([(n, (none : Option Run))]).lookup m = none := by simp [other]
          simp only [complete, lookupComplete, if_neg other, List.lookup_append, skip,
            Option.or_none]

theorem writeError {faults : Nat → Bool} {i n level : Nat} {entries : Entries} {st st' : Storage}
    {e : Error} (failed : write faults i n entries level st = (.error e, st')) :
    Touches n st st' := by
  have opened : Touches n st (Script.run faults i (newOps n) st).2 :=
    runKeeps (fun op member s => newOpsTouch op member) (touchesRefl n st)
  unfold write at failed
  split at failed
  · rename_i st₁ stopped
    cases failed
    rwa [stopped] at opened
  · rename_i st₁ ready
    rw [ready] at opened
    split at failed
    · cases failed
      exact opened
    · rename_i nonempty
      have finished : Touches n st
          (Script.run faults (i + (newOps n).length) (finishOps n ⟨entries, nonempty⟩) st₁).2 :=
        runKeeps (fun op member s => finishOpsTouch op member) opened
      dsimp only at failed
      split at failed
      · rename_i st₂ stopped
        cases failed
        rwa [stopped] at finished
      · simp at failed

def Stores (entries : Entries) (st₀ st : Storage) : Prop :=
  ∀ m run, st.active.lookup m = some (some run) →
    st₀.active.lookup m = some (some run) ∨ run.entries = entries

theorem writeStores (faults : Nat → Bool) (i n : Nat) (entries : Entries) (level : Nat) (st : Storage) :
    Stores entries st (write faults i n entries level st).2 := by
  have opened : Stores entries st (Script.run faults i (newOps n) st).2 := by
    refine runKeeps (P := Stores entries st) (fun op member s _ stores => ?_) (fun m run => Or.inl)
    simp only [newOps, List.mem_cons, List.not_mem_nil, or_false] at member
    rcases member with rfl | rfl
    · intro m run found
      refine stores m run ?_
      rw [List.lookup_append] at found
      cases before : s.active.lookup m with
      | some content => simpa [before] using found
      | none =>
        rw [before, Option.none_or, Assoc.lookupCons] at found
        split at found <;> simp at found
    · exact stores
  unfold write
  split
  · rename_i st₁ stopped
    rwa [stopped] at opened
  · rename_i st₁ ready
    rw [ready] at opened
    split
    · exact opened
    · rename_i nonempty
      have finished : Stores entries st
          (Script.run faults (i + (newOps n).length) (finishOps n ⟨entries, nonempty⟩) st₁).2 := by
        refine runKeeps (P := Stores entries st) (fun op member s _ stores => ?_) opened
        simp only [finishOps, List.mem_append, List.mem_map, List.mem_singleton] at member
        rcases member with (⟨name, _, rfl⟩ | rfl) | ⟨name, _, rfl⟩
        · exact stores
        · intro m run found
          simp only [complete, lookupComplete] at found
          split at found
          · obtain ⟨_, _, same⟩ := Option.map_eq_some_iff.mp found
            rw [← Option.some.inj same]
            exact Or.inr rfl
          · exact stores m run found
        · exact stores
      dsimp only
      split
      · rename_i st₂ stopped
        rwa [stopped] at finished
      · rename_i st₂ done
        rwa [done] at finished

theorem writeSnapshots (faults : Nat → Bool) (i n : Nat) (entries : Entries) (level : Nat) (st : Storage) :
    (write faults i n entries level st).2.snapshots = st.snapshots := by
  cases out : write faults i n entries level st with
  | mk outcome st' =>
    cases outcome with
    | ok h => exact (writeOk out).snapshots
    | error e => exact (writeError out).snapshots

theorem writeSucceeds {faults : Nat → Bool} (clean : ∀ j, faults j = false) (i : Nat) {n : Nat}
    {entries : Entries} (level : Nat) {st : Storage} (unused : st.active.lookup n = none)
    (nonempty : entries ≠ ∅) : ∃ h st', write faults i n entries level st = (.ok h, st') := by
  have opened : Script.run faults i (newOps n) st =
      (none, { st with active := st.active ++ [(n, none)] }) := by
    simp [newOps, Script.run, clean, unused, still]
  have finished : Script.run faults (i + (newOps n).length) (finishOps n ⟨entries, nonempty⟩)
      { st with active := st.active ++ [(n, none)] } = (none, _) :=
    Ends.always (fun op member s => by
      simp only [finishOps, List.mem_append, List.mem_map, List.mem_singleton] at member
      rcases member with (⟨name, _, rfl⟩ | rfl) | ⟨name, _, rfl⟩ <;> rfl) _ faults _ (fun j _ _ => clean j)
  unfold write
  simp only [opened, dif_neg nonempty, finished]
  exact ⟨_, _, rfl⟩

end SsTableWriter

structure Owns (st : Storage) (live : Multiset SsTableHandle) : Prop where
  counts : Counted.Owned SsTableHandle.runNumber SsTableHandle.refcount SsTableHandle.run
    (st.runAt .active) st.refcounts st.nextRefcount live
  inActive : ∀ h ∈ live, h.dir = .active

namespace Owns
variable {st st' : Storage} {live : Multiset SsTableHandle}

theorem readRun (own : Owns st live) {h : SsTableHandle} (member : h ∈ live) :
    st.readRun h = .ok h.run := by
  simp only [Storage.readRun, own.inActive h member, own.counts.stored h member]

theorem readable (own : Owns st live) {runs : List SsTableHandle} (members : ∀ h ∈ runs, h ∈ live) :
    Readable st runs := fun h member => own.readRun (members h member)

theorem congr (own : Owns st live) {live' : Multiset SsTableHandle} (same : live = live') :
    Owns st live' := same ▸ own

theorem cloneHandle (own : Owns st live) {h : SsTableHandle} (member : h ∈ live) :
    Owns (st.cloneHandle h) (h ::ₘ live) := by
  refine ⟨own.counts.clone member, fun x mem => ?_⟩
  rcases Multiset.mem_cons.mp mem with rfl | mem
  · exact own.inActive x member
  · exact own.inActive x mem

theorem cloneAll (own : Owns st live) {hs : List SsTableHandle} (members : ∀ h ∈ hs, h ∈ live) :
    Owns (st.cloneAll hs) (↑hs + live) := by
  induction hs generalizing st live with
  | nil => simpa [Storage.cloneAll] using own
  | cons h rest ih =>
    have first := own.cloneHandle (members h List.mem_cons_self)
    have later := ih first (fun x mem =>
      Multiset.mem_cons_of_mem (members x (List.mem_cons_of_mem h mem)))
    refine later.congr ?_
    rw [Multiset.add_cons, ← Multiset.cons_coe, Multiset.cons_add]

theorem dropHandle {h : SsTableHandle} (own : Owns st (h ::ₘ live)) : Owns (st.dropHandle h) live := by
  have place := own.inActive h (Multiset.mem_cons_self h live)
  refine ⟨?_, fun x mem => own.inActive x (Multiset.mem_cons_of_mem mem)⟩
  unfold Storage.dropHandle
  by_cases last : st.refcounts h.refcount = 1
  · simp only [last, if_true, place, Storage.removeFiles]
    have removed : ({ st with
        refcounts := Function.update st.refcounts h.refcount (1 - 1)
        active := st.active.filter (fun f => f.1 != h.runNumber) } : Storage).runAt .active =
          fun m => if m = h.runNumber then none else st.runAt .active m := by
      funext m
      simp only [Storage.runAt, Storage.files, lookupFilter]
      split <;> rfl
    have before : (1 : Nat) - 1 = st.refcounts h.refcount - 1 := by rw [last]
    rw [removed, before]
    exact own.counts.drop (fun m other => if_neg other) (fun more => absurd last more)
  · simp only [last, if_false]
    exact own.counts.drop (fun _ _ => rfl) (fun _ => rfl)

theorem written (own : Owns st live) {n level : Nat} {entries : Entries} {h : SsTableHandle}
    (fresh : ∀ x ∈ live, x.runNumber ≠ n)
    (w : SsTableWriter.Written n entries level st h st') : Owns st' (h ::ₘ live) := by
  obtain ⟨dir, number, _, counter⟩ := w.handle
  have kept : ∀ m, m ≠ h.runNumber → st'.runAt .active m = st.runAt .active m := by
    intro m other
    rw [number] at other
    simp only [Storage.runAt, Storage.files, w.others m other]
  have counts := own.counts.create (h := h) (by rw [number]; exact fresh) counter
    (by rw [number]; exact w.stored) kept
  rw [← w.refcounts, ← w.nextRefcount] at counts
  refine ⟨counts, fun x mem => ?_⟩
  rcases Multiset.mem_cons.mp mem with rfl | mem
  · exact dir
  · exact own.inActive x mem

theorem touched (own : Owns st live) {n : Nat} (fresh : ∀ x ∈ live, x.runNumber ≠ n)
    (t : Storage.Touches n st st') : Owns st' live := by
  have counts := own.counts.restore (fun h member => t.runAt (fresh h member))
  rw [← t.refcounts, ← t.nextRefcount] at counts
  exact ⟨counts, own.inActive⟩

end Owns
end CardanoLsm
