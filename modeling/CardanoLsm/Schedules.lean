import CardanoLsm.Refinement
import CardanoLsm.Calls

/-! What a scan cannot see: when memtables are flushed, how the threads interleave, which
runs are merged and where a batch is split. -/
namespace CardanoLsm
open Std Layered

def Action.calls : Action → List Action
  | .insertBatch entries => entries.map (fun e => .insert e.1 e.2)
  | .deleteBatch keys => keys.map .delete
  | .compact | .compactAll | .saveSnapshot _ _ | .foreground _ | .background _ | .collect _ => []
  | a => [a]

def callsOf (as : List Action) : List Action := as.flatMap Action.calls

namespace Reference

theorem runMap {β : Type} (call : β → Action) (write' : β → Key × Entry)
    (writes : ∀ b, (call b).isWrite = true ∧ (call b).writes = [write' b]) (r : Reference) (bs : List β) :
    r.run (bs.map call) = { r with map := (bs.map write').foldl write r.map } := by
  induction bs generalizing r with
  | nil => rfl
  | cons b bs ih =>
    have next : (r.run (List.map call (b :: bs))) = (r.step (call b)).run (bs.map call) := rfl
    rw [next, ih, stepWrite (writes b).1, (writes b).2]
    rfl

theorem runCallsOf (r : Reference) (as : List Action) : r.run (callsOf as) = r.run as := by
  induction as generalizing r with
  | nil => rfl
  | cons a as ih =>
    have split : r.run (callsOf (a :: as)) = (r.run a.calls).run (callsOf as) := by
      rw [callsOf, List.flatMap_cons, run, List.foldl_append]
      rfl
    have here : r.run a.calls = r.step a := by
      cases a with
      | insertBatch entries =>
        rw [Action.calls, runMap _ (fun e => (e.1, some e.2)) (fun _ => ⟨rfl, rfl⟩)]
        rfl
      | deleteBatch keys =>
        rw [Action.calls, runMap _ (fun key => (key, none)) (fun _ => ⟨rfl, rfl⟩)]
        rfl
      | _ => rfl
    rw [split, here, ih]
    rfl

end Reference

theorem relatedThrough {α β γ : Type} {R : α → γ → Prop} {Q : β → γ → Prop} {S : α → β → Prop} {as : List α}
    {bs : List β} {cs : List γ} (left : List.Forall₂ R as cs) (right : List.Forall₂ Q bs cs)
    (through : ∀ a b c, R a c → Q b c → S a b) : List.Forall₂ S as bs := by
  induction left generalizing bs with
  | nil =>
    cases right
    exact .nil
  | cons first rest ih =>
    cases right with
    | cons first' rest' => exact .cons (through _ _ _ first first') (ih rest')

/-- Two runs that serve the same calls read the same, whatever their configurations, their
flushes, their compactions and the batches the writes came in; so do the snapshots they hold. -/
theorem schedulesAgree {gone gone' : Prop} {config config' : LsmConfig} {overflowChecks overflowChecks' : Bool}
    {as bs : List Action} {s t : State}
    (ran : Trace.Run State.step (StepOk gone) (.fresh config overflowChecks) as s)
    (ran' : Trace.Run State.step (StepOk gone') (.fresh config' overflowChecks') bs t) (same : callsOf as = callsOf bs) :
    (∀ k, s.view k = t.view k) ∧
    List.Forall₂ (fun snap snap' : LsmSnapshot => ∀ k, snap.view k = snap'.view k) s.held t.held ∧
    (s.foreground = .idle → t.foreground = .idle → ∀ lo hi,
      s.tree.range s.storage lo hi = t.tree.range t.storage lo hi) := by
  have left := Refines.run ran (Refines.fresh gone config)
  have right := Refines.run ran' (Refines.fresh gone' config')
  have one : Reference.empty.run as = Reference.empty.run bs := by
    rw [← Reference.runCallsOf, same, Reference.runCallsOf]
  rw [← one] at right
  refine ⟨fun k => (left.tracks.view k).trans (right.tracks.view k).symm, ?_, fun idle idle' lo hi => ?_⟩
  · exact relatedThrough left.tracks.saved right.tracks.saved (fun _ _ _ here there k => (here k).trans (there k).symm)
  · rw [left.range idle, right.range idle']

def batchScript : List Action := [.insertBatch [([1], [10]), ([2], [20])]]

def singlyScript : List Action := .insert [1] [10] :: ownSteps 3 ++ .insert [2] [20] :: ownSteps 3

theorem schedulesAgreeTwo : ∃ s t, Trace.Run State.step (StepOk True) (.fresh ⟨100, 4⟩) batchScript s ∧
    Trace.Run State.step (StepOk True) (.fresh ⟨1, 1⟩) singlyScript t ∧ s.tree.levels.flatten = [] ∧
      t.tree.levels.flatten.length = 2 ∧ s.tree.range s.storage [] [3] = t.tree.range t.storage [] [3] := by
  have clean : ∀ a ∈ batchScript ++ singlyScript, a.Clean := by
    simp [batchScript, singlyScript, ownSteps, noFaults, Action.Clean]
  have ended : (Trace.execWhile State.step stepChecked (.fresh ⟨100, 4⟩) batchScript).any (fun s =>
      State.isIdle s.foreground && decide (s.tree.levels.flatten = [])) = true := by
    decide +kernel
  have ended' : (Trace.execWhile State.step stepChecked (.fresh ⟨1, 1⟩) singlyScript).any (fun t =>
      State.isIdle t.foreground && decide (t.tree.levels.flatten.length = 2)) = true := by
    decide +kernel
  obtain ⟨s, ran, tested⟩ := Trace.runTo (fun s a member checked =>
    stepOkOf (clean a (List.mem_append_left _ member)) checked) ended
  obtain ⟨t, ran', tested'⟩ := Trace.runTo (fun s a member checked =>
    stepOkOf (clean a (List.mem_append_right _ member)) checked) ended'
  simp only [Bool.and_eq_true, decide_eq_true_eq] at tested tested'
  have same : callsOf batchScript = callsOf singlyScript := rfl
  exact ⟨s, t, ran, ran', tested.2, tested'.2,
    (schedulesAgree ran ran' same).2.2 (State.idleOfIsIdle tested.1) (State.idleOfIsIdle tested'.1) [] [3]⟩

end CardanoLsm
