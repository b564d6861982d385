import CardanoLsm.Content
import CardanoLsm.Opening

/-! The session refines the reference model: a plain map with saved copies of itself. -/
namespace CardanoLsm
open Std Layered Assoc

structure Reference where
  map : Layer Key Value
  saved : List (Layer Key Value)

namespace Reference

def empty : Reference := ⟨∅, []⟩

def write (map : Layer Key Value) (w : Key × Entry) : Layer Key Value :=
  match w.2 with
  | some value => map.insert w.1 value
  | none => map.erase w.1

def step (r : Reference) : Action → Reference
  | .snapshot => { r with saved := r.saved ++ [r.map] }
  | .rollback i =>
    match r.saved[i]? with
    | some map => ⟨map, r.saved.eraseIdx i⟩
    | none => r
  | .cloneSnapshot i =>
    match r.saved[i]? with
    | some map => { r with saved := r.saved ++ [map] }
    | none => r
  | .dropSnapshot i => { r with saved := r.saved.eraseIdx i }
  | a => { r with map := a.writes.foldl write r.map }

def run (r : Reference) (as : List Action) : Reference := as.foldl step r

def range (r : Reference) (lo hi : Key) : List (Key × Value) :=
  r.map.toList.filter (fun e => inRange lo hi e.1)

theorem writesGet (ws : List (Key × Entry)) (map : Layer Key Value) (layer : Entries) (k : Key)
    (older : Option Value) (same : map[k]? = (layer[k]?).elim older id) :
    (ws.foldl write map)[k]? = ((insertAll layer ws)[k]?).elim older id := by
  induction ws generalizing map layer with
  | nil => exact same
  | cons w rest ih =>
    refine ih (write map w) (layer.insert w.1 w.2) ?_
    obtain ⟨key, entry⟩ := w
    rw [ExtTreeMap.getElem?_insert]
    by_cases here : key = k
    · subst here
      cases entry with
      | none => simp [write]
      | some value => simp [write]
    · cases entry <;> simp [write, ExtTreeMap.getElem?_insert, ExtTreeMap.getElem?_erase, here, same]

theorem stepWrite {a : Action} (isWrite : a.isWrite = true) (r : Reference) :
    r.step a = { r with map := a.writes.foldl write r.map } := by
  cases a <;> first | rfl | cases isWrite

theorem stepKeeps {a : Action} (noWrite : a.isWrite = false) (noRollback : ∀ i, a ≠ .rollback i)
    (r : Reference) : (r.step a).map = r.map := by
  cases a with
  | rollback i => exact absurd rfl (noRollback i)
  | cloneSnapshot i =>
    unfold step
    dsimp only
    split <;> rfl
  | _ => first | rfl | cases noWrite

end Reference

structure Tracks (s : State) (r : Reference) : Prop where
  view : ∀ k : Key, s.view k = r.map[k]?
  saved : List.Forall₂ (fun snap map => ∀ k : Key, snap.view k = map[k]?) s.held r.saved

namespace State.Moves
variable {gone : Prop} {s t : State} {a : Action} {r : Reference}

theorem writeView (tracks : Tracks s r) (idle : s.foreground.inFlight = []) {memtable : MemTable}
    (data : memtable.data = insertAll s.tree.memtable.data a.writes) (k : Key) :
    visible (memtable.data :: layersOf (rangeOrder s.tree.levels)) k =
      (a.writes.foldl Reference.write r.map)[k]? := by
  have before := tracks.view k
  simp only [State.view, top, idle, List.singleton_append, visibleCons] at before
  rw [visibleCons, data]
  exact (Reference.writesGet _ _ _ _ _ before.symm).symm

theorem tracksView (moved : Moves s a t) (sound : Sound s)
    (content : Content gone s) (ok : StepOk gone s a) (tracks : Tracks s r) (k : Key) :
    t.view k = (r.step a).map[k]? := by
  have other : a.isWrite = false → (∀ i, a ≠ .rollback i) → t.view k = (r.step a).map[k]? := by
    intro noWrite noRollback
    rw [moved.viewStep sound content ok noWrite noRollback, tracks.view,
      Reference.stepKeeps noWrite noRollback]
  cases moved with
  | wrote a memtable isWrite idle data =>
    rw [Reference.stepWrite isWrite]
    exact writeView tracks (by rw [idle]; rfl) data k
  | wroteFull a memtable isWrite idle data nonempty =>
    rw [Reference.stepWrite isWrite]
    refine Eq.trans ?_ (writeView tracks (by rw [idle]; rfl) data k)
    -- the memtable of the moment is empty, the full one is on its way
    simp only [State.view, top, at_, withTree, Foreground.inFlight, MemTable.new, List.cons_append,
      List.nil_append]
    rw [visibleCons ∅, ExtTreeMap.getElem?_empty]
    rfl
  | refused i snap idle found future =>
    have same := (sound.held snap (List.mem_of_getElem? found)).sequenceNumber
    omega
  | rollback i snap idle found past =>
    obtain ⟨map, saved, read⟩ := relatedAt tracks.saved found
    have none := (sound.held snap (List.mem_of_getElem? found)).immutables
    have after : (r.step (.rollback i)).map = map := by simp only [Reference.step, saved]
    rw [after, ← read k]
    simp only [State.view, top, return_, Foreground.inFlight, LsmSnapshot.view, LsmSnapshot.layers,
      memLayers, none, List.map_nil, List.reverse_nil]
    rfl
  | _ => exact other rfl (fun i => by simp)

theorem tracksSaved (moved : Moves s a t) (sound : Sound s) (tracks : Tracks s r) :
    List.Forall₂ (fun snap map => ∀ k : Key, snap.view k = map[k]?) t.held (r.step a).saved := by
  have saved := tracks.saved
  cases moved with
  | wrote a memtable isWrite idle data =>
    rw [Reference.stepWrite isWrite]
    exact saved
  | wroteFull a memtable isWrite idle data nonempty =>
    rw [Reference.stepWrite isWrite]
    exact saved
  | snapshot idle =>
    refine relatedSnoc saved (fun k => ?_)
    rw [← tracks.view k, idleView sound (by rw [idle]; rfl)]
    rfl
  | refused i snap idle found future =>
    have same := (sound.held snap (List.mem_of_getElem? found)).sequenceNumber
    omega
  | rollback i snap idle found past =>
    obtain ⟨map, same, -⟩ := relatedAt saved found
    simp only [Reference.step, same]
    exact relatedErase saved i
  | cloneSnapshot i snap found =>
    obtain ⟨map, same, read⟩ := relatedAt saved found
    simp only [Reference.step, same]
    exact relatedSnoc saved read
  | dropSnapshot i snap found => exact relatedErase saved i
  | compacting t faults c c' here moved => exact moved.frame.held ▸ saved
  | compacted t faults c r here moved => exact moved.frame.held ▸ saved
  | background t faults c c' here moved => exact moved.frame.held ▸ saved
  | backgroundEnd t faults c r here moved => exact moved.frame.held ▸ saved
  | _ => exact saved

end State.Moves

structure Refines (gone : Prop) (s : State) (r : Reference) : Prop where
  sound : Sound s
  content : Content gone s
  tracks : Tracks s r

namespace Refines
variable {gone : Prop} {s t : State} {a : Action} {r : Reference}

theorem fresh (gone : Prop) (config : LsmConfig) {overflowChecks : Bool} :
    Refines gone (.fresh config overflowChecks) .empty := by
  have levels : (State.fresh config overflowChecks).tree.levels = List.replicate 7 [] := rfl
  refine ⟨(Starts.fresh config overflowChecks).sound, ⟨trivial, ?_, ?_, ?_, ?_, trivial, fun _ => rfl⟩, ⟨?_, .nil⟩⟩
  · exact fun c here => by cases here
  · exact fun c member => by cases member
  · rw [levels]
    exact Nat.zero_le 1
  · exact fun snap member => by cases member
  · intro k
    have blank : rangeOrder (List.replicate 7 []) = [] := by simp [rangeOrder, sortByRunNumber]
    simp only [State.view, State.top, levels, blank]
    exact (visibleCons ∅ [] k).trans (by simp [visible, Reference.empty])

theorem step (refines : Refines gone s r) (taken : s.step a = some t) (ok : StepOk gone s a) :
    Refines gone t (r.step a) := by
  obtain ⟨sound, content, tracks⟩ := refines
  have moved := State.stepMoves taken
  exact ⟨moved.sound sound, moved.content sound content ok,
    ⟨moved.tracksView sound content ok tracks, moved.tracksSaved sound tracks⟩⟩

theorem run {as : List Action} (ran : Trace.Run State.step (StepOk gone) s as t) (start : Refines gone s r) :
    Refines gone t (r.run as) :=
  ran.simulate (fun _ _ _ _ taken ok refines => refines.step taken ok) start

theorem range (refines : Refines gone s r) (idle : s.foreground = .idle) (lo hi : Key) :
    s.tree.range s.storage lo hi = r.range lo hi :=
  LsmTree.rangeOfMap refines.sound.treeReadable (fun k => by
    rw [← State.idleView refines.sound (by rw [idle]; rfl), refines.tracks.view k])

end Refines
end CardanoLsm
