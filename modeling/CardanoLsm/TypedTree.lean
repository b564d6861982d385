import CardanoLsm.Refinement
import CardanoLsm.MonoidalLaws

/-! The monoidal tree over whole runs (`MonoidalLsmTree`, `monoidal.rs`): its folds read a
map of typed values, whatever flushes, compactions and rollbacks lie in between. -/
namespace CardanoLsm
open Std Layered Assoc

structure MonoidalValue (V : Type) extends Monoidal V where
  serialize : V → Option Value

inductive TypedAction (V : Type) where
  | insert (key : Key) (value : V)
  | delete (key : Key)
  | snapshot
  | rollback (i : Nat)
  | dropSnapshot (i : Nat)
  | compact
  | foreground (faults : Nat → Bool)
  | background (faults : Nat → Bool)
  | collect (i : Nat)

structure TypedReference (V : Type) where
  map : Layer Key V
  saved : List (Layer Key V)

namespace MonoidalValue
variable {V : Type}

def RoundTrips (m : MonoidalValue V) : Prop :=
  ∀ v bytes, m.serialize v = some bytes → m.deserialize bytes = some v

def lower (m : MonoidalValue V) : TypedAction V → Option Action
  | .insert key value => (m.serialize value).map (fun bytes => .insert key bytes)
  | .delete key => some (.delete key)
  | .snapshot => some .snapshot
  | .rollback i => some (.rollback i)
  | .dropSnapshot i => some (.dropSnapshot i)
  | .compact => some .compact
  | .foreground faults => some (.foreground faults)
  | .background faults => some (.background faults)
  | .collect i => some (.collect i)

def step (m : MonoidalValue V) (s : State) (a : TypedAction V) : Option State :=
  match m.lower a with
  | some a => s.step a
  | none => if State.isIdle s.foreground then some s else none

def StepOk (m : MonoidalValue V) (gone : Prop) (s : State) (a : TypedAction V) : Prop :=
  ∀ below, m.lower a = some below → CardanoLsm.StepOk gone s below

end MonoidalValue

namespace TypedReference
variable {V : Type}

def empty : TypedReference V := ⟨∅, []⟩

def step (m : MonoidalValue V) (r : TypedReference V) : TypedAction V → TypedReference V
  | .insert key value => if (m.serialize value).isSome then { r with map := r.map.insert key value } else r
  | .delete key => { r with map := r.map.erase key }
  | .snapshot => { r with saved := r.saved ++ [r.map] }
  | .rollback i =>
    match r.saved[i]? with
    | some map => ⟨map, r.saved.eraseIdx i⟩
    | none => r
  | .dropSnapshot i => { r with saved := r.saved.eraseIdx i }
  | _ => r

def run (m : MonoidalValue V) (r : TypedReference V) (as : List (TypedAction V)) : TypedReference V :=
  as.foldl (step m) r

def fold (m : MonoidalValue V) (r : TypedReference V) (lo hi : Key) : V :=
  (r.map.toList.filter (fun e => inRange lo hi e.1)).foldl (fun acc e => m.mappend acc e.2) m.mempty

end TypedReference

namespace MonoidalValue
variable {V : Type} {m : MonoidalValue V}

def encode (m : MonoidalValue V) (map : Layer Key V) : Layer Key Value := map.map (fun _ v => (m.serialize v).getD [])

structure Stores (m : MonoidalValue V) (below : Layer Key Value) (map : Layer Key V) : Prop where
  encoded : below = m.encode map
  written : ∀ (k : Key) (v : V), map[k]? = some v → (m.serialize v).isSome = true

structure Encodes (m : MonoidalValue V) (below : Reference) (r : TypedReference V) : Prop where
  map : m.Stores below.map r.map
  saved : List.Forall₂ m.Stores below.saved r.saved

theorem Stores.insert {below : Layer Key Value} {map : Layer Key V} (stores : m.Stores below map) (key : Key) {v : V}
    {bytes : Value} (written : m.serialize v = some bytes) : m.Stores (below.insert key bytes) (map.insert key v) := by
  refine ⟨?_, fun k w held => ?_⟩
  · rw [stores.encoded]
    apply ExtTreeMap.ext_getElem?
    intro k
    simp only [encode, ExtTreeMap.getElem?_insert, ExtTreeMap.getElem?_map]
    split
    · rw [Option.map_some, written, Option.getD_some]
    · rfl
  · rw [ExtTreeMap.getElem?_insert] at held
    split at held
    · cases held
      rw [written, Option.isSome_some]
    · exact stores.written k w held

theorem Stores.erase {below : Layer Key Value} {map : Layer Key V} (stores : m.Stores below map) (key : Key) :
    m.Stores (below.erase key) (map.erase key) := by
  refine ⟨?_, fun k w held => ?_⟩
  · rw [stores.encoded]
    apply ExtTreeMap.ext_getElem?
    intro k
    simp only [encode, ExtTreeMap.getElem?_erase, ExtTreeMap.getElem?_map]
    split <;> rfl
  · rw [ExtTreeMap.getElem?_erase] at held
    split at held
    · cases held
    · exact stores.written k w held

theorem Stores.empty : m.Stores ∅ ∅ := by
  refine ⟨?_, fun k v held => ?_⟩
  · apply ExtTreeMap.ext_getElem?
    intro k
    simp [encode]
  · rw [ExtTreeMap.getElem?_empty] at held
    cases held

theorem Encodes.step {below : Reference} {r : TypedReference V} (encodes : m.Encodes below r) {a : TypedAction V}
    {b : Action} (lowered : m.lower a = some b) : m.Encodes (below.step b) (r.step m a) := by
  obtain ⟨map, saved⟩ := encodes
  cases a with
  | insert key value =>
    obtain ⟨bytes, written, rfl⟩ := Option.map_eq_some_iff.mp lowered
    simp only [TypedReference.step, written, Option.isSome_some, if_true]
    exact ⟨map.insert key written, saved⟩
  | delete key =>
    cases lowered
    exact ⟨map.erase key, saved⟩
  | snapshot =>
    cases lowered
    exact ⟨map, relatedSnoc saved map⟩
  | rollback i =>
    cases lowered
    cases found : below.saved[i]? with
    | none =>
      have none : r.saved[i]? = none := by
        rw [List.getElem?_eq_none_iff] at found ⊢
        rw [← saved.length_eq]
        exact found
      simp only [Reference.step, TypedReference.step, found, none]
      exact ⟨map, saved⟩
    | some old =>
      obtain ⟨typed, same, stores⟩ := relatedAt saved found
      simp only [Reference.step, TypedReference.step, found, same]
      exact ⟨stores, relatedErase saved i⟩
  | dropSnapshot i =>
    cases lowered
    exact ⟨map, relatedErase saved i⟩
  | compact => cases lowered; exact ⟨map, saved⟩
  | foreground faults => cases lowered; exact ⟨map, saved⟩
  | background faults => cases lowered; exact ⟨map, saved⟩
  | collect i => cases lowered; exact ⟨map, saved⟩

theorem runRefines {gone : Prop} {as : List (TypedAction V)} {s t : State} {r : TypedReference V}
    (ran : Trace.Run m.step (m.StepOk gone) s as t)
    (start : ∃ below, Refines gone s below ∧ m.Encodes below r) :
    ∃ below, Refines gone t below ∧ m.Encodes below (r.run m as) := by
  refine ran.simulate (R := fun s r => ∃ below, Refines gone s below ∧ m.Encodes below r)
    (fun s a t r taken ok holds => ?_) start
  obtain ⟨below, refines, encodes⟩ := holds
  unfold step at taken
  cases lowered : m.lower a with
  | some b =>
    rw [lowered] at taken
    exact ⟨below.step b, refines.step taken (ok b lowered), encodes.step lowered⟩
  | none =>
    -- the value did not serialize, and neither side changed
    rw [lowered] at taken
    simp only [Option.ite_none_right_eq_some, Option.some.injEq] at taken
    obtain ⟨-, rfl⟩ := taken
    refine ⟨below, refines, ?_⟩
    cases a with
    | insert key value =>
      have failed : m.serialize value = none := Option.map_eq_none_iff.mp lowered
      simp only [TypedReference.step, failed, Option.isSome_none, Bool.false_eq_true, if_false]
      exact encodes
    | _ => cases lowered

theorem foldStores (roundTrips : m.RoundTrips) {below : Reference} {r : TypedReference V}
    (encodes : m.Encodes below r) (lo hi : Key) : (below.range lo hi).foldl m.add m.mempty = r.fold m lo hi := by
  have listed : below.map.toList = r.map.toList.map (fun e => (e.1, (m.serialize e.2).getD [])) := by
    rw [encodes.map.encoded, encode, ExtTreeMap.toList_map]
  have kept : below.range lo hi =
      (r.map.toList.filter (fun e => inRange lo hi e.1)).map (fun e => (e.1, (m.serialize e.2).getD [])) := by
    rw [Reference.range, listed, List.filter_map]
    rfl
  rw [kept, List.foldl_map, TypedReference.fold]
  refine List.foldl_ext _ _ _ (fun acc e member => ?_)
  have held : r.map[e.1]? = some e.2 :=
    ExtTreeMap.mem_toList_iff_getElem?_eq_some.mp (List.mem_of_mem_filter member)
  obtain ⟨bytes, written⟩ := Option.isSome_iff_exists.mp (encodes.map.written e.1 e.2 held)
  simp only [Monoidal.add, written, Option.getD_some, roundTrips e.2 bytes written]

end MonoidalValue

/-- A fold over the tree folds, in key order, the typed values that were inserted and
neither overwritten nor deleted nor rolled back. -/
theorem foldsRefine {V : Type} {m : MonoidalValue V} (roundTrips : m.RoundTrips) {gone : Prop} {config : LsmConfig}
    {overflowChecks : Bool} {as : List (TypedAction V)} {s : State}
    (ran : Trace.Run m.step (m.StepOk gone) (.fresh config overflowChecks) as s)
    (idle : s.foreground = .idle) :
    (∀ lo hi, m.treeRangeFold s.tree s.storage lo hi = (TypedReference.empty.run m as).fold m lo hi) ∧
      ∀ bytes, m.prefixFold s.tree s.storage bytes =
        (TypedReference.empty.run m as).fold m bytes (prefixEnd bytes) := by
  obtain ⟨below, refines, encodes⟩ := MonoidalValue.runRefines (r := TypedReference.empty) ran
    ⟨.empty, Refines.fresh gone config, ⟨MonoidalValue.Stores.empty, .nil⟩⟩
  have folds : ∀ lo hi, m.treeRangeFold s.tree s.storage lo hi = (TypedReference.empty.run m as).fold m lo hi := by
    intro lo hi
    rw [Monoidal.treeRangeFold, refines.range idle lo hi]
    exact MonoidalValue.foldStores roundTrips encodes lo hi
  exact ⟨folds, fun bytes => folds bytes (prefixEnd bytes)⟩

def balances : MonoidalValue UInt64 :=
  { u64Values with serialize := fun v => some (Bytes.le 8 v.toNat) }

theorem balancesRoundTrip : balances.RoundTrips := by
  intro v bytes written
  cases written
  have bound : v.toNat < 256 ^ 8 := v.toNat_lt
  have read := Bytes.readExactAppend (Bytes.leLength 8 v.toNat) []
  rw [List.append_nil] at read
  simp only [balances, u64Values, read, Option.map_some, Bytes.readLeBounded bound, UInt64.ofNat_toNat]

def balancesScript : List (TypedAction UInt64) :=
  let own := List.replicate 3 (TypedAction.foreground noFaults)
  .insert [97] 100 :: own ++ .insert [98] 50 :: own ++ .snapshot :: .delete [97] :: own ++
    .insert [99] 200 :: own

theorem foldsRefineBalances : ∃ s,
    Trace.Run balances.step (balances.StepOk True) (.fresh ⟨1, 4⟩) balancesScript s ∧
      s.tree.levels.flatten.length = 4 ∧
      balances.treeRangeFold s.tree s.storage [97] [99] = 250 := by
  have ended : (Trace.execWhile balances.step (fun s a => (balances.lower a).all (stepChecked s))
      (.fresh ⟨1, 4⟩) balancesScript).any (fun s =>
        State.isIdle s.foreground && decide (s.tree.levels.flatten.length = 4)) = true := by decide +kernel
  have allowed : ∀ s, ∀ a ∈ balancesScript, (balances.lower a).all (stepChecked s) = true →
      balances.StepOk True s a := by
    intro s a member checked b lowered
    have clean : b.Clean := by
      have fixed : ∀ a ∈ balancesScript, ∀ b, balances.lower a = some b → b.Clean := by
        simp [balancesScript, MonoidalValue.lower, balances, Action.Clean, noFaults]
      exact fixed a member b lowered
    rw [lowered] at checked
    exact stepOkOf clean checked
  obtain ⟨s, ran, tested⟩ := Trace.runTo allowed ended
  simp only [Bool.and_eq_true, decide_eq_true_eq] at tested
  have value : (TypedReference.empty.run balances balancesScript).fold balances [97] [99] = 250 := by
    decide +kernel
  refine ⟨s, ran, tested.2, ?_⟩
  rw [← value]
  exact (foldsRefine balancesRoundTrip ran (State.idleOfIsIdle tested.1)).1 [97] [99]

end CardanoLsm
