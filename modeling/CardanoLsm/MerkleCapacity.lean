import CardanoLsm.Merkle
import CardanoLsm.Lib.Trace

/-! Runs of a Merkle tree with its snapshots. `insert` does not look at the capacity: what
keeps the root over all leaves is that nobody inserts into a full tree. -/
namespace CardanoLsm.Merkle
open Std IncrementalMerkleTree PerfectTree

structure MerkleSnapshot where
  root : Hash
  nodes : ExtTreeMap NodePath Hash (fun a b => compare a b)
  leafCount : Nat
  keyToIndex : ExtTreeMap (List UInt8) Nat
  leafData : ExtTreeMap (List UInt8) (List UInt8)
  height : Nat

namespace IncrementalMerkleTree

def snapshot (t : IncrementalMerkleTree) : MerkleSnapshot :=
  ⟨t.root, t.nodes, t.leafCount, t.keyToIndex, t.leafData, t.height⟩

def rollback (_ : IncrementalMerkleTree) (s : MerkleSnapshot) : IncrementalMerkleTree :=
  ⟨s.nodes, s.root, s.height, s.leafCount, s.keyToIndex, s.leafData⟩

def maxLeaves (t : IncrementalMerkleTree) : Option Nat :=
  if t.height < 64 then some (1 <<< t.height) else none

theorem rollbackSnapshot (t t' : IncrementalMerkleTree) : t'.rollback t.snapshot = t := rfl

end IncrementalMerkleTree

structure MerkleRun where
  tree : IncrementalMerkleTree
  snapshots : List MerkleSnapshot

inductive MerkleAction where
  | insert (key value : List UInt8)
  | snapshot
  | rollback (i : Nat)

namespace MerkleRun

def start (height : Nat) : MerkleRun := ⟨new height, []⟩

def step (blake3 : List UInt8 → Vector UInt8 32) (s : MerkleRun) : MerkleAction → Option MerkleRun
  | .insert key value => some { s with tree := (s.tree.insert blake3 key value).2 }
  | .snapshot => some { s with snapshots := s.snapshots ++ [s.tree.snapshot] }
  | .rollback i => s.snapshots[i]?.map (fun snapshot => { s with tree := s.tree.rollback snapshot })

def Room (s : MerkleRun) : MerkleAction → Prop
  | .insert _ _ => s.tree.leafCount < 2 ^ s.tree.height
  | _ => True

end MerkleRun

structure Capacity (blake3 : List UInt8 → Vector UInt8 32) (t : IncrementalMerkleTree) : Prop where
  fits : ∃ max, t.maxLeaves = some max ∧ max = 2 ^ t.height ∧ t.leafCount ≤ max
  top : ∀ index hash, t.nodes[(⟨t.height, index⟩ : NodePath)]? = some hash → index = 0 ∧ hash = t.root
  commits : t.root = PerfectTree.root Hash.empty (hashNode blake3) t.height
    ((List.range t.leafCount).map (fun i => t.nodes[(⟨0, i⟩ : NodePath)]?.getD Hash.empty))

def MerkleRun.Within (blake3 : List UInt8 → Vector UInt8 32) (s : MerkleRun) (a : MerkleAction) : Prop :=
  ∀ t, s.step blake3 a = some t → Capacity blake3 t.tree

section
variable {blake3 : List UInt8 → Vector UInt8 32} {height : Nat} {t : IncrementalMerkleTree}

def Grown (blake3 : List UInt8 → Vector UInt8 32) (height : Nat) (t : IncrementalMerkleTree) : Prop :=
  ∃ pairs, pairs.length ≤ 2 ^ height ∧ Represents blake3 height pairs t

theorem Represents.level0 {pairs : List (List UInt8 × List UInt8)} (rep : Represents blake3 height pairs t) :
    (List.range t.leafCount).map (fun i => t.nodes[(⟨0, i⟩ : NodePath)]?.getD Hash.empty) =
      leaves blake3 pairs := by
  refine List.ext_getElem (by simp [rep.leafCount]) (fun i inside inside' => ?_)
  have leaf : t.nodes[(⟨0, i⟩ : NodePath)]?.getD Hash.empty = hashAt blake3 pairs 0 i :=
    rep.nodes.get (Nat.succ_pos height) i
  rw [List.getElem_map, List.getElem_range, leaf, hashAt, subtreeLeaf, List.getElem?_eq_getElem inside']
  rfl

theorem Grown.capacity (grown : Grown blake3 height t) (low : height < 64) : Capacity blake3 t := by
  obtain ⟨pairs, fits, rep⟩ := grown
  refine ⟨⟨2 ^ height, ?_, ?_, ?_⟩, fun index hash found => ?_, ?_⟩
  · rw [maxLeaves, rep.tall, if_pos low, Nat.one_shiftLeft]
  · rw [rep.tall]
  · rw [rep.leafCount]
    exact fits
  · rw [rep.tall, rep.nodes, if_pos (Nat.lt_succ_self height), stored] at found
    split at found
    · rename_i inside
      have first : index = 0 := by
        by_contra later
        have := Nat.le_mul_of_pos_left (2 ^ height) (Nat.pos_of_ne_zero later)
        simp only at inside
        omega
      subst first
      exact ⟨rfl, by rw [rep.root, ← Option.some.inj found]⟩
    · cases found
  · rw [rep.level0, rep.tall, rep.root, hashAt, subtreeAll (by simpa using fits)]

namespace MerkleRun

structure Fits (blake3 : List UInt8 → Vector UInt8 32) (height : Nat) (s : MerkleRun) : Prop where
  tree : Grown blake3 height s.tree
  snapshots : ∀ snapshot ∈ s.snapshots, Grown blake3 height (s.tree.rollback snapshot)

theorem startFits (height : Nat) : Fits blake3 height (start height) :=
  ⟨⟨[], Nat.zero_le _, newRepresents height⟩, fun _ member => absurd member List.not_mem_nil⟩

theorem Fits.step {s s' : MerkleRun} {a : MerkleAction} (fits : Fits blake3 height s)
    (taken : s.step blake3 a = some s') (room : s.Room a) : Fits blake3 height s' := by
  cases a with
  | insert key value =>
    cases taken
    obtain ⟨pairs, bound, rep⟩ := fits.tree
    have free : pairs.length < 2 ^ height := by
      rw [← rep.leafCount, ← rep.tall]
      exact room
    exact ⟨⟨pairs ++ [(key, value)], by simpa using free, insertRepresents rep free key value⟩,
      fits.snapshots⟩
  | snapshot =>
    cases taken
    refine ⟨fits.tree, fun snapshot member => ?_⟩
    rcases List.mem_append.mp member with old | new
    · exact fits.snapshots snapshot old
    · rw [List.mem_singleton.mp new, rollbackSnapshot]
      exact fits.tree
  | rollback i =>
    obtain ⟨snapshot, found, rfl⟩ := Option.map_eq_some_iff.mp taken
    exact ⟨fits.snapshots snapshot (List.mem_of_getElem? found), fits.snapshots⟩

theorem Within.room {s : MerkleRun} {a : MerkleAction} (within : s.Within blake3 a) : s.Room a := by
  cases a with
  | insert key value =>
    obtain ⟨max, -, same, bound⟩ := (within _ rfl).fits
    rw [same] at bound
    exact bound
  | _ => trivial

end MerkleRun
end

/-- A run has the leaf count within the capacity, and the root over all leaves, in every state
exactly if its height is below 64 and it inserts only where a leaf is free. -/
theorem capacityKept (blake3 : List UInt8 → Vector UInt8 32) (height : Nat) (actions : List MerkleAction)
    (s : MerkleRun) :
    (Capacity blake3 (MerkleRun.start height).tree ∧
      Trace.Run (MerkleRun.step blake3) (MerkleRun.Within blake3) (.start height) actions s) ↔
    height < 64 ∧ Trace.Run (MerkleRun.step blake3) MerkleRun.Room (.start height) actions s := by
  constructor
  · rintro ⟨start, within⟩
    obtain ⟨max, some, -, -⟩ := start.fits
    refine ⟨?_, within.weaken (fun _ _ => MerkleRun.Within.room)⟩
    by_contra high
    simp [maxLeaves, MerkleRun.start, new, high] at some
  · rintro ⟨low, room⟩
    have fits : MerkleRun.Fits blake3 height (.start height) := MerkleRun.startFits height
    refine ⟨fits.tree.capacity low, ?_⟩
    have kept := room.assume (fun _ _ _ taken room fits => MerkleRun.Fits.step fits taken room) fits
    exact kept.weaken (fun _ _ both _ taken => (both.2.step taken both.1).tree.capacity low)

theorem capacityPassed : ∃ s, Trace.Run (MerkleRun.step tabled) (fun _ _ => True) (.start 0)
    [.insert [97, 58, 98] [99], .insert [97, 58, 98] [100]] s ∧ s.tree.leafCount = 2 ∧
      s.tree.maxLeaves = some 1 ∧ s.tree.root = hashLeaf tabled [97, 58, 98] [100] ∧
      ¬ Capacity tabled s.tree := by
  refine ⟨_, .cons rfl trivial (.cons rfl trivial (.nil _)), rfl, rfl, rfl, fun capacity => ?_⟩
  obtain ⟨max, some, same, bound⟩ := capacity.fits
  rw [same] at bound
  exact absurd bound (by decide)

end CardanoLsm.Merkle
