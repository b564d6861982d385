import CardanoLsm.MerkleCapacity
import CardanoLsm.Lib.Assoc

/-! The Merkle tree over whole runs (`merkle.rs`): with its snapshots and rollbacks it stands for
the list of the pairs inserted and not rolled back. -/
namespace CardanoLsm.Merkle
open Std IncrementalMerkleTree PerfectTree Assoc

def IncrementalMerkleTree.nodeCount (t : IncrementalMerkleTree) : Nat := t.nodes.size

structure Log where
  pairs : List (List UInt8 × List UInt8)
  saved : List (List (List UInt8 × List UInt8))

namespace Log

def step (l : Log) : MerkleAction → Log
  | .insert key value => { l with pairs := l.pairs ++ [(key, value)] }
  | .snapshot => { l with saved := l.saved ++ [l.pairs] }
  | .rollback i =>
    match l.saved[i]? with
    | some pairs => { l with pairs := pairs }
    | none => l

def run (actions : List MerkleAction) : Log := actions.foldl step ⟨[], []⟩

end Log

section
variable {blake3 : List UInt8 → Vector UInt8 32} {height : Nat} {pairs : List (List UInt8 × List UInt8)}
  {t : IncrementalMerkleTree}

def levelNodes (leafCount level : Nat) : Nat := (leafCount + 2 ^ level - 1) / 2 ^ level

theorem levelNodesInside (leafCount level index : Nat) :
    index < levelNodes leafCount level ↔ index * 2 ^ level < leafCount := by
  have positive : 0 < 2 ^ level := Nat.two_pow_pos level
  rw [levelNodes, ← Nat.succ_le_iff, Nat.le_div_iff_mul_le positive, Nat.succ_mul]
  omega

def storedPaths (leafCount height : Nat) : Finset NodePath :=
  (Finset.range (height + 1)).biUnion (fun level =>
    (Finset.range (levelNodes leafCount level)).map ⟨NodePath.mk level, fun _ _ same => (NodePath.mk.inj same).2⟩)

theorem storedPathsCard (leafCount height : Nat) : (storedPaths leafCount height).card =
    ∑ level ∈ Finset.range (height + 1), levelNodes leafCount level := by
  rw [storedPaths, Finset.card_biUnion]
  · simp only [Finset.card_map, Finset.card_range]
  · intro i _ j _ other
    rw [Function.onFun, Finset.disjoint_left]
    intro path left right
    obtain ⟨_, _, rfl⟩ := Finset.mem_map.mp left
    obtain ⟨_, _, same⟩ := Finset.mem_map.mp right
    exact other (NodePath.mk.inj same).1.symm

theorem storedPathsMem {leafCount height : Nat} {path : NodePath} : path ∈ storedPaths leafCount height ↔
    path.level ≤ height ∧ path.index * 2 ^ path.level < leafCount := by
  obtain ⟨level, index⟩ := path
  simp only [storedPaths, Finset.mem_biUnion, Finset.mem_range, Finset.mem_map, levelNodesInside]
  constructor
  · rintro ⟨_, low, _, inside, same⟩
    cases same
    exact ⟨Nat.lt_succ_iff.mp low, inside⟩
  · rintro ⟨low, inside⟩
    exact ⟨level, Nat.lt_succ_of_le low, index, inside, rfl⟩

theorem Represents.counts (rep : Represents blake3 height pairs t) :
    t.nodeCount = ∑ level ∈ Finset.range (height + 1), levelNodes pairs.length level := by
  have keys : t.nodes.keys.toFinset = storedPaths pairs.length height := by
    ext path
    rw [List.mem_toFinset, ExtTreeMap.mem_keys, ExtTreeMap.mem_iff_isSome_getElem?, rep.nodes, storedPathsMem]
    by_cases low : path.level ≤ height
    · rw [if_pos (Nat.lt_succ_of_le low), stored]
      by_cases inside : path.index * 2 ^ path.level < pairs.length
      · simp [low, inside]
      · simp [inside]
    · rw [if_neg (by omega)]
      simp [low]
  rw [nodeCount, ← ExtTreeMap.length_keys, ← List.toFinset_card_of_nodup ExtTreeMap.nodup_keys, keys, storedPathsCard]

theorem Represents.provesNothing (rep : Represents blake3 height pairs t) (key : List UInt8) :
    t.prove key = none ↔ key ∉ pairs.map Prod.fst := by
  have listed : pairs.reverse.lookup key = none ↔ key ∉ pairs.map Prod.fst := by
    rw [List.lookup_eq_none_iff]
    simp only [List.mem_reverse, List.mem_map, not_exists, not_and, bne_iff_ne, ne_eq]
    exact ⟨fun other p member same => other p member same.symm, fun other p member same => other p member same.symm⟩
  rw [← listed]
  cases last : pairs.reverse.lookup key with
  | none =>
    have data := (rep.data key).trans last
    simp only [prove, data, bind, Option.bind, iff_true]
    cases t.keyToIndex[key]? <;> rfl
  | some value =>
    obtain ⟨i, index, -⟩ := rep.indices key value last
    rw [rep.proves index ((rep.data key).trans last)]
    simp

theorem Represents.proved (rep : Represents blake3 height pairs t) (fits : pairs.length ≤ 2 ^ height) {key : List UInt8}
    {proof : MerkleProof} (made : t.prove key = some proof) : proof.leaf.key = key ∧
      pairs.reverse.lookup key = some proof.leaf.value ∧ t.verify blake3 proof = .ok () := by
  cases last : pairs.reverse.lookup key with
  | none =>
    have data := (rep.data key).trans last
    simp only [prove, data, bind, Option.bind] at made
    cases index : t.keyToIndex[key]? <;> rw [index] at made <;> cases made
  | some value =>
    obtain ⟨i, index, found⟩ := rep.indices key value last
    rw [rep.proves index ((rep.data key).trans last)] at made
    cases made
    exact ⟨rfl, rfl, rep.verifies fits found⟩

structure Stands (blake3 : List UInt8 → Vector UInt8 32) (height : Nat) (s : MerkleRun) (l : Log) : Prop where
  fits : l.pairs.length ≤ 2 ^ height
  tree : Represents blake3 height l.pairs s.tree
  saved : List.Forall₂ (fun snapshot pairs => pairs.length ≤ 2 ^ height ∧
    ∀ t : IncrementalMerkleTree, Represents blake3 height pairs (t.rollback snapshot)) s.snapshots l.saved

theorem Stands.step {s s' : MerkleRun} {l : Log} {a : MerkleAction} (stands : Stands blake3 height s l)
    (taken : s.step blake3 a = some s') (room : s.Room a) : Stands blake3 height s' (l.step a) := by
  obtain ⟨fits, tree, saved⟩ := stands
  cases a with
  | insert key value =>
    cases taken
    have free : l.pairs.length < 2 ^ height := by
      rw [← tree.leafCount, ← tree.tall]
      exact room
    exact ⟨by simpa [Log.step] using free, insertRepresents tree free key value, saved⟩
  | snapshot =>
    cases taken
    exact ⟨fits, tree, relatedSnoc saved ⟨fits, fun t => tree⟩⟩
  | rollback i =>
    obtain ⟨snapshot, found, rfl⟩ := Option.map_eq_some_iff.mp taken
    obtain ⟨old, same, small, restored⟩ := relatedAt saved found
    simp only [Log.step, same]
    exact ⟨small, restored s.tree, saved⟩

end

theorem merkleRunStands (blake3 : List UInt8 → Vector UInt8 32) {height : Nat} {actions : List MerkleAction}
    {s : MerkleRun} (ran : Trace.Run (MerkleRun.step blake3) MerkleRun.Room (.start height) actions s) :
    let pairs := (Log.run actions).pairs
    s.tree.leafCount = pairs.length ∧
      s.tree.root = PerfectTree.root Hash.empty (hashNode blake3) height (leaves blake3 pairs) ∧
      s.tree.nodeCount = ∑ level ∈ Finset.range (height + 1), levelNodes pairs.length level ∧
      (∀ key, s.tree.prove key = none ↔ key ∉ pairs.map Prod.fst) ∧
      ∀ key proof, s.tree.prove key = some proof → proof.leaf.key = key ∧
        pairs.reverse.lookup key = some proof.leaf.value ∧ s.tree.verify blake3 proof = .ok () := by
  have start : Stands blake3 height (.start height) ⟨[], []⟩ := ⟨Nat.zero_le _, newRepresents height, .nil⟩
  have next : ∀ (s : MerkleRun) (a : MerkleAction) (t : MerkleRun) (l : Log), s.step blake3 a = some t → s.Room a →
      Stands blake3 height s l → Stands blake3 height t (l.step a) := fun _ _ _ _ taken room stands => stands.step taken room
  obtain ⟨fits, rep, -⟩ := ran.simulate next start
  refine ⟨rep.leafCount, ?_, rep.counts, rep.provesNothing, fun key proof made => rep.proved fits made⟩
  rw [rep.root, hashAt, subtreeAll (by simpa using fits)]
  rfl

def MerkleRun.hasRoom (s : MerkleRun) : MerkleAction → Bool
  | .insert _ _ => decide (s.tree.leafCount < 2 ^ s.tree.height)
  | _ => true

theorem MerkleRun.roomOf {s : MerkleRun} {a : MerkleAction} (checked : s.hasRoom a = true) : s.Room a := by
  cases a with
  | insert key value =>
    have free : s.tree.leafCount < 2 ^ s.tree.height := of_decide_eq_true checked
    exact free
  | snapshot => trivial
  | rollback i => trivial

def rolledBack : List MerkleAction :=
  [.insert [97, 58, 98] [99], .snapshot, .insert [120] [121], .rollback 0, .insert [97, 58, 98] [100]]

theorem merkleRunStandsTwice : ∃ s, Trace.Run (MerkleRun.step tabled) MerkleRun.Room (.start 1) rolledBack s ∧
    s.tree.nodeCount = 3 ∧ s.tree.prove [120] = none ∧
      ∀ proof, s.tree.prove [97, 58, 98] = some proof → proof.leaf.value = [100] := by
  have ended : (Trace.execWhile (MerkleRun.step tabled) MerkleRun.hasRoom (.start 1) rolledBack).any
      (fun _ => true) = true := by decide +kernel
  obtain ⟨s, ran, -⟩ := Trace.runTo (fun _ _ _ checked => MerkleRun.roomOf checked) ended
  have pairs : (Log.run rolledBack).pairs = [([97, 58, 98], [99]), ([97, 58, 98], [100])] := rfl
  obtain ⟨-, -, count, nothing, proved⟩ := merkleRunStands tabled ran
  rw [pairs] at count nothing proved
  refine ⟨s, ran, count, (nothing [120]).mpr (by decide), fun proof made => ?_⟩
  obtain ⟨-, last, -⟩ := proved [97, 58, 98] proof made
  exact (Option.some.inj last).symm

end CardanoLsm.Merkle
