import CardanoLsm.MerkleProofs

/-! The difference of two Merkle trees. Its paths come in the order in which the node maps
are traversed; nothing below depends on that order. -/
namespace CardanoLsm.Merkle
open Std IncrementalMerkleTree PerfectTree

structure MerkleDiff where
  differentNodes : List NodePath

def MerkleDiff.isEmpty (d : MerkleDiff) : Bool := d.differentNodes.isEmpty

namespace IncrementalMerkleTree

def changedNodes (t other : IncrementalMerkleTree) : List NodePath :=
  (t.nodes.toList.filter (fun entry =>
    match other.nodes[entry.1]? with
    | some otherNode => entry.2 != otherNode
    | none => true)).map Prod.fst

def missingNodes (t other : IncrementalMerkleTree) : List NodePath :=
  other.nodes.keys.filter (fun path => !t.nodes.contains path)

def diff (t other : IncrementalMerkleTree) : MerkleDiff :=
  ⟨if t.root ≠ other.root then t.changedNodes other ++ t.missingNodes other else []⟩

variable {t other : IncrementalMerkleTree} {path : NodePath}

theorem memChanged : path ∈ t.changedNodes other ↔
    (t.nodes[path]?).isSome ∧ t.nodes[path]? ≠ other.nodes[path]? := by
  have entries : path ∈ t.changedNodes other ↔ ∃ hash, t.nodes[path]? = some hash ∧
      (match other.nodes[path]? with
        | some otherNode => hash != otherNode
        | none => true) = true := by
    simp [changedNodes, ExtTreeMap.mem_toList_iff_getElem?_eq_some]
  rw [entries]
  cases t.nodes[path]? <;> cases other.nodes[path]? <;> simp

theorem memMissing : path ∈ t.missingNodes other ↔
    t.nodes[path]? = none ∧ (other.nodes[path]?).isSome := by
  simp only [missingNodes, List.mem_filter, ExtTreeMap.mem_keys, ExtTreeMap.mem_iff_isSome_getElem?,
    ExtTreeMap.contains_eq_isSome_getElem?]
  cases t.nodes[path]? <;> simp

theorem listedOnce (t other : IncrementalMerkleTree) :
    (t.changedNodes other ++ t.missingNodes other).Nodup := by
  have keys : (t.nodes.toList.map Prod.fst).Nodup := by
    rw [ExtTreeMap.map_fst_toList_eq_keys]
    exact ExtTreeMap.nodup_keys
  refine List.nodup_append.mpr ⟨keys.sublist (List.filter_sublist.map _),
    ExtTreeMap.nodup_keys.filter _, ?_⟩
  rintro path changed _ missing rfl
  rw [memChanged, (memMissing.mp missing).1] at changed
  simp at changed

theorem memListed : path ∈ t.changedNodes other ++ t.missingNodes other ↔
    t.nodes[path]? ≠ other.nodes[path]? := by
  rw [List.mem_append, memChanged, memMissing]
  cases t.nodes[path]? <;> cases other.nodes[path]? <;> simp

theorem diffOnce (t other : IncrementalMerkleTree) : (t.diff other).differentNodes.Nodup := by
  unfold diff
  split
  · exact listedOnce t other
  · exact List.nodup_nil

theorem memDiff (agree : t.root = other.root → ∀ path : NodePath, t.nodes[path]? = other.nodes[path]?) :
    path ∈ (t.diff other).differentNodes ↔ t.nodes[path]? ≠ other.nodes[path]? := by
  unfold diff
  split
  · exact memListed
  · rename_i same
    simp [agree (not_not.mp same) path]

end IncrementalMerkleTree

section
variable {blake3 : List UInt8 → Vector UInt8 32} {hashed : Set (List UInt8)} {height : Nat}
  {as bs : List (List UInt8 × List UInt8)}

theorem hashAtBytes (blake3 : List UInt8 → Vector UInt8 32) {level index : Nat} (low : level ≤ height)
    (inside : index * 2 ^ level < as.length) :
    ∃ bytes ∈ treeBytes blake3 height as, hashAt blake3 as level index = (blake3 bytes).toList := by
  cases level with
  | zero =>
    have found : as[index]? = some as[index] := List.getElem?_eq_getElem (by omega)
    exact ⟨_, Or.inl ⟨as[index], List.getElem_mem _, rfl⟩, hashLeafAt found⟩
  | succ level => exact ⟨_, Or.inr ⟨level, index, low, inside, rfl⟩, hashAtNode inside⟩

theorem treeFilled (free : CollisionFree blake3 hashed) (tree : treeBytes blake3 height as ⊆ hashed) :
    Filled Hash.empty (hashNode blake3) height (leaves blake3 as) := by
  intro level index low inside
  rw [leavesLength] at inside
  obtain ⟨bytes, member, digest⟩ := hashAtBytes blake3 low inside
  rw [← hashAt, digest]
  exact free.nonzero bytes (tree member)

theorem nodesApart (free : CollisionFree blake3 hashed) (treeA : treeBytes blake3 height as ⊆ hashed)
    (treeB : treeBytes blake3 height bs ⊆ hashed) {level index : Nat} (low : level < height)
    (insideA : index * 2 ^ (level + 1) < as.length) (insideB : index * 2 ^ (level + 1) < bs.length)
    (same : hashAt blake3 as (level + 1) index = hashAt blake3 bs (level + 1) index) :
    hashAt blake3 as level (2 * index) = hashAt blake3 bs level (2 * index) ∧
      hashAt blake3 as level (2 * index + 1) = hashAt blake3 bs level (2 * index + 1) := by
  rw [hashAtNode insideA, hashAtNode insideB] at same
  have bytes := free.injective (treeA (Or.inr ⟨level, index, low, insideA, rfl⟩))
    (treeB (Or.inr ⟨level, index, low, insideB, rfl⟩)) (Vector.toList_inj.mp same)
  have halves := List.append_inj (List.append_cancel_left bytes)
    ((hashAtLength as level (2 * index)).trans (hashAtLength bs level (2 * index)).symm)
  exact ⟨halves.1, (List.cons.inj halves.2).2⟩

theorem leavesOfRoot (free : CollisionFree blake3 hashed) (treeA : treeBytes blake3 height as ⊆ hashed)
    (treeB : treeBytes blake3 height bs ⊆ hashed) (fitsA : as.length ≤ 2 ^ height)
    (fitsB : bs.length ≤ 2 ^ height) (same : hashAt blake3 as height 0 = hashAt blake3 bs height 0) :
    leaves blake3 as = leaves blake3 bs := by
  have blocks := blockDetermined (treeFilled free treeA) (treeFilled free treeB)
    (fun level index low insideA insideB => nodesApart free treeA treeB low (by simpa using insideA)
      (by simpa using insideB)) (Nat.le_refl height) same
  rwa [blockAll (by simpa using fitsA), blockAll (by simpa using fitsB)] at blocks

theorem storedOfLeaves (same : leaves blake3 as = leaves blake3 bs) (path : NodePath) :
    stored blake3 as path = stored blake3 bs path := by
  have length := congrArg List.length same
  rw [leavesLength, leavesLength] at length
  rw [stored, stored, hashAt, hashAt, same, length]

theorem storedLeaf (as : List (List UInt8 × List UInt8)) (index : Nat) :
    stored blake3 as ⟨0, index⟩ = (leaves blake3 as)[index]? := by
  rw [stored, hashAt, subtreeLeaf]
  by_cases inside : index < as.length
  · simp [inside]
  · rw [if_neg (by simpa using inside), List.getElem?_eq_none (by simpa using inside)]

end

/-- The difference lists exactly the paths at which the node maps differ, each once, the same
ones from either side, and none exactly for trees with the same leaves. -/
theorem diffExact (blake3 : List UInt8 → Vector UInt8 32) (hashed : Set (List UInt8)) (height : Nat)
    (as bs : List (List UInt8 × List UInt8)) (fitsA : as.length ≤ 2 ^ height)
    (fitsB : bs.length ≤ 2 ^ height) (free : CollisionFree blake3 hashed)
    (treeA : treeBytes blake3 height as ⊆ hashed) (treeB : treeBytes blake3 height bs ⊆ hashed) :
    let a := built blake3 height as
    let b := built blake3 height bs
    (∀ path, (a.diff b).differentNodes.count path = if a.nodes[path]? = b.nodes[path]? then 0 else 1) ∧
    (∀ path, path ∈ (a.diff b).differentNodes ↔ path ∈ (b.diff a).differentNodes) ∧
    ((a.diff b).isEmpty = true ↔ leaves blake3 as = leaves blake3 bs) := by
  have repA := builtRepresents blake3 height as fitsA
  have repB := builtRepresents blake3 height bs fitsB
  intro a b
  have agree : a.root = b.root → leaves blake3 as = leaves blake3 bs := fun same =>
    leavesOfRoot free treeA treeB fitsA fitsB (by rw [← repA.root, ← repB.root]; exact same)
  have nodes : leaves blake3 as = leaves blake3 bs → ∀ path : NodePath, a.nodes[path]? = b.nodes[path]? :=
    fun same path => by rw [repA.nodes path, repB.nodes path, storedOfLeaves same]
  have listed : ∀ path, path ∈ (a.diff b).differentNodes ↔ a.nodes[path]? ≠ b.nodes[path]? :=
    fun path => memDiff (fun same => nodes (agree same))
  have listed' : ∀ path, path ∈ (b.diff a).differentNodes ↔ b.nodes[path]? ≠ a.nodes[path]? :=
    fun path => memDiff (fun same path => (nodes (agree same.symm) path).symm)
  refine ⟨fun path => ?_, fun path => ?_, ?_⟩
  · rw [(diffOnce a b).count]
    by_cases same : a.nodes[path]? = b.nodes[path]?
    · rw [if_neg (fun member => (listed path).mp member same), if_pos same]
    · rw [if_pos ((listed path).mpr same), if_neg same]
  · rw [listed path, listed' path, ne_comm]
  · rw [MerkleDiff.isEmpty, List.isEmpty_iff]
    constructor
    · intro none
      have bottom : ∀ index : Nat, (leaves blake3 as)[index]? = (leaves blake3 bs)[index]? := by
        intro index
        have equal : a.nodes[(⟨0, index⟩ : NodePath)]? = b.nodes[(⟨0, index⟩ : NodePath)]? := by
          by_contra differ
          have member := (listed ⟨0, index⟩).mpr differ
          rw [none] at member
          cases member
        rw [repA.nodes, repB.nodes, if_pos (Nat.succ_pos height), if_pos (Nat.succ_pos height)] at equal
        rw [← storedLeaf, ← storedLeaf]
        exact equal
      exact List.ext_getElem? bottom
    · intro same
      have roots : a.root = b.root := by rw [repA.root, repB.root, hashAt, hashAt, same]
      simp [diff, roots]

theorem diffExactTwo :
    let a := built tabled 1 onlyPair
    let b := built tabled 1 bothPairs
    (∀ path, (a.diff b).differentNodes.count path = if a.nodes[path]? = b.nodes[path]? then 0 else 1) ∧
    (∀ path, path ∈ (a.diff b).differentNodes ↔ path ∈ (b.diff a).differentNodes) ∧
    ((a.diff b).isEmpty = true ↔ leaves tabled onlyPair = leaves tabled bothPairs) :=
  diffExact tabled tabledBytes 1 onlyPair bothPairs (by decide) (by decide) tabledFree onlyPairBytes
    bothPairsBytes

end CardanoLsm.Merkle
