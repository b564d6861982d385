import CardanoLsm.Storage
import CardanoLsm.Lib.PerfectTree

/-! The incremental Merkle tree (`merkle.rs`). BLAKE3 is a parameter: a function from
byte strings to 32 bytes. The counters do not wrap: each leaf has a node in memory. -/
namespace CardanoLsm.Merkle
open Std

structure NodePath where
  level : Nat
  index : Nat
  deriving DecidableEq, Repr

instance : Ord NodePath := ⟨compareLex (compareOn NodePath.level) (compareOn NodePath.index)⟩

instance : TransCmp (fun a b : NodePath => compare a b) :=
  inferInstanceAs (TransCmp (compareLex (compareOn NodePath.level) (compareOn NodePath.index)))

instance : LawfulEqCmp (fun a b : NodePath => compare a b) := ⟨fun {a b} same => by
  have both : compare a.level b.level = .eq ∧ compare a.index b.index = .eq :=
    Ordering.then_eq_eq.mp same
  cases a
  cases b
  exact congrArg₂ NodePath.mk (LawfulEqCmp.eq_of_compare both.1) (LawfulEqCmp.eq_of_compare both.2)⟩

abbrev Hash := List UInt8

def Hash.empty : Hash := List.replicate 32 0

def leafBytes (key value : List UInt8) : List UInt8 := [108, 101, 97, 102, 58] ++ (key ++ 58 :: value)

def nodeBytes (left right : Hash) : List UInt8 := [110, 111, 100, 101, 58] ++ (left ++ 58 :: right)

structure MerkleLeaf where
  key : List UInt8
  value : List UInt8
  deriving DecidableEq, Repr

inductive Direction where
  | left | right
  deriving DecidableEq, Repr

structure MerkleProof where
  leaf : MerkleLeaf
  siblings : List (Direction × Hash)
  deriving DecidableEq, Repr

structure IncrementalMerkleTree where
  nodes : ExtTreeMap NodePath Hash (fun a b => compare a b)
  root : Hash
  height : Nat
  leafCount : Nat
  keyToIndex : ExtTreeMap (List UInt8) Nat
  leafData : ExtTreeMap (List UInt8) (List UInt8)

structure Climb where
  currentHash : Hash
  currentIndex : Nat
  siblings : List (Direction × Hash)
  nodes : ExtTreeMap NodePath Hash (fun a b => compare a b)

def directionOf (index : Nat) : Direction := if index % 2 = 0 then .right else .left

namespace IncrementalMerkleTree

def new (height : Nat) : IncrementalMerkleTree := ⟨∅, Hash.empty, height, 0, ∅, ∅⟩

variable (blake3 : List UInt8 → Vector UInt8 32)

def hashLeaf (key value : List UInt8) : Hash := (blake3 (leafBytes key value)).toList

def hashNode (left right : Hash) : Hash := (blake3 (nodeBytes left right)).toList

def climb (c : Climb) (level : Nat) : Climb :=
  let siblingIndex := c.currentIndex ^^^ 1
  let siblingHash := c.nodes[(⟨level, siblingIndex⟩ : NodePath)]?.getD Hash.empty
  let currentHash :=
    if c.currentIndex % 2 = 0 then hashNode blake3 c.currentHash siblingHash
    else hashNode blake3 siblingHash c.currentHash
  ⟨currentHash, c.currentIndex / 2, c.siblings ++ [(directionOf c.currentIndex, siblingHash)],
    c.nodes.insert ⟨level + 1, c.currentIndex / 2⟩ currentHash⟩

def insert (t : IncrementalMerkleTree) (key value : List UInt8) : MerkleProof × IncrementalMerkleTree :=
  let leafHash := hashLeaf blake3 key value
  let leafIndex := t.leafCount
  let c := (List.range t.height).foldl (climb blake3)
    ⟨leafHash, leafIndex, [], t.nodes.insert ⟨0, leafIndex⟩ leafHash⟩
  (⟨⟨key, value⟩, c.siblings⟩,
    ⟨c.nodes, c.currentHash, t.height, t.leafCount + 1, t.keyToIndex.insert key leafIndex,
      t.leafData.insert key value⟩)

def collect (t : IncrementalMerkleTree) (acc : Nat × List (Direction × Hash)) (level : Nat) :
    Nat × List (Direction × Hash) :=
  let siblingHash := t.nodes[(⟨level, acc.1 ^^^ 1⟩ : NodePath)]?.getD Hash.empty
  (acc.1 / 2, acc.2 ++ [(directionOf acc.1, siblingHash)])

def prove (t : IncrementalMerkleTree) (key : List UInt8) : Option MerkleProof := do
  let leafIndex ← t.keyToIndex[key]?
  let value ← t.leafData[key]?
  some ⟨⟨key, value⟩, ((List.range t.height).foldl t.collect (leafIndex, [])).2⟩

def combine (current : Hash) (sibling : Direction × Hash) : Hash :=
  match sibling.1 with
  | .left => hashNode blake3 sibling.2 current
  | .right => hashNode blake3 current sibling.2

def verifyProof (root : Hash) (key value : List UInt8) (proof : MerkleProof) : Bool :=
  proof.siblings.foldl (combine blake3) (hashLeaf blake3 key value) == root

def verify (t : IncrementalMerkleTree) (proof : MerkleProof) : Except Error Unit :=
  if verifyProof blake3 t.root proof.leaf.key proof.leaf.value proof then .ok ()
  else .error (.invalidOperation "Merkle proof verification failed")

def built (height : Nat) (pairs : List (List UInt8 × List UInt8)) : IncrementalMerkleTree :=
  pairs.foldl (fun t p => (t.insert blake3 p.1 p.2).2) (new height)

end IncrementalMerkleTree

open IncrementalMerkleTree PerfectTree

section Model
variable {blake3 : List UInt8 → Vector UInt8 32}

def leaves (blake3 : List UInt8 → Vector UInt8 32) (pairs : List (List UInt8 × List UInt8)) : List Hash :=
  pairs.map (fun p => hashLeaf blake3 p.1 p.2)

def hashAt (blake3 : List UInt8 → Vector UInt8 32) (pairs : List (List UInt8 × List UInt8))
    (level index : Nat) : Hash :=
  subtree Hash.empty (hashNode blake3) (leaves blake3 pairs) level index

@[simp] theorem leavesLength (pairs : List (List UInt8 × List UInt8)) :
    (leaves blake3 pairs).length = pairs.length := List.length_map _

def stored (blake3 : List UInt8 → Vector UInt8 32) (pairs : List (List UInt8 × List UInt8))
    (path : NodePath) : Option Hash :=
  if path.index * 2 ^ path.level < pairs.length then some (hashAt blake3 pairs path.level path.index)
  else none

def Below (blake3 : List UInt8 → Vector UInt8 32) (pairs : List (List UInt8 × List UInt8)) (top : Nat)
    (nodes above : ExtTreeMap NodePath Hash (fun a b => compare a b)) : Prop :=
  ∀ path : NodePath, nodes[path]? = if path.level < top then stored blake3 pairs path else above[path]?

theorem storedGetD (pairs : List (List UInt8 × List UInt8)) (path : NodePath) :
    (stored blake3 pairs path).getD Hash.empty = hashAt blake3 pairs path.level path.index := by
  unfold stored
  split
  · rfl
  · rename_i outside
    rw [hashAt, subtreeEmpty (by simpa using outside)]
    rfl

theorem storedAppend (pairs : List (List UInt8 × List UInt8)) (p : List UInt8 × List UInt8)
    (path : NodePath) : stored blake3 (pairs ++ [p]) path =
      if path.index = pairs.length / 2 ^ path.level then
        some (hashAt blake3 (pairs ++ [p]) path.level path.index)
      else stored blake3 pairs path := by
  have more : path.index * 2 ^ path.level < (leaves blake3 pairs ++ [hashLeaf blake3 p.1 p.2]).length ↔
      path.index * 2 ^ path.level < (leaves blake3 pairs).length ∨
        path.index = (leaves blake3 pairs).length / 2 ^ path.level := someAppend _
  rw [List.length_append, List.length_singleton, leavesLength] at more
  have length : (pairs ++ [p]).length = pairs.length + 1 := by simp
  unfold stored
  rw [length]
  by_cases new : path.index = pairs.length / 2 ^ path.level
  · rw [if_pos (more.mpr (Or.inr new)), if_pos new]
  · have same : hashAt blake3 (pairs ++ [p]) path.level path.index =
        hashAt blake3 pairs path.level path.index := by
      rw [hashAt, leaves, List.map_append, List.map_singleton]
      exact subtreeAppend _ (by rwa [← leaves, leavesLength])
    rw [if_neg new, same]
    by_cases old : path.index * 2 ^ path.level < pairs.length
    · rw [if_pos (more.mpr (Or.inl old)), if_pos old]
    · rw [if_neg (fun inside => (more.mp inside).elim old new), if_neg old]

def siblingsOf (blake3 : List UInt8 → Vector UInt8 32) (pairs : List (List UInt8 × List UInt8))
    (index top : Nat) : List (Direction × Hash) :=
  (List.range top).map (fun level =>
    (directionOf (index / 2 ^ level), hashAt blake3 pairs level (index / 2 ^ level ^^^ 1)))

theorem siblingsSucc (pairs : List (List UInt8 × List UInt8)) (index top : Nat) :
    siblingsOf blake3 pairs index (top + 1) = siblingsOf blake3 pairs index top ++
      [(directionOf (index / 2 ^ top), hashAt blake3 pairs top (index / 2 ^ top ^^^ 1))] := by
  simp [siblingsOf, List.range_succ]

theorem hashParent (blake3 : List UInt8 → Vector UInt8 32)
    {pairs : List (List UInt8 × List UInt8)} {level index : Nat}
    (some : index * 2 ^ level < pairs.length) :
    hashAt blake3 pairs (level + 1) (index / 2) =
      combine blake3 (hashAt blake3 pairs level index)
        (directionOf index, hashAt blake3 pairs level (index ^^^ 1)) := by
  rw [hashAt, subtreeParent (by simpa using some), directionOf]
  split <;> rfl

theorem divBelow {index length : Nat} (inside : index < length) (level : Nat) :
    index / 2 ^ level * 2 ^ level < length :=
  Nat.lt_of_le_of_lt (Nat.div_mul_le_self index (2 ^ level)) inside

theorem siblingsClimb (blake3 : List UInt8 → Vector UInt8 32)
    {pairs : List (List UInt8 × List UInt8)} {index : Nat}
    (inside : index < pairs.length) (top : Nat) :
    (siblingsOf blake3 pairs index top).foldl (combine blake3) (hashAt blake3 pairs 0 index) =
      hashAt blake3 pairs top (index / 2 ^ top) := by
  induction top with
  | zero => simp [siblingsOf]
  | succ top ih =>
    rw [siblingsSucc, List.foldl_append, ih, List.foldl_cons, List.foldl_nil,
      ← hashParent blake3 (divBelow inside top), Nat.div_div_eq_div_mul, ← pow_succ]

theorem hashLeafAt {pairs : List (List UInt8 × List UInt8)} {index : Nat} {p : List UInt8 × List UInt8}
    (found : pairs[index]? = some p) : hashAt blake3 pairs 0 index = hashLeaf blake3 p.1 p.2 := by
  rw [hashAt, subtreeLeaf, leaves, List.getElem?_map, found]
  rfl

section Insert
variable {pairs : List (List UInt8 × List UInt8)} {p : List UInt8 × List UInt8}
  {nodes old : ExtTreeMap NodePath Hash (fun a b => compare a b)} {height top : Nat}

theorem Below.get (below : Below blake3 pairs top nodes old) {level : Nat} (low : level < top)
    (index : Nat) :
    nodes[(⟨level, index⟩ : NodePath)]?.getD Hash.empty = hashAt blake3 pairs level index := by
  rw [below, if_pos low, storedGetD]

theorem Below.raise (before : Below blake3 pairs (height + 1) old ∅)
    (below : Below blake3 (pairs ++ [p]) top nodes old) (low : top ≤ height) :
    Below blake3 (pairs ++ [p]) (top + 1) (nodes.insert ⟨top, pairs.length / 2 ^ top⟩
      (hashAt blake3 (pairs ++ [p]) top (pairs.length / 2 ^ top))) old := by
  intro path
  rw [ExtTreeMap.getElem?_insert]
  by_cases here : (⟨top, pairs.length / 2 ^ top⟩ : NodePath) = path
  · subst here
    simp only [compare_self, if_true, Nat.lt_succ_self, storedAppend]
  · have other : compare (⟨top, pairs.length / 2 ^ top⟩ : NodePath) path ≠ .eq :=
      fun same => here (LawfulEqCmp.eq_of_compare same)
    rw [if_neg other, below path]
    rcases Nat.lt_trichotomy path.level top with lower | level | higher
    · rw [if_pos lower, if_pos (by omega)]
    · have apart : path.index ≠ pairs.length / 2 ^ path.level := fun same =>
        here (by rw [← level, ← same])
      rw [if_neg (by omega), if_pos (by omega), storedAppend, if_neg apart, before path,
        if_pos (by omega)]
    · rw [if_neg (by omega), if_neg (by omega)]

structure Climbed (blake3 : List UInt8 → Vector UInt8 32) (pairs : List (List UInt8 × List UInt8))
    (p : List UInt8 × List UInt8) (old : ExtTreeMap NodePath Hash (fun a b => compare a b)) (top : Nat)
    (c : Climb) : Prop where
  hash : c.currentHash = hashAt blake3 (pairs ++ [p]) top (pairs.length / 2 ^ top)
  index : c.currentIndex = pairs.length / 2 ^ top
  siblings : c.siblings = siblingsOf blake3 (pairs ++ [p]) pairs.length top
  nodes : Below blake3 (pairs ++ [p]) (top + 1) c.nodes old

theorem climbStart (before : Below blake3 pairs (height + 1) old ∅) :
    Climbed blake3 pairs p old 0 ⟨hashLeaf blake3 p.1 p.2, pairs.length, [],
      old.insert ⟨0, pairs.length⟩ (hashLeaf blake3 p.1 p.2)⟩ := by
  have leaf : hashAt blake3 (pairs ++ [p]) 0 pairs.length = hashLeaf blake3 p.1 p.2 :=
    hashLeafAt (by simp)
  have none : Below blake3 (pairs ++ [p]) 0 old old := fun path => (if_neg (Nat.not_lt_zero _)).symm
  have raised := before.raise none (Nat.zero_le height)
  simp only [pow_zero, Nat.div_one, leaf] at raised
  exact ⟨by simp [leaf], by simp, rfl, raised⟩

theorem climbStep (before : Below blake3 pairs (height + 1) old ∅) {c : Climb}
    (climbed : Climbed blake3 pairs p old top c) (low : top < height) :
    Climbed blake3 pairs p old (top + 1) (climb blake3 c top) := by
  have above : pairs.length / 2 ^ (top + 1) = pairs.length / 2 ^ top / 2 := by
    rw [Nat.div_div_eq_div_mul, ← pow_succ]
  have sibling := climbed.nodes.get (Nat.lt_succ_self top) (c.currentIndex ^^^ 1)
  have inside : pairs.length / 2 ^ top * 2 ^ top < (pairs ++ [p]).length :=
    divBelow (by simp) top
  have parent := hashParent blake3 inside
  have hash : (climb blake3 c top).currentHash =
      hashAt blake3 (pairs ++ [p]) (top + 1) (pairs.length / 2 ^ (top + 1)) := by
    rw [above, parent, ← climbed.index, combine, directionOf]
    simp only [climb, sibling, climbed.hash, ← climbed.index]
    split <;> rfl
  refine ⟨hash, ?_, ?_, ?_⟩
  · rw [above, ← climbed.index]
    rfl
  · rw [siblingsSucc, ← climbed.index, ← sibling, ← climbed.siblings]
    rfl
  · have raised := before.raise climbed.nodes (show top + 1 ≤ height by omega)
    rw [← hash, above, ← climbed.index] at raised
    exact raised

theorem climbAll (before : Below blake3 pairs (height + 1) old ∅) (low : top ≤ height) :
    Climbed blake3 pairs p old top ((List.range top).foldl (climb blake3)
      ⟨hashLeaf blake3 p.1 p.2, pairs.length, [], old.insert ⟨0, pairs.length⟩ (hashLeaf blake3 p.1 p.2)⟩) := by
  induction top with
  | zero => exact climbStart before
  | succ top ih =>
    rw [List.range_succ, List.foldl_append, List.foldl_cons, List.foldl_nil]
    exact climbStep before (ih (by omega)) (by omega)

end Insert

structure Represents (blake3 : List UInt8 → Vector UInt8 32) (height : Nat)
    (pairs : List (List UInt8 × List UInt8)) (t : IncrementalMerkleTree) : Prop where
  tall : t.height = height
  leafCount : t.leafCount = pairs.length
  nodes : Below blake3 pairs (height + 1) t.nodes ∅
  root : t.root = hashAt blake3 pairs height 0
  data : ∀ key : List UInt8, t.leafData[key]? = pairs.reverse.lookup key
  indices : ∀ key value : List UInt8, pairs.reverse.lookup key = some value →
    ∃ i : Nat, t.keyToIndex[key]? = some i ∧ pairs[i]? = some (key, value)

theorem newRepresents (height : Nat) : Represents blake3 height [] (new height) := by
  refine ⟨rfl, rfl, fun path => ?_, ?_, fun key => ?_, fun key value found => ?_⟩
  · simp [new, stored]
  · rw [hashAt, subtreeEmpty (by simp [leaves])]
    rfl
  · simp [new]
  · simp at found

theorem lookupLast (pairs : List (List UInt8 × List UInt8)) (key value k : List UInt8) :
    (pairs ++ [(key, value)]).reverse.lookup k = if key = k then some value else pairs.reverse.lookup k := by
  rw [List.reverse_append, List.reverse_singleton, List.singleton_append, List.lookup_cons]
  by_cases same : key = k
  · simp [same]
  · have other : (k == key) = false := beq_eq_false_iff_ne.mpr (Ne.symm same)
    rw [other, if_neg same]

theorem insertRepresents {height : Nat} {pairs : List (List UInt8 × List UInt8)}
    {t : IncrementalMerkleTree} (before : Represents blake3 height pairs t)
    (room : pairs.length < 2 ^ height) (key value : List UInt8) :
    Represents blake3 height (pairs ++ [(key, value)]) (t.insert blake3 key value).2 := by
  have climbed := climbAll (p := (key, value)) before.nodes (Nat.le_refl height)
  rw [← before.tall, ← before.leafCount] at climbed
  refine ⟨before.tall, ?_, ?_, ?_, fun k => ?_, fun k v found => ?_⟩
  · simp [IncrementalMerkleTree.insert, before.leafCount]
  · rw [← before.tall]
    have nodes := climbed.nodes
    intro path
    rw [IncrementalMerkleTree.insert, nodes path]
    split
    · rfl
    · rw [before.nodes path, if_neg (by rw [← before.tall]; omega)]
  · have top : pairs.length / 2 ^ height = 0 := Nat.div_eq_of_lt room
    have hash := climbed.hash
    rw [before.tall, before.leafCount, top] at hash
    rw [← hash, IncrementalMerkleTree.insert, before.tall, before.leafCount]
  · rw [IncrementalMerkleTree.insert, ExtTreeMap.getElem?_insert, lookupLast, before.data k]
    by_cases same : key = k
    · rw [same, compare_self, if_pos rfl, if_pos rfl]
    · rw [if_neg (fun equal => same (LawfulEqCmp.eq_of_compare equal)), if_neg same]
  · rw [lookupLast] at found
    simp only [IncrementalMerkleTree.insert, ExtTreeMap.getElem?_insert]
    by_cases same : key = k
    · rw [if_pos same] at found
      cases Option.some.inj found
      exact ⟨pairs.length, by rw [same, compare_self, if_pos rfl, before.leafCount], by simp [same]⟩
    · rw [if_neg same] at found
      obtain ⟨i, index, at_⟩ := before.indices k v found
      refine ⟨i, ?_, ?_⟩
      · rw [if_neg (fun equal => same (LawfulEqCmp.eq_of_compare equal)), index]
      · obtain ⟨inside, -⟩ := List.getElem?_eq_some_iff.mp at_
        rw [List.getElem?_append_left inside, at_]

theorem builtRepresents (blake3 : List UInt8 → Vector UInt8 32) (height : Nat) (pairs : List (List UInt8 × List UInt8))
    (fits : pairs.length ≤ 2 ^ height) : Represents blake3 height pairs (built blake3 height pairs) := by
  induction pairs using List.reverseRecOn with
  | nil => exact newRepresents height
  | append_singleton earlier p ih =>
    rw [List.length_append, List.length_singleton] at fits
    rw [built, List.foldl_append, List.foldl_cons, List.foldl_nil]
    exact insertRepresents (ih (by omega)) (by omega) p.1 p.2

namespace Represents
variable {height : Nat} {pairs : List (List UInt8 × List UInt8)} {t : IncrementalMerkleTree}

theorem collects (rep : Represents blake3 height pairs t) (i : Nat) {top : Nat} (low : top ≤ height) :
    (List.range top).foldl t.collect (i, []) = (i / 2 ^ top, siblingsOf blake3 pairs i top) := by
  induction top with
  | zero => simp [siblingsOf]
  | succ top ih =>
    rw [List.range_succ, List.foldl_append, List.foldl_cons, List.foldl_nil, ih (by omega), collect,
      siblingsSucc, rep.nodes.get (show top < height + 1 by omega), Nat.div_div_eq_div_mul, ← pow_succ]

theorem proves (rep : Represents blake3 height pairs t) {key value : List UInt8} {i : Nat}
    (index : t.keyToIndex[key]? = some i) (data : t.leafData[key]? = some value) :
    t.prove key = some ⟨⟨key, value⟩, siblingsOf blake3 pairs i height⟩ := by
  have siblings := rep.collects i (Nat.le_refl height)
  rw [← rep.tall] at siblings ⊢
  simp only [prove, index, data, siblings, bind, Option.bind]

theorem verifies (rep : Represents blake3 height pairs t) (fits : pairs.length ≤ 2 ^ height)
    {key value : List UInt8} {i : Nat} (found : pairs[i]? = some (key, value)) :
    t.verify blake3 ⟨⟨key, value⟩, siblingsOf blake3 pairs i height⟩ = .ok () := by
  obtain ⟨inside, -⟩ := List.getElem?_eq_some_iff.mp found
  have climbed := siblingsClimb blake3 inside height
  rw [hashLeafAt found, Nat.div_eq_of_lt (by omega)] at climbed
  have valid : verifyProof blake3 t.root key value ⟨⟨key, value⟩, siblingsOf blake3 pairs i height⟩ = true := by
    rw [verifyProof, climbed, rep.root, beq_self_eq_true]
  rw [verify, if_pos valid]

theorem insertProof (rep : Represents blake3 height pairs t) (key value : List UInt8) :
    (t.insert blake3 key value).1 =
      ⟨⟨key, value⟩, siblingsOf blake3 (pairs ++ [(key, value)]) pairs.length height⟩ := by
  have climbed := climbAll (p := (key, value)) rep.nodes (Nat.le_refl height)
  rw [IncrementalMerkleTree.insert, rep.tall, rep.leafCount, climbed.siblings]

end Represents
end Model

/-- BLAKE3 on the strings hashed when a tree of height 1 takes the key `a:b` with the value
`c` and then with the value `d`. -/
def digests : List (List UInt8 × Vector UInt8 32) :=
  let first : Vector UInt8 32 :=
    #v[31, 152, 7, 249, 30, 193, 54, 245, 215, 172, 42, 137, 100, 117, 171, 190,
      190, 236, 211, 10, 148, 251, 36, 93, 142, 40, 182, 129, 11, 93, 95, 67]
  let firstRoot : Vector UInt8 32 :=
    #v[183, 187, 236, 224, 146, 244, 205, 56, 77, 10, 12, 33, 25, 169, 52, 248,
      19, 4, 6, 63, 47, 124, 198, 63, 154, 64, 22, 243, 75, 105, 100, 230]
  let second : Vector UInt8 32 :=
    #v[246, 86, 232, 216, 59, 63, 142, 234, 108, 6, 116, 163, 7, 193, 118, 27,
      77, 229, 146, 147, 166, 113, 248, 195, 52, 65, 245, 211, 61, 27, 173, 237]
  let secondRoot : Vector UInt8 32 :=
    #v[146, 106, 199, 25, 164, 109, 255, 19, 64, 67, 249, 206, 149, 175, 10, 115,
      16, 224, 195, 231, 195, 182, 16, 144, 145, 239, 163, 208, 84, 190, 146, 186]
  [(leafBytes [97, 58, 98] [99], first), (nodeBytes first.toList Hash.empty, firstRoot),
    (leafBytes [97, 58, 98] [100], second), (nodeBytes first.toList second.toList, secondRoot)]

def tabled (bytes : List UInt8) : Vector UInt8 32 := (digests.lookup bytes).getD (Vector.replicate 32 0)

/-- The proof of each insert is the one `prove` gives for the key and verifies; in the end
every inserted key has a proof of its last value that verifies. -/
theorem insertedProvable (blake3 : List UInt8 → Vector UInt8 32) (height : Nat)
    (pairs : List (List UInt8 × List UInt8)) (fits : pairs.length ≤ 2 ^ height) :
    (∀ (earlier later : List (List UInt8 × List UInt8)) (key value : List UInt8),
      pairs = earlier ++ (key, value) :: later →
        let inserted := (built blake3 height earlier).insert blake3 key value
        inserted.2.prove key = some inserted.1 ∧ inserted.2.verify blake3 inserted.1 = .ok ()) ∧
    ∀ key ∈ pairs.map Prod.fst, ∃ value proof, pairs.reverse.lookup key = some value ∧
      (built blake3 height pairs).prove key = some proof ∧ proof.leaf = ⟨key, value⟩ ∧
      (built blake3 height pairs).verify blake3 proof = .ok () := by
  constructor
  · intro earlier later key value split
    rw [split, List.length_append, List.length_cons] at fits
    have rep := builtRepresents blake3 height earlier (by omega)
    have after := insertRepresents rep (by omega) key value
    have index : ((built blake3 height earlier).insert blake3 key value).2.keyToIndex[key]? =
        some earlier.length := by
      simp [IncrementalMerkleTree.insert, rep.leafCount]
    have data : ((built blake3 height earlier).insert blake3 key value).2.leafData[key]? = some value := by
      simp [IncrementalMerkleTree.insert]
    dsimp only
    rw [after.proves index data, rep.insertProof]
    exact ⟨rfl, after.verifies (by simp; omega) (by simp)⟩
  · intro key member
    have rep := builtRepresents blake3 height pairs fits
    have listed : ∃ value, pairs.reverse.lookup key = some value := by
      obtain ⟨p, inside, rfl⟩ := List.mem_map.mp member
      refine Option.isSome_iff_exists.mp (Option.isSome_iff_ne_none.mpr fun none => ?_)
      have absent := List.lookup_eq_none_iff.mp none p (List.mem_reverse.mpr inside)
      simp at absent
    obtain ⟨value, last⟩ := listed
    obtain ⟨i, index, found⟩ := rep.indices key value last
    exact ⟨value, _, last, rep.proves index ((rep.data key).trans last), rfl, rep.verifies fits found⟩

theorem insertedProvableTwice :
    let pairs : List (List UInt8 × List UInt8) := [([97, 58, 98], [99]), ([97, 58, 98], [100])]
    (∀ (earlier later : List (List UInt8 × List UInt8)) (key value : List UInt8),
      pairs = earlier ++ (key, value) :: later →
        let inserted := (built tabled 1 earlier).insert tabled key value
        inserted.2.prove key = some inserted.1 ∧ inserted.2.verify tabled inserted.1 = .ok ()) ∧
    ∀ key ∈ pairs.map Prod.fst, ∃ value proof, pairs.reverse.lookup key = some value ∧
      (built tabled 1 pairs).prove key = some proof ∧ proof.leaf = ⟨key, value⟩ ∧
      (built tabled 1 pairs).verify tabled proof = .ok () :=
  insertedProvable tabled 1 [([97, 58, 98], [99]), ([97, 58, 98], [100])] (by decide)

theorem rootRecomputed (blake3 : List UInt8 → Vector UInt8 32) (height : Nat)
    (pairs : List (List UInt8 × List UInt8)) (fits : pairs.length ≤ 2 ^ height) :
    (built blake3 height pairs).root =
      PerfectTree.root Hash.empty (hashNode blake3) height (leaves blake3 pairs) ∧
    ∀ path : NodePath, (built blake3 height pairs).nodes[path]? =
      let below := block (leaves blake3 pairs) path.level path.index
      if path.level ≤ height ∧ below ≠ [] then
        some (PerfectTree.root Hash.empty (hashNode blake3) path.level below)
      else none := by
  have rep := builtRepresents blake3 height pairs fits
  have some_ : ∀ path : NodePath, block (leaves blake3 pairs) path.level path.index ≠ [] ↔
      path.index * 2 ^ path.level < pairs.length := fun path => by
    rw [ne_eq, blockNil, leavesLength, Nat.not_le]
  refine ⟨?_, fun path => ?_⟩
  · rw [rep.root, hashAt, subtreeAll (by simpa using fits)]
  · dsimp only
    rw [rep.nodes path]
    by_cases low : path.level ≤ height
    · rw [if_pos (by omega), stored]
      by_cases inside : path.index * 2 ^ path.level < pairs.length
      · rw [if_pos inside, if_pos ⟨low, (some_ path).mpr inside⟩]
        rfl
      · rw [if_neg inside, if_neg (fun both => inside ((some_ path).mp both.2))]
    · rw [if_neg (by omega), if_neg (fun both => low both.1)]
      simp

theorem rootRecomputedTwice :
    let pairs : List (List UInt8 × List UInt8) := [([97, 58, 98], [99]), ([97, 58, 98], [100])]
    (built tabled 1 pairs).root = PerfectTree.root Hash.empty (hashNode tabled) 1 (leaves tabled pairs) ∧
    ∀ path : NodePath, (built tabled 1 pairs).nodes[path]? =
      let below := block (leaves tabled pairs) path.level path.index
      if path.level ≤ 1 ∧ below ≠ [] then
        some (PerfectTree.root Hash.empty (hashNode tabled) path.level below)
      else none :=
  rootRecomputed tabled 1 [([97, 58, 98], [99]), ([97, 58, 98], [100])] (by decide)

end CardanoLsm.Merkle
