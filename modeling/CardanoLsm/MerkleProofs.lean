import CardanoLsm.Merkle

/-! Which pairs of a key and a value have a proof against the root. BLAKE3 maps into 32
bytes, so it is taken to be free of collisions only among the byte strings that somebody
hashes: those of the tree and those of the proofs one considers. -/
namespace CardanoLsm.Merkle
open Std IncrementalMerkleTree PerfectTree

structure CollisionFree (blake3 : List UInt8 → Vector UInt8 32) (hashed : Set (List UInt8)) : Prop where
  injective : Set.InjOn blake3 hashed
  nonzero : ∀ bytes ∈ hashed, (blake3 bytes).toList ≠ Hash.empty

def treeBytes (blake3 : List UInt8 → Vector UInt8 32) (height : Nat)
    (pairs : List (List UInt8 × List UInt8)) : Set (List UInt8) :=
  { bytes | (∃ p ∈ pairs, bytes = leafBytes p.1 p.2) ∨
    ∃ level index, level < height ∧ index * 2 ^ (level + 1) < pairs.length ∧
      bytes = nodeBytes (hashAt blake3 pairs level (2 * index)) (hashAt blake3 pairs level (2 * index + 1)) }

def stepBytes (current : Hash) (sibling : Direction × Hash) : List UInt8 :=
  match sibling.1 with
  | .left => nodeBytes sibling.2 current
  | .right => nodeBytes current sibling.2

def pathBytes (blake3 : List UInt8 → Vector UInt8 32) :
    Hash → List (Direction × Hash) → List (List UInt8)
  | _, [] => []
  | current, sibling :: rest =>
    stepBytes current sibling :: pathBytes blake3 (combine blake3 current sibling) rest

def verifyBytes (blake3 : List UInt8 → Vector UInt8 32) (key value : List UInt8)
    (siblings : List (Direction × Hash)) : List (List UInt8) :=
  leafBytes key value :: pathBytes blake3 (hashLeaf blake3 key value) siblings

section
variable {blake3 : List UInt8 → Vector UInt8 32} {hashed : Set (List UInt8)}
  {pairs : List (List UInt8 × List UInt8)} {height level index : Nat} {key value : List UInt8}

theorem combineBytes (current : Hash) (sibling : Direction × Hash) :
    combine blake3 current sibling = (blake3 (stepBytes current sibling)).toList := by
  obtain ⟨direction, hash⟩ := sibling
  cases direction <;> rfl

theorem pathAppend (current : Hash) (before : List (Direction × Hash)) (last : Direction × Hash) :
    pathBytes blake3 current (before ++ [last]) =
      pathBytes blake3 current before ++ [stepBytes (before.foldl (combine blake3) current) last] := by
  induction before generalizing current with
  | nil => rfl
  | cons sibling rest ih => simp only [List.cons_append, pathBytes, ih, List.foldl_cons]

theorem verifyAppend (before : List (Direction × Hash)) (last : Direction × Hash) :
    verifyBytes blake3 key value (before ++ [last]) = verifyBytes blake3 key value before ++
      [stepBytes (before.foldl (combine blake3) (hashLeaf blake3 key value)) last] := by
  rw [verifyBytes, pathAppend]
  rfl

theorem foldHashed (blake3 : List UInt8 → Vector UInt8 32) (key value : List UInt8)
    (siblings : List (Direction × Hash)) :
    ∃ bytes ∈ verifyBytes blake3 key value siblings,
      siblings.foldl (combine blake3) (hashLeaf blake3 key value) = (blake3 bytes).toList := by
  cases siblings using List.reverseRecOn with
  | nil => exact ⟨leafBytes key value, List.mem_cons_self, rfl⟩
  | append_singleton before last =>
    refine ⟨stepBytes (before.foldl (combine blake3) (hashLeaf blake3 key value)) last, ?_, ?_⟩
    · simp [verifyAppend]
    · rw [List.foldl_append, List.foldl_cons, List.foldl_nil, combineBytes]

theorem leafNode (left right : Hash) : leafBytes key value ≠ nodeBytes left right := by
  simp [leafBytes, nodeBytes]

theorem stepNode (current : Hash) (sibling : Direction × Hash) :
    ∃ left right, stepBytes current sibling = nodeBytes left right := by
  obtain ⟨direction, hash⟩ := sibling
  cases direction with
  | left => exact ⟨hash, current, rfl⟩
  | right => exact ⟨current, hash, rfl⟩

theorem hashAtLength (pairs : List (List UInt8 × List UInt8)) (level index : Nat) :
    (hashAt blake3 pairs level index).length = 32 := by
  by_cases inside : index * 2 ^ level < pairs.length
  · cases level with
    | zero =>
      have found : pairs[index]? = some pairs[index] := List.getElem?_eq_getElem (by omega)
      rw [hashLeafAt found, hashLeaf, Vector.length_toList]
    | succ level =>
      rw [hashAt, subtreeNode (by simpa using inside), hashNode, Vector.length_toList]
  · rw [hashAt, subtreeEmpty (by simpa using inside)]
    rfl

theorem stepParts {current left right : Hash} {sibling : Direction × Hash}
    (same : stepBytes current sibling = nodeBytes left right) (length : current.length = 32)
    (leftLength : left.length = 32) (rightLength : right.length = 32) :
    current = left ∨ current = right := by
  obtain ⟨direction, hash⟩ := sibling
  cases direction with
  | left =>
    have tails : hash ++ 58 :: current = left ++ 58 :: right := List.append_cancel_left same
    have equal := List.append_inj_right' tails (by simp [length, rightLength])
    exact Or.inr (List.cons.inj equal).2
  | right =>
    have tails : current ++ 58 :: hash = left ++ 58 :: right := List.append_cancel_left same
    exact Or.inl (List.append_inj_left tails (length.trans leftLength.symm))

theorem hashAtNode (inside : index * 2 ^ (level + 1) < pairs.length) :
    hashAt blake3 pairs (level + 1) index = (blake3 (nodeBytes (hashAt blake3 pairs level (2 * index))
      (hashAt blake3 pairs level (2 * index + 1)))).toList := by
  rw [hashAt, subtreeNode (by simpa using inside)]
  rfl

theorem digestInside (free : CollisionFree blake3 hashed) {bytes : List UInt8} (mine : bytes ∈ hashed)
    (same : (blake3 bytes).toList = hashAt blake3 pairs level index) :
    index * 2 ^ level < pairs.length := by
  by_contra outside
  refine free.nonzero bytes mine (same.trans ?_)
  rw [hashAt, subtreeEmpty (by simpa using outside)]

theorem climbsFromLeaf (free : CollisionFree blake3 hashed) (tree : treeBytes blake3 height pairs ⊆ hashed)
    (siblings : List (Direction × Hash)) (low : level ≤ height)
    (mine : ∀ bytes ∈ verifyBytes blake3 key value siblings, bytes ∈ hashed)
    (leads : siblings.foldl (combine blake3) (hashLeaf blake3 key value) = hashAt blake3 pairs level index) :
    ∃ p ∈ pairs, leafBytes p.1 p.2 = leafBytes key value := by
  have inside : index * 2 ^ level < pairs.length := by
    obtain ⟨bytes, member, digest⟩ := foldHashed blake3 key value siblings
    exact digestInside free (mine bytes member) (digest.symm.trans leads)
  have equal : ∀ {a b : List UInt8}, a ∈ hashed → b ∈ hashed → (blake3 a).toList = (blake3 b).toList →
      a = b := fun left right same => free.injective left right (Vector.toList_inj.mp same)
  induction siblings using List.reverseRecOn generalizing level index with
  | nil =>
    have leaf : leafBytes key value ∈ hashed := mine _ List.mem_cons_self
    cases level with
    | zero =>
      have found : pairs[index]? = some pairs[index] := List.getElem?_eq_getElem (by omega)
      have member : pairs[index] ∈ pairs := List.getElem_mem _
      rw [hashLeafAt found] at leads
      exact ⟨pairs[index], member, (equal leaf (tree (Or.inl ⟨_, member, rfl⟩)) leads).symm⟩
    | succ level =>
      rw [hashAtNode inside] at leads
      have node := tree (Or.inr ⟨level, index, by omega, inside, rfl⟩)
      exact absurd (equal leaf node leads) (leafNode _ _)
  | append_singleton before last ih =>
    rw [verifyAppend] at mine
    rw [List.foldl_append, List.foldl_cons, List.foldl_nil, combineBytes] at leads
    have step := mine _ (List.mem_append_right _ List.mem_cons_self)
    have earlier : ∀ bytes ∈ verifyBytes blake3 key value before, bytes ∈ hashed :=
      fun bytes member => mine bytes (List.mem_append_left _ member)
    obtain ⟨first, firstMember, digest⟩ :=
      foldHashed blake3 key value before
    cases level with
    | zero =>
      have found : pairs[index]? = some pairs[index] := List.getElem?_eq_getElem (by omega)
      have member : pairs[index] ∈ pairs := List.getElem_mem _
      rw [hashLeafAt found] at leads
      have same := equal step (tree (Or.inl ⟨_, member, rfl⟩)) leads
      obtain ⟨left, right, node⟩ := stepNode
        (before.foldl (combine blake3) (hashLeaf blake3 key value)) last
      exact absurd (same.symm.trans node) (leafNode left right)
    | succ level =>
      rw [hashAtNode inside] at leads
      have same := equal step (tree (Or.inr ⟨level, index, by omega, inside, rfl⟩)) leads
      have length : (before.foldl (combine blake3) (hashLeaf blake3 key value)).length = 32 := by
        rw [digest, Vector.length_toList]
      rcases stepParts same length (hashAtLength _ _ _) (hashAtLength _ _ _) with left | right
      · exact ih (by omega) earlier left
          (digestInside free (earlier first firstMember) (digest.symm.trans left))
      · exact ih (by omega) earlier right
          (digestInside free (earlier first firstMember) (digest.symm.trans right))

theorem siblingsBytes {index : Nat} (inside : index < pairs.length) {top : Nat} (low : top ≤ height) :
    ∀ bytes ∈ pathBytes blake3 (hashAt blake3 pairs 0 index) (siblingsOf blake3 pairs index top),
      bytes ∈ treeBytes blake3 height pairs := by
  induction top with
  | zero =>
    intro bytes member
    cases member
  | succ top ih =>
    intro bytes member
    rw [siblingsSucc, pathAppend, siblingsClimb blake3 inside] at member
    rcases List.mem_append.mp member with before | last
    · exact ih (by omega) bytes before
    · have above : index / 2 ^ (top + 1) = index / 2 ^ top / 2 := by
        rw [Nat.div_div_eq_div_mul, ← pow_succ]
      refine Or.inr ⟨top, index / 2 ^ (top + 1), by omega, divBelow inside (top + 1), ?_⟩
      rw [List.mem_singleton.mp last, above, directionOf, stepBytes]
      split
      · rename_i even
        split at even
        · cases even
        · rename_i odd
          rw [xorOneOdd odd, show 2 * (index / 2 ^ top / 2) + 1 = index / 2 ^ top by omega]
      · rename_i odd
        split at odd
        · rename_i even
          rw [xorOneEven even, show 2 * (index / 2 ^ top / 2) = index / 2 ^ top by omega]
        · cases odd

end

section
variable {blake3 : List UInt8 → Vector UInt8 32} {hashed : Set (List UInt8)}
  {pairs : List (List UInt8 × List UInt8)} {height : Nat} {key value : List UInt8}

theorem leafProof (fits : pairs.length ≤ 2 ^ height) (tree : treeBytes blake3 height pairs ⊆ hashed)
    {p : List UInt8 × List UInt8} (member : p ∈ pairs) (same : leafBytes p.1 p.2 = leafBytes key value) :
    ∃ proof : MerkleProof, (∀ bytes ∈ verifyBytes blake3 key value proof.siblings, bytes ∈ hashed) ∧
      verifyProof blake3 (built blake3 height pairs).root key value proof = true := by
  have rep := builtRepresents blake3 height pairs fits
  obtain ⟨index, found⟩ := List.getElem?_of_mem member
  obtain ⟨inside, -⟩ := List.getElem?_eq_some_iff.mp found
  have leaf : hashAt blake3 pairs 0 index = hashLeaf blake3 key value := by
    rw [hashLeafAt found, hashLeaf, same, ← hashLeaf]
  refine ⟨⟨⟨key, value⟩, siblingsOf blake3 pairs index height⟩, ?_, ?_⟩
  · intro bytes hashes
    rcases List.mem_cons.mp hashes with rfl | path
    · exact tree (Or.inl ⟨p, member, same.symm⟩)
    · rw [← leaf] at path
      exact tree (siblingsBytes inside (Nat.le_refl height) bytes path)
  · have climbed := siblingsClimb blake3 inside height
    rw [leaf, Nat.div_eq_of_lt (by omega)] at climbed
    rw [verifyProof, climbed, rep.root, beq_self_eq_true]

theorem proofLeaf (fits : pairs.length ≤ 2 ^ height) (free : CollisionFree blake3 hashed)
    (tree : treeBytes blake3 height pairs ⊆ hashed) {proof : MerkleProof}
    (mine : ∀ bytes ∈ verifyBytes blake3 key value proof.siblings, bytes ∈ hashed)
    (valid : verifyProof blake3 (built blake3 height pairs).root key value proof = true) :
    ∃ p ∈ pairs, leafBytes p.1 p.2 = leafBytes key value := by
  have leads := beq_iff_eq.mp valid
  rw [(builtRepresents blake3 height pairs fits).root] at leads
  exact climbsFromLeaf free tree proof.siblings (Nat.le_refl height) mine leads

end

/-- A pair has a proof only if it was inserted, exactly where no pair was inserted whose
key and value make the same bytes with the separator between them. -/
theorem proofSound (blake3 : List UInt8 → Vector UInt8 32) (hashed : Set (List UInt8)) (height : Nat)
    (pairs : List (List UInt8 × List UInt8)) (fits : pairs.length ≤ 2 ^ height)
    (free : CollisionFree blake3 hashed) (tree : treeBytes blake3 height pairs ⊆ hashed)
    (key value : List UInt8) :
    (∀ proof : MerkleProof, (∀ bytes ∈ verifyBytes blake3 key value proof.siblings, bytes ∈ hashed) →
      verifyProof blake3 (built blake3 height pairs).root key value proof = true → (key, value) ∈ pairs) ↔
    ∀ p ∈ pairs, p.1 ++ 58 :: p.2 = key ++ 58 :: value → (key, value) ∈ pairs := by
  constructor
  · intro sound p member joined
    have same : leafBytes p.1 p.2 = leafBytes key value := by rw [leafBytes, joined, ← leafBytes]
    obtain ⟨proof, mine, valid⟩ := leafProof fits tree member same
    exact sound proof mine valid
  · intro apart proof mine valid
    obtain ⟨p, member, same⟩ := proofLeaf fits free tree mine valid
    exact apart p member (List.append_cancel_left same)

def onlyPair : List (List UInt8 × List UInt8) := [([97, 58, 98], [99])]

def tabledBytes : Set (List UInt8) := { bytes | bytes ∈ digests.map Prod.fst }

theorem tabledFree : CollisionFree tabled tabledBytes := by
  have injective : ∀ a ∈ digests.map Prod.fst, ∀ b ∈ digests.map Prod.fst, tabled a = tabled b → a = b := by
    decide +kernel
  have nonzero : ∀ a ∈ digests.map Prod.fst, (tabled a).toList ≠ Hash.empty := by decide +kernel
  exact ⟨fun a left b right same => injective a left b right same, nonzero⟩

theorem onlyPairBytes : treeBytes tabled 1 onlyPair ⊆ tabledBytes := by
  rintro bytes (⟨p, member, rfl⟩ | ⟨level, index, low, inside, rfl⟩)
  · rw [List.mem_singleton.mp member]
    exact List.mem_cons_self
  · have bottom : level = 0 := by omega
    subst bottom
    have first : index = 0 := by simp [onlyPair] at inside; omega
    subst first
    have listed : nodeBytes (hashAt tabled onlyPair 0 0) (hashAt tabled onlyPair 0 1) ∈
        digests.map Prod.fst := by decide +kernel
    exact listed

theorem proofSoundOnlyPair :
    (∀ proof : MerkleProof, (∀ bytes ∈ verifyBytes tabled [97, 58, 98] [99] proof.siblings,
      bytes ∈ tabledBytes) → verifyProof tabled (built tabled 1 onlyPair).root [97, 58, 98] [99] proof = true →
        ([97, 58, 98], [99]) ∈ onlyPair) ↔
    ∀ p ∈ onlyPair, p.1 ++ 58 :: p.2 = [97, 58, 98] ++ 58 :: [99] → ([97, 58, 98], [99]) ∈ onlyPair :=
  proofSound tabled tabledBytes 1 onlyPair (by decide) tabledFree onlyPairBytes [97, 58, 98] [99]

theorem separatorForged : CollisionFree tabled tabledBytes ∧ treeBytes tabled 1 onlyPair ⊆ tabledBytes ∧
    ∃ proof : MerkleProof, (∀ bytes ∈ verifyBytes tabled [97] [98, 58, 99] proof.siblings,
      bytes ∈ tabledBytes) ∧ verifyProof tabled (built tabled 1 onlyPair).root [97] [98, 58, 99] proof = true ∧
      ([97], [98, 58, 99]) ∉ onlyPair := by
  refine ⟨tabledFree, onlyPairBytes, ((new 1).insert tabled [97, 58, 98] [99]).1, ?_, ?_, by decide⟩
  · have listed : ∀ bytes ∈ verifyBytes tabled [97] [98, 58, 99]
        ((new 1).insert tabled [97, 58, 98] [99]).1.siblings, bytes ∈ digests.map Prod.fst := by
      decide +kernel
    exact listed
  · decide +kernel

theorem provenInserted (blake3 : List UInt8 → Vector UInt8 32) (hashed : Set (List UInt8))
    (known : Set (List UInt8 × List UInt8)) (height : Nat) (pairs : List (List UInt8 × List UInt8))
    (fits : pairs.length ≤ 2 ^ height) (free : CollisionFree blake3 hashed)
    (tree : treeBytes blake3 height pairs ⊆ hashed)
    (injective : Set.InjOn (fun p => hashLeaf blake3 p.1 p.2) known) (inserted : ∀ p ∈ pairs, p ∈ known)
    (key value : List UInt8) (asked : (key, value) ∈ known) :
    ((∃ proof : MerkleProof, (∀ bytes ∈ verifyBytes blake3 key value proof.siblings, bytes ∈ hashed) ∧
      verifyProof blake3 (built blake3 height pairs).root key value proof = true) ↔ (key, value) ∈ pairs) ∧
    ∀ last, pairs.reverse.lookup key = some last →
      (built blake3 height pairs).leafData[key]? = some last ∧
      ∃ i proof, (built blake3 height pairs).keyToIndex[key]? = some i ∧ pairs[i]? = some (key, last) ∧
        (built blake3 height pairs).prove key = some proof ∧ proof.leaf = ⟨key, last⟩ ∧
        (built blake3 height pairs).verify blake3 proof = .ok () := by
  have rep := builtRepresents blake3 height pairs fits
  refine ⟨⟨?_, fun member => leafProof fits tree member rfl⟩, fun last found => ?_⟩
  · rintro ⟨proof, mine, valid⟩
    obtain ⟨p, member, same⟩ := proofLeaf fits free tree mine valid
    have equal : p = (key, value) :=
      injective (inserted p member) asked (by simp only [hashLeaf, same])
    exact equal ▸ member
  · obtain ⟨i, index, listed⟩ := rep.indices key last found
    exact ⟨(rep.data key).trans found, i, _, index, listed,
      rep.proves index ((rep.data key).trans found), rfl, rep.verifies fits listed⟩

def bothPairs : List (List UInt8 × List UInt8) := [([97, 58, 98], [99]), ([97, 58, 98], [100])]

theorem bothPairsBytes : treeBytes tabled 1 bothPairs ⊆ tabledBytes := by
  rintro bytes (⟨p, member, rfl⟩ | ⟨level, index, low, inside, rfl⟩)
  · have listed : ∀ p ∈ bothPairs, leafBytes p.1 p.2 ∈ digests.map Prod.fst := by decide +kernel
    exact listed p member
  · have bottom : level = 0 := by omega
    subst bottom
    have first : index = 0 := by simp [bothPairs] at inside; omega
    subst first
    have listed : nodeBytes (hashAt tabled bothPairs 0 0) (hashAt tabled bothPairs 0 1) ∈
        digests.map Prod.fst := by decide +kernel
    exact listed

theorem bothPairsApart : Set.InjOn (fun p => hashLeaf tabled p.1 p.2) { p | p ∈ bothPairs } := by
  have injective : ∀ p ∈ bothPairs, ∀ q ∈ bothPairs,
      hashLeaf tabled p.1 p.2 = hashLeaf tabled q.1 q.2 → p = q := by decide +kernel
  exact fun p left q right same => injective p left q right same

theorem provenInsertedTwice :
    ((∃ proof : MerkleProof,
      (∀ bytes ∈ verifyBytes tabled [97, 58, 98] [99] proof.siblings, bytes ∈ tabledBytes) ∧
      verifyProof tabled (built tabled 1 bothPairs).root [97, 58, 98] [99] proof = true) ↔
        ([97, 58, 98], [99]) ∈ bothPairs) ∧
    ∀ last, bothPairs.reverse.lookup [97, 58, 98] = some last →
      (built tabled 1 bothPairs).leafData[([97, 58, 98] : List UInt8)]? = some last ∧
      ∃ i proof, (built tabled 1 bothPairs).keyToIndex[([97, 58, 98] : List UInt8)]? = some i ∧
        bothPairs[i]? = some ([97, 58, 98], last) ∧
        (built tabled 1 bothPairs).prove [97, 58, 98] = some proof ∧ proof.leaf = ⟨[97, 58, 98], last⟩ ∧
        (built tabled 1 bothPairs).verify tabled proof = .ok () :=
  provenInserted tabled tabledBytes { p | p ∈ bothPairs } 1 bothPairs (by decide) tabledFree
    bothPairsBytes bothPairsApart (fun _ member => member) [97, 58, 98] [99] (by decide)

theorem overwrittenProven : CollisionFree tabled tabledBytes ∧
    treeBytes tabled 1 bothPairs ⊆ tabledBytes ∧
    Set.InjOn (fun p => hashLeaf tabled p.1 p.2) { p | p ∈ bothPairs } ∧
    bothPairs.reverse.lookup [97, 58, 98] = some [100] ∧
    ∃ proof : MerkleProof,
      (∀ bytes ∈ verifyBytes tabled [97, 58, 98] [99] proof.siblings, bytes ∈ tabledBytes) ∧
      verifyProof tabled (built tabled 1 bothPairs).root [97, 58, 98] [99] proof = true := by
  refine ⟨tabledFree, bothPairsBytes, bothPairsApart, by decide, ?_⟩
  exact leafProof (by decide) bothPairsBytes (List.mem_cons_self) rfl

end CardanoLsm.Merkle
