import CardanoLsm.Format.BitErrors

/-! The hashes of the bloom filter (`BloomFilter::hash`, `sstable.rs`): checksums of a key
behind seven seeds. A checksum is linear, so that for keys of one length the seven are one
hash, shifted by constants. -/
namespace CardanoLsm.Format
open Bytes

def seededHash (crc : Crc32) : KeyHash := fun key seed => crc.ofChunks [le 4 seed, key]

def blindSpot : List UInt8 := [0x41, 0x06, 0x71, 0xDB, 0x01]

theorem bitsOfAppend (xs ys : List UInt8) : bitsOf (xs ++ ys) = bitsOf xs ++ bitsOf ys := List.flatMap_append

theorem bitsOfLength (data : List UInt8) : (bitsOf data).length = 8 * data.length := by
  induction data with
  | nil => rfl
  | cons b rest ih =>
    have split : bitsOf (b :: rest) = Crc.bits 8 b.toBitVec ++ bitsOf rest := rfl
    rw [split, List.length_append, ih, List.length_cons, Crc.bits, List.length_map, List.length_range]
    omega

theorem bitsOfXor {xs ys : List UInt8} (lengths : xs.length = ys.length) :
    bitsOf (List.zipWith (fun x y => x ^^^ y) xs ys) = List.zipWith xor (bitsOf xs) (bitsOf ys) := by
  induction xs generalizing ys with
  | nil =>
    rw [List.length_eq_zero_iff.mp lengths.symm]
    rfl
  | cons x xs ih =>
    cases ys with
    | nil => cases lengths
    | cons y ys =>
      have split : ∀ (b : UInt8) (rest : List UInt8), bitsOf (b :: rest) = Crc.bits 8 b.toBitVec ++ bitsOf rest :=
        fun _ _ => rfl
      rw [List.zipWith_cons_cons, split, split, split, ih (by simpa using lengths), UInt8.toBitVec_xor, Crc.bitsXor,
        List.zipWith_append (by rw [Crc.bits, Crc.bits, List.length_map, List.length_map])]

section Hashes
variable {crc : Crc32}

theorem seededRegister (ieee : crc.Ieee) (key : Key) (seed : Nat) : (seededHash crc key seed).toBitVec =
    Crc.register polynomial (Crc.register polynomial 0xFFFFFFFF#32 (bitsOf (le 4 seed))) (bitsOf key) ^^^
      0xFFFFFFFF#32 := by
  rw [seededHash, ieee, crc32Flat, UInt32.toBitVec_xor, crcBytesRegister, List.flatten_cons, List.flatten_singleton,
    bitsOfAppend, Crc.registerAppend]
  rfl

theorem hashesApart (ieee : crc.Ieee) {k k' : Key} (lengths : k.length = k'.length) (i j : Nat) :
    seededHash crc k i ^^^ seededHash crc k' i = seededHash crc k j ^^^ seededHash crc k' j := by
  have cancel : ∀ a b c : BitVec 32, a ^^^ c ^^^ (b ^^^ c) = a ^^^ b := by
    intro a b c
    rw [BitVec.xor_comm b c, ← BitVec.xor_assoc, BitVec.xor_assoc a, BitVec.xor_self, BitVec.xor_zero]
  have bits : (bitsOf k).length = (bitsOf k').length := by rw [bitsOfLength, bitsOfLength, lengths]
  apply UInt32.toBitVec_inj.mp
  rw [UInt32.toBitVec_xor, UInt32.toBitVec_xor, seededRegister ieee, seededRegister ieee, seededRegister ieee,
    seededRegister ieee, cancel, cancel]
  exact Crc.registerApart polynomial _ _ bits

theorem oneHash (ieee : crc.Ieee) {k k' : Key} (lengths : k.length = k'.length) {i : Nat}
    (same : seededHash crc k i = seededHash crc k' i) (j : Nat) : seededHash crc k j = seededHash crc k' j := by
  have apart := hashesApart ieee lengths i j
  rw [same, UInt32.xor_self] at apart
  exact (UInt32.xor_eq_zero_iff.mp apart.symm)

theorem mightContainSame {hash : KeyHash} {k k' : Key} (same : ∀ i, hash k i = hash k' i) (f : BloomFilter) :
    f.mightContain hash k = f.mightContain hash k' := by
  simp only [BloomFilter.mightContain, same]

def blinded (k : Key) : Key := List.zipWith (fun x y => x ^^^ y) (k.take 5) blindSpot ++ k.drop 5

theorem blindedHash (ieee : crc.Ieee) {k : Key} (long : 5 ≤ k.length) (seed : Nat) :
    seededHash crc (blinded k) seed = seededHash crc k seed := by
  have short : (k.take 5).length = blindSpot.length := by
    rw [List.length_take]
    exact Nat.min_eq_left long
  have vanishes : Crc.register polynomial 0#32 (bitsOf blindSpot) = 0#32 := by decide +kernel
  have absorbed : ∀ c : BitVec 32, Crc.register polynomial c (List.zipWith xor (bitsOf (k.take 5)) (bitsOf blindSpot)) =
      Crc.register polynomial c (bitsOf (k.take 5)) := by
    intro c
    have lengths : (bitsOf (k.take 5)).length = (bitsOf blindSpot).length := by
      rw [bitsOfLength, bitsOfLength, short]
    have linear := Crc.registerXor polynomial c 0#32 lengths
    rwa [vanishes, BitVec.xor_zero, BitVec.xor_zero] at linear
  apply UInt32.toBitVec_inj.mp
  rw [seededRegister ieee, seededRegister ieee, blinded, bitsOfAppend, bitsOfXor short, Crc.registerAppend, absorbed,
    ← Crc.registerAppend, ← bitsOfAppend, List.take_append_drop]

theorem blindedOther {k : Key} (long : 5 ≤ k.length) : blinded k ≠ k ∧ (blinded k).length = k.length := by
  obtain ⟨x, rest, rfl⟩ := List.exists_cons_of_length_pos (Nat.lt_of_lt_of_le (by decide) long)
  constructor
  · intro same
    have first : x ^^^ 0x41 = x := (List.cons.inj same).1
    have zero := congrArg (fun y => x ^^^ y) first
    simp only [← UInt8.xor_assoc, UInt8.xor_self, UInt8.zero_xor] at zero
    cases zero
  · rw [blinded, List.length_append, List.length_zipWith, List.length_take, List.length_drop]
    have five : blindSpot.length = 5 := rfl
    omega

/-- To the filter the seven hashes of the keys of one length are one: where two keys agree on
one of them, no filter tells them apart, and every key of five bytes or more has such a twin,
which every filter over the key takes for a member. -/
theorem filterBlind (ieee : crc.Ieee) :
    (∀ k k' : Key, k.length = k'.length → ∀ i j,
      seededHash crc k i ^^^ seededHash crc k' i = seededHash crc k j ^^^ seededHash crc k' j) ∧
    (∀ k k' : Key, k.length = k'.length → ∀ i, seededHash crc k i = seededHash crc k' i →
      ∀ f : BloomFilter, f.mightContain (seededHash crc) k = f.mightContain (seededHash crc) k') ∧
    ∀ k : Key, 5 ≤ k.length → ∃ k', k' ≠ k ∧ k'.length = k.length ∧ ∀ keys, k ∈ keys → ∀ bitsPerKey, 0 < bitsPerKey →
      (BloomFilter.fromKeys (seededHash crc) keys bitsPerKey).mightContain (seededHash crc) k' = true := by
  refine ⟨fun k k' lengths i j => hashesApart ieee lengths i j, fun k k' lengths i same f => ?_, fun k long => ?_⟩
  · exact mightContainSame (oneHash ieee lengths same) f
  · obtain ⟨other, length⟩ := blindedOther long
    refine ⟨blinded k, other, length, fun keys member bitsPerKey positive => ?_⟩
    rw [mightContainSame (blindedHash ieee long)]
    exact BloomFilter.fromKeysContains (seededHash crc) member positive

end Hashes

theorem filterBlindFive : ∃ k' : Key, k' ≠ [1, 2, 3, 4, 5] ∧
    (BloomFilter.fromKeys (seededHash crc32) [[1, 2, 3, 4, 5]] 10).mightContain (seededHash crc32) k' = true := by
  have ieee : crc32.Ieee := fun _ => rfl
  obtain ⟨k', other, -, taken⟩ := (filterBlind ieee).2.2 [1, 2, 3, 4, 5] (by decide)
  exact ⟨k', other, taken _ List.mem_cons_self 10 (by decide)⟩

end CardanoLsm.Format
