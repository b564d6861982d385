import CardanoLsm.MemTable

/-! The bloom filter of a run (`sstable.rs`), over any 32-bit hash of a key and a
seed. A key the filter was built from is never reported absent. -/
namespace CardanoLsm

abbrev KeyHash := Key → Nat → UInt32

structure BloomFilter where
  bits : List UInt8
  numBits : Nat
  numHashes : Nat
  deriving DecidableEq, Repr

namespace BloomFilter

def bitMask (pos : Nat) : UInt8 := (1 : UInt8) <<< UInt8.ofNat (pos % 8)

def setBit (bits : List UInt8) (pos : Nat) : List UInt8 :=
  bits.modify (pos / 8) (fun b => b ||| bitMask pos)

def testBit (bits : List UInt8) (pos : Nat) : Bool :=
  (bits.getD (pos / 8) 0) &&& bitMask pos != 0

def addKey (hash : KeyHash) (numBits numHashes : Nat) (bits : List UInt8) (key : Key) : List UInt8 :=
  (List.range numHashes).foldl (fun bits i => setBit bits ((hash key i).toNat % numBits)) bits

def fromKeys (hash : KeyHash) (keys : List Key) (bitsPerKey : Nat) : BloomFilter :=
  let numBits := keys.length * bitsPerKey
  ⟨keys.foldl (addKey hash numBits 7) (List.replicate ((numBits + 7) / 8) 0), numBits, 7⟩

def mightContain (hash : KeyHash) (f : BloomFilter) (key : Key) : Bool :=
  (List.range f.numHashes).all (fun i => testBit f.bits ((hash key i).toNat % f.numBits))

theorem orAnd (a b c : UInt8) : (a ||| b) &&& c = (a &&& c) ||| (b &&& c) := by
  apply UInt8.toBitVec_inj.1
  ext i hi
  simp [Bool.and_or_distrib_right]

theorem bitMaskNonzero (pos : Nat) : bitMask pos ≠ 0 := by
  have small : pos % 8 < 8 := Nat.mod_lt _ (by decide)
  unfold bitMask
  generalize pos % 8 = i at small
  interval_cases i <;> decide

@[simp] theorem setBitLength (bits : List UInt8) (pos : Nat) :
    (setBit bits pos).length = bits.length := by simp [setBit]

theorem setBitSets {bits : List UInt8} {pos : Nat} (inside : pos / 8 < bits.length) :
    testBit (setBit bits pos) pos = true := by
  have found : (setBit bits pos).getD (pos / 8) 0 = bits[pos / 8] ||| bitMask pos := by
    simp [setBit, List.getD_eq_getElem?_getD, inside]
  rw [testBit, found, orAnd, UInt8.and_self]
  simp [bitMaskNonzero]

theorem setBitKeeps {bits : List UInt8} {pos other : Nat} (set : testBit bits other = true) :
    testBit (setBit bits pos) other = true := by
  unfold testBit at set ⊢
  by_cases same : pos / 8 = other / 8
  · cases held : bits[other / 8]? with
    | none => simp [List.getD_eq_getElem?_getD, held] at set
    | some b =>
      have found : (setBit bits pos).getD (other / 8) 0 = b ||| bitMask pos := by
        simp [setBit, List.getD_eq_getElem?_getD, same, held]
      have before : bits.getD (other / 8) 0 = b := by simp [List.getD_eq_getElem?_getD, held]
      rw [found, orAnd]
      rw [before] at set
      have kept : b &&& bitMask other ≠ 0 := by simpa using set
      simp [kept]
  · have found : (setBit bits pos).getD (other / 8) 0 = bits.getD (other / 8) 0 := by
      simp [setBit, List.getD_eq_getElem?_getD, same]
    rw [found]
    exact set

theorem foldSetKeeps (positions : List Nat) {bits : List UInt8} {pos : Nat}
    (set : testBit bits pos = true) : testBit (positions.foldl setBit bits) pos = true := by
  induction positions generalizing bits with
  | nil => exact set
  | cons p rest ih => exact ih (setBitKeeps set)

theorem foldSetSets {positions : List Nat} {bits : List UInt8} {pos : Nat} (member : pos ∈ positions)
    (inside : pos / 8 < bits.length) : testBit (positions.foldl setBit bits) pos = true := by
  induction positions generalizing bits with
  | nil => simp at member
  | cons p rest ih =>
    rcases List.mem_cons.mp member with rfl | later
    · exact foldSetKeeps rest (setBitSets inside)
    · exact ih later (by simpa using inside)

def positions (hash : KeyHash) (numBits numHashes : Nat) (key : Key) : List Nat :=
  (List.range numHashes).map (fun i => (hash key i).toNat % numBits)

theorem addKeyEq (hash : KeyHash) (numBits numHashes : Nat) (bits : List UInt8) (key : Key) :
    addKey hash numBits numHashes bits key =
      (positions hash numBits numHashes key).foldl setBit bits := by
  simp [addKey, positions, List.foldl_map]

theorem foldKeysEq (hash : KeyHash) (numBits numHashes : Nat) (keys : List Key) (bits : List UInt8) :
    keys.foldl (addKey hash numBits numHashes) bits =
      (keys.flatMap (positions hash numBits numHashes)).foldl setBit bits := by
  induction keys generalizing bits with
  | nil => rfl
  | cons key rest ih => simp [addKeyEq, ih, List.foldl_append]

theorem fromKeysContains (hash : KeyHash) {keys : List Key} {bitsPerKey : Nat} {key : Key}
    (member : key ∈ keys) (positive : 0 < bitsPerKey) :
    (fromKeys hash keys bitsPerKey).mightContain hash key = true := by
  have bound : 0 < keys.length * bitsPerKey :=
    Nat.mul_pos (List.length_pos_of_mem member) positive
  simp only [mightContain, fromKeys, List.all_eq_true]
  intro i hi
  rw [foldKeysEq]
  apply foldSetSets
  · rw [List.mem_flatMap]
    exact ⟨key, member, List.mem_map.mpr ⟨i, hi, rfl⟩⟩
  · have small := Nat.mod_lt (hash key i).toNat bound
    rw [List.length_replicate]
    omega

/-! What the two functions do on a machine: `num_bits` is a product of two `usize`, which panics or wraps, and a
remainder by zero and an index outside the bits panic. A panic is `none`. -/

def bitPos (hash : KeyHash) (numBits : Nat) (bits : List UInt8) (key : Key) (i : Nat) : Option Nat :=
  if numBits = 0 then none
  else
    let pos := (hash key i).toNat % numBits
    if pos / 8 < bits.length then some pos else none

def addKeyChecked (hash : KeyHash) (numBits numHashes : Nat) (bits : List UInt8) (key : Key) : Option (List UInt8) :=
  (List.range numHashes).foldlM (fun bits i => (bitPos hash numBits bits key i).map (setBit bits)) bits

def fromKeysChecked (overflowChecks : Bool) (hash : KeyHash) (keys : List Key) (bitsPerKey : Nat) :
    Option BloomFilter := do
  let numBits ← usizeMul overflowChecks keys.length bitsPerKey
  let bits ← keys.foldlM (addKeyChecked hash numBits 7) (List.replicate ((numBits + 7) / 8) 0)
  return ⟨bits, numBits, 7⟩

def testHashes (hash : KeyHash) (f : BloomFilter) (key : Key) : List Nat → Option Bool
  | [] => some true
  | i :: rest => do
    let pos ← bitPos hash f.numBits f.bits key i
    if testBit f.bits pos then testHashes hash f key rest else return false

def mightContainChecked (hash : KeyHash) (f : BloomFilter) (key : Key) : Option Bool :=
  testHashes hash f key (List.range f.numHashes)

section Checked
variable {hash : KeyHash} {n : Nat} {bits : List UInt8}

theorem bitPosInside (positive : 0 < n) (room : n ≤ bits.length * 8) (key : Key) (i : Nat) :
    bitPos hash n bits key i = some ((hash key i).toNat % n) := by
  have small : (hash key i).toNat % n < n := Nat.mod_lt _ positive
  simp only [bitPos]
  rw [if_neg (by omega), if_pos (by omega)]

theorem addKeyLength (numHashes : Nat) (key : Key) :
    (addKey hash n numHashes bits key).length = bits.length := by
  have seeds : ∀ (seeds : List Nat) (bits : List UInt8),
      (seeds.foldl (fun bits i => setBit bits ((hash key i).toNat % n)) bits).length = bits.length := by
    intro seeds
    induction seeds with
    | nil => exact fun _ => rfl
    | cons i rest ih => exact fun bits => (ih _).trans (setBitLength bits _)
  exact seeds (List.range numHashes) bits

theorem addKeyInside (positive : 0 < n) (room : n ≤ bits.length * 8) (numHashes : Nat) (key : Key) :
    addKeyChecked hash n numHashes bits key = some (addKey hash n numHashes bits key) := by
  have seeds : ∀ (seeds : List Nat) (bits : List UInt8), n ≤ bits.length * 8 →
      seeds.foldlM (fun bits i => (bitPos hash n bits key i).map (setBit bits)) bits =
        some (seeds.foldl (fun bits i => setBit bits ((hash key i).toNat % n)) bits) := by
    intro seeds
    induction seeds with
    | nil => exact fun _ _ => rfl
    | cons i rest ih =>
      intro bits room
      rw [List.foldlM_cons, bitPosInside positive room]
      exact ih _ (by rwa [setBitLength])
  exact seeds (List.range numHashes) bits room

theorem addKeysInside (hash : KeyHash) (positive : 0 < n) (room : n ≤ bits.length * 8) (numHashes : Nat) (keys : List Key) :
    keys.foldlM (addKeyChecked hash n numHashes) bits = some (keys.foldl (addKey hash n numHashes) bits) ∧
      (keys.foldl (addKey hash n numHashes) bits).length = bits.length := by
  induction keys generalizing bits with
  | nil => exact ⟨rfl, rfl⟩
  | cons key rest ih =>
    have length : (addKey hash n numHashes bits key).length = bits.length := addKeyLength numHashes key
    have room' : n ≤ (addKey hash n numHashes bits key).length * 8 := by rwa [length]
    obtain ⟨folded, kept⟩ := ih room'
    rw [List.foldlM_cons, addKeyInside positive room]
    exact ⟨folded, kept.trans length⟩

theorem testHashesInside {f : BloomFilter} (positive : 0 < f.numBits) (room : f.numBits ≤ f.bits.length * 8)
    (key : Key) (seeds : List Nat) : testHashes hash f key seeds =
      some (seeds.all (fun i => testBit f.bits ((hash key i).toNat % f.numBits))) := by
  induction seeds with
  | nil => rfl
  | cons i rest ih =>
    simp only [testHashes, bitPosInside positive room, Option.bind_eq_bind, Option.bind_some, List.all_cons]
    cases testBit f.bits ((hash key i).toNat % f.numBits) with
    | true => exact ih
    | false => rfl

end Checked

def Serves (overflowChecks : Bool) (hash : KeyHash) (keys : List Key) (bitsPerKey : Nat) : Prop :=
  ∃ f, fromKeysChecked overflowChecks hash keys bitsPerKey = some f ∧
    (∀ key ∈ keys, mightContainChecked hash f key = some true) ∧ ∀ key, (mightContainChecked hash f key).isSome

theorem noFalseNegatives (overflowChecks : Bool) (hash : KeyHash) {keys : List Key} {bitsPerKey : Nat}
    (nonempty : keys ≠ []) (positive : 1 ≤ bitsPerKey) (fits : keys.length * bitsPerKey < 2 ^ 64) :
    Serves overflowChecks hash keys bitsPerKey := by
  have bound : 0 < keys.length * bitsPerKey := Nat.mul_pos (List.length_pos_of_ne_nil nonempty) positive
  have room : keys.length * bitsPerKey ≤
      (List.replicate ((keys.length * bitsPerKey + 7) / 8) (0 : UInt8)).length * 8 := by
    rw [List.length_replicate]
    omega
  obtain ⟨built, length⟩ := addKeysInside hash bound room 7 keys
  have answers : ∀ key, mightContainChecked hash (fromKeys hash keys bitsPerKey) key =
      some ((fromKeys hash keys bitsPerKey).mightContain hash key) := fun key =>
    testHashesInside (f := fromKeys hash keys bitsPerKey) bound (by rwa [← length] at room) key _
  refine ⟨fromKeys hash keys bitsPerKey, ?_, fun key member => ?_, fun key => by rw [answers]; rfl⟩
  · simp only [fromKeysChecked, usizeMul, fitWordFits fits, Option.bind_eq_bind, Option.bind_some, built]
    rfl
  · rw [answers, fromKeysContains hash member positive]

theorem noFalseNegativesTwo : Serves true (fun key seed => UInt32.ofNat (key.length + seed)) [[1], [2, 3]] 10 :=
  noFalseNegatives true _ (by decide) (by decide) (by decide)

theorem productOverflows : ¬ ∀ (overflowChecks : Bool) (hash : KeyHash) (keys : List Key) (bitsPerKey : Nat),
    keys ≠ [] → 1 ≤ bitsPerKey → Serves overflowChecks hash keys bitsPerKey := by
  intro always
  obtain ⟨f, built, -⟩ := always false (fun _ _ => 0) [[1], [2]] (2 ^ 63) (by decide) (by decide)
  have panics : fromKeysChecked false (fun _ _ => 0) [[1], [2]] (2 ^ 63) = none := by decide
  rw [panics] at built
  cases built

end BloomFilter
end CardanoLsm
