import Mathlib

/-! Fixed-width little-endian numbers, sequential and positioned reads of a byte string. -/
namespace Bytes

def le : Nat → Nat → List UInt8
  | 0, _ => []
  | width + 1, value => UInt8.ofNat (value % 256) :: le width (value / 256)

def readLE : List UInt8 → Nat
  | [] => 0
  | b :: rest => b.toNat + 256 * readLE rest

@[simp] theorem leLength (width value : Nat) : (le width value).length = width := by
  induction width generalizing value with
  | zero => rfl
  | succ width ih => simp [le, ih]

theorem readLeMod (width value : Nat) : readLE (le width value) = value % 256 ^ width := by
  induction width generalizing value with
  | zero => simp [le, readLE, Nat.mod_one]
  | succ width ih =>
    have byte : (UInt8.ofNat (value % 256)).toNat = value % 256 := by
      rw [UInt8.toNat_ofNat']
      omega
    rw [le, readLE, ih, byte, Nat.pow_succ', Nat.mod_mul]

theorem readLeBounded {width value : Nat} (bound : value < 256 ^ width) :
    readLE (le width value) = value := by
  rw [readLeMod, Nat.mod_eq_of_lt bound]

theorem takeLe (width value n : Nat) : (le width value).take n = le (min n width) value := by
  induction width generalizing value n with
  | zero => simp [le]
  | succ width ih =>
    cases n with
    | zero => simp [le]
    | succ n => rw [le, List.take_succ_cons, ih, Nat.succ_min_succ, le]

theorem readZeros (bytes : List UInt8) (n : Nat) : readLE (bytes ++ List.replicate n 0) = readLE bytes := by
  have zeros : readLE (List.replicate n 0) = 0 := by
    induction n with
    | zero => rfl
    | succ n ih => rw [List.replicate_succ, readLE, ih]; rfl
  induction bytes with
  | nil => exact zeros
  | cons b rest ih => rw [List.cons_append, readLE, ih, readLE]

theorem leRead (bytes : List UInt8) : le bytes.length (readLE bytes) = bytes := by
  induction bytes with
  | nil => rfl
  | cons b rest ih =>
    have low : (b.toNat + 256 * readLE rest) % 256 = b.toNat := by
      have := b.toNat_lt
      omega
    have high : (b.toNat + 256 * readLE rest) / 256 = readLE rest := by
      have := b.toNat_lt
      omega
    rw [List.length_cons, le, readLE, low, high, ih, UInt8.ofNat_toNat]

theorem readLT (bytes : List UInt8) : readLE bytes < 256 ^ bytes.length := by
  induction bytes with
  | nil => simp [readLE]
  | cons b rest ih =>
    have low := b.toNat_lt
    rw [readLE, List.length_cons, pow_succ]
    omega

def readExact (n : Nat) (data : List UInt8) : Option (List UInt8 × List UInt8) :=
  if n ≤ data.length then some (data.take n, data.drop n) else none

theorem readExactAppend {n : Nat} {first : List UInt8} (length : first.length = n)
    (rest : List UInt8) : readExact n (first ++ rest) = some (first, rest) := by
  subst length
  simp [readExact]

theorem readExactParts {n : Nat} {data first rest : List UInt8} (read : readExact n data = some (first, rest)) :
    data = first ++ rest ∧ first.length = n := by
  unfold readExact at read
  split at read
  · rename_i enough
    cases read
    exact ⟨(List.take_append_drop n data).symm, List.length_take_of_le enough⟩
  · cases read

theorem readExactShort {n : Nat} {data : List UInt8} : readExact n data = none ↔ data.length < n := by
  unfold readExact
  split
  · simp; omega
  · simp; omega

def readAt (data : List UInt8) (offset n : Nat) : Option (List UInt8) :=
  if n = 0 ∨ offset + n ≤ data.length then some ((data.drop offset).take n) else none

theorem readAtAppend {offset n : Nat} {before here : List UInt8} (start : before.length = offset)
    (length : here.length = n) (after : List UInt8) :
    readAt (before ++ (here ++ after)) offset n = some here := by
  subst start length
  simp [readAt]

def chunks (n : Nat) : Nat → List UInt8 → List (List UInt8)
  | 0, _ => []
  | fuel + 1, data => if data = [] then [] else data.take n :: chunks n fuel (data.drop n)

theorem chunksFlatten {n fuel : Nat} (positive : 0 < n) {data : List UInt8}
    (enough : data.length ≤ fuel) : (chunks n fuel data).flatten = data := by
  induction fuel generalizing data with
  | zero =>
    have none : data = [] := List.length_eq_zero_iff.mp (by omega)
    rw [none]
    rfl
  | succ fuel ih =>
    simp only [chunks]
    split
    · rename_i none
      rw [none]
      rfl
    · rename_i some
      have shorter : (data.drop n).length ≤ fuel := by
        have := List.length_pos_iff.mpr some
        rw [List.length_drop]
        omega
      rw [List.flatten_cons, ih shorter, List.take_append_drop]

end Bytes
