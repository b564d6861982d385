import CardanoLsm.Lib.Bytes
import Mathlib.Data.BitVec

/-! Cyclic redundancy checks over bits. The register is shifted right, and the polynomial
is added when the bit that falls out is set. A polynomial whose highest bit is set makes a
round invertible and lets a difference of two registers survive a whole register length. -/
namespace Crc

variable {w : Nat}

def shift (poly c : BitVec w) : BitVec w := if c.getLsbD 0 then (c >>> 1) ^^^ poly else c >>> 1

def absorb (poly c : BitVec w) (b : Bool) : BitVec w := shift poly (c ^^^ (BitVec.ofBool b).setWidth w)

def register (poly c : BitVec w) (bits : List Bool) : BitVec w := bits.foldl (absorb poly) c

def Burst (w : Nat) (xs ys : List Bool) : Prop :=
  ∃ before middle middle' after, xs = before ++ (middle ++ after) ∧ ys = before ++ (middle' ++ after) ∧
    middle.length = middle'.length ∧ middle.length ≤ w ∧ middle ≠ middle'

def Differ (k : Nat) (c c' : BitVec w) : Prop := ∃ i, k ≤ i ∧ c.getLsbD i ≠ c'.getLsbD i

theorem registerAppend (poly c : BitVec w) (xs ys : List Bool) :
    register poly c (xs ++ ys) = register poly (register poly c xs) ys := List.foldl_append

theorem shiftBit (poly c : BitVec w) (i : Nat) :
    (shift poly c).getLsbD i = (c.getLsbD (1 + i) ^^ (c.getLsbD 0 && poly.getLsbD i)) := by
  unfold shift
  split <;> rename_i low
  · simp only [BitVec.getLsbD_xor, BitVec.getLsbD_ushiftRight, low, Bool.true_and]
  · simp [low]

section Bits
variable [NeZero w]

theorem absorbBit (poly c : BitVec w) (b : Bool) (i : Nat) :
    (absorb poly c b).getLsbD i = (c.getLsbD (1 + i) ^^ ((c.getLsbD 0 ^^ b) && poly.getLsbD i)) := by
  have positive : 0 < w := Nat.pos_of_neZero w
  have high : (BitVec.ofBool b).getLsbD (1 + i) = false := BitVec.getLsbD_of_ge _ _ (by omega)
  have low : (BitVec.ofBool b).getLsbD 0 = b := by simp
  rw [absorb, shiftBit, BitVec.getLsbD_xor, BitVec.getLsbD_xor, BitVec.getLsbD_setWidth,
    BitVec.getLsbD_setWidth, high, low, Bool.and_false, Bool.xor_false, decide_eq_true positive, Bool.true_and]

end Bits

theorem differNe {c c' : BitVec w} {k : Nat} (differ : Differ k c c') : c ≠ c' := by
  intro same
  obtain ⟨i, -, ne⟩ := differ
  exact ne (by rw [same])

theorem neDiffer {c c' : BitVec w} (ne : c ≠ c') : Differ 0 c c' := by
  by_contra none
  apply ne
  apply BitVec.eq_of_getLsbD_eq
  intro i _
  by_contra other
  exact none ⟨i, Nat.zero_le i, other⟩

section Bursts
variable [NeZero w] {poly : BitVec w}

theorem differNow (top : poly.getLsbD (w - 1) = true) {c c' : BitVec w} {b b' : Bool}
    (low : (c.getLsbD 0 ^^ b) ≠ (c'.getLsbD 0 ^^ b')) : Differ (w - 1) (absorb poly c b) (absorb poly c' b') := by
  have positive : 0 < w := Nat.pos_of_neZero w
  refine ⟨w - 1, Nat.le_refl _, ?_⟩
  rw [absorbBit, absorbBit, top, Bool.and_true, Bool.and_true, BitVec.getLsbD_of_ge c _ (by omega),
    BitVec.getLsbD_of_ge c' _ (by omega), Bool.false_xor, Bool.false_xor]
  exact low

theorem differDown {c c' : BitVec w} {b b' : Bool} {i : Nat} (low : (c.getLsbD 0 ^^ b) = (c'.getLsbD 0 ^^ b'))
    (ne : c.getLsbD (1 + i) ≠ c'.getLsbD (1 + i)) : Differ i (absorb poly c b) (absorb poly c' b') := by
  refine ⟨i, Nat.le_refl i, ?_⟩
  rw [absorbBit, absorbBit, low]
  exact fun same => ne (Bool.xor_left_inj.mp same)

theorem differStep (top : poly.getLsbD (w - 1) = true) {k : Nat} {c c' : BitVec w} (small : k + 1 < w)
    (differ : Differ (k + 1) c c') (b b' : Bool) : Differ k (absorb poly c b) (absorb poly c' b') := by
  by_cases low : (c.getLsbD 0 ^^ b) = (c'.getLsbD 0 ^^ b')
  · obtain ⟨i, above, ne⟩ := differ
    obtain ⟨j, rfl⟩ : ∃ j, i = 1 + j := ⟨i - 1, by omega⟩
    obtain ⟨l, le, other⟩ := differDown low ne
    exact ⟨l, by omega, other⟩
  · obtain ⟨i, le, other⟩ := differNow top low
    exact ⟨i, by omega, other⟩

theorem absorbInjective (top : poly.getLsbD (w - 1) = true) {c c' : BitVec w} (ne : c ≠ c') (b : Bool) :
    absorb poly c b ≠ absorb poly c' b := by
  by_cases low : (c.getLsbD 0 ^^ b) = (c'.getLsbD 0 ^^ b)
  · obtain ⟨i, -, other⟩ := neDiffer ne
    cases i with
    | zero => exact absurd (Bool.xor_left_inj.mp low) other
    | succ j =>
      rw [Nat.add_comm] at other
      exact differNe (differDown low other)
  · exact differNe (differNow top low)

theorem registerInjective (top : poly.getLsbD (w - 1) = true) {c c' : BitVec w} (ne : c ≠ c')
    (bits : List Bool) : register poly c bits ≠ register poly c' bits := by
  induction bits generalizing c c' with
  | nil => exact ne
  | cons b rest ih => exact ih (absorbInjective top ne b)

theorem differRegister (top : poly.getLsbD (w - 1) = true) {bits bits' : List Bool} {k : Nat} {c c' : BitVec w}
    (lengths : bits.length = bits'.length) (small : k + bits.length < w) (differ : Differ (k + bits.length) c c') :
    Differ k (register poly c bits) (register poly c' bits') := by
  induction bits generalizing bits' c c' with
  | nil =>
    rw [List.length_eq_zero_iff.mp lengths.symm]
    exact differ
  | cons b rest ih =>
    cases bits' with
    | nil => cases lengths
    | cons b' rest' =>
      have tails : rest.length = rest'.length := by simpa using lengths
      rw [List.length_cons] at small differ
      have found := ih tails (by omega) (differStep top (by omega) differ b b')
      exact found

theorem middleDiffers (top : poly.getLsbD (w - 1) = true) {bits bits' : List Bool} (c : BitVec w)
    (lengths : bits.length = bits'.length) (short : bits.length ≤ w) (ne : bits ≠ bits') :
    register poly c bits ≠ register poly c bits' := by
  induction bits generalizing bits' c with
  | nil => exact absurd (List.length_eq_zero_iff.mp lengths.symm).symm ne
  | cons b rest ih =>
    cases bits' with
    | nil => cases lengths
    | cons b' rest' =>
      have tails : rest.length = rest'.length := by simpa using lengths
      have shorter : rest.length + 1 ≤ w := short
      by_cases same : b = b'
      · subst same
        exact ih _ tails (by omega) (fun equal => ne (by rw [equal]))
      · have low : (c.getLsbD 0 ^^ b) ≠ (c.getLsbD 0 ^^ b') := fun equal => same (Bool.xor_right_inj.mp equal)
        obtain ⟨i, above, other⟩ := differNow top low
        have later : Differ (0 + rest.length) (absorb poly c b) (absorb poly c b') := ⟨i, by omega, other⟩
        have found := differRegister top tails (by omega) later
        exact differNe found

theorem burstDetected (top : poly.getLsbD (w - 1) = true) {xs ys : List Bool} (burst : Burst w xs ys)
    (c : BitVec w) : register poly c xs ≠ register poly c ys := by
  obtain ⟨before, middle, middle', after, rfl, rfl, lengths, short, ne⟩ := burst
  rw [registerAppend, registerAppend, registerAppend, registerAppend]
  exact registerInjective top (middleDiffers top _ lengths short ne) after

end Bursts

def bits (n : Nat) (x : BitVec w) : List Bool := (List.range n).map x.getLsbD

theorem bitsSucc (n : Nat) (x : BitVec w) : bits (n + 1) x = x.getLsbD 0 :: bits n (x >>> 1) := by
  rw [bits, List.range_succ_eq_map, List.map_cons, List.map_map, bits]
  congr 1
  apply List.map_congr_left
  intro i _
  rw [Function.comp_apply, BitVec.getLsbD_ushiftRight, Nat.add_comm]

theorem bitsWiden {n v : Nat} (fits : n ≤ v) (x : BitVec w) : bits n (x.setWidth v) = bits n x := by
  apply List.map_congr_left
  intro i member
  have inside : i < v := Nat.lt_of_lt_of_le (List.mem_range.mp member) fits
  rw [BitVec.getLsbD_setWidth, decide_eq_true inside, Bool.true_and]

theorem shiftXor [NeZero w] (poly c x : BitVec w) :
    shift poly (c ^^^ x) = absorb poly c (x.getLsbD 0) ^^^ (x >>> 1) := by
  apply BitVec.eq_of_getLsbD_eq
  intro i _
  rw [shiftBit, BitVec.getLsbD_xor, BitVec.getLsbD_xor, BitVec.getLsbD_xor, absorbBit, BitVec.getLsbD_ushiftRight,
    Bool.xor_right_comm]

theorem absorbWord [NeZero w] (poly : BitVec w) {n : Nat} {x : BitVec w} (small : ∀ i, n ≤ i → x.getLsbD i = false)
    (c : BitVec w) : (shift poly)^[n] (c ^^^ x) = register poly c (bits n x) := by
  induction n generalizing c x with
  | zero =>
    have zero : x = 0#w := BitVec.eq_of_getLsbD_eq (fun i _ => by rw [small i (Nat.zero_le i), BitVec.getLsbD_zero])
    rw [zero, BitVec.xor_zero]
    rfl
  | succ n ih =>
    have rest : ∀ i, n ≤ i → (x >>> 1).getLsbD i = false := by
      intro i above
      rw [BitVec.getLsbD_ushiftRight]
      exact small (1 + i) (by omega)
    rw [Function.iterate_succ_apply, shiftXor, ih rest, bitsSucc]
    rfl

section Linear
variable [NeZero w]

theorem absorbXor (poly c d : BitVec w) (a b : Bool) :
    absorb poly (c ^^^ d) (a ^^ b) = absorb poly c a ^^^ absorb poly d b := by
  have spread : ∀ c₁ d₁ c₀ d₀ a b p : Bool, ((c₁ ^^ d₁) ^^ (((c₀ ^^ d₀) ^^ (a ^^ b)) && p)) =
      ((c₁ ^^ ((c₀ ^^ a) && p)) ^^ (d₁ ^^ ((d₀ ^^ b) && p))) := by decide
  apply BitVec.eq_of_getLsbD_eq
  intro i _
  rw [BitVec.getLsbD_xor, absorbBit, absorbBit, absorbBit, BitVec.getLsbD_xor, BitVec.getLsbD_xor, spread]

theorem registerXor (poly c d : BitVec w) {xs ys : List Bool} (lengths : xs.length = ys.length) :
    register poly (c ^^^ d) (List.zipWith xor xs ys) = register poly c xs ^^^ register poly d ys := by
  induction xs generalizing ys c d with
  | nil =>
    rw [List.length_eq_zero_iff.mp lengths.symm]
    rfl
  | cons x xs ih =>
    cases ys with
    | nil => cases lengths
    | cons y ys =>
      have step : register poly (c ^^^ d) (List.zipWith xor (x :: xs) (y :: ys)) =
          register poly (absorb poly (c ^^^ d) (x ^^ y)) (List.zipWith xor xs ys) := rfl
      rw [step, absorbXor, ih _ _ (by simpa using lengths)]
      rfl

theorem registerApart (poly c d : BitVec w) {xs ys : List Bool} (lengths : xs.length = ys.length) :
    register poly c xs ^^^ register poly c ys = register poly d xs ^^^ register poly d ys := by
  rw [← registerXor poly c c lengths, ← registerXor poly d d lengths, BitVec.xor_self, BitVec.xor_self]

end Linear

theorem bitsXor (n : Nat) (x y : BitVec w) : bits n (x ^^^ y) = List.zipWith xor (bits n x) (bits n y) := by
  rw [bits, bits, bits, List.zipWith_map, List.zipWith_self]
  exact List.map_congr_left (fun i _ => BitVec.getLsbD_xor)

end Crc
