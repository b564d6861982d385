import Mathlib

/-! Binary search as in Rust's `slice::binary_search_by`: the probe answers how the
element at a position compares with what is sought. -/
namespace BinarySearch

def narrow (probe : Nat → Ordering) : Nat → Nat → Nat → Nat
  | 0, _, base => base
  | fuel + 1, size, base =>
    if 1 < size then
      let mid := base + size / 2
      narrow probe fuel (size - size / 2) (if probe mid = .gt then base else mid)
    else base

def search (probe : Nat → Ordering) (length : Nat) : Option Nat :=
  if length = 0 then none
  else
    let base := narrow probe length length 0
    if probe base = .eq then some base else none

structure Monotone (probe : Nat → Ordering) (length : Nat) : Prop where
  below : ∀ i j, i < j → j < length → probe j ≠ .gt → probe i = .lt

variable {probe : Nat → Ordering} {length : Nat}

theorem narrowInside (fuel size base : Nat) (positive : 0 < size) (inside : base + size ≤ length) :
    narrow probe fuel size base < length := by
  induction fuel generalizing size base with
  | zero => simp only [narrow]; omega
  | succ fuel ih =>
    simp only [narrow]
    split
    · split
      · exact ih _ _ (by omega) (by omega)
      · exact ih _ _ (by omega) (by omega)
    · omega

theorem narrowFinds (monotone : Monotone probe length) {fuel size base target : Nat}
    (enough : size ≤ fuel) (found : probe target = .eq) (low : base ≤ target)
    (high : target < base + size) (inside : base + size ≤ length) :
    narrow probe fuel size base = target := by
  induction fuel generalizing size base with
  | zero => omega
  | succ fuel ih =>
    simp only [narrow]
    split
    · rename_i wide
      split
      · rename_i above
        have before : target < base + size / 2 := by
          by_contra behind
          rcases Nat.lt_or_eq_of_le (Nat.le_of_not_lt behind) with less | same
          · have := monotone.below _ _ less (by omega) (by simp [found])
            simp [above] at this
          · rw [same, found] at above
            cases above
        exact ih (by omega) low (by omega) (by omega)
      · rename_i notAbove
        have behind : base + size / 2 ≤ target := by
          by_contra before
          have := monotone.below _ _ (Nat.lt_of_not_le before) (by omega) notAbove
          simp [found] at this
        exact ih (by omega) behind (by omega) (by omega)
    · omega

theorem searchFinds (monotone : Monotone probe length) {target : Nat} (inside : target < length)
    (found : probe target = .eq) : search probe length = some target := by
  have there := narrowFinds monotone (Nat.le_refl length) found (Nat.zero_le _) (by omega) (by omega)
  have nonempty : length ≠ 0 := by omega
  simp [search, nonempty, there, found]

theorem searchSome {i : Nat} (found : search probe length = some i) : i < length ∧ probe i = .eq := by
  unfold search at found
  split at found
  · cases found
  · rename_i nonempty
    dsimp only at found
    split at found
    · rename_i equal
      cases found
      exact ⟨narrowInside _ _ _ (by omega) (by omega), equal⟩
    · cases found

theorem searchNone (none_ : ∀ i, i < length → probe i ≠ .eq) : search probe length = none := by
  unfold search
  split
  · rfl
  · rename_i nonempty
    have inside : narrow probe length length 0 < length := narrowInside _ _ _ (by omega) (by omega)
    simp [none_ _ inside]

end BinarySearch
