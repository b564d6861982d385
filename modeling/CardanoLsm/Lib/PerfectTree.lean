import Mathlib

/-! A binary tree of fixed height over a list of leaves, filled from the left: a subtree
without leaves has a value of its own, any other one combines its halves. The subtree at
a level and an index is read off the leaves below it. -/
namespace PerfectTree

variable {α : Type} (empty : α) (node : α → α → α)

def root : Nat → List α → α
  | _, [] => empty
  | 0, leaf :: _ => leaf
  | height + 1, leaf :: rest =>
    node (root height ((leaf :: rest).take (2 ^ height))) (root height ((leaf :: rest).drop (2 ^ height)))

def block (leaves : List α) (level index : Nat) : List α :=
  (leaves.drop (index * 2 ^ level)).take (2 ^ level)

def subtree (leaves : List α) (level index : Nat) : α := root empty node level (block leaves level index)

variable {empty node} {leaves : List α} {level index : Nat}

theorem rootNil (height : Nat) : root empty node height [] = empty := by
  cases height <;> rfl

theorem rootSucc {height : Nat} (nonempty : leaves ≠ []) :
    root empty node (height + 1) leaves =
      node (root empty node height (leaves.take (2 ^ height)))
        (root empty node height (leaves.drop (2 ^ height))) := by
  cases leaves with
  | nil => exact absurd rfl nonempty
  | cons leaf rest => rfl

theorem blockLeaf : block leaves 0 index = leaves[index]?.toList := by
  rw [block, pow_zero, Nat.mul_one, List.take_one, List.head?_drop]

theorem blockNil : block leaves level index = [] ↔ leaves.length ≤ index * 2 ^ level := by
  simp [block]

theorem blockLeft : (block leaves (level + 1) index).take (2 ^ level) = block leaves level (2 * index) := by
  have half : 2 ^ level ≤ 2 ^ (level + 1) := Nat.pow_le_pow_right (by decide) (Nat.le_succ level)
  have start : index * 2 ^ (level + 1) = 2 * index * 2 ^ level := by ring
  rw [block, block, List.take_take, Nat.min_eq_left half, start]

theorem blockRight :
    (block leaves (level + 1) index).drop (2 ^ level) = block leaves level (2 * index + 1) := by
  have half : 2 ^ (level + 1) - 2 ^ level = 2 ^ level := by rw [pow_succ]; omega
  have start : index * 2 ^ (level + 1) + 2 ^ level = (2 * index + 1) * 2 ^ level := by ring
  rw [block, block, List.drop_take, List.drop_drop, half, start]

theorem blockAll {height : Nat} (fits : leaves.length ≤ 2 ^ height) : block leaves height 0 = leaves := by
  rw [block, Nat.zero_mul, List.drop_zero, List.take_of_length_le fits]

theorem subtreeLeaf : subtree empty node leaves 0 index = leaves[index]?.getD empty := by
  rw [subtree, blockLeaf]
  cases leaves[index]? <;> rfl

theorem subtreeEmpty (none : leaves.length ≤ index * 2 ^ level) :
    subtree empty node leaves level index = empty := by
  rw [subtree, blockNil.mpr none, rootNil]

theorem subtreeNode (some : index * 2 ^ (level + 1) < leaves.length) :
    subtree empty node leaves (level + 1) index =
      node (subtree empty node leaves level (2 * index)) (subtree empty node leaves level (2 * index + 1)) := by
  have nonempty : block leaves (level + 1) index ≠ [] := fun nil => by
    have := blockNil.mp nil
    omega
  rw [subtree, rootSucc nonempty, blockLeft, blockRight]
  rfl

theorem subtreeAll {height : Nat} (fits : leaves.length ≤ 2 ^ height) :
    subtree empty node leaves height 0 = root empty node height leaves := by
  rw [subtree, blockAll fits]

theorem subtreeAppend (leaf : α) (other : index ≠ leaves.length / 2 ^ level) :
    subtree empty node (leaves ++ [leaf]) level index = subtree empty node leaves level index := by
  have same : block (leaves ++ [leaf]) level index = block leaves level index := by
    have width : 0 < 2 ^ level := by positivity
    rw [block, block]
    rcases Nat.lt_or_ge index (leaves.length / 2 ^ level) with before | after
    · have inside : (index + 1) * 2 ^ level ≤ leaves.length :=
        (Nat.le_div_iff_mul_le width).mp before
      have length : index * 2 ^ level + 2 ^ level = (index + 1) * 2 ^ level := by ring
      rw [List.drop_append_of_le_length (by omega), List.take_append_of_le_length]
      rw [List.length_drop]
      omega
    · have beyond : leaves.length < index * 2 ^ level :=
        (Nat.div_lt_iff_lt_mul width).mp (by omega)
      rw [List.drop_eq_nil_of_le (by simpa using beyond), List.drop_eq_nil_of_le (by omega)]
  rw [subtree, same]
  rfl

theorem someAppend (leaf : α) : index * 2 ^ level < (leaves ++ [leaf]).length ↔
    index * 2 ^ level < leaves.length ∨ index = leaves.length / 2 ^ level := by
  have width : 0 < 2 ^ level := by positivity
  have split := Nat.div_add_mod leaves.length (2 ^ level)
  have small := Nat.mod_lt leaves.length width
  rw [List.length_append, List.length_singleton]
  constructor
  · intro inside
    by_cases old : index * 2 ^ level < leaves.length
    · exact Or.inl old
    · have exact_ : leaves.length = index * 2 ^ level := by omega
      exact Or.inr (by rw [exact_, Nat.mul_div_cancel _ width])
  · rintro (old | rfl)
    · omega
    · rw [Nat.mul_comm]
      omega

theorem blockSplit (leaves : List α) (level index : Nat) : block leaves (level + 1) index =
    block leaves level (2 * index) ++ block leaves level (2 * index + 1) := by
  rw [← blockLeft, ← blockRight, List.take_append_drop]

def Filled (empty : α) (node : α → α → α) (height : Nat) (leaves : List α) : Prop :=
  ∀ level index, level ≤ height → index * 2 ^ level < leaves.length →
    subtree empty node leaves level index ≠ empty

theorem Filled.inside {as bs : List α} {height : Nat} (some : Filled empty node height as)
    (low : level ≤ height) (same : subtree empty node as level index = subtree empty node bs level index)
    (member : index * 2 ^ level < as.length) : index * 2 ^ level < bs.length := by
  by_contra outside
  exact some level index low member (same.trans (subtreeEmpty (Nat.le_of_not_lt outside)))

theorem blockDetermined {as bs : List α} {height : Nat} (some : Filled empty node height as)
    (some' : Filled empty node height bs)
    (apart : ∀ level index, level < height → index * 2 ^ (level + 1) < as.length →
      index * 2 ^ (level + 1) < bs.length →
      subtree empty node as (level + 1) index = subtree empty node bs (level + 1) index →
        subtree empty node as level (2 * index) = subtree empty node bs level (2 * index) ∧
        subtree empty node as level (2 * index + 1) = subtree empty node bs level (2 * index + 1))
    (low : level ≤ height)
    (same : subtree empty node as level index = subtree empty node bs level index) :
    block as level index = block bs level index := by
  induction level generalizing index with
  | zero =>
    have inside := some.inside low same
    have inside' := some'.inside low same.symm
    rw [pow_zero, Nat.mul_one] at inside inside'
    rw [subtreeLeaf, subtreeLeaf] at same
    rw [blockLeaf, blockLeaf]
    by_cases member : index < as.length
    · rw [List.getElem?_eq_getElem member, List.getElem?_eq_getElem (inside member)] at same ⊢
      exact congrArg (fun leaf => [leaf]) same
    · have beyond : ¬ index < bs.length := fun member' => member (inside' member')
      rw [List.getElem?_eq_none (Nat.le_of_not_lt member), List.getElem?_eq_none (Nat.le_of_not_lt beyond)]
  | succ level ih =>
    by_cases member : index * 2 ^ (level + 1) < as.length
    · have halves := apart level index (by omega) member (some.inside low same member) same
      rw [blockSplit, blockSplit, ih (by omega) halves.1, ih (by omega) halves.2]
    · have beyond : ¬ index * 2 ^ (level + 1) < bs.length :=
        fun member' => member (some'.inside low same.symm member')
      rw [blockNil.mpr (Nat.le_of_not_lt member), blockNil.mpr (Nat.le_of_not_lt beyond)]

theorem xorOneDiv (i : Nat) : (i ^^^ 1) / 2 = i / 2 := by
  rw [Nat.xor_div_two]
  simp

theorem xorOneEven {i : Nat} (even : i % 2 = 0) : i ^^^ 1 = 2 * (i / 2) + 1 := by
  have bit : (i ^^^ 1) % 2 = 1 := by rw [Nat.xor_mod_two_eq]; omega
  have high := xorOneDiv i
  omega

theorem xorOneOdd {i : Nat} (odd : i % 2 ≠ 0) : i ^^^ 1 = 2 * (i / 2) := by
  have bit : (i ^^^ 1) % 2 = 0 := by rw [Nat.xor_mod_two_eq]; omega
  have high := xorOneDiv i
  omega

theorem subtreeParent (some : index * 2 ^ level < leaves.length) :
    subtree empty node leaves (level + 1) (index / 2) =
      if index % 2 = 0 then
        node (subtree empty node leaves level index) (subtree empty node leaves level (index ^^^ 1))
      else node (subtree empty node leaves level (index ^^^ 1)) (subtree empty node leaves level index) := by
  have above : index / 2 * 2 ^ (level + 1) < leaves.length := by
    have low : index / 2 * 2 ^ (level + 1) ≤ index * 2 ^ level := by
      calc index / 2 * 2 ^ (level + 1) = index / 2 * 2 * 2 ^ level := by ring
        _ ≤ index * 2 ^ level := Nat.mul_le_mul_right _ (Nat.div_mul_le_self index 2)
    omega
  rw [subtreeNode above]
  split
  · rename_i even
    rw [xorOneEven even, show 2 * (index / 2) = index by omega]
  · rename_i odd
    rw [xorOneOdd odd, show 2 * (index / 2) + 1 = index by omega]

end PerfectTree
