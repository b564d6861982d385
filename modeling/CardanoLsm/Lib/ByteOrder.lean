import Mathlib

/-! Intervals of byte strings in the lexicographic order: which strings lie between two
that differ only at their ends. -/
namespace ByteOrder

theorem geNil (k : List UInt8) : (compare k []).isGE = true := by
  cases k with
  | nil => rfl
  | cons y ys => rw [List.compare_cons_nil]; rfl

theorem leNil {k : List UInt8} : (compare k []).isLE = true ↔ k = [] := by
  cases k with
  | nil => simp
  | cons y ys => simp [List.compare_cons_nil]

theorem isLEThen {a b : Ordering} : (a.then b).isLE = true ↔ a = .lt ∨ a = .eq ∧ b.isLE = true := by
  cases a <;> simp

theorem isGEThen {a b : Ordering} (above : b.isGE = true) : (a.then b).isGE = true ↔ a.isGE = true := by
  cases a <;> simp [above]

theorem betweenCons {c : UInt8} {lo hi k : List UInt8} :
    (compare k (c :: lo)).isGE = true ∧ (compare k (c :: hi)).isLE = true ↔
      ∃ rest, k = c :: rest ∧ (compare rest lo).isGE = true ∧ (compare rest hi).isLE = true := by
  cases k with
  | nil => simp [List.compare_nil_cons]
  | cons y ys =>
    rw [List.compare_cons_cons, List.compare_cons_cons]
    cases order : compare y c with
    | lt =>
      have other : y ≠ c := fun same => by simp [same] at order
      simp [other]
    | gt =>
      have other : y ≠ c := fun same => by simp [same] at order
      simp [other]
    | eq =>
      have same : y = c := Std.LawfulEqCmp.eq_of_compare order
      simp [same]

theorem betweenBumped {last : UInt8} (room : last ≠ 255) (front k : List UInt8) :
    (compare k (front ++ [last])).isGE = true ∧ (compare k (front ++ [last + 1])).isLE = true ↔
      front ++ [last] <+: k ∨ k = front ++ [last + 1] := by
  induction front generalizing k with
  | nil =>
    cases k with
    | nil => simp [List.compare_nil_cons]
    | cons y ys =>
      have above : (compare (y :: ys) [last]).isGE = true ↔ last ≤ y := by
        rw [List.compare_cons_cons, isGEThen (geNil ys)]
        exact Std.isGE_compare
      have lower : (compare (y :: ys) [last + 1]).isLE = true ↔ y < last + 1 ∨ y = last + 1 ∧ ys = [] := by
        rw [List.compare_cons_cons, isLEThen, leNil]
        exact or_congr Std.compare_eq_lt (and_congr_left' Std.LawfulEqCmp.compare_eq_iff_eq)
      rw [List.nil_append, List.nil_append, above, lower, List.cons_prefix_cons, List.cons.injEq]
      grind
  | cons c rest ih =>
    rw [List.cons_append, List.cons_append, betweenCons]
    simp only [ih]
    constructor
    · rintro ⟨tail, rfl, extends_ | same⟩
      · exact Or.inl (List.cons_prefix_cons.mpr ⟨rfl, extends_⟩)
      · exact Or.inr (by rw [same])
    · rintro (extends_ | rfl)
      · obtain ⟨more, rfl⟩ := extends_
        exact ⟨_, rfl, Or.inl ⟨more, rfl⟩⟩
      · exact ⟨_, rfl, Or.inr rfl⟩

theorem betweenZero (front k : List UInt8) :
    (compare k front).isGE = true ∧ (compare k (front ++ [0])).isLE = true ↔
      k = front ∨ k = front ++ [0] := by
  induction front generalizing k with
  | nil =>
    rw [List.nil_append, and_iff_right (geNil k)]
    cases k with
    | nil => simp [List.compare_nil_cons]
    | cons y ys =>
      rw [List.compare_cons_cons, isLEThen, leNil, Std.compare_eq_lt, Std.LawfulEqCmp.compare_eq_iff_eq]
      grind
  | cons c rest ih =>
    rw [List.cons_append, betweenCons]
    simp only [ih]
    constructor
    · rintro ⟨tail, rfl, rfl | rfl⟩
      · exact Or.inl rfl
      · exact Or.inr rfl
    · rintro (rfl | rfl)
      · exact ⟨_, rfl, Or.inl rfl⟩
      · exact ⟨_, rfl, Or.inr rfl⟩

theorem geOfNotLe {a b : List UInt8} (above : ¬ (compare a b).isLE = true) : (compare a b).isGE = true := by
  cases order : compare a b <;> simp_all

theorem zeroNext (mid k : List UInt8) :
    (compare k (mid ++ [0])).isGE = true ↔ ¬ (compare k mid).isLE = true := by
  have upward : (compare mid (mid ++ [0])).isLE = true := ((betweenZero mid mid).mpr (Or.inl rfl)).2
  constructor
  · intro above below
    have swap : (compare (mid ++ [0]) k).isLE = true := by
      have turned : compare (mid ++ [0]) k = (compare k (mid ++ [0])).swap := Std.OrientedCmp.eq_swap
      rwa [turned, Ordering.isLE_swap]
    have equal := Std.OrientedCmp.isLE_antisymm upward (Std.TransCmp.isLE_trans swap below)
    have same : mid = mid ++ [0] := Std.LawfulEqCmp.eq_of_compare equal
    simp at same
  · intro above
    by_contra low
    have under : (compare k (mid ++ [0])).isLE = true := by
      cases order : compare k (mid ++ [0]) <;> simp_all
    rcases (betweenZero mid k).mp ⟨geOfNotLe above, under⟩ with rfl | rfl
    · simp at above
    · simp at low

theorem beyondLargest (n : Nat) (k : List UInt8) :
    (compare k (List.replicate n 255)).isLE = false ↔ ∃ rest ≠ [], k = List.replicate n 255 ++ rest := by
  induction n generalizing k with
  | zero =>
    rw [List.replicate_zero, Bool.eq_false_iff, ne_eq, leNil]
    simp
  | succ n ih =>
    cases k with
    | nil => simp [List.replicate_succ, List.compare_nil_cons]
    | cons y ys =>
      have low : y < 255 ∨ y = 255 := by grind
      rw [List.replicate_succ, Bool.eq_false_iff, ne_eq, List.compare_cons_cons, isLEThen,
        Std.compare_eq_lt, Std.LawfulEqCmp.compare_eq_iff_eq]
      rcases low with small | rfl
      · have other : y ≠ 255 := by grind
        simp [small, other]
      · simpa using ih ys

end ByteOrder
