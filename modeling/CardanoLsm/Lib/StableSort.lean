import Mathlib

/-! Stable insertion by one order, read by another: when a list sorted by `r`, a total
preorder, stands in the strict order `before`. -/
namespace StableSort
open List

variable {α : Type} {r before : α → α → Prop} [DecidableRel r]

def Agree (r before : α → α → Prop) (a b : α) : Prop := (r a b → before a b) ∧ (¬ r a b → before b a)

theorem orderedInsertPairwise [IsTrans α r] {a : α} {sorted : List α} (sort : sorted.Pairwise r) :
    (sorted.orderedInsert r a).Pairwise before ↔
      sorted.Pairwise before ∧ ∀ b ∈ sorted, Agree r before a b := by
  induction sorted with
  | nil => simp
  | cons b rest ih =>
    obtain ⟨first, later⟩ := pairwise_cons.mp sort
    by_cases le : r a b
    · have all : ∀ c ∈ b :: rest, r a c := by
        intro c member
        rcases mem_cons.mp member with rfl | inRest
        · exact le
        · exact trans_of r le (first c inRest)
      rw [orderedInsert_cons, if_pos le, pairwise_cons]
      constructor
      · rintro ⟨above, rest⟩
        exact ⟨rest, fun c member => ⟨fun _ => above c member, fun not => absurd (all c member) not⟩⟩
      · rintro ⟨rest, agree⟩
        exact ⟨fun c member => (agree c member).1 (all c member), rest⟩
    · rw [orderedInsert_cons, if_neg le, pairwise_cons, ih later, pairwise_cons]
      constructor
      · rintro ⟨above, rest, agree⟩
        refine ⟨⟨fun c member => above c ((mem_orderedInsert r).mpr (Or.inr member)), rest⟩, ?_⟩
        intro c member
        rcases mem_cons.mp member with rfl | inRest
        · exact ⟨fun yes => absurd yes le, fun _ => above a ((mem_orderedInsert r).mpr (Or.inl rfl))⟩
        · exact agree c inRest
      · rintro ⟨⟨above, rest⟩, agree⟩
        refine ⟨?_, rest, fun c member => agree c (mem_cons_of_mem b member)⟩
        intro c member
        rcases (mem_orderedInsert r).mp member with rfl | inRest
        · exact (agree b mem_cons_self).2 le
        · exact above c inRest

theorem insertionSortPairwise [IsTrans α r] [Std.Total r] (l : List α) :
    (l.insertionSort r).Pairwise before ↔ l.Pairwise (Agree r before) := by
  induction l with
  | nil => simp
  | cons a rest ih =>
    rw [insertionSort_cons, orderedInsertPairwise (pairwise_insertionSort r rest), ih, pairwise_cons]
    constructor
    · rintro ⟨sorted, agree⟩
      exact ⟨fun b member => agree b ((mem_insertionSort r).mpr member), sorted⟩
    · rintro ⟨agree, sorted⟩
      exact ⟨sorted, fun b member => agree b ((mem_insertionSort r).mp member)⟩

end StableSort
