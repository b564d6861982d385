import CardanoLsm.Lib.Layered

/-! Layers with nothing but a number each to order them: the higher number is read first. A
layer that is written under an unused number, or removed, is seen at the keys it holds only,
and there only where no higher number hides it. -/
namespace Numbered
open Std Layered

variable {α κ ε ν : Type} [Ord κ]

def rising (runs : List (Nat × α)) : List (Nat × α) := runs.insertionSort (fun a b => a.1 ≤ b.1)

def above (runs : List (Nat × α)) (n : Nat) : List (Nat × α) := runs.filter (fun x => n < x.1)

def below (runs : List (Nat × α)) (n : Nat) : List (Nat × α) := runs.filter (fun x => x.1 < n)

def newestFirst (runs : List (Nat × Layer κ ε)) : List (Layer κ ε) := ((rising runs).map Prod.snd).reverse

instance higherTotal : Std.Total (fun a b : Nat × α => a.1 ≤ b.1) := ⟨fun _ _ => Nat.le_total _ _⟩

instance higherTrans : IsTrans (Nat × α) (fun a b => a.1 ≤ b.1) := ⟨fun _ _ _ => Nat.le_trans⟩

theorem risingPairwise (runs : List (Nat × α)) : (rising runs).Pairwise (fun a b => a.1 ≤ b.1) :=
  List.pairwise_insertionSort _ runs

theorem risingMem {runs : List (Nat × α)} {x : Nat × α} : x ∈ rising runs ↔ x ∈ runs :=
  (List.perm_insertionSort _ runs).mem_iff

theorem injective {runs : List (Nat × α)} (distinct : (runs.map Prod.fst).Nodup) {a b : Nat × α}
    (left : a ∈ runs) (right : b ∈ runs) (same : a.1 = b.1) : a = b :=
  List.inj_on_of_nodup_map distinct left right same

theorem risingUnique {runs sorted : List (Nat × α)} (distinct : (runs.map Prod.fst).Nodup)
    (sort : sorted.Pairwise (fun a b => a.1 ≤ b.1)) (once : sorted.Nodup) (same : ∀ x, x ∈ sorted ↔ x ∈ runs) :
    rising runs = sorted := by
  have perm : sorted.Perm runs := (List.perm_ext_iff_of_nodup once (List.Nodup.of_map _ distinct)).mpr same
  refine List.Perm.eq_of_pairwise (fun a b inRising inSorted ab ba => ?_) (risingPairwise runs) sort
    ((List.perm_insertionSort _ runs).trans perm.symm)
  exact injective distinct (risingMem.mp inRising) ((same b).mp inSorted) (Nat.le_antisymm ab ba)

theorem newestFirstSame {runs runs' : List (Nat × Layer κ ε)} (distinct : (runs.map Prod.fst).Nodup)
    (distinct' : (runs'.map Prod.fst).Nodup) (same : ∀ x, x ∈ runs' ↔ x ∈ runs) :
    newestFirst runs' = newestFirst runs := by
  have sorted : rising runs = rising runs' :=
    risingUnique distinct (risingPairwise runs')
      ((List.perm_insertionSort _ runs').nodup_iff.mpr (List.Nodup.of_map _ distinct'))
      (fun x => risingMem.trans (same x))
  rw [newestFirst, newestFirst, sorted]

theorem belowMem {runs : List (Nat × α)} {n : Nat} {x : Nat × α} : x ∈ below runs n ↔ x ∈ runs ∧ x.1 < n := by
  rw [below, List.mem_filter, decide_eq_true_eq]

theorem aboveMem {runs : List (Nat × α)} {n : Nat} {x : Nat × α} : x ∈ above runs n ↔ x ∈ runs ∧ n < x.1 := by
  rw [above, List.mem_filter, decide_eq_true_eq]

theorem risingAround {runs joined middle : List (Nat × α)} {n : Nat} (distinct : (runs.map Prod.fst).Nodup)
    (distinct' : (joined.map Prod.fst).Nodup) (single : middle.Nodup) (number : ∀ x ∈ middle, x.1 = n)
    (parts : ∀ x, x ∈ joined ↔ x ∈ below runs n ∨ x ∈ middle ∨ x ∈ above runs n) :
    rising joined = rising (below runs n) ++ (middle ++ rising (above runs n)) := by
  have low : ∀ x ∈ rising (below runs n), x.1 < n := fun x member => (belowMem.mp (risingMem.mp member)).2
  have high : ∀ x ∈ rising (above runs n), n < x.1 := fun x member => (aboveMem.mp (risingMem.mp member)).2
  have once : ∀ some : List (Nat × α), some.Sublist runs → (rising some).Nodup := fun some sub =>
    (List.perm_insertionSort _ some).nodup_iff.mpr ((List.Nodup.of_map _ distinct).sublist sub)
  have later : ∀ x ∈ middle ++ rising (above runs n), n ≤ x.1 := by
    intro x member
    rcases List.mem_append.mp member with here | after
    · exact (number x here).ge
    · exact (high x after).le
  refine risingUnique distinct' ?_ ?_ (fun x => ?_)
  · refine List.pairwise_append.mpr ⟨risingPairwise _, List.pairwise_append.mpr ⟨?_, risingPairwise _, ?_⟩, ?_⟩
    · exact List.pairwise_of_forall_mem_list (fun a inA b inB => ((number a inA).trans (number b inB).symm).le)
    · exact fun a inA b inB => (number a inA).le.trans (high b inB).le
    · exact fun a inA b inB => (low a inA).le.trans (later b inB)
  · refine List.nodup_append.mpr ⟨once _ List.filter_sublist, List.nodup_append.mpr ⟨single, once _ List.filter_sublist,
      ?_⟩, ?_⟩
    · rintro a inA b inB rfl
      exact absurd (number a inA) (high a inB).ne'
    · rintro a inA b inB rfl
      exact absurd (later a inB) (low a inA).not_ge
  · rw [List.mem_append, List.mem_append, risingMem, risingMem, parts]

structure Adds (n : Nat) (m : α) (runs runs' : List (Nat × α)) : Prop where
  distinct : (runs.map Prod.fst).Nodup
  distinct' : (runs'.map Prod.fst).Nodup
  absent : ∀ x ∈ runs, x.1 ≠ n
  here : (n, m) ∈ runs'
  others : ∀ x, x.1 ≠ n → (x ∈ runs' ↔ x ∈ runs)

namespace Adds
variable {n : Nat}

theorem rises {m : α} {runs runs' : List (Nat × α)} (adds : Adds n m runs runs') :
    rising runs = rising (below runs n) ++ rising (above runs n) ∧
      rising runs' = rising (below runs n) ++ (n, m) :: rising (above runs n) := by
  constructor
  · refine risingAround adds.distinct adds.distinct List.nodup_nil (by simp) (fun x => ?_)
    rw [belowMem, aboveMem]
    constructor
    · intro member
      rcases Nat.lt_or_gt_of_ne (adds.absent x member) with low | high
      · exact Or.inl ⟨member, low⟩
      · exact Or.inr (Or.inr ⟨member, high⟩)
    · rintro (low | none | high)
      · exact low.1
      · cases none
      · exact high.1
  · refine risingAround adds.distinct adds.distinct' (List.nodup_singleton _) (by simp) (fun x => ?_)
    rw [belowMem, aboveMem, List.mem_singleton]
    by_cases here : x.1 = n
    · have only : x ∈ runs' ↔ x = (n, m) :=
        ⟨fun member => injective adds.distinct' member adds.here here, fun same => same ▸ adds.here⟩
      rw [only]
      constructor
      · exact fun same => Or.inr (Or.inl same)
      · rintro (low | same | high)
        · exact absurd here (Nat.ne_of_lt low.2)
        · exact same
        · exact absurd here (Nat.ne_of_gt high.2)
    · rw [adds.others x here]
      constructor
      · intro member
        rcases Nat.lt_or_gt_of_ne here with low | high
        · exact Or.inl ⟨member, low⟩
        · exact Or.inr (Or.inr ⟨member, high⟩)
      · rintro (low | rfl | high)
        · exact low.1
        · exact absurd rfl here
        · exact high.1

variable {m : Layer κ ε} {runs runs' : List (Nat × Layer κ ε)}

theorem before (adds : Adds n m runs runs') :
    newestFirst runs = newestFirst (above runs n) ++ newestFirst (below runs n) := by
  rw [newestFirst, adds.rises.1, List.map_append, List.reverse_append]
  rfl

theorem after (adds : Adds n m runs runs') :
    newestFirst runs' = newestFirst (above runs n) ++ m :: newestFirst (below runs n) := by
  rw [newestFirst, adds.rises.2, List.map_append, List.map_cons, List.reverse_append, List.reverse_cons,
    List.append_assoc]
  rfl

theorem sides (adds : Adds n m runs runs') :
    newestFirst (above runs' n) = newestFirst (above runs n) ∧ newestFirst (below runs' n) = newestFirst (below runs n) := by
  have distinct : ∀ p : Nat × Layer κ ε → Bool, ((runs.filter p).map Prod.fst).Nodup := fun p =>
    adds.distinct.sublist (List.filter_sublist.map _)
  have distinct' : ∀ p : Nat × Layer κ ε → Bool, ((runs'.filter p).map Prod.fst).Nodup := fun p =>
    adds.distinct'.sublist (List.filter_sublist.map _)
  constructor
  · refine newestFirstSame (distinct _) (distinct' _) (fun x => ?_)
    rw [aboveMem, aboveMem]
    exact and_congr_left (fun high => adds.others x (by omega))
  · refine newestFirstSame (distinct _) (distinct' _) (fun x => ?_)
    rw [belowMem, belowMem]
    exact and_congr_left (fun low => adds.others x (by omega))

end Adds

section Visible
variable [TransOrd κ] [LawfulEqOrd κ] {n : Nat} {m : Layer κ (Option ν)} {runs runs' : List (Nat × Layer κ (Option ν))}

theorem Adds.unseen (adds : Adds n m runs runs') (k : κ) :
    visible (newestFirst runs') k = visible (newestFirst runs) k ↔ ∀ e, m[k]? = some e →
      resolve (newestFirst (above runs n)) k ≠ none ∨ visible (newestFirst (below runs n)) k = e := by
  rw [adds.after, adds.before]
  cases hidden : resolve (newestFirst (above runs n)) k with
  | some e =>
    rw [visibleHidden hidden, visibleHidden hidden]
    simp
  | none =>
    rw [visibleThrough hidden, visibleThrough hidden, visibleCons]
    cases held : m[k]? with
    | none => simp
    | some e =>
      simp only [Option.elim_some, id, ne_eq, not_true_eq_false, false_or, Option.some.injEq, forall_eq']
      exact eq_comm

theorem Adds.onTop (adds : Adds n m runs runs') (k : κ) :
    visible (newestFirst runs') k = visible (m :: newestFirst runs) k ↔ ∀ e, m[k]? = some e →
      resolve (newestFirst (above runs n)) k = none ∨ visible (newestFirst (above runs n)) k = e := by
  rw [adds.after, adds.before, visibleCons m]
  cases held : m[k]? with
  | none =>
    simp only [reduceCtorEq, false_implies, implies_true, iff_true, Option.elim_none]
    refine visibleReplace _ (fun _ => ?_)
    rw [visibleCons, held, Option.elim_none]
  | some e =>
    simp only [Option.elim_some, id, Option.some.injEq, forall_eq']
    cases hidden : resolve (newestFirst (above runs n)) k with
    | some e' =>
      have read : visible (newestFirst (above runs n)) k = e' := by rw [visible, hidden, Option.join_some]
      rw [visibleHidden hidden, read]
      simp
    | none =>
      rw [visibleThrough hidden, visibleCons, held]
      simp

end Visible

end Numbered
