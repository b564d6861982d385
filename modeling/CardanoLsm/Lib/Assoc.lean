import Mathlib

/-! Association lists: what a lookup finds after the entries of one key are removed or
changed. And lists related position by position. -/
namespace Assoc

variable {κ β : Type} [BEq κ] [LawfulBEq κ] [DecidableEq κ]

theorem lookupCons (k m : κ) (content : β) (rest : List (κ × β)) :
    ((k, content) :: rest).lookup m = if m = k then some content else rest.lookup m := by
  rw [List.lookup_cons]
  by_cases here : m = k
  · subst here; simp
  · rw [beq_false_of_ne here, if_neg here]

theorem lookupRestrict (entries : List (κ × β)) (stays : κ → Bool) (m : κ) :
    (entries.filter (fun e => stays e.1)).lookup m = if stays m = true then entries.lookup m else none := by
  induction entries with
  | nil => simp
  | cons e rest ih =>
    obtain ⟨k, content⟩ := e
    by_cases kept : stays k = true
    · rw [List.filter_cons_of_pos (by simpa using kept), lookupCons, lookupCons, ih]
      by_cases here : m = k
      · subst here; rw [if_pos rfl, if_pos rfl, if_pos kept]
      · rw [if_neg here, if_neg here]
    · rw [List.filter_cons_of_neg (by simpa using kept), ih, lookupCons]
      by_cases here : m = k
      · subst here; rw [if_neg kept, if_neg kept]
      · rw [if_neg here]

theorem lookupFilter (entries : List (κ × β)) (n m : κ) :
    (entries.filter (fun e => e.1 != n)).lookup m = if m = n then none else entries.lookup m := by
  rw [lookupRestrict entries (fun k => k != n)]
  by_cases gone : m = n <;> simp [gone]

theorem lookupModify (entries : List (κ × β)) (n m : κ) (f : β → β) :
    (entries.map (fun e => if e.1 = n then (n, f e.2) else e)).lookup m =
      if m = n then (entries.lookup m).map f else entries.lookup m := by
  induction entries with
  | nil => simp
  | cons e rest ih =>
    obtain ⟨k, old⟩ := e
    rw [List.map_cons, lookupCons]
    by_cases here : k = n
    · subst here
      rw [if_pos rfl, lookupCons, ih]
      by_cases same : m = k
      · simp [same]
      · simp only [if_neg same]
    · rw [if_neg here, lookupCons, ih]
      by_cases same : m = k
      · subst same; simp only [if_true, if_neg here]
      · simp only [if_neg same]

omit [DecidableEq κ] in
theorem lookupNone {entries : List (κ × β)} {k : κ} : entries.lookup k = none ↔ k ∉ entries.map Prod.fst := by
  rw [List.lookup_eq_none_iff]
  simp only [List.mem_map, not_exists, not_and, bne_iff_ne, ne_eq]
  exact ⟨fun h e member same => h e member same.symm, fun h e member same => h e member same.symm⟩

theorem lookupOnce {entries : List (κ × β)} (once : (entries.map Prod.fst).Nodup) {k : κ} {content : β}
    (member : (k, content) ∈ entries) : entries.lookup k = some content := by
  induction entries with
  | nil => cases member
  | cons e rest ih =>
    obtain ⟨fresh, later⟩ := List.nodup_cons.mp once
    rw [lookupCons]
    rcases List.mem_cons.mp member with rfl | inRest
    · rw [if_pos rfl]
    · have other : k ≠ e.1 := by
        rintro rfl
        exact fresh (List.mem_map.mpr ⟨_, inRest, rfl⟩)
      rw [if_neg other]
      exact ih later inRest

theorem lookupGraph {α : Type} {items : List α} {f : α → κ} {g : κ → β} {k : κ} {value : β}
    (found : (items.map (fun item => (f item, g (f item)))).lookup k = some value) : value = g k := by
  induction items with
  | nil => cases found
  | cons item rest ih =>
    rw [List.map_cons, lookupCons] at found
    split at found
    · rename_i same
      rw [same]
      exact (Option.some.inj found).symm
    · exact ih found

section Related
variable {α γ : Type} {R : α → γ → Prop} {as : List α} {cs : List γ}

theorem relatedAt (related : List.Forall₂ R as cs) {i : Nat} {a : α} (found : as[i]? = some a) :
    ∃ c, cs[i]? = some c ∧ R a c := by
  induction related generalizing i with
  | nil => cases found
  | cons first _ ih =>
    cases i with
    | zero => exact ⟨_, rfl, Option.some.inj found ▸ first⟩
    | succ i => exact ih found

theorem relatedForall {P : Nat → α → Prop} {Q : Nat → γ → Prop} (related : List.Forall₂ R as cs)
    (agree : ∀ i a c, R a c → (P i a ↔ Q i c)) :
    (∀ i a, as[i]? = some a → P i a) ↔ ∀ i c, cs[i]? = some c → Q i c := by
  constructor
  · intro all i c found
    obtain ⟨a, there, pair⟩ := relatedAt related.flip found
    exact (agree i a c pair).mp (all i a there)
  · intro all i a found
    obtain ⟨c, there, pair⟩ := relatedAt related found
    exact (agree i a c pair).mpr (all i c there)

theorem relatedLeft (related : List.Forall₂ R as cs) {a : α} (member : a ∈ as) : ∃ c ∈ cs, R a c := by
  induction related with
  | nil => cases member
  | cons first rest ih =>
    rcases List.mem_cons.mp member with rfl | later
    · exact ⟨_, List.mem_cons_self, first⟩
    · obtain ⟨c, inside, holds⟩ := ih later
      exact ⟨c, List.mem_cons_of_mem _ inside, holds⟩

theorem relatedRight (related : List.Forall₂ R as cs) {c : γ} (member : c ∈ cs) : ∃ a ∈ as, R a c := by
  induction related with
  | nil => cases member
  | cons first rest ih =>
    rcases List.mem_cons.mp member with rfl | later
    · exact ⟨_, List.mem_cons_self, first⟩
    · obtain ⟨a, inside, holds⟩ := ih later
      exact ⟨a, List.mem_cons_of_mem _ inside, holds⟩

theorem relatedMap {δ : Type} {f : γ → δ} {g : α → δ} (related : List.Forall₂ (fun a c => f c = g a) as cs) :
    cs.map f = as.map g := by
  induction related with
  | nil => rfl
  | cons first _ ih => rw [List.map_cons, List.map_cons, first, ih]

theorem relatedErase (related : List.Forall₂ R as cs) (i : Nat) :
    List.Forall₂ R (as.eraseIdx i) (cs.eraseIdx i) := by
  induction related generalizing i with
  | nil => exact .nil
  | cons first rest ih =>
    cases i with
    | zero => exact rest
    | succ i => exact .cons first (ih i)

theorem relatedSnoc (related : List.Forall₂ R as cs) {a : α} {c : γ} (last : R a c) :
    List.Forall₂ R (as ++ [a]) (cs ++ [c]) := List.rel_append related (.cons last .nil)

end Related
end Assoc
