import CardanoLsm.Lib.Assoc

/-! Directories and files as one tree. A place is the list of names that leads to it from
the root, innermost first; the root is always there. -/
namespace FileTree

inductive Node (C : Type) where
  | directory
  | file (content : C)
  deriving DecidableEq

structure Tree (γ C : Type) where
  entries : List (List γ × Node C)
  once : (entries.map Prod.fst).Nodup
  placed : ∀ e ∈ entries, ∃ name above, e.1 = name :: above ∧
    (above = [] ∨ (above, Node.directory) ∈ entries)

namespace Tree
variable {γ C : Type} [DecidableEq γ]

def empty : Tree γ C := ⟨[], List.nodup_nil, fun _ member => nomatch member⟩

def find (t : Tree γ C) (place : List γ) : Option (Node C) :=
  if place = [] then some .directory else t.entries.lookup place

theorem findEntry {t : Tree γ C} {e : List γ × Node C} (member : e ∈ t.entries) : t.find e.1 = some e.2 := by
  obtain ⟨name, above, split, -⟩ := t.placed e member
  rw [find, if_neg (by rw [split]; exact List.cons_ne_nil _ _)]
  exact Assoc.lookupOnce t.once member

theorem entryFound {t : Tree γ C} {name : γ} {above : List γ} {node : Node C}
    (found : t.find (name :: above) = some node) : (name :: above, node) ∈ t.entries := by
  rw [find, if_neg (List.cons_ne_nil _ _)] at found
  obtain ⟨before, after, split, -⟩ := List.lookup_eq_some_iff.mp found
  rw [split]
  exact List.mem_append_right _ List.mem_cons_self

theorem findAbove {t : Tree γ C} {name : γ} {above : List γ} {node : Node C}
    (found : t.find (name :: above) = some node) : t.find above = some .directory := by
  obtain ⟨n, a, split, inside⟩ := t.placed _ (entryFound found)
  cases split
  rcases inside with rfl | member
  · rfl
  · exact findEntry member

section
variable [DecidableEq C]

def put (t : Tree γ C) (place : List γ) (node : Node C) : Tree γ C :=
  if allowed : place ≠ [] ∧ t.find place.tail = some .directory ∧ t.find place ≠ some .directory then
    ⟨(place, node) :: t.entries.filter (fun e => e.1 != place), by
      refine List.nodup_cons.mpr ⟨fun member => ?_, t.once.sublist (List.filter_sublist.map _)⟩
      obtain ⟨e, kept, same⟩ := List.mem_map.mp member
      simpa [same] using (List.mem_filter.mp kept).2, by
      -- no directory is replaced, so what stands in one still does
      have keeps : ∀ above, t.find above = some .directory → above = [] ∨ (above, Node.directory) ∈
          (place, node) :: t.entries.filter (fun e => e.1 != place) := by
        intro above found
        cases above with
        | nil => exact Or.inl rfl
        | cons name rest =>
          refine Or.inr (List.mem_cons_of_mem _ (List.mem_filter.mpr ⟨entryFound found, ?_⟩))
          have other : name :: rest ≠ place := fun same => allowed.2.2 (same ▸ found)
          simpa using other
      intro e member
      rcases List.mem_cons.mp member with rfl | kept
      · obtain ⟨name, above, split⟩ := List.exists_cons_of_ne_nil allowed.1
        refine ⟨name, above, split, keeps above ?_⟩
        rw [← allowed.2.1, split, List.tail_cons]
      · obtain ⟨name, above, split, -⟩ := t.placed e (List.mem_filter.mp kept).1
        refine ⟨name, above, split, keeps above ?_⟩
        have found := findEntry (List.mem_filter.mp kept).1
        rw [split] at found
        exact findAbove found⟩
  else t

theorem findPut {t : Tree γ C} {place : List γ} {node : Node C} (root : place ≠ [])
    (inside : t.find place.tail = some .directory) (free : t.find place ≠ some .directory) (other : List γ) :
    (t.put place node).find other = if other = place then some node else t.find other := by
  rw [put, dif_pos ⟨root, inside, free⟩]
  by_cases same : other = place
  · rw [if_pos same, find, if_neg (same ▸ root), same, Assoc.lookupCons, if_pos rfl]
  · rw [if_neg same]
    unfold find
    split
    · rfl
    · rw [Assoc.lookupCons, if_neg same, Assoc.lookupFilter, if_neg same]

end

def restrict (t : Tree γ C) (stays : List γ → Bool)
    (upward : ∀ e ∈ t.entries, stays e.1 = true → e.1.tail ≠ [] → stays e.1.tail = true) : Tree γ C :=
  ⟨t.entries.filter (fun e => stays e.1), t.once.sublist (List.filter_sublist.map _), by
    intro e kept
    obtain ⟨member, here⟩ := List.mem_filter.mp kept
    obtain ⟨name, above, split, inside⟩ := t.placed e member
    have later := upward e member here
    rw [split, List.tail_cons] at later
    refine ⟨name, above, split, ?_⟩
    by_cases root : above = []
    · exact Or.inl root
    · exact Or.inr (List.mem_filter.mpr ⟨inside.resolve_left root, later root⟩)⟩

theorem findRestrict {t : Tree γ C} {stays : List γ → Bool}
    {upward : ∀ e ∈ t.entries, stays e.1 = true → e.1.tail ≠ [] → stays e.1.tail = true}
    {place : List γ} (root : place ≠ []) :
    (t.restrict stays upward).find place = if stays place = true then t.find place else none := by
  rw [find, if_neg root, find, if_neg root]
  exact Assoc.lookupRestrict t.entries stays place

def Below (above place : List γ) : Prop := above <:+ place ∧ place ≠ above

instance (above place : List γ) : Decidable (Below above place) := inferInstanceAs (Decidable (_ ∧ _))

omit [DecidableEq γ] in
theorem belowTail {above place : List γ} (nonroot : place ≠ []) (tail : Below above place.tail) :
    Below above place := by
  obtain ⟨name, rest, rfl⟩ := List.exists_cons_of_ne_nil nonroot
  refine ⟨tail.1.trans (List.suffix_cons name rest), ?_⟩
  rintro rfl
  have longer := tail.1.length_le
  simp at longer

def clear (t : Tree γ C) (above : List γ) : Tree γ C :=
  t.restrict (fun place => decide (¬ Below above place)) (by
    intro e member out _
    obtain ⟨name, rest, split, -⟩ := t.placed e member
    have nonroot : e.1 ≠ [] := by rw [split]; exact List.cons_ne_nil _ _
    exact decide_eq_true (fun tail => of_decide_eq_true out (belowTail nonroot tail)))

theorem findClear (t : Tree γ C) (above place : List γ) :
    (t.clear above).find place = if Below above place then none else t.find place := by
  by_cases root : place = []
  · subst root
    rw [if_neg (fun under => under.2 (List.suffix_nil.mp under.1).symm)]
    rfl
  · rw [clear, findRestrict root]
    by_cases under : Below above place <;> simp [under]

def remove (t : Tree γ C) (place : List γ) : Tree γ C :=
  if leaf : ∀ e ∈ t.entries, e.1.tail ≠ place then
    t.restrict (fun other => other != place) (fun e member _ _ => by simpa using leaf e member)
  else t

theorem findRemove {t : Tree γ C} {place : List γ} (root : place ≠ [])
    (leaf : ∀ name, t.find (name :: place) = none) (other : List γ) :
    (t.remove place).find other = if other = place then none else t.find other := by
  have childless : ∀ e ∈ t.entries, e.1.tail ≠ place := by
    intro e member same
    obtain ⟨name, above, split, -⟩ := t.placed e member
    have found := findEntry member
    rw [split, List.tail_cons] at same
    rw [split, same, leaf name] at found
    cases found
  rw [remove, dif_pos childless]
  by_cases top : other = []
  · subst top
    rw [if_neg root.symm]
    rfl
  · rw [findRestrict top]
    by_cases same : other = place <;> simp [same]

def directoryIn (place : List γ) : List γ × Node C → Option γ
  | (name :: above, .directory) => if above = place then some name else none
  | _ => none

theorem directoryInIff {place : List γ} {e : List γ × Node C} {name : γ} :
    directoryIn place e = some name ↔ e = (name :: place, .directory) := by
  unfold directoryIn
  split
  · rename_i n above
    split
    · rename_i same
      rw [same]
      constructor
      · rintro ⟨⟩
        rfl
      · rintro ⟨⟩
        rfl
    · rename_i other
      constructor
      · rintro ⟨⟩
      · rintro ⟨⟩
        exact absurd rfl other
  · rename_i otherwise
    constructor
    · rintro ⟨⟩
    · exact fun same => absurd same (otherwise name place)

def directories (t : Tree γ C) (place : List γ) : List γ := t.entries.filterMap (directoryIn place)

theorem memDirectories {t : Tree γ C} {place : List γ} {name : γ} :
    name ∈ t.directories place ↔ t.find (name :: place) = some .directory := by
  rw [directories, List.mem_filterMap]
  constructor
  · rintro ⟨e, member, picked⟩
    have found := findEntry member
    rwa [directoryInIff.mp picked] at found
  · intro found
    exact ⟨_, entryFound found, directoryInIff.mpr rfl⟩

theorem directoriesNodup (t : Tree γ C) (place : List γ) : (t.directories place).Nodup := by
  have once : t.entries.Pairwise (fun a b => a.1 ≠ b.1) := List.pairwise_map.mp t.once
  refine once.filterMap _ (fun a b apart n pickedA m pickedB same => apart ?_)
  rw [directoryInIff.mp pickedA, directoryInIff.mp pickedB, same]

end Tree

end FileTree
