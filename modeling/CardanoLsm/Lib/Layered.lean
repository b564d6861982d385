import Mathlib

/-! Layered maps: finite ordered maps stacked newest first. The first layer that
holds a key decides it. An entry that is itself `none` is a tombstone: it hides
every older entry of its key and reads as absent. Nothing here depends on where
the layers are stored. -/
set_option linter.unusedSectionVars false

namespace Layered
open Std

variable {κ ε ν : Type} [Ord κ] [TransOrd κ] [LawfulEqOrd κ]

abbrev Layer (κ ε : Type) [Ord κ] := ExtTreeMap κ ε compare

def insertAll (acc : Layer κ ε) (entries : List (κ × ε)) : Layer κ ε :=
  entries.foldl (fun m e => m.insert e.1 e.2) acc

def insertMissing (acc : Layer κ ε) (entries : List (κ × ε)) : Layer κ ε :=
  entries.foldl (fun m e => m.insertIfNew e.1 e.2) acc

def pick (entries : List (κ × ε)) (k : κ) : Option ε :=
  entries.findSome? (fun e => if compare e.1 k = .eq then some e.2 else none)

theorem pickNone {entries : List (κ × ε)} {k : κ} :
    pick entries k = none ↔ ∀ e ∈ entries, e.1 ≠ k := by
  simp only [pick, List.findSome?_eq_none_iff]
  constructor
  · intro h e he same
    have := h e he
    simp [same] at this
  · intro h e he
    have different := h e he
    simp [different]

theorem pickMem {entries : List (κ × ε)} (distinct : entries.Pairwise (fun a b => a.1 ≠ b.1))
    {k : κ} {v : ε} : pick entries k = some v ↔ (k, v) ∈ entries := by
  induction entries with
  | nil => simp [pick]
  | cons e rest ih =>
    obtain ⟨fresh, distinct⟩ := List.pairwise_cons.mp distinct
    by_cases same : e.1 = k
    · subst same
      simp only [pick, List.findSome?_cons, LawfulEqOrd.compare_eq_iff_eq, if_true, Option.some.injEq,
        List.mem_cons]
      constructor
      · rintro rfl; exact Or.inl rfl
      · rintro (here | later)
        · exact (congrArg Prod.snd here).symm
        · exact (fresh _ later rfl).elim
    · have skip : pick (e :: rest) k = pick rest k := by simp [pick, same]
      rw [skip, ih distinct, List.mem_cons]
      constructor
      · exact Or.inr
      · rintro (here | later)
        · exact absurd (congrArg Prod.fst here).symm same
        · exact later

theorem insertMissingGet (acc : Layer κ ε) (entries : List (κ × ε)) (k : κ) :
    (insertMissing acc entries)[k]? = (acc[k]?).or (pick entries k) := by
  induction entries generalizing acc with
  | nil => simp [insertMissing, pick]
  | cons e rest ih =>
    have step := ih (acc.insertIfNew e.1 e.2)
    simp only [insertMissing, List.foldl_cons] at step ⊢
    rw [step, ExtTreeMap.getElem?_insertIfNew]
    by_cases same : e.1 = k
    · subst same
      cases held : acc[e.1]? with
      | none => simp [pick, ExtTreeMap.mem_iff_isSome_getElem?, held]
      | some v => simp [ExtTreeMap.mem_iff_isSome_getElem?, held]
    · simp [pick, same]

theorem insertAllGet (acc : Layer κ ε) (entries : List (κ × ε)) (k : κ) :
    (insertAll acc entries)[k]? = (pick entries.reverse k).or (acc[k]?) := by
  induction entries generalizing acc with
  | nil => simp [insertAll, pick]
  | cons e rest ih =>
    have step := ih (acc.insert e.1 e.2)
    simp only [insertAll, List.foldl_cons] at step ⊢
    rw [step, ExtTreeMap.getElem?_insert]
    simp only [pick, List.reverse_cons, List.findSome?_append, List.findSome?_cons,
      List.findSome?_nil, Option.or_assoc]
    by_cases same : e.1 = k
    · simp [same]
    · simp [same]

theorem insertAllSize {acc : Layer κ ε} {entries : List (κ × ε)}
    (distinct : entries.Pairwise (fun a b => a.1 ≠ b.1)) (fresh : ∀ e ∈ entries, e.1 ∉ acc) :
    (insertAll acc entries).size = acc.size + entries.length := by
  induction entries generalizing acc with
  | nil => rfl
  | cons e rest ih =>
    obtain ⟨first, later⟩ := List.pairwise_cons.mp distinct
    have next := @ih (acc.insert e.1 e.2) later (fun x member inside => by
      rcases ExtTreeMap.mem_insert.mp inside with same | old
      · exact first x member (LawfulEqCmp.eq_of_compare same)
      · exact fresh x (List.mem_cons_of_mem e member) old)
    have grown : (acc.insert e.1 e.2).size = acc.size + 1 := by
      have absent : ¬ acc.contains e.1 = true := fresh e List.mem_cons_self
      rw [ExtTreeMap.size_insert, if_neg absent]
    simp only [insertAll, List.foldl_cons] at next ⊢
    rw [next, grown, List.length_cons]
    omega

theorem toListDistinct (m : Layer κ ε) : m.toList.Pairwise (fun a b => a.1 ≠ b.1) := by
  refine List.Pairwise.imp ?_ m.distinct_keys_toList
  intro a b different same
  exact different (by simp [same])

theorem pickToList (m : Layer κ ε) (p : κ → Bool) (k : κ) :
    pick (m.toList.filter (fun e => p e.1)) k = if p k then m[k]? else none := by
  have distinct : (m.toList.filter (fun e => p e.1)).Pairwise (fun a b => a.1 ≠ b.1) :=
    (toListDistinct m).filter _
  ext v
  rw [pickMem distinct, List.mem_filter, ExtTreeMap.mem_toList_iff_getElem?_eq_some]
  by_cases holds : p k = true
  · simp [holds]
  · simp [holds]

theorem pickReverse {entries : List (κ × ε)} (distinct : entries.Pairwise (fun a b => a.1 ≠ b.1))
    (k : κ) : pick entries.reverse k = pick entries k := by
  have backwards : entries.reverse.Pairwise (fun a b => a.1 ≠ b.1) := by
    rw [List.pairwise_reverse]
    exact distinct.imp (fun h => Ne.symm h)
  ext v
  rw [pickMem distinct, pickMem backwards, List.mem_reverse]

theorem insertAllRange (acc m : Layer κ ε) (p : κ → Bool) (k : κ) :
    (insertAll acc (m.toList.filter (fun e => p e.1)))[k]? =
      (if p k then m[k]? else none).or (acc[k]?) := by
  rw [insertAllGet, pickReverse ((toListDistinct m).filter _), pickToList]

theorem insertMissingRange (acc m : Layer κ ε) (p : κ → Bool) (k : κ) :
    (insertMissing acc (m.toList.filter (fun e => p e.1)))[k]? =
      (acc[k]?).or (if p k then m[k]? else none) := by
  rw [insertMissingGet, pickToList]

def resolve (layers : List (Layer κ ε)) (k : κ) : Option ε := layers.findSome? (fun m => m[k]?)

@[simp] theorem resolveNil (k : κ) : resolve ([] : List (Layer κ ε)) k = none := rfl

@[simp] theorem resolveCons (m : Layer κ ε) (rest : List (Layer κ ε)) (k : κ) :
    resolve (m :: rest) k = (m[k]?).or (resolve rest k) := by
  unfold resolve
  cases held : m[k]? <;> simp [held]

@[simp] theorem resolveAppend (newer older : List (Layer κ ε)) (k : κ) :
    resolve (newer ++ older) k = (resolve newer k).or (resolve older k) := by
  simp [resolve, List.findSome?_append]

theorem resolveNone {layers : List (Layer κ ε)} {k : κ} :
    resolve layers k = none ↔ ∀ m ∈ layers, m[k]? = none := by
  simp [resolve, List.findSome?_eq_none_iff]

def stackUp (p : κ → Bool) (oldestFirst : List (Layer κ ε)) (base : Layer κ ε) : Layer κ ε :=
  oldestFirst.foldl (fun acc m => insertAll acc (m.toList.filter (fun e => p e.1))) base

theorem stackUpAppend (p : κ → Bool) (first second : List (Layer κ ε)) (base : Layer κ ε) :
    stackUp p (first ++ second) base = stackUp p second (stackUp p first base) := List.foldl_append

theorem stackUpGet (p : κ → Bool) (oldestFirst : List (Layer κ ε)) (base : Layer κ ε) (k : κ) :
    (stackUp p oldestFirst base)[k]? =
      (if p k then resolve oldestFirst.reverse k else none).or (base[k]?) := by
  induction oldestFirst generalizing base with
  | nil => simp [stackUp]
  | cons m rest ih =>
    have step := ih (insertAll base (m.toList.filter (fun e => p e.1)))
    simp only [stackUp, List.foldl_cons] at step ⊢
    rw [step, insertAllRange]
    by_cases holds : p k = true
    · simp [holds, Option.or_assoc]
    · simp [holds]

def visible (layers : List (Layer κ (Option ν))) (k : κ) : Option ν := (resolve layers k).join

theorem visibleHidden {newer : List (Layer κ (Option ν))} {k : κ} {e : Option ν}
    (held : resolve newer k = some e) (older : List (Layer κ (Option ν))) :
    visible (newer ++ older) k = e := by
  simp [visible, held]

theorem visibleThrough {newer : List (Layer κ (Option ν))} {k : κ}
    (free : resolve newer k = none) (older : List (Layer κ (Option ν))) :
    visible (newer ++ older) k = visible older k := by
  simp [visible, free]

theorem visibleCons (m : Layer κ (Option ν)) (rest : List (Layer κ (Option ν))) (k : κ) :
    visible (m :: rest) k = (m[k]?).elim (visible rest k) id := by
  cases held : m[k]? <;> simp [visible, held]

theorem visibleReplace (newer : List (Layer κ (Option ν))) {older older' : List (Layer κ (Option ν))}
    {k : κ} (same : resolve newer k = none → visible older k = visible older' k) :
    visible (newer ++ older) k = visible (newer ++ older') k := by
  cases held : resolve newer k with
  | none => rw [visibleThrough held, visibleThrough held, same held]
  | some e => rw [visibleHidden held, visibleHidden held]

def live (m : Layer κ (Option ν)) : Layer κ (Option ν) :=
  insertAll ∅ (m.toList.filter (fun e => e.2.isSome))

theorem liveGet (m : Layer κ (Option ν)) (k : κ) : (live m)[k]? = (m[k]?).filter Option.isSome := by
  have distinct : (m.toList.filter (fun e => e.2.isSome)).Pairwise (fun a b => a.1 ≠ b.1) :=
    (toListDistinct m).filter _
  rw [live, insertAllGet, pickReverse distinct, ExtTreeMap.getElem?_empty, Option.or_none]
  ext e
  rw [pickMem distinct, List.mem_filter, ExtTreeMap.mem_toList_iff_getElem?_eq_some,
    Option.filter_eq_some_iff]

theorem liveToList (m : Layer κ (Option ν)) :
    (live m).toList = m.toList.filter (fun e => e.2.isSome) := by
  have cut : (m.filter (fun _ e => e.isSome)).toList = m.toList.filter (fun e => e.2.isSome) :=
    ExtTreeMap.toList_filter
  rw [← cut]
  congr 1
  refine ExtTreeMap.ext_getElem? (fun k => ?_)
  rw [liveGet, ExtTreeMap.getElem?_filter']

theorem liveJoin (m : Layer κ (Option ν)) (k : κ) : ((live m)[k]?).join = (m[k]?).join := by
  rw [liveGet]
  cases held : m[k]? with
  | none => rfl
  | some e => cases e <;> rfl

theorem liveHolds {m : Layer κ (Option ν)} {k : κ} {e : Option ν} (held : (live m)[k]? = some e) :
    e.isSome := by
  rw [liveGet] at held
  exact (Option.filter_eq_some_iff.mp held).2

def listing (m : Layer κ (Option ν)) : List (κ × ν) :=
  m.toList.filterMap (fun e => e.2.map (fun v => (e.1, v)))

theorem listingEq (m : Layer κ (Option ν)) :
    listing m = (m.filterMap (fun _ e => e)).toList := by
  rw [ExtTreeMap.toList_filterMap]
  rfl

theorem listingCongr {m m' : Layer κ (Option ν)} (same : ∀ k : κ, (m[k]?).join = (m'[k]?).join) :
    listing m = listing m' := by
  rw [listingEq, listingEq]
  congr 1
  refine ExtTreeMap.ext_getElem? (fun k => ?_)
  have h := same k
  rw [ExtTreeMap.getElem?_filterMap', ExtTreeMap.getElem?_filterMap']
  simpa [Option.join] using h

theorem listingMem {m : Layer κ (Option ν)} {k : κ} {v : ν} :
    (k, v) ∈ listing m ↔ m[k]? = some (some v) := by
  rw [listingEq, ExtTreeMap.mem_toList_iff_getElem?_eq_some, ExtTreeMap.getElem?_filterMap']
  cases held : m[k]? <;> simp

theorem listingSame {m m' : Layer κ (Option ν)} :
    listing m = listing m' ↔ ∀ k : κ, (m[k]?).join = (m'[k]?).join := by
  constructor
  · intro same k
    ext v
    rw [Option.join_eq_some_iff, Option.join_eq_some_iff, ← listingMem, same, listingMem]
  · exact listingCongr

theorem listingOfMap {m : Layer κ (Option ν)} {values : Layer κ ν} {p : κ → Bool}
    (same : ∀ k : κ, (m[k]?).join = if p k then values[k]? else none) :
    listing m = values.toList.filter (fun e => p e.1) := by
  have cut : (values.filter (fun k _ => p k)).toList = values.toList.filter (fun e => p e.1) :=
    ExtTreeMap.toList_filter
  rw [listingEq, ← cut]
  congr 1
  refine ExtTreeMap.ext_getElem? (fun k => ?_)
  have h := same k
  rw [ExtTreeMap.getElem?_filterMap', ExtTreeMap.getElem?_filter']
  by_cases inside : p k = true
  · cases held : values[k]? <;> simpa [Option.join, Option.filter, inside, held] using h
  · cases held : values[k]? <;> simpa [Option.join, Option.filter, inside, held] using h

theorem listingCut {m m' : Layer κ (Option ν)} {p : κ → Bool}
    (same : ∀ k : κ, (m'[k]?).join = if p k then (m[k]?).join else none) :
    listing m' = (listing m).filter (fun e => p e.1) := by
  rw [listingEq m]
  refine listingOfMap (fun k => ?_)
  rw [same k, ExtTreeMap.getElem?_filterMap']
  by_cases inside : p k = true
  · simp [inside, Option.join]
  · simp [inside]

def total (weight : κ × ε → Nat) (m : Layer κ ε) : Nat := (m.toList.map weight).sum

theorem toListNodup (m : Layer κ ε) : m.toList.Nodup :=
  (toListDistinct m).imp (fun different same => different (congrArg Prod.fst same))

theorem toListSplit (m : Layer κ ε) (k : κ) : m.toList.Perm
    ((m[k]?.map (fun e => (k, e))).toList ++ m.toList.filter (fun x => decide (compare x.1 k ≠ .eq))) := by
  have apart : ((m[k]?.map (fun e => (k, e))).toList ++
      m.toList.filter (fun x => decide (compare x.1 k ≠ .eq))).Nodup := by
    refine List.nodup_append.mpr ⟨?_, (toListNodup m).filter _, ?_⟩
    · cases m[k]? <;> simp
    · rintro a here b there rfl
      obtain ⟨e, -, rfl⟩ := by simpa using here
      simp at there
  refine (List.perm_ext_iff_of_nodup (toListNodup m) apart).mpr (fun x => ?_)
  obtain ⟨key, e⟩ := x
  rw [List.mem_append, List.mem_filter, ExtTreeMap.mem_toList_iff_getElem?_eq_some]
  by_cases same : key = k
  · subst same
    simp
  · simp [same, Ne.symm same]

theorem totalSplit (weight : κ × ε → Nat) (m : Layer κ ε) (k : κ) : total weight m =
    m[k]?.elim 0 (fun e => weight (k, e)) +
      ((m.toList.filter (fun x => decide (compare x.1 k ≠ .eq))).map weight).sum := by
  have parts := ((toListSplit m k).map weight).sum_nat
  rw [List.map_append, List.sum_append] at parts
  rw [total, parts]
  cases m[k]? <;> simp

theorem totalInsert (weight : κ × ε → Nat) (m : Layer κ ε) (k : κ) (e : ε) :
    total weight (m.insert k e) + m[k]?.elim 0 (fun old => weight (k, old)) = total weight m + weight (k, e) := by
  have others : (m.insert k e).toList.filter (fun x => decide (compare x.1 k ≠ .eq)) =
      m.toList.filter (fun x => decide (compare x.1 k ≠ .eq)) := by
    rw [← ExtTreeMap.toList_filter (f := fun key _ => decide (compare key k ≠ .eq)),
      ← ExtTreeMap.toList_filter (f := fun key _ => decide (compare key k ≠ .eq))]
    congr 1
    refine ExtTreeMap.ext_getElem? (fun key => ?_)
    rw [ExtTreeMap.getElem?_filter', ExtTreeMap.getElem?_filter', ExtTreeMap.getElem?_insert]
    by_cases same : key = k
    · subst same
      cases m[key]? <;> simp
    · simp [Ne.symm same]
  have before := totalSplit weight m k
  have after := totalSplit weight (m.insert k e) k
  rw [others, ExtTreeMap.getElem?_insert_self, Option.elim_some] at after
  omega

end Layered
