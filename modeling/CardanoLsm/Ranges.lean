import CardanoLsm.Iteration
import CardanoLsm.Lib.ByteOrder

/-! Range queries by precedence, and the scans that turn a set of keys into one interval:
`scan_prefix` and `iter` (`lib.rs`), `prefix_fold` (`monoidal.rs`). -/
namespace CardanoLsm
open Std Layered

def prefixEnd (bytes : Key) : Key :=
  match bytes.getLast? with
  | none => List.replicate 20 0xFF
  | some last => if last = 0xFF then bytes ++ [0] else bytes.dropLast ++ [last + 1]

def LsmTree.scanPrefix (t : LsmTree) (st : Storage) (bytes : Key) : List (Key × Value) :=
  t.range st bytes (prefixEnd bytes)

def Monoidal.prefixFold {V : Type} (m : Monoidal V) (t : LsmTree) (st : Storage) (bytes : Key) : V :=
  (t.scanPrefix st bytes).foldl m.add m.mempty

def Sorted (out : List (Key × Value)) : Prop := out.Pairwise (fun a b => compare a.1 b.1 = .lt)

theorem listingSorted (m : Entries) : Sorted (listing m) := by
  rw [listingEq]
  exact ExtTreeMap.ordered_keys_toList

theorem sortedUnique {first second : List (Key × Value)} (left : Sorted first) (right : Sorted second)
    (same : ∀ e, e ∈ first ↔ e ∈ second) : first = second := by
  have irreflexive : ∀ {out : List (Key × Value)}, Sorted out → out.Nodup := fun sorted =>
    sorted.imp (fun before same => by simp [same] at before)
  have perm := (List.perm_ext_iff_of_nodup (irreflexive left) (irreflexive right)).mpr same
  refine perm.eq_of_pairwise (fun a b _ _ up down => ?_) left right
  have swap : compare b.1 a.1 = (compare a.1 b.1).swap := OrientedCmp.eq_swap
  rw [up] at swap
  rw [swap] at down
  cases down

namespace LsmTree
variable {t : LsmTree} {st : Storage}

theorem rangeSorted (t : LsmTree) (st : Storage) (lo hi : Key) : Sorted (t.range st lo hi) := by
  rw [rangeSources]
  exact listingSorted _

theorem rangeHolds {lo hi k : Key} {v : Value} : (k, v) ∈ t.range st lo hi ↔
    inRange lo hi k = true ∧ resolve (t.sources st) k = some (some v) := by
  rw [rangeSources, listingMem, stackUpGet, List.reverse_reverse, ExtTreeMap.getElem?_empty, Option.or_none]
  by_cases inside : inRange lo hi k = true
  · simp [inside]
  · simp [inside]

end LsmTree

def NewestFirst (runs level : List SsTableHandle) : Prop :=
  runs.Perm level ∧ runs.Pairwise (fun a b => b.runNumber < a.runNumber)

theorem sortNewestFirst {level : List SsTableHandle} (distinct : Distinct level) :
    NewestFirst (sortByRunNumber level).reverse level :=
  ⟨(List.reverse_perm _).trans (sortPerm level), List.pairwise_reverse.mpr (sortAscending distinct)⟩

theorem rangeByPrecedence (t : LsmTree) (st : Storage) (distinct : ∀ level ∈ t.levels, Distinct level)
    (lo hi : Key) :
    Sorted (t.range st lo hi) ∧
      ∃ ordered, List.Forall₂ NewestFirst ordered t.levels ∧
        ∀ k v, (k, v) ∈ t.range st lo hi ↔ (compare lo k).isLE = true ∧ (compare k hi).isLE = true ∧
          (t.memtable.data :: t.immutableMemtables.reverse.map MemTable.data ++
            ordered.flatten.map st.contents).findSome? (fun source => source[k]?) = some (some v) := by
  refine ⟨t.rangeSorted st lo hi, t.levels.map (fun level => (sortByRunNumber level).reverse), ?_,
    fun k v => ?_⟩
  · rw [List.forall₂_map_left_iff, List.forall₂_same]
    exact fun level member => sortNewestFirst (distinct level member)
  · have swap : compare k lo = (compare lo k).swap := OrientedCmp.eq_swap
    rw [LsmTree.rangeHolds, inRange, Bool.and_eq_true, and_assoc, swap, Ordering.isGE_swap, ← List.flatMap_def,
      List.map_reverse]
    rfl

theorem rangeByPrecedenceOverwritten : ∃ s,
    Trace.Run State.step (fun _ _ => True) (.fresh ⟨1, 4⟩) overwrittenScript s ∧
      (s.tree.levels.getD 0 []).length = 2 ∧
      Sorted (s.tree.range s.storage [] [1]) ∧
      ∃ ordered, List.Forall₂ NewestFirst ordered s.tree.levels ∧
        ∀ k v, (k, v) ∈ s.tree.range s.storage [] [1] ↔
          (compare [] k).isLE = true ∧ (compare k [1]).isLE = true ∧
          (s.tree.memtable.data :: s.tree.immutableMemtables.reverse.map MemTable.data ++
            ordered.flatten.map s.storage.contents).findSome? (fun source => source[k]?) = some (some v) := by
  have ended : (Trace.execWhile State.step (fun _ _ => true) (.fresh ⟨1, 4⟩) overwrittenScript).any
      (fun s => decide ((s.tree.levels.getD 0 []).length = 2)) = true := by decide +kernel
  have allowed : ∀ s : State, ∀ a ∈ overwrittenScript, (fun _ _ => true) s a = true → True :=
    fun _ _ _ _ => trivial
  obtain ⟨s, ran, tested⟩ := Trace.runTo allowed ended
  have sound := (Starts.fresh ⟨1, 4⟩).sound.run ran
  refine ⟨s, ran, of_decide_eq_true tested, rangeByPrecedence s.tree s.storage (fun level member => ?_) [] [1]⟩
  exact sound.tree.distinct.sublist (List.sublist_flatten_of_mem member)

def LsmTree.Live (t : LsmTree) (st : Storage) (k : Key) : Prop := ∃ v, (k, v) ∈ t.range st k k

def LsmTree.Exact (t : LsmTree) (st : Storage) (bytes : Key) (out : List (Key × Value)) : Prop :=
  Sorted out ∧ ∀ k v, (k, v) ∈ out ↔ (k, v) ∈ t.range st k k ∧ bytes <+: k

/-- No live key is where the interval of the scan and the keys with the prefix differ: past
20 bytes `0xFF` for the empty prefix; after a last byte `0xFF` the longer keys but that
with one zero byte; otherwise the prefix with its last byte incremented. -/
def PrefixSafe (t : LsmTree) (st : Storage) (bytes : Key) : Prop :=
  match bytes.getLast? with
  | none => ∀ rest ≠ [], ¬ t.Live st (List.replicate 20 0xFF ++ rest)
  | some last =>
    if last = 0xFF then ∀ rest, t.Live st (bytes ++ rest) → rest = [] ∨ rest = [0]
    else ¬ t.Live st (bytes.dropLast ++ [last + 1])

def IterSafe (t : LsmTree) (st : Storage) : Prop := ∀ rest ≠ [], ¬ t.Live st (maxKey ++ rest)

theorem inRangeLargest (n : Nat) (k : Key) :
    inRange [] (List.replicate n 0xFF) k = false ↔ ∃ rest ≠ [], k = List.replicate n 0xFF ++ rest := by
  rw [inRangeEmpty]
  exact ByteOrder.beyondLargest n k

namespace LsmTree
variable {t : LsmTree} {st : Storage}

theorem liveHolds {k : Key} : t.Live st k ↔ ∃ v, resolve (t.sources st) k = some (some v) := by
  simp only [Live, rangeHolds, inRangeSelf, true_and]

theorem rangeExact {lo hi bytes : Key} : t.Exact st bytes (t.range st lo hi) ↔
    ∀ k, t.Live st k → (inRange lo hi k = true ↔ bytes <+: k) := by
  simp only [Exact, t.rangeSorted st lo hi, true_and, rangeHolds, inRangeSelf, liveHolds]
  constructor
  · rintro exact_ k ⟨v, held⟩
    simpa [held] using exact_ k v
  · intro covers k v
    by_cases held : resolve (t.sources st) k = some (some v)
    · simp [held, covers k ⟨v, held⟩]
    · simp [held]

theorem iterExact : t.Exact st [] (t.iter st) ↔ IterSafe t st := by
  rw [iter, rangeExact]
  constructor
  · intro covers rest more live
    have inside := (covers _ live).mpr List.nil_prefix
    rw [maxKey, (inRangeLargest 256 _).mpr ⟨rest, more, rfl⟩] at inside
    cases inside
  · intro safe k live
    rw [iff_true_right List.nil_prefix]
    by_contra outside
    obtain ⟨rest, more, rfl⟩ := (inRangeLargest 256 k).mp (Bool.eq_false_iff.mpr outside)
    exact safe rest more live

theorem scanExact (bytes : Key) : t.Exact st bytes (t.scanPrefix st bytes) ↔ PrefixSafe t st bytes := by
  rw [scanPrefix, rangeExact]
  unfold PrefixSafe prefixEnd
  cases shape : bytes.getLast? with
  | none =>
    have empty : bytes = [] := List.getLast?_eq_none_iff.mp shape
    subst empty
    dsimp only
    constructor
    · intro covers rest more live
      have inside := (covers _ live).mpr List.nil_prefix
      rw [(inRangeLargest 20 _).mpr ⟨rest, more, rfl⟩] at inside
      cases inside
    · intro safe k live
      rw [iff_true_right List.nil_prefix]
      by_contra outside
      obtain ⟨rest, more, rfl⟩ := (inRangeLargest 20 k).mp (Bool.eq_false_iff.mpr outside)
      exact safe rest more live
  | some last =>
    obtain ⟨front, rfl⟩ := List.getLast?_eq_some_iff.mp shape
    dsimp only
    by_cases largest : last = 0xFF
    · subst largest
      simp only [if_true]
      have covered : ∀ k, inRange (front ++ [0xFF]) (front ++ [0xFF] ++ [0]) k = true ↔
          k = front ++ [0xFF] ∨ k = front ++ [0xFF] ++ [0] := fun k => by
        rw [inRange, Bool.and_eq_true, ByteOrder.betweenZero]
      constructor
      · intro covers rest live
        have inside := (covers _ live).mpr (List.prefix_append _ _)
        rcases (covered _).mp inside with same | longer
        · exact Or.inl (by simpa using same)
        · exact Or.inr (List.append_cancel_left longer)
      · intro safe k live
        rw [covered]
        constructor
        · rintro (rfl | rfl)
          · exact List.prefix_rfl
          · exact List.prefix_append _ _
        · rintro ⟨rest, rfl⟩
          rcases safe rest live with rfl | rfl
          · exact Or.inl (List.append_nil _)
          · exact Or.inr rfl
    · simp only [if_neg largest, List.dropLast_concat]
      have covered : ∀ k, inRange (front ++ [last]) (front ++ [last + 1]) k = true ↔
          front ++ [last] <+: k ∨ k = front ++ [last + 1] := fun k => by
        rw [inRange, Bool.and_eq_true, ByteOrder.betweenBumped largest]
      have apart : ¬ front ++ [last] <+: front ++ [last + 1] := fun extends_ => by
        have same := List.append_cancel_left (extends_.eq_of_length (by simp))
        have equal := (List.cons.inj same).1
        grind
      constructor
      · intro covers live
        exact apart ((covers _ live).mp ((covered _).mpr (Or.inr rfl)))
      · intro safe k live
        rw [covered]
        constructor
        · rintro (extends_ | rfl)
          · exact extends_
          · exact absurd live safe
        · exact Or.inl

end LsmTree

theorem scansExact (t : LsmTree) (st : Storage) (bytes : Key) :
    (t.Exact st bytes (t.scanPrefix st bytes) ∧ t.Exact st [] (t.iter st) ∧
      ∀ (V : Type) (m : Monoidal V) (out : List (Key × Value)), t.Exact st bytes out →
        m.prefixFold t st bytes = out.foldl m.add m.mempty) ↔
      PrefixSafe t st bytes ∧ IterSafe t st := by
  rw [LsmTree.scanExact, LsmTree.iterExact, ← and_assoc, and_iff_left_iff_imp]
  rintro ⟨safe, -⟩ V m out exact_
  have scanned := (LsmTree.scanExact bytes).mpr safe
  have same : t.scanPrefix st bytes = out :=
    sortedUnique scanned.1 exact_.1 (fun e => (scanned.2 e.1 e.2).trans (exact_.2 e.1 e.2).symm)
  rw [Monoidal.prefixFold, same]

theorem scanBeyondPrefix : ∃ s,
    Trace.Run State.step (fun _ _ => True) (.fresh ⟨100, 4⟩) [.insert [97] [1], .insert [98] [2]] s ∧
      s.foreground = .idle ∧ s.tree.scanPrefix s.storage [97] = [([97], [1]), ([98], [2])] ∧
      ¬ s.tree.Exact s.storage [97] (s.tree.scanPrefix s.storage [97]) := by
  have ended : (Trace.execWhile State.step (fun _ _ => true) (.fresh ⟨100, 4⟩)
      [.insert [97] [1], .insert [98] [2]]).any (fun s => State.isIdle s.foreground &&
        decide (s.tree.scanPrefix s.storage [97] = [([97], [1]), ([98], [2])])) = true := by decide +kernel
  have allowed : ∀ s : State, ∀ a ∈ [Action.insert [97] [1], .insert [98] [2]],
      (fun _ _ => true) s a = true → True := fun _ _ _ _ => trivial
  obtain ⟨s, ran, tested⟩ := Trace.runTo allowed ended
  simp only [Bool.and_eq_true, decide_eq_true_eq] at tested
  refine ⟨s, ran, State.idleOfIsIdle tested.1, tested.2, fun exact_ => ?_⟩
  have listed : (([98] : Key), ([2] : Value)) ∈ s.tree.scanPrefix s.storage [97] := by
    rw [tested.2]
    decide
  exact absurd ((exact_.2 [98] [2]).mp listed).2 (by decide)

end CardanoLsm
