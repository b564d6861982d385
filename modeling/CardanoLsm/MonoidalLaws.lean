import CardanoLsm.Ranges
import CardanoLsm.Lib.Bytes

/-! The `Monoidal` trait's laws, its built-in instances, and range folds that split at a key
(`monoidal.rs`). -/
namespace CardanoLsm
open Std

structure Monoidal.Instance (V : Type) where
  mempty : V
  mappend : V → V → Option V

namespace Monoidal.Instance
variable {V : Type}

structure Laws (m : Instance V) (same : V → V → Prop) (a b c : V) : Prop where
  identity : ∀ x ∈ [a, b, c], (∃ r, m.mappend x m.mempty = some r ∧ same r x) ∧
    ∃ r, m.mappend m.mempty x = some r ∧ same r x
  associative : ∃ ab bc left right, m.mappend a b = some ab ∧ m.mappend ab c = some left ∧
    m.mappend b c = some bc ∧ m.mappend a bc = some right ∧ same left right

end Monoidal.Instance

open Monoidal (Instance)
open Monoidal.Instance (Laws)

def saturatingAdd (a b : UInt64) : UInt64 :=
  if a.toNat + b.toNat < 2 ^ 64 then a + b else UInt64.ofNat (2 ^ 64 - 1)

def saturatingAddSigned (a b : Int64) : Int64 :=
  if Int64.maxValue.toInt < a.toInt + b.toInt then Int64.maxValue
  else if a.toInt + b.toInt < Int64.minValue.toInt then Int64.minValue
  else a + b

def addAssign (overflowChecks : Bool) (a b : UInt64) : Option UInt64 :=
  if overflowChecks = true ∧ 2 ^ 64 ≤ a.toNat + b.toNat then none else some (a + b)

def u64Monoid : Instance UInt64 := ⟨0, fun a b => some (saturatingAdd a b)⟩

def i64Monoid : Instance Int64 := ⟨0, fun a b => some (saturatingAddSigned a b)⟩

def vecMonoid (T : Type) : Instance (List T) := ⟨[], fun a b => some (a ++ b)⟩

def addEntry {K V : Type} [DecidableEq K] [Hashable K] (add : V → V → Option V) (default : V)
    (result : HashMap K V) (k : K) (v : V) : Option (HashMap K V) := do
  let entry ← add (result.getD k default) v
  some (result.insert k entry)

def hashMapMonoid (K : Type) {V : Type} [DecidableEq K] [Hashable K] (add : V → V → Option V)
    (default : V) : Instance (HashMap K V) :=
  ⟨∅, fun self other => other.foldM (addEntry add default) self⟩

theorem saturatingAddNat (a b : UInt64) :
    (saturatingAdd a b).toNat = min (a.toNat + b.toNat) (2 ^ 64 - 1) := by
  unfold saturatingAdd
  split
  · rename_i small
    rw [UInt64.toNat_add, Nat.mod_eq_of_lt small]
    omega
  · rw [UInt64.toNat_ofNat']
    omega

theorem saturatingAddInt (a b : Int64) : (saturatingAddSigned a b).toInt =
    max (-2 ^ 63) (min (a.toInt + b.toInt) (2 ^ 63 - 1)) := by
  have high : Int64.maxValue.toInt = 2 ^ 63 - 1 := rfl
  have low : Int64.minValue.toInt = -2 ^ 63 := rfl
  unfold saturatingAddSigned
  rw [high, low]
  split
  · rw [high]
    omega
  · split
    · rw [low]
      omega
    · rw [Int64.toInt_add, Int.bmod_eq_of_le (by omega) (by omega)]
      omega

theorem lawsTotal {V : Type} (e : V) (f : V → V → V) (a b c : V) :
    Laws ⟨e, fun x y => some (f x y)⟩ Eq a b c ↔
      (∀ x ∈ [a, b, c], f x e = x ∧ f e x = x) ∧ f (f a b) c = f a (f b c) := by
  constructor
  · rintro ⟨identity, ab, bc, left, right, sum, whole, sum', whole', same⟩
    refine ⟨fun x member => ?_, ?_⟩
    · obtain ⟨⟨r, after, equal⟩, ⟨r', before, equal'⟩⟩ := identity x member
      exact ⟨(Option.some.inj after).trans equal, (Option.some.inj before).trans equal'⟩
    · cases Option.some.inj sum
      cases Option.some.inj sum'
      exact ((Option.some.inj whole).trans same).trans (Option.some.inj whole').symm
  · rintro ⟨identity, associative⟩
    exact ⟨fun x member => ⟨⟨_, rfl, (identity x member).1⟩, ⟨_, rfl, (identity x member).2⟩⟩,
      ⟨_, _, _, _, rfl, rfl, rfl, rfl, associative⟩⟩

theorem u64Laws (a b c : UInt64) : Laws u64Monoid Eq a b c := by
  refine (lawsTotal 0 saturatingAdd a b c).mpr ⟨fun x _ => ?_, ?_⟩
  · have bound := x.toNat_lt
    simp only [← UInt64.toNat_inj, saturatingAddNat, UInt64.toNat_zero]
    omega
  · simp only [← UInt64.toNat_inj, saturatingAddNat]
    omega

theorem vecLaws (T : Type) (a b c : List T) : Laws (vecMonoid T) Eq a b c :=
  (lawsTotal [] List.append a b c).mpr
    ⟨fun x _ => ⟨List.append_nil x, List.nil_append x⟩, List.append_assoc a b c⟩

def PullsBack (a b other : Int64) : Prop :=
  2 ^ 63 ≤ a.toInt + b.toInt ∧ other.toInt < 0 ∨ a.toInt + b.toInt < -2 ^ 63 ∧ 0 < other.toInt

theorem saturateTwice {x c : Int} (bound : -2 ^ 63 ≤ c ∧ c < 2 ^ 63) :
    max (-2 ^ 63) (min (max (-2 ^ 63) (min x (2 ^ 63 - 1)) + c) (2 ^ 63 - 1)) =
        max (-2 ^ 63) (min (x + c) (2 ^ 63 - 1)) ↔
      ¬ (2 ^ 63 ≤ x ∧ c < 0 ∨ x < -2 ^ 63 ∧ 0 < c) := by
  rcases lt_or_ge x (-2 ^ 63) with low | above
  · rw [max_eq_left (by omega : min x (2 ^ 63 - 1) ≤ -2 ^ 63)]
    omega
  · rcases lt_or_ge x (2 ^ 63) with inside | high
    · rw [min_eq_left (by omega : x ≤ 2 ^ 63 - 1), max_eq_right above]
      exact iff_of_true rfl (by omega)
    · rw [min_eq_right (by omega : 2 ^ 63 - 1 ≤ x), max_eq_right (by norm_num : (-2 ^ 63 : Int) ≤ 2 ^ 63 - 1)]
      omega

theorem i64Laws (a b c : Int64) :
    Laws i64Monoid Eq a b c ↔ ¬ PullsBack a b c ∧ ¬ PullsBack b c a := by
  have bounds : ∀ x : Int64, -2 ^ 63 ≤ x.toInt ∧ x.toInt < 2 ^ 63 := fun x => ⟨x.le_toInt, x.toInt_lt⟩
  have first := bounds a
  have second := bounds b
  have third := bounds c
  have identity : ∀ x ∈ [a, b, c], saturatingAddSigned x 0 = x ∧ saturatingAddSigned 0 x = x := by
    intro x _
    have bound := bounds x
    simp only [← Int64.toInt_inj, saturatingAddInt, Int64.toInt_zero]
    omega
  rw [i64Monoid, lawsTotal, and_iff_right identity, ← Int64.toInt_inj]
  -- cutting a sum off shows in the whole only where the third operand points back
  have left := saturateTwice (x := a.toInt + b.toInt) third
  have right := saturateTwice (x := b.toInt + c.toInt) first
  have apart : ¬ (PullsBack a b c ∧ PullsBack b c a) := by
    simp only [PullsBack]
    omega
  rw [show b.toInt + c.toInt + a.toInt = a.toInt + b.toInt + c.toInt by ring, Int.add_comm _ a.toInt] at right
  rw [saturatingAddInt, saturatingAddInt, saturatingAddInt, saturatingAddInt]
  rw [← PullsBack] at left right
  constructor
  · intro same
    have meet : ¬ PullsBack a b c ↔ ¬ PullsBack b c a := left.symm.trans ((Eq.congr_left same).trans right)
    by_cases ahead : PullsBack a b c
    · exact absurd ⟨ahead, not_not.mp fun behind => meet.mpr behind ahead⟩ apart
    · exact ⟨ahead, meet.mp ahead⟩
  · rintro ⟨ahead, behind⟩
    exact (left.mpr ahead).trans (right.mpr behind).symm

section Maps
variable {K : Type} [DecidableEq K] [Hashable K] {overflowChecks : Bool}

def Fits (overflowChecks : Bool) (a b : HashMap K UInt64) : Prop :=
  overflowChecks = true → ∀ k, (a.getD k 0).toNat + (b.getD k 0).toNat < 2 ^ 64

theorem addAssignSome {a b r : UInt64} : addAssign overflowChecks a b = some r ↔
    (overflowChecks = true → a.toNat + b.toNat < 2 ^ 64) ∧ a + b = r := by
  unfold addAssign
  split
  · rename_i overflows
    simp only [reduceCtorEq, false_iff, not_and]
    intro fits
    have := fits overflows.1
    omega
  · rename_i fits
    rw [Option.some_inj, iff_and_self]
    intro _ checks
    by_contra large
    exact fits ⟨checks, by omega⟩

theorem addEntries {entries : List (K × UInt64)} (distinct : entries.Pairwise (fun a b => a.1 ≠ b.1))
    (m r : HashMap K UInt64)
    (added : entries.foldlM (fun result e => addEntry (addAssign overflowChecks) 0 result e.1 e.2) m = some r) :
    (∀ e ∈ entries, (overflowChecks = true → (m.getD e.1 0).toNat + e.2.toNat < 2 ^ 64) ∧
        r[e.1]? = some (m.getD e.1 0 + e.2)) ∧
      ∀ k, (∀ e ∈ entries, e.1 ≠ k) → r[k]? = m[k]? := by
  induction entries generalizing m with
  | nil =>
    cases Option.some.inj added
    exact ⟨fun _ member => absurd member List.not_mem_nil, fun _ _ => rfl⟩
  | cons e rest ih =>
    obtain ⟨apart, distinct⟩ := List.pairwise_cons.mp distinct
    rw [List.foldlM_cons] at added
    simp only [addEntry, bind, Option.bind_eq_some_iff] at added
    obtain ⟨next, ⟨entry, sum, last⟩, added⟩ := added
    cases Option.some.inj last
    obtain ⟨fits, rfl⟩ := addAssignSome.mp sum
    obtain ⟨later, others⟩ := ih distinct _ added
    constructor
    · intro x member
      rcases List.mem_cons.mp member with rfl | old
      · refine ⟨fits, ?_⟩
        rw [others _ (fun y inside => (apart y inside).symm), HashMap.getElem?_insert_self]
      · have other : e.1 ≠ x.1 := apart x old
        simpa [HashMap.getD_insert, other] using later x old
    · intro k absent
      rw [others k (fun x inside => absent x (List.mem_cons_of_mem e inside)), HashMap.getElem?_insert]
      simp [absent e List.mem_cons_self]

theorem addEntriesSome {entries : List (K × UInt64)} (distinct : entries.Pairwise (fun a b => a.1 ≠ b.1))
    (m : HashMap K UInt64)
    (fits : overflowChecks = true → ∀ e ∈ entries, (m.getD e.1 0).toNat + e.2.toNat < 2 ^ 64) :
    ∃ r, entries.foldlM (fun result e => addEntry (addAssign overflowChecks) 0 result e.1 e.2) m = some r := by
  induction entries generalizing m with
  | nil => exact ⟨m, rfl⟩
  | cons e rest ih =>
    obtain ⟨apart, distinct⟩ := List.pairwise_cons.mp distinct
    have first : addAssign overflowChecks (m.getD e.1 0) e.2 = some (m.getD e.1 0 + e.2) :=
      addAssignSome.mpr ⟨fun checks => fits checks e List.mem_cons_self, rfl⟩
    obtain ⟨r, added⟩ := ih distinct (m.insert e.1 (m.getD e.1 0 + e.2)) (fun checks x member => by
      have other : e.1 ≠ x.1 := apart x member
      simpa [HashMap.getD_insert, other] using fits checks x (List.mem_cons_of_mem e member))
    refine ⟨r, ?_⟩
    rw [List.foldlM_cons, addEntry, first]
    exact added

theorem keysApart (m : HashMap K UInt64) : m.toList.Pairwise (fun a b => a.1 ≠ b.1) :=
  HashMap.distinct_keys_toList.imp (fun apart => by simpa using apart)

theorem mapAppendEntries (a b : HashMap K UInt64) :
    (hashMapMonoid K (addAssign overflowChecks) 0).mappend a b =
      b.toList.foldlM (fun result e => addEntry (addAssign overflowChecks) 0 result e.1 e.2) a :=
  HashMap.foldM_eq_foldlM_toList

theorem mapAppended {a b r : HashMap K UInt64}
    (appended : (hashMapMonoid K (addAssign overflowChecks) 0).mappend a b = some r) :
    Fits overflowChecks a b ∧ ∀ k : K, r[k]? = Option.merge (· + ·) a[k]? b[k]? := by
  rw [mapAppendEntries] at appended
  obtain ⟨sums, others⟩ := addEntries (keysApart b) a r appended
  constructor
  · intro checks k
    cases held : b[k]? with
    | none =>
      rw [HashMap.getD_eq_getD_getElem? (m := b), held]
      exact (a.getD k 0).toNat_lt
    | some v =>
      rw [HashMap.getD_eq_getD_getElem? (m := b), held]
      exact (sums (k, v) (HashMap.mem_toList_iff_getElem?_eq_some.mpr held)).1 checks
  · intro k
    cases held : b[k]? with
    | none =>
      rw [Option.merge_none_right]
      refine others k (fun e member same => ?_)
      rw [same.symm, HashMap.mem_toList_iff_getElem?_eq_some.mp member] at held
      cases held
    | some v =>
      rw [(sums (k, v) (HashMap.mem_toList_iff_getElem?_eq_some.mpr held)).2,
        HashMap.getD_eq_getD_getElem?]
      cases a[k]? with
      | none => simp
      | some u => rfl

theorem mapAppends {a b : HashMap K UInt64} (fits : Fits overflowChecks a b) :
    ∃ r, (hashMapMonoid K (addAssign overflowChecks) 0).mappend a b = some r := by
  rw [mapAppendEntries]
  refine addEntriesSome (keysApart b) a (fun checks e member => ?_)
  have sum := fits checks e.1
  rwa [HashMap.getD_eq_getD_getElem? (m := b), HashMap.mem_toList_iff_getElem?_eq_some.mp member] at sum

theorem mergedAmount {a b r : HashMap K UInt64}
    (merged : ∀ k : K, r[k]? = Option.merge (· + ·) a[k]? b[k]?) (k : K) :
    r.getD k 0 = a.getD k 0 + b.getD k 0 := by
  simp only [HashMap.getD_eq_getD_getElem?, merged k]
  cases a[k]? <;> cases b[k]? <;> simp

theorem mapLaws (a b c : HashMap K UInt64) :
    Laws (hashMapMonoid K (addAssign overflowChecks) 0) HashMap.Equiv a b c ↔
      (overflowChecks = true → ∀ k, (a.getD k 0).toNat + (b.getD k 0).toNat + (c.getD k 0).toNat < 2 ^ 64) := by
  have summed : ∀ x y : UInt64, x.toNat + y.toNat < 2 ^ 64 → (x + y).toNat = x.toNat + y.toNat :=
    fun x y small => by rw [UInt64.toNat_add, Nat.mod_eq_of_lt small]
  constructor
  · rintro ⟨-, ab, -, left, -, first, second, -, -, -⟩ checks k
    obtain ⟨fits, merged⟩ := mapAppended first
    have whole := (mapAppended second).1 checks k
    rwa [mergedAmount merged, summed _ _ (fits checks k)] at whole
  · intro bounded
    have emptyAmount : ∀ k : K, (∅ : HashMap K UInt64).getD k 0 = 0 := fun k => HashMap.getD_empty
    constructor
    · intro x _
      have rightFits : Fits overflowChecks x ∅ := fun _ k => by
        have bound := (x.getD k 0).toNat_lt
        rw [emptyAmount]
        simpa using bound
      have leftFits : Fits overflowChecks ∅ x := fun _ k => by
        have bound := (x.getD k 0).toNat_lt
        rw [emptyAmount]
        simpa using bound
      obtain ⟨r, after⟩ := mapAppends rightFits
      obtain ⟨r', before⟩ := mapAppends leftFits
      refine ⟨⟨r, after, .of_forall_getElem?_eq (fun k => ?_)⟩, ⟨r', before, .of_forall_getElem?_eq (fun k => ?_)⟩⟩
      · rw [(mapAppended after).2, HashMap.getElem?_empty, Option.merge_none_right]
      · rw [(mapAppended before).2, HashMap.getElem?_empty, Option.merge_none_left]
    · obtain ⟨ab, first⟩ := mapAppends (a := a) (b := b) (fun checks k => by
        have := bounded checks k
        omega)
      obtain ⟨bc, last⟩ := mapAppends (a := b) (b := c) (fun checks k => by
        have := bounded checks k
        omega)
      obtain ⟨left, whole⟩ := mapAppends (a := ab) (b := c) (fun checks k => by
        have fits := (mapAppended first).1 checks k
        rw [mergedAmount (mapAppended first).2, summed _ _ fits]
        exact bounded checks k)
      obtain ⟨right, whole'⟩ := mapAppends (a := a) (b := bc) (fun checks k => by
        have fits := (mapAppended last).1 checks k
        have := bounded checks k
        rw [mergedAmount (mapAppended last).2, summed _ _ fits]
        omega)
      refine ⟨ab, bc, left, right, first, whole, last, whole', .of_forall_getElem?_eq (fun k => ?_)⟩
      have grouped : ∀ x y z : Option UInt64, Option.merge (· + ·) (Option.merge (· + ·) x y) z =
          Option.merge (· + ·) x (Option.merge (· + ·) y z) := by
        rintro (_ | x) (_ | y) (_ | z) <;> simp [UInt64.add_assoc]
      rw [(mapAppended whole).2, (mapAppended first).2, (mapAppended whole').2, (mapAppended last).2, grouped]

end Maps

/-- The built-in instances satisfy the documented laws: the unsigned numbers and the vectors for
all values, the signed numbers where neither inner sum is cut off at the end that the third
operand points back from, the maps where the sums under no key overflow. -/
theorem builtinLaws (overflowChecks : Bool) (K T : Type) [DecidableEq K] [Hashable K]
    (a b c : UInt64) (i j l : Int64) (xs ys zs : List T) (m m' m'' : HashMap K UInt64) :
    Laws u64Monoid Eq a b c ∧
    (Laws i64Monoid Eq i j l ↔ ¬ PullsBack i j l ∧ ¬ PullsBack j l i) ∧
    Laws (vecMonoid T) Eq xs ys zs ∧
    (Laws (hashMapMonoid K (addAssign overflowChecks) 0) HashMap.Equiv m m' m'' ↔
      (overflowChecks = true →
        ∀ k, (m.getD k 0).toNat + (m'.getD k 0).toNat + (m''.getD k 0).toNat < 2 ^ 64)) :=
  ⟨u64Laws a b c, i64Laws i j l, vecLaws T xs ys zs, mapLaws m m' m''⟩

theorem signedGrouping : ¬ Laws i64Monoid Eq Int64.maxValue 1 (-1) ∧
    saturatingAddSigned (saturatingAddSigned Int64.maxValue 1) (-1) = Int64.maxValue - 1 ∧
    saturatingAddSigned Int64.maxValue (saturatingAddSigned 1 (-1)) = Int64.maxValue := by
  have left : saturatingAddSigned (saturatingAddSigned Int64.maxValue 1) (-1) = Int64.maxValue - 1 := by
    decide
  have right : saturatingAddSigned Int64.maxValue (saturatingAddSigned 1 (-1)) = Int64.maxValue := by
    decide
  refine ⟨fun laws => ?_, left, right⟩
  have grouped := ((lawsTotal 0 saturatingAddSigned _ _ _).mp laws).2
  rw [left, right] at grouped
  exact absurd grouped (by decide)

structure Monoidal.Lawful {V : Type} (m : Monoidal V) : Prop where
  rightIdentity : ∀ x, m.mappend x m.mempty = x
  leftIdentity : ∀ x, m.mappend m.mempty x = x
  associative : ∀ x y z, m.mappend (m.mappend x y) z = m.mappend x (m.mappend y z)

theorem rangeSplit (t : LsmTree) (st : Storage) {lo mid hi : Key} (lower : (compare lo mid).isLE = true)
    (upper : (compare mid hi).isLE = true) :
    t.range st lo hi = t.range st lo mid ++ t.range st (mid ++ [0]) hi := by
  have swap : ∀ a b : Key, (compare a b).isGE = (compare b a).isLE := fun a b => by
    have turned : compare a b = (compare b a).swap := OrientedCmp.eq_swap
    rw [turned, Ordering.isGE_swap]
  have covered : ∀ k, inRange lo hi k = true ↔ inRange lo mid k = true ∨ inRange (mid ++ [0]) hi k = true := by
    intro k
    simp only [inRange, Bool.and_eq_true, ByteOrder.zeroNext]
    by_cases below : (compare k mid).isLE = true
    · simp only [below, not_true_eq_false, false_and, or_false, and_true, and_iff_left_iff_imp]
      exact fun _ => TransCmp.isLE_trans below upper
    · have above : (compare k lo).isGE = true := by
        rw [swap]
        refine TransCmp.isLE_trans lower ?_
        rw [← swap]
        exact ByteOrder.geOfNotLe below
      simp [below, above]
  have sorted : Sorted (t.range st lo mid ++ t.range st (mid ++ [0]) hi) := by
    refine List.pairwise_append.mpr ⟨t.rangeSorted st lo mid, t.rangeSorted st _ hi, fun a first b second => ?_⟩
    have low := (LsmTree.rangeHolds.mp first).1
    have high := (LsmTree.rangeHolds.mp second).1
    simp only [inRange, Bool.and_eq_true] at low high
    by_contra other
    refine (ByteOrder.zeroNext mid b.1).mp high.1 (TransCmp.isLE_trans ?_ low.2)
    rw [← swap]
    cases order : compare a.1 b.1 <;> simp_all
  refine sortedUnique (t.rangeSorted st lo hi) sorted (fun e => ?_)
  rw [List.mem_append, LsmTree.rangeHolds, LsmTree.rangeHolds, LsmTree.rangeHolds, covered, or_and_right]

namespace Monoidal
variable {V : Type} {m : Monoidal V}

theorem foldRegroup (lawful : m.Lawful) (entries : List (Key × Value)) (accumulator : V) :
    entries.foldl m.add accumulator = m.mappend accumulator (entries.foldl m.add m.mempty) := by
  induction entries generalizing accumulator with
  | nil => exact (lawful.rightIdentity accumulator).symm
  | cons e rest ih =>
    have first : m.add accumulator e = m.mappend accumulator (m.add m.mempty e) := by
      unfold add
      cases m.deserialize e.2 with
      | none => exact (lawful.rightIdentity accumulator).symm
      | some value => exact congrArg (m.mappend accumulator) (lawful.leftIdentity value).symm
    rw [List.foldl_cons, List.foldl_cons, ih, first, lawful.associative, ← ih (m.add m.mempty e)]

theorem rangeFoldSplits (lawful : m.Lawful) (t : LsmTree) (st : Storage) (lo mid hi : Key)
    (lower : (compare lo mid).isLE = true) (upper : (compare mid hi).isLE = true) :
    m.treeRangeFold t st lo hi =
      m.mappend (m.treeRangeFold t st lo mid) (m.treeRangeFold t st (mid ++ [0]) hi) := by
  unfold treeRangeFold
  rw [rangeSplit t st lower upper, List.foldl_append, foldRegroup lawful]

end Monoidal

def u64Values : Monoidal UInt64 :=
  ⟨0, saturatingAdd, fun v => (Bytes.readExact 8 v).map (fun read => UInt64.ofNat (Bytes.readLE read.1))⟩

theorem u64Lawful : u64Values.Lawful := by
  have laws := fun x y z => (lawsTotal 0 saturatingAdd x y z).mp (u64Laws x y z)
  exact ⟨fun x => ((laws x x x).1 x List.mem_cons_self).1, fun x => ((laws x x x).1 x List.mem_cons_self).2,
    fun x y z => (laws x y z).2⟩

def storedNumbers : List Action := .insert [97] (Bytes.le 8 100) :: ownSteps 3 ++
  .insert [98] [7] :: ownSteps 3 ++ .insert [99] (Bytes.le 8 200) :: ownSteps 3

theorem rangeFoldSplitsStored : ∃ s,
    Trace.Run State.step (fun _ _ => True) (.fresh ⟨1, 4⟩) storedNumbers s ∧
      s.tree.levels.flatten.length = 3 ∧
      u64Values.treeRangeFold s.tree s.storage [97] [99] = 300 ∧
      u64Values.treeRangeFold s.tree s.storage [97] [99] =
        u64Values.mappend (u64Values.treeRangeFold s.tree s.storage [97] [97])
          (u64Values.treeRangeFold s.tree s.storage ([97] ++ [0]) [99]) := by
  have ended : (Trace.execWhile State.step (fun _ _ => true) (.fresh ⟨1, 4⟩) storedNumbers).any (fun s =>
      decide (s.tree.levels.flatten.length = 3 ∧
        u64Values.treeRangeFold s.tree s.storage [97] [99] = 300)) = true := by decide +kernel
  obtain ⟨s, ran, tested⟩ := Trace.runTo (fun _ _ _ _ => trivial) ended
  have both := of_decide_eq_true tested
  exact ⟨s, ran, both.1, both.2,
    Monoidal.rangeFoldSplits u64Lawful s.tree s.storage [97] [97] [99] (by decide) (by decide)⟩

end CardanoLsm
