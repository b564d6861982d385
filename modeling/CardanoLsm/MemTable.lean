import CardanoLsm.Lib.Layered

/-! Keys, values, configuration and the write buffer (`lib.rs`). A key is its byte
string under the lexicographic order; a BTreeMap is an ordered map with the same
order. Counters are natural numbers; sums and products that can overflow say so. -/
namespace CardanoLsm
open Std Layered

abbrev Key := List UInt8
abbrev Value := List UInt8

abbrev Entry := Option Value
abbrev Entries := Layer Key Entry

instance : DecidableEq Entries := inferInstance

def maxKey : Key := List.replicate 256 0xFF

def inRange (lo hi k : Key) : Bool := (compare k lo).isGE && (compare k hi).isLE

theorem inRangeEmpty (hi k : Key) : inRange [] hi k = (compare k hi).isLE := by
  cases k <;> simp [inRange, compare, List.compareLex]

theorem inRangeReversed {lo hi : Key} (reversed : compare lo hi = .gt) (k : Key) :
    inRange lo hi k = false := by
  rw [Bool.eq_false_iff]
  intro inside
  simp only [inRange, Bool.and_eq_true] at inside
  have up : (compare lo k).isLE := by
    have swap : compare lo k = (compare k lo).swap := OrientedCmp.eq_swap
    rw [swap, Ordering.isLE_swap]
    exact inside.1
  have through := TransCmp.isLE_trans up inside.2
  simp [reversed] at through

theorem inRangeSelf (k : Key) : inRange k k k = true := by simp [inRange]

theorem inRangePoint {k x : Key} : inRange k k x = true ↔ x = k := by
  constructor
  · intro h
    simp only [inRange, Bool.and_eq_true] at h
    have same : compare x k = .eq := by
      cases c : compare x k <;> simp_all
    exact LawfulEqCmp.eq_of_compare same
  · rintro rfl; exact inRangeSelf _

/-- A number in a 64-bit word (`usize`, `u64`): where it does not fit the source panics, which is
`none`, or wraps, as the build checks overflows or not. -/
def fitWord (overflowChecks : Bool) (n : Nat) : Option Nat :=
  if n < 2 ^ 64 then some n else if overflowChecks then none else some (n % 2 ^ 64)

def usizeMul (overflowChecks : Bool) (a b : Nat) : Option Nat := fitWord overflowChecks (a * b)

theorem fitWordFits {overflowChecks : Bool} {n : Nat} (fits : n < 2 ^ 64) : fitWord overflowChecks n = some n :=
  if_pos fits

theorem fitWordMod {overflowChecks : Bool} {n m : Nat} (fit : fitWord overflowChecks n = some m) : m = n % 2 ^ 64 := by
  unfold fitWord at fit
  split at fit
  · rename_i fits
    cases fit
    exact (Nat.mod_eq_of_lt fits).symm
  · split at fit
    · cases fit
    · cases fit
      rfl

theorem fitWordLe {overflowChecks : Bool} {n m : Nat} (fit : fitWord overflowChecks n = some m) : m ≤ n :=
  fitWordMod fit ▸ Nat.mod_le _ _

theorem fitWordNone {overflowChecks : Bool} {n : Nat} :
    fitWord overflowChecks n = none ↔ overflowChecks = true ∧ 2 ^ 64 ≤ n := by
  unfold fitWord
  split
  · rename_i fits
    exact iff_of_false (by simp) (fun both => absurd fits (Nat.not_lt.mpr both.2))
  · rename_i large
    cases overflowChecks with
    | true => exact iff_of_true rfl ⟨rfl, Nat.not_lt.mp large⟩
    | false => exact iff_of_false (by simp) (fun both => absurd both.1 (by decide))

structure LsmConfig where
  memtableSize : Nat
  level0CompactionTrigger : Nat
  deriving DecidableEq, Repr

structure MemTable where
  data : Entries
  sizeBytes : Nat
  sequenceNumber : Nat
  deriving DecidableEq

namespace MemTable

def new (sequenceNumber : Nat) : MemTable := ⟨∅, 0, sequenceNumber⟩

def sizeWithout (m : MemTable) (key : Key) : Nat :=
  match m.data[key]? with
  | some (some v) => m.sizeBytes - v.length
  | some none => m.sizeBytes
  | none => m.sizeBytes + key.length

def insert (m : MemTable) (key : Key) (value : Value) : MemTable :=
  { m with data := m.data.insert key (some value), sizeBytes := m.sizeWithout key + value.length }

def delete (m : MemTable) (key : Key) : MemTable :=
  { m with data := m.data.insert key none, sizeBytes := m.sizeWithout key }

def get (m : MemTable) (key : Key) : Option Entry := m.data[key]?

def isEmpty (m : MemTable) : Bool := m.data.isEmpty

def iter (m : MemTable) : List (Key × Entry) := m.data.toList

def range (m : MemTable) (lo hi : Key) : List (Key × Entry) :=
  if compare lo hi = .gt then [] else m.data.toList.filter (fun e => inRange lo hi e.1)

theorem rangeEq (m : MemTable) (lo hi : Key) :
    m.range lo hi = m.data.toList.filter (fun e => inRange lo hi e.1) := by
  unfold range
  split
  · rename_i reversed
    symm
    rw [List.filter_eq_nil_iff]
    intro e _
    simp [inRangeReversed reversed]
  · rfl

/-! The size counter. It is adjusted by differences; what a call takes off is the value that it overwrites. -/

inductive Call where
  | insert (key : Key) (value : Value)
  | delete (key : Key)
  deriving DecidableEq, Repr

def Call.key : Call → Key
  | .insert key _ => key
  | .delete key => key

def apply (m : MemTable) : Call → MemTable
  | .insert key value => m.insert key value
  | .delete key => m.delete key

def subtracted (m : MemTable) (key : Key) : Nat :=
  match m.data[key]? with
  | some (some v) => v.length
  | _ => 0

def entryLength (e : Key × Entry) : Nat := e.1.length + e.2.elim 0 List.length

def contentLength (m : MemTable) : Nat := total entryLength m.data

theorem sizeWithoutEq (m : MemTable) (key : Key) (enough : m.subtracted key ≤ m.sizeBytes) :
    m.sizeWithout key + m.data[key]?.elim 0 (fun old => entryLength (key, old)) = m.sizeBytes + key.length := by
  unfold sizeWithout subtracted at *
  split at enough
  · rename_i v held
    simp only [held, Option.elim_some, entryLength]
    omega
  · cases held : m.data[key]? with
    | none => rfl
    | some e =>
      cases e with
      | none => simp [entryLength]
      | some v => exact absurd held (by rename_i other; exact other v)

theorem subtractedLe (m : MemTable) (key : Key) : m.subtracted key ≤ m.contentLength := by
  have parts := totalSplit entryLength m.data key
  unfold subtracted contentLength
  split
  · rename_i v held
    rw [held] at parts
    simp only [Option.elim_some, entryLength] at parts ⊢
    omega
  · exact Nat.zero_le _

theorem applySize (m : MemTable) (counted : m.sizeBytes = m.contentLength) (call : Call) :
    (m.apply call).sizeBytes = (m.apply call).contentLength := by
  have without := m.sizeWithoutEq call.key (counted ▸ m.subtractedLe call.key)
  cases call with
  | insert key value =>
    have grown := totalInsert entryLength m.data key (some value)
    simp only [apply, insert, contentLength, Call.key, entryLength, Option.elim_some] at *
    omega
  | delete key =>
    have grown := totalInsert entryLength m.data key none
    simp only [apply, delete, contentLength, Call.key, entryLength, Option.elim_none] at *
    omega

def run (sequenceNumber : Nat) (calls : List Call) : MemTable := calls.foldl apply (new sequenceNumber)

theorem runCounted (sequenceNumber : Nat) (calls : List Call) :
    (run sequenceNumber calls).sizeBytes = (run sequenceNumber calls).contentLength := by
  have kept : ∀ (calls : List Call) (m : MemTable), m.sizeBytes = m.contentLength →
      (calls.foldl apply m).sizeBytes = (calls.foldl apply m).contentLength := by
    intro calls
    induction calls with
    | nil => exact fun m counted => counted
    | cons call rest ih => exact fun m counted => ih (m.apply call) (m.applySize counted call)
  exact kept calls (new sequenceNumber) rfl

/-- In whatever order the calls come, the counter is the length of all keys and values present; no subtraction of
the next call goes below zero, and nothing on the way exceeds the length after it. -/
theorem sizeExact (sequenceNumber : Nat) (calls : List Call) :
    (run sequenceNumber calls).sizeBytes = (run sequenceNumber calls).contentLength ∧
      ∀ call : Call, (run sequenceNumber calls).subtracted call.key ≤ (run sequenceNumber calls).sizeBytes ∧
        (run sequenceNumber calls).sizeWithout call.key ≤ ((run sequenceNumber calls).apply call).contentLength := by
  have counted := runCounted sequenceNumber calls
  refine ⟨counted, fun call => ⟨counted ▸ subtractedLe _ call.key, ?_⟩⟩
  rw [← applySize _ counted call]
  cases call with
  | insert key value => exact Nat.le_add_right _ _
  | delete key => exact Nat.le_refl _

end MemTable
end CardanoLsm
