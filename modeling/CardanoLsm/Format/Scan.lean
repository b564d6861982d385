import CardanoLsm.Format.Layout

/-! The scan of a run reads back the entries it was laid out from. -/
namespace CardanoLsm.Format
open Bytes Std

structure RawEntry where
  key : Key
  op : UInt8
  numbers : List UInt8
  keyLength : key.length < 2 ^ 32
  numbersLength : numbers.length = if op = 1 then 16 else 0

namespace RawEntry

def bytes (e : RawEntry) : List UInt8 := le 4 e.key.length ++ (e.key ++ e.op :: e.numbers)

def blobOffset (e : RawEntry) : Nat := readLE (e.numbers.take 8)
def valueLen (e : RawEntry) : Nat := readLE ((e.numbers.drop 8).take 8)

theorem bytesLength (e : RawEntry) : e.bytes.length = 5 + e.key.length + e.numbers.length := by
  simp [bytes]
  omega

end RawEntry

def Scan.visitRaw (lo hi : Key) (scan : Scan) (e : RawEntry) : Scan :=
  if inRange lo hi e.key then
    if e.op = 1 then ⟨scan.results ++ [(e.key, none)],
      scan.blobRequests ++ [(scan.results.length, e.blobOffset, e.valueLen)]⟩
    else { scan with results := scan.results ++ [(e.key, none)] }
  else scan

def Expressible (e : Key × Entry) : Prop := e.1.length < 2 ^ 32 ∧ valueLength e < 2 ^ 64

def Scan.visit (lo hi : Key) (blobOffset : Nat) (scan : Scan) (e : Key × Entry) : Scan :=
  if inRange lo hi e.1 then
    match e.2 with
    | some value => ⟨scan.results ++ [(e.1, none)],
        scan.blobRequests ++ [(scan.results.length, blobOffset, value.length)]⟩
    | none => { scan with results := scan.results ++ [(e.1, none)] }
  else scan

def Scan.visitAll (lo hi : Key) : Nat → List (Key × Entry) → Scan → Scan
  | _, [], scan => scan
  | blobOffset, e :: rest, scan =>
    visitAll lo hi (blobOffset + valueLength e) rest (scan.visit lo hi blobOffset e)

theorem outsideRange (lo hi key : Key) :
    (compare key lo = .lt ∨ compare key hi = .gt) ↔ inRange lo hi key = false := by
  unfold inRange
  cases compare key lo <;> cases compare key hi <;> decide

theorem takeBytesAppend {n : Nat} {first : List UInt8} (length : first.length = n)
    (rest : List UInt8) : takeBytes n (first ++ rest) = .ok (first, rest) := by
  rw [takeBytes, readExactAppend length]

theorem scanRaw {lo hi : Key} {fuel : Nat} (e : RawEntry) (rest : List UInt8) (scan : Scan) :
    scanEntries lo hi (fuel + 1) (e.bytes ++ rest) scan =
      scanEntries lo hi fuel rest (scan.visitRaw lo hi e) := by
  have keyLen : readLE (le 4 e.key.length) = e.key.length := readLeBounded e.keyLength
  have some_ : e.bytes ++ rest ≠ [] := by simp [RawEntry.bytes]
  have bytes : e.bytes ++ rest = le 4 e.key.length ++ (e.key ++ ([e.op] ++ (e.numbers ++ rest))) := by
    simp [RawEntry.bytes]
  have head := readExactAppend (leLength 4 e.key.length) (e.key ++ ([e.op] ++ (e.numbers ++ rest)))
  have bodyLen : takeBytes (readLE (le 4 e.key.length)) (e.key ++ ([e.op] ++ (e.numbers ++ rest))) =
      .ok (e.key, [e.op] ++ (e.numbers ++ rest)) := by
    rw [keyLen]
    exact takeBytesAppend rfl _
  have op : takeBytes 1 ([e.op] ++ (e.numbers ++ rest)) = .ok ([e.op], e.numbers ++ rest) :=
    takeBytesAppend (rfl : [e.op].length = 1) _
  rw [scanEntries, if_neg some_, bytes, head]
  simp only [bodyLen, op, bind, Except.bind, Scan.visitRaw, outsideRange, List.cons.injEq, and_true]
  have length := e.numbersLength
  by_cases insert : e.op = 1
  · rw [if_pos insert] at length
    have split : e.numbers ++ rest = e.numbers.take 8 ++ ((e.numbers.drop 8).take 8 ++ rest) := by
      have all : (e.numbers.drop 8).take 8 = e.numbers.drop 8 := List.take_of_length_le (by simp [length])
      rw [all, ← List.append_assoc, List.take_append_drop]
    have first : takeBytes 8 (e.numbers ++ rest) = .ok (e.numbers.take 8, (e.numbers.drop 8).take 8 ++ rest) := by
      rw [split]
      exact takeBytesAppend (by simp [length]) _
    have second : takeBytes 8 ((e.numbers.drop 8).take 8 ++ rest) = .ok ((e.numbers.drop 8).take 8, rest) :=
      takeBytesAppend (by simp [length]) rest
    simp only [insert, first, second, if_true, RawEntry.blobOffset, RawEntry.valueLen]
    cases inRange lo hi e.key <;> rfl
  · rw [if_neg insert] at length
    have none : e.numbers = [] := List.length_eq_zero_iff.mp length
    simp only [insert, none, List.nil_append, if_false]
    cases inRange lo hi e.key <;> rfl

structure RawEntry.Stores (raw : RawEntry) (blobOffset : Nat) (e : Key × Entry) : Prop where
  bytes : raw.bytes = record blobOffset e
  key : raw.key = e.1
  delete : e.2 = none → raw.op = 0
  insert : ∀ value, e.2 = some value → raw.op = 1 ∧ raw.blobOffset = blobOffset ∧ raw.valueLen = value.length

theorem recordRaw {blobOffset : Nat} {e : Key × Entry} (expressible : Expressible e)
    (small : blobOffset < 2 ^ 64) : ∃ raw : RawEntry, raw.Stores blobOffset e := by
  obtain ⟨key, value⟩ := e
  cases value with
  | none =>
    refine ⟨⟨key, 0, [], expressible.1, rfl⟩, by simp [RawEntry.bytes, record, opBytes], rfl, fun _ => rfl, ?_⟩
    intro _ stored
    cases stored
  | some value =>
    have bound : value.length < 2 ^ 64 := expressible.2
    refine ⟨⟨key, 1, le 8 blobOffset ++ le 8 value.length, expressible.1, by simp⟩,
      by simp [RawEntry.bytes, record, opBytes], rfl, (fun deleted => by cases deleted), ?_⟩
    intro _ stored
    cases stored
    refine ⟨rfl, ?_, ?_⟩
    · rw [RawEntry.blobOffset, List.take_left' (leLength 8 blobOffset), readLeBounded small]
    · rw [RawEntry.valueLen, List.drop_left' (leLength 8 blobOffset), List.take_of_length_le (by simp),
        readLeBounded bound]

theorem RawEntry.Stores.visit {raw : RawEntry} {blobOffset : Nat} {e : Key × Entry} (stores : raw.Stores blobOffset e)
    (lo hi : Key) (scan : Scan) : scan.visitRaw lo hi raw = scan.visit lo hi blobOffset e := by
  rw [Scan.visitRaw, Scan.visit, stores.key]
  cases value : e.2 with
  | none => simp [stores.delete value]
  | some bytes =>
    obtain ⟨op, offset, length⟩ := stores.insert bytes value
    simp [op, offset, length]

theorem scanRecord {lo hi : Key} {fuel blobOffset : Nat} {e : Key × Entry} (expressible : Expressible e)
    (small : blobOffset < 2 ^ 64) (rest : List UInt8) (scan : Scan) :
    scanEntries lo hi (fuel + 1) (record blobOffset e ++ rest) scan =
      scanEntries lo hi fuel rest (scan.visit lo hi blobOffset e) := by
  obtain ⟨raw, stores⟩ := recordRaw expressible small
  rw [← stores.bytes, scanRaw, stores.visit]

theorem scanLaidOut {lo hi : Key} {entries : List (Key × Entry)} {fuel blobOffset : Nat}
    (expressible : ∀ e ∈ entries, Expressible e) (enough : entries.length ≤ fuel)
    (small : blobOffset + (entries.map valueLength).sum < 2 ^ 64) (scan : Scan) :
    scanEntries lo hi fuel (keyopsOf blobOffset entries) scan =
      .ok (scan.visitAll lo hi blobOffset entries) := by
  induction entries generalizing fuel blobOffset scan with
  | nil =>
    cases fuel with
    | zero => rfl
    | succ fuel => simp [keyopsOf, scanEntries, Scan.visitAll]
  | cons e rest ih =>
    cases fuel with
    | zero => simp at enough
    | succ fuel =>
      rw [List.map_cons, List.sum_cons] at small
      rw [keyopsOf, scanRecord (expressible e List.mem_cons_self) (by omega),
        ih (fun x member => expressible x (List.mem_cons_of_mem e member)) (by simpa using enough)
          (by omega)]
      rfl

structure Filled (blobs : List UInt8) (scan : Scan) (out : List (Key × Entry)) : Prop where
  inside : ∀ r ∈ scan.blobRequests, r.1 < scan.results.length
  values : ∃ values, readBatch .blobs (some blobs) scan.blobRequests = .ok values ∧
    values.length = scan.blobRequests.length ∧ fillIn scan.results scan.blobRequests values = out

theorem Filled.nothing (blobs : List UInt8) : Filled blobs ⟨[], []⟩ [] :=
  ⟨fun _ member => absurd member List.not_mem_nil, [], rfl, rfl, rfl⟩

theorem modifyAppend {α : Type} (f : α → α) {front : List α} {i : Nat} (inside : i < front.length)
    (back : List α) : (front ++ back).modify i f = front.modify i f ++ back := by
  induction front generalizing i with
  | nil => simp at inside
  | cons a front ih =>
    cases i with
    | zero => rfl
    | succ i =>
      have later := ih (i := i) (by simpa using inside)
      simpa using later

theorem modifyLast {α : Type} (f : α → α) (front : List α) (a : α) :
    (front ++ [a]).modify front.length f = front ++ [f a] := by
  induction front with
  | nil => rfl
  | cons b front ih => simpa using ih

theorem patchAppend (patches : List ((Nat × Nat × Nat) × List UInt8)) {results : List (Key × Entry)}
    (inside : ∀ r ∈ patches, r.1.1 < results.length) (more : List (Key × Entry)) :
    patches.foldl (fun results r => results.modify r.1.1 (fun e => (e.1, some r.2))) (results ++ more) =
      patches.foldl (fun results r => results.modify r.1.1 (fun e => (e.1, some r.2))) results ++
        more := by
  induction patches generalizing results with
  | nil => rfl
  | cons r rest ih =>
    rw [List.foldl_cons, List.foldl_cons, modifyAppend _ (inside r List.mem_cons_self)]
    refine ih (fun x member => ?_)
    rw [List.length_modify]
    exact inside x (List.mem_cons_of_mem r member)

theorem fillInAppend {results : List (Key × Entry)} {requests : List (Nat × Nat × Nat)}
    (inside : ∀ r ∈ requests, r.1 < results.length) (values : List (List UInt8))
    (more : List (Key × Entry)) :
    fillIn (results ++ more) requests values = fillIn results requests values ++ more :=
  patchAppend _ (fun r member => inside r.1 (List.of_mem_zip member).1) more

theorem fillInLength (results : List (Key × Entry)) (requests : List (Nat × Nat × Nat))
    (values : List (List UInt8)) : (fillIn results requests values).length = results.length := by
  unfold fillIn
  generalize requests.zip values = patches
  induction patches generalizing results with
  | nil => rfl
  | cons r rest ih => rw [List.foldl_cons, ih, List.length_modify]

theorem Filled.visit {blobs : List UInt8} {scan : Scan} {out : List (Key × Entry)}
    {blobOffset : Nat} {e : Key × Entry} (filled : Filled blobs scan out) (lo hi : Key)
    (stored : readAt blobs blobOffset (valueLength e) = some (e.2.getD [])) :
    Filled blobs (scan.visit lo hi blobOffset e)
      (out ++ [e].filter (fun e => inRange lo hi e.1)) := by
  obtain ⟨key, value⟩ := e
  obtain ⟨values, read, count, rfl⟩ := filled.values
  unfold Scan.visit
  by_cases inside : inRange lo hi key = true
  · simp only [inside, if_true, List.filter_cons, List.filter_nil]
    cases value with
    | none =>
      refine ⟨fun r member => ?_, values, read, count, fillInAppend filled.inside values _⟩
      have := filled.inside r member
      simp only [List.length_append, List.length_singleton]
      omega
    | some value =>
      have placed : (fillIn scan.results scan.blobRequests values).length = scan.results.length :=
        fillInLength _ _ _
      refine ⟨fun r member => ?_, values ++ [value], ?_, by simp [count], ?_⟩
      · simp only [List.length_append, List.length_singleton]
        rcases List.mem_append.mp member with old | new
        · have := filled.inside r old
          omega
        · rw [List.mem_singleton.mp new]
          exact Nat.lt_succ_self _
      · have blob : readRange .blobs (some blobs) blobOffset value.length = .ok value := by
          have stored : readAt blobs blobOffset value.length = some value := stored
          simp only [readRange, stored]
        simp only [readBatch] at read
        simp [readBatch, read, blob, bind, Except.bind, pure, Except.pure]
      · have apart : (scan.blobRequests ++ [(scan.results.length, blobOffset, value.length)]).zip
            (values ++ [value]) = scan.blobRequests.zip values ++
              [((scan.results.length, blobOffset, value.length), value)] := by
          rw [List.zip_append count.symm]
          rfl
        have before := fillInAppend filled.inside values [(key, none)]
        unfold fillIn at before placed ⊢
        rw [apart, List.foldl_append, before, List.foldl_cons, List.foldl_nil, ← placed, modifyLast]
  · simp only [inside, Bool.false_eq_true, if_false, List.filter_cons, List.filter_nil,
      List.append_nil]
    exact ⟨filled.inside, values, read, count, rfl⟩

theorem Filled.visitAll {blobs : List UInt8} (lo hi : Key) {entries : List (Key × Entry)}
    {scan : Scan} {out : List (Key × Entry)} (filled : Filled blobs scan out) (before : List UInt8)
    (split : blobs = before ++ blobsOf entries) :
    Filled blobs (scan.visitAll lo hi before.length entries)
      (out ++ entries.filter (fun e => inRange lo hi e.1)) := by
  induction entries generalizing scan out before with
  | nil => simpa [Scan.visitAll] using filled
  | cons e rest ih =>
    have parts : blobs = before ++ (e.2.getD [] ++ blobsOf rest) := split
    have stored : readAt blobs before.length (valueLength e) = some (e.2.getD []) := by
      rw [parts]
      exact readAtAppend rfl rfl _
    have offset : (before ++ e.2.getD []).length = before.length + valueLength e := by
      rw [List.length_append]
      rfl
    have later := ih (filled.visit lo hi stored) (before ++ e.2.getD []) (by
      rw [parts, List.append_assoc])
    rw [offset, List.append_assoc, ← List.filter_append] at later
    exact later

theorem entriesFewer (entries : List (Key × Entry)) :
    entries.length ≤ (keyopsOf 0 entries).length := by
  rw [keyopsLength]
  induction entries with
  | nil => simp
  | cons e rest ih =>
    have some : 1 ≤ recordLength e := by
      unfold recordLength
      omega
    simp only [List.length_cons, List.map_cons, List.sum_cons]
    omega

theorem rangeLaidOut {disk : Disk} {handle : SsTableHandle} {entries : List (Key × Entry)}
    (expressible : ∀ e ∈ entries, Expressible e)
    (small : (entries.map valueLength).sum < 2 ^ 64)
    (keyops : (disk handle.runNumber).keyops = some (keyopsOf 0 entries))
    (blobs : (disk handle.runNumber).blobs = some (blobsOf entries)) (lo hi : Key) :
    rangeWithTombstones disk handle lo hi = .ok (entries.filter (fun e => inRange lo hi e.1)) := by
  have scanned : scanEntries lo hi (keyopsOf 0 entries).length (keyopsOf 0 entries) ⟨[], []⟩ =
      .ok (Scan.visitAll lo hi 0 entries ⟨[], []⟩) :=
    scanLaidOut expressible (entriesFewer entries) (by omega) ⟨[], []⟩
  have filled := (Filled.nothing (blobsOf entries)).visitAll lo hi [] rfl
  obtain ⟨values, read, count, filledIn⟩ := filled.values
  rw [List.length_nil] at read count filledIn
  simp only [rangeWithTombstones, readFile, keyops, blobs, bind, Except.bind, scanned]
  split
  · rename_i none
    have noValues : values = [] := List.length_eq_zero_iff.mp (by rw [count, none]; rfl)
    rw [none, noValues] at filledIn
    exact congrArg Except.ok filledIn
  · simp only [read, filledIn, List.nil_append]
    rfl

end CardanoLsm.Format
