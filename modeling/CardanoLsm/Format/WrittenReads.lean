import CardanoLsm.Format.Backends
import CardanoLsm.Lib.Assoc

/-! Runs that were written, read by either backend. -/
namespace CardanoLsm.Format
open Bytes Std

def valuesIn (lo hi : Key) (entries : List (Key × Entry)) : List Value :=
  (entries.filter (fun e => inRange lo hi e.1)).filterMap Prod.snd

def EntriesAgree (uring : TokioUring) (entries : List (Key × Entry)) (lo hi : Key) : Prop :=
  ∃ seen later, entries = seen ++ later ∧
    (keyopsOf 0 seen).length ≤ uring.took 0 (min 4096 (keyopsOf 0 entries).length) ∧
    uring.took 0 (min 4096 (keyopsOf 0 entries).length) < (keyopsOf 0 seen).length + 4 ∧
    (∀ e ∈ later, inRange lo hi e.1 = false) ∧
    ∀ (j : Nat) (value : Value), (valuesIn lo hi seen)[j]? = some value →
      ∀ b ∈ value.drop (uring.took (1 + j) value.length), b = 0

namespace Laid
variable {blobOffset : Nat} {entries front back : List (Key × Entry)} {es seen later : List RawEntry} {lo hi : Key}

theorem keys (laid : Laid blobOffset entries es) : es.map RawEntry.key = entries.map Prod.fst := by
  induction laid with
  | nil blobOffset => rfl
  | cons stores tail ih => rw [List.map_cons, List.map_cons, ih, stores.key]

theorem splitEntries (laid : Laid blobOffset (front ++ back) es) : ∃ seen later, es = seen ++ later ∧
    Laid blobOffset front seen ∧ Laid (blobOffset + (front.map valueLength).sum) back later := by
  induction front generalizing blobOffset es with
  | nil => exact ⟨[], es, rfl, .nil blobOffset, by simpa using laid⟩
  | cons e rest ih =>
    cases laid with
    | cons stores tail =>
      obtain ⟨seen, later, rfl, first, second⟩ := ih tail
      refine ⟨_ :: seen, later, rfl, .cons stores first, ?_⟩
      rwa [List.map_cons, List.sum_cons, ← Nat.add_assoc]

theorem splitRecords (laid : Laid blobOffset entries (seen ++ later)) : ∃ front back, entries = front ++ back ∧
    Laid blobOffset front seen ∧ Laid (blobOffset + (front.map valueLength).sum) back later := by
  induction seen generalizing blobOffset entries with
  | nil => exact ⟨[], entries, rfl, .nil blobOffset, by simpa using laid⟩
  | cons raw rest ih =>
    cases laid with
    | cons stores tail =>
      obtain ⟨front, back, rfl, first, second⟩ := ih tail
      refine ⟨_ :: front, back, rfl, .cons stores first, ?_⟩
      rwa [List.map_cons, List.sum_cons, ← Nat.add_assoc]

theorem hiddenIff (laid : Laid blobOffset entries es) :
    visible lo hi es = [] ↔ ∀ e ∈ entries, inRange lo hi e.1 = false := by
  have byKey : visible lo hi es = [] ↔ ∀ key ∈ es.map RawEntry.key, inRange lo hi key = false := by
    simp [visible, List.filter_eq_nil_iff]
  rw [byKey, laid.keys]
  simp only [List.mem_map, forall_exists_index, and_imp, forall_apply_eq_imp_iff₂]

theorem values (laid : Laid blobOffset entries es) {before after : List UInt8} (start : before.length = blobOffset) :
    List.Forall₂ (fun (raw : RawEntry) (value : Value) => raw.valueLen = value.length ∧
        readAt (before ++ (blobsOf entries ++ after)) raw.blobOffset raw.valueLen = some value)
      (inserts (visible lo hi es)) (valuesIn lo hi entries) := by
  induction laid generalizing before with
  | nil blobOffset => exact .nil
  | cons stores tail ih =>
    rename_i blobOffset e rest raw raws
    have length : (before ++ e.2.getD []).length = blobOffset + valueLength e := by
      rw [List.length_append, start]
      rfl
    have later := ih length
    have blobs : before ++ (blobsOf (e :: rest) ++ after) = (before ++ e.2.getD []) ++ (blobsOf rest ++ after) := by
      simp [blobsOf]
    rw [← blobs] at later
    by_cases inside : inRange lo hi e.1 = true
    · have shown : visible lo hi (raw :: raws) = raw :: visible lo hi raws := by simp [visible, stores.key, inside]
      have kept : valuesIn lo hi (e :: rest) = e.2.toList ++ valuesIn lo hi rest := by
        simp only [valuesIn, List.filter_cons, inside, if_true]
        cases value : e.2 <;> simp [value]
      rw [shown, kept]
      cases value : e.2 with
      | none =>
        have skipped : inserts (raw :: visible lo hi raws) = inserts (visible lo hi raws) := by
          simp [inserts, stores.delete value]
        rw [skipped]
        exact later
      | some bytes =>
        obtain ⟨op, offset, count⟩ := stores.insert bytes value
        have first : inserts (raw :: visible lo hi raws) = raw :: inserts (visible lo hi raws) := by
          simp [inserts, op]
        have here : readAt (before ++ (bytes ++ (blobsOf rest ++ after))) blobOffset bytes.length = some bytes :=
          readAtAppend start rfl _
        rw [first]
        refine .cons ⟨count, ?_⟩ later
        rw [blobs, value, offset, count, Option.getD_some, List.append_assoc]
        exact here
    · have hidden : visible lo hi (raw :: raws) = visible lo hi raws := by simp [visible, stores.key, inside]
      have kept : valuesIn lo hi (e :: rest) = valuesIn lo hi rest := by simp [valuesIn, inside]
      rw [hidden, kept]
      exact later

end Laid

theorem wholeIff (uring : TokioUring) {call : Nat} {data value : List UInt8} {offset length : Nat}
    (count : length = value.length) (there : readAt data offset length = some value) :
    Whole uring call data offset length ↔ ∀ b ∈ value.drop (uring.took call value.length), b = 0 := by
  unfold readAt at there
  split at there
  · rename_i inside
    rw [Whole, Option.some.inj there, ← count]
    exact and_iff_right inside
  · cases there

theorem readPart (uring : TokioUring) (data : List UInt8) :
    uring.readAt 0 data 0 4096 = data.take (uring.took 0 (min 4096 data.length)) ∧
      (uring.readAt 0 data 0 4096).length = uring.took 0 (min 4096 data.length) := by
  have few := uring.within 0 (min 4096 data.length)
  have part : uring.readAt 0 data 0 4096 = data.take (uring.took 0 (min 4096 data.length)) := rfl
  refine ⟨part, ?_⟩
  rw [part, List.length_take]
  omega

theorem rangeAgreesEntries (uring : TokioUring) {entries : List (Key × Entry)} (expressible : ∀ e ∈ entries, Expressible e)
    (small : (entries.map valueLength).sum < 2 ^ 64) (lo hi : Key) :
    RangeAgrees uring (keyopsOf 0 entries) (blobsOf entries) lo hi ↔ EntriesAgree uring entries lo hi := by
  obtain ⟨es, laid⟩ := keyopsRaw expressible (show 0 + (entries.map valueLength).sum < 2 ^ 64 by omega)
  have whole : ReadsAs (keyopsOf 0 entries) es := ⟨[], by rw [laid.bytes, List.append_nil], by decide⟩
  obtain ⟨part, length⟩ := readPart uring (keyopsOf 0 entries)
  have zeros : ∀ {front back : List (Key × Entry)} {seen : List RawEntry}, Laid 0 front seen →
      ((∀ j e, (inserts (visible lo hi seen))[j]? = some e →
          Whole uring (1 + j) (blobsOf (front ++ back)) e.blobOffset e.valueLen) ↔
        ∀ (j : Nat) (value : Value), (valuesIn lo hi front)[j]? = some value →
          ∀ b ∈ value.drop (uring.took (1 + j) value.length), b = 0) := by
    intro front back seen first
    have blobs : blobsOf (front ++ back) = [] ++ (blobsOf front ++ blobsOf back) := List.flatMap_append
    rw [blobs]
    exact Assoc.relatedForall (first.values rfl) (fun j raw value pair => wholeIff uring pair.1 pair.2)
  constructor
  · rintro (⟨seen, later, reads, ⟨tail, same, short⟩, hidden, wholly⟩ | ⟨stuck, -⟩)
    · obtain rfl := whole.unique reads
      obtain ⟨front, back, rfl, first, second⟩ := laid.splitRecords
      have lengths := congrArg List.length same
      rw [length, List.length_append, ← first.bytes] at lengths
      exact ⟨front, back, rfl, by omega, by omega, second.hiddenIff.mp hidden, (zeros first).mp wholly⟩
    · exact absurd ⟨es, whole⟩ stuck
  · rintro ⟨front, back, rfl, low, high, hidden, left⟩
    obtain ⟨seen, later, rfl, first, second⟩ := laid.splitEntries
    have bytes : rawBytes (seen ++ later) = rawBytes seen ++ rawBytes later := List.flatMap_append
    refine Or.inl ⟨seen, later, whole, ⟨(rawBytes later).take (uring.took 0 (min 4096 (keyopsOf 0 (front ++ back)).length) -
      (rawBytes seen).length), ?_, ?_⟩, second.hiddenIff.mpr hidden, (zeros first).mpr left⟩
    · rw [first.bytes] at low
      rw [part, laid.bytes, bytes, List.take_append, ← bytes, ← laid.bytes, List.take_of_length_le low]
    · rw [first.bytes] at low high
      rw [List.length_take]
      omega

theorem numbersRead {m blobOffset : Nat} (valueLen : Nat) (few : m ≤ 16) (small : blobOffset < 256 ^ 8) :
    readLE ((((le 8 blobOffset ++ le 8 valueLen).take m ++ List.replicate (16 - m) 0).drop 8).take 8) =
        valueLen % 256 ^ (m - 8) ∧
      (8 ≤ m → readLE (((le 8 blobOffset ++ le 8 valueLen).take m ++ List.replicate (16 - m) 0).take 8) = blobOffset) := by
  have eight := leLength 8 blobOffset
  rcases Nat.lt_or_ge m 8 with short | long
  · have front : (le 8 blobOffset ++ le 8 valueLen).take m = (le 8 blobOffset).take m :=
      List.take_append_of_le_length (by omega)
    refine ⟨?_, fun enough => absurd enough (by omega)⟩
    have none : m - 8 = 0 := by omega
    have zeros := readZeros [] 8
    rw [front, none, Nat.pow_zero, Nat.mod_one, List.drop_append, List.drop_eq_nil_of_le (by simp),
      List.nil_append, List.drop_replicate, List.take_replicate, List.length_take, eight]
    rw [show min 8 (16 - m - (8 - min m 8)) = 8 by omega]
    exact zeros
  · have front : (le 8 blobOffset ++ le 8 valueLen).take m = le 8 blobOffset ++ (le 8 valueLen).take (m - 8) := by
      rw [List.take_append, List.take_of_length_le (by omega), eight]
    rw [front, List.append_assoc]
    refine ⟨?_, fun _ => ?_⟩
    · rw [List.drop_left' eight, List.take_of_length_le (by simp; omega), readZeros, takeLe, readLeMod,
        Nat.min_eq_left (by omega)]
    · rw [List.take_left' eight, readLeBounded small]

def foundEntry (added : List (Key × Entry)) (key : Key) : Option (Key × Entry) :=
  (BinarySearch.search (fun i => compare ((writtenIndex added).keys.getD i []) key) (writtenIndex added).keys.length).bind
    (fun pos => (sortByKey added)[pos]?)

/-- The three reads of a lookup that finds a value: the first is full, the second takes of the length of the value
all bytes but high zeros, and nothing but zeros is left over from the value. -/
def LookupReads (uring : TokioUring) (key : Key) (value : Value) : Prop :=
  uring.took 0 (4 + key.length + 1) = 4 + key.length + 1 ∧ value.length < 256 ^ (uring.took 1 16 - 8) ∧
    ∀ b ∈ value.drop (uring.took 2 value.length), b = 0

section Lookup
variable {crates : Crates} {added : List (Key × Entry)} {handle : SsTableHandle} {disk : Disk}

theorem foundSplit {key : Key} {pos : Nat}
    (found : BinarySearch.search (fun i => compare ((writtenIndex added).keys.getD i []) key)
      (writtenIndex added).keys.length = some pos) :
    ∃ front e back, sortByKey added = front ++ e :: back ∧ front.length = pos ∧ e.1 = key := by
  obtain ⟨inside, same⟩ := BinarySearch.searchSome found
  have inSorted : pos < (sortByKey added).length := by simpa [writtenIndex] using inside
  refine ⟨(sortByKey added).take pos, (sortByKey added)[pos], (sortByKey added).drop (pos + 1), ?_, ?_, ?_⟩
  · rw [List.getElem_cons_drop, List.take_append_drop]
  · rw [List.length_take]
    omega
  · have equal := LawfulEqCmp.eq_of_compare same
    rw [← equal]
    simp [writtenIndex, List.getD_eq_getElem?_getD, List.getElem?_eq_getElem inSorted]

theorem uringReadRange (uring : TokioUring) {call : Nat} {c : Component} {file : Option (List UInt8)}
    {offset length : Nat} {value : List UInt8} (read : readRange c file offset length = .ok value) :
    IoBackend.readRange .ioUring uring call c file offset length =
      .ok (value.take (uring.took call length) ++ List.replicate (value.length - uring.took call length) 0) := by
  unfold readRange at read
  split at read
  · cases read
  · split at read
    · rename_i data bytes there
      cases read
      simp only [IoBackend.readRange, uring.fillInside there]
    · cases read

theorem fullRead (value : List UInt8) {t : Nat} (full : t = value.length) :
    value.take t ++ List.replicate (value.length - t) 0 = value := by
  rw [full, List.take_length, Nat.sub_self, List.replicate_zero, List.append_nil]

theorem shortLast {value : List UInt8} {t : Nat} (short : t < value.length) :
    (value.take t ++ List.replicate (value.length - t) (0 : UInt8)).getLast? = some 0 := by
  obtain ⟨n, more⟩ := Nat.exists_eq_add_of_lt short
  rw [more, show t + n + 1 - t = n + 1 by omega, List.replicate_succ', ← List.append_assoc, List.getLast?_concat]

theorem valueIff (uring : TokioUring) {data value : List UInt8} {offset offset' length : Nat}
    (there : readRange .blobs (some data) offset value.length = .ok value)
    (same : length = value.length → value = [] ∨ offset' = offset) :
    uring.fill 2 data offset' length = value ↔
      length = value.length ∧ ∀ b ∈ value.drop (uring.took 2 value.length), b = 0 := by
  have filled : IoBackend.readRange .ioUring uring 2 .blobs (some data) offset value.length = _ :=
    uringReadRange uring there
  simp only [IoBackend.readRange, Except.ok.injEq] at filled
  constructor
  · intro read
    have count : length = value.length := by rw [← read, uring.fillLength]
    refine ⟨count, ?_⟩
    rcases same count with empty | equal
    · simp [empty]
    · rw [count, equal, filled] at read
      exact (zerosIff value _).mp read
  · rintro ⟨count, zeros⟩
    rcases same count with empty | equal
    · rw [empty]
      exact List.length_eq_zero_iff.mp (by rw [uring.fillLength, count, empty]; rfl)
    · rw [count, equal, filled]
      exact (zerosIff value _).mpr zeros

theorem uringGet (stored : Stored crates added handle disk) (uring : TokioUring) {front back : List (Key × Entry)}
    {e : Key × Entry} (split : sortByKey added = front ++ e :: back)
    (found : BinarySearch.search (fun i => compare (handle.index.keys.getD i []) e.1) handle.index.keys.length =
      some front.length) :
    getBackend .ioUring uring crates disk handle e.1 = .ok e.2 ↔ ∀ value, e.2 = some value → LookupReads uring e.1 value := by
  have passes := filterPasses stored (show e ∈ sortByKey added by rw [split]; simp)
  have here := storedRecord stored split
  have count : (le 4 e.1.length ++ (e.1 ++ [if e.2.isSome then (1 : UInt8) else 0])).length = 4 + e.1.length + 1 := by
    simp
    omega
  simp only [getBackend, passes, Bool.not_true, Bool.false_eq_true, if_false, found, here.offset,
    uringReadRange uring here.head, bind, Except.bind]
  by_cases full : uring.took 0 (4 + e.1.length + 1) = 4 + e.1.length + 1
  · rw [fullRead _ (full.trans count.symm), recordLast]
    cases value : e.2 with
    | none => simp [pure, Except.pure]
    | some bytes =>
      have few := uring.within 1 16
      have numbers := here.numbers bytes value
      have sixteen : (le 8 (blobsOf front).length ++ le 8 bytes.length).length = 16 := by simp
      obtain ⟨length, offset⟩ := numbersRead bytes.length few here.small
      have insert : ¬ (some (1 : UInt8) = some 0) := by decide
      have metaRead : IoBackend.readRange .ioUring uring 1 .keyops (disk handle.runNumber).keyops _ 16 = _ :=
        uringReadRange uring (here.numbers bytes value)
      rw [sixteen] at metaRead
      have blob := here.blob bytes value
      rw [stored.blobs] at blob
      have blobRead : ∀ at_ n, IoBackend.readRange .ioUring uring 2 .blobs (disk handle.runNumber).blobs at_ n =
          .ok (uring.fill 2 (blobsOf (sortByKey added)) at_ n) := fun at_ n => by rw [stored.blobs]; rfl
      simp only [Option.isSome_some, if_true, insert, if_false, metaRead, length, blobRead, pure, Except.pure,
        Except.ok.injEq, Option.some.injEq, forall_eq']
      rw [valueIff uring blob, LookupReads, Nat.mod_eq_iff_lt (by positivity)]
      · exact ⟨fun whole => ⟨full, whole⟩, fun reads => reads.2⟩
      · intro kept
        rw [Nat.mod_eq_iff_lt (by positivity)] at kept
        rcases Nat.lt_or_ge (uring.took 1 16) 8 with none | some
        · rw [Nat.sub_eq_zero_of_le (Nat.le_of_lt none), Nat.pow_zero, Nat.lt_one_iff] at kept
          exact Or.inl (List.length_eq_zero_iff.mp kept)
        · exact Or.inr (offset some)
  · have short : uring.took 0 (4 + e.1.length + 1) < 4 + e.1.length + 1 :=
      Nat.lt_of_le_of_ne (uring.within 0 _) full
    rw [shortLast (by rw [count]; exact short), if_pos rfl]
    cases value : e.2 with
    | none => simp [pure, Except.pure]
    | some bytes =>
      simp only [pure, Except.pure, Except.ok.injEq, reduceCtorEq, Option.some.injEq, forall_eq', false_iff]
      exact fun reads => full reads.1

theorem foundIs {key : Key} {front back : List (Key × Entry)} {e : Key × Entry}
    (split : sortByKey added = front ++ e :: back)
    (found : BinarySearch.search (fun i => compare ((writtenIndex added).keys.getD i []) key)
      (writtenIndex added).keys.length = some front.length) : foundEntry added key = some e := by
  rw [foundEntry, found, Option.bind_some, split]
  simp

theorem lookupAgreesIff (stored : Stored crates added handle disk) (uring : TokioUring) (key : Key) :
    getBackend .ioUring uring crates disk handle key = getBackend .sync uring crates disk handle key ↔
      ∀ value, foundEntry added key = some (key, some value) → LookupReads uring key value := by
  cases found : BinarySearch.search (fun i => compare ((writtenIndex added).keys.getD i []) key)
      (writtenIndex added).keys.length with
  | none =>
    have nothing : ∀ backend, getBackend backend uring crates disk handle key = .ok none := by
      intro backend
      have found := found
      rw [← stored.index] at found
      simp only [getBackend, found]
      split <;> rfl
    simp only [nothing, foundEntry, found, Option.bind_none, reduceCtorEq, false_implies, implies_true]
  | some pos =>
    obtain ⟨front, e, back, split, rfl, rfl⟩ := foundSplit found
    rw [foundIs split found]
    rw [← stored.index] at found
    rw [getSync, getFound stored split found, uringGet stored uring split found]
    constructor
    · intro reads value same
      exact reads value (congrArg Prod.snd (Option.some.inj same))
    · intro reads value same
      exact reads value (by rw [← same])

end Lookup

theorem backendsAgree {crates : Crates} {n level : Nat} {added : List (Key × Entry)} {disk₀ disk : Disk}
    {handle : SsTableHandle} (finished : finish crates n added level disk₀ = .ok (handle, disk)) (uring : TokioUring) :
    (∀ lo hi, rangeWithTombstonesBackend .ioUring uring disk handle lo hi =
        rangeWithTombstonesBackend .sync uring disk handle lo hi ↔
          RangeAgrees uring (keyopsOf 0 (sortByKey added)) (blobsOf (sortByKey added)) lo hi) ∧
      ((∀ e ∈ added, e.1.length < 2 ^ 32) → ∀ lo hi,
        RangeAgrees uring (keyopsOf 0 (sortByKey added)) (blobsOf (sortByKey added)) lo hi ↔
          EntriesAgree uring (sortByKey added) lo hi) ∧
      ∀ key, getBackend .ioUring uring crates disk handle key = getBackend .sync uring crates disk handle key ↔
        ∀ value, foundEntry added key = some (key, some value) → LookupReads uring key value := by
  have stored := finishStored finished
  refine ⟨rangeAgreesIff uring stored.keyops stored.blobs, fun short => ?_, lookupAgreesIff stored uring⟩
  obtain ⟨total, expressible⟩ := sortedExpressible short stored.blobRoom
  exact rangeAgreesEntries uring expressible total

def wholeReads : TokioUring := ⟨fun _ there => there, fun _ there => Nat.le_refl there, fun _ _ some => some⟩

theorem backendsAgreeTwo : ∃ handle disk, finish crates 7 twoEntries 0 emptyDisk = .ok (handle, disk) ∧
    rangeWithTombstonesBackend .ioUring wholeReads disk handle [2] [3] =
      rangeWithTombstonesBackend .sync wholeReads disk handle [2] [3] ∧
    getBackend .ioUring wholeReads crates disk handle [2] = getBackend .sync wholeReads crates disk handle [2] := by
  obtain ⟨filterBytes, filterOk, _⟩ := twoRoundTrip.1
  obtain ⟨indexBytes, indexOk, _⟩ := twoRoundTrip.2
  obtain ⟨handle, finished, _⟩ := finishOk crc32OfBytes (by decide) twoAccepted filterOk indexOk 0
  obtain ⟨range, entries, lookup⟩ := backendsAgree finished wholeReads
  have agree : EntriesAgree wholeReads (sortByKey twoEntries) [2] [3] := by
    refine ⟨sortByKey twoEntries, [], (List.append_nil _).symm, by decide +kernel, by decide +kernel,
      fun e member => absurd member List.not_mem_nil, fun j value found b left => ?_⟩
    have none : value.drop (wholeReads.took (1 + j) value.length) = [] := List.drop_length
    rw [none] at left
    cases left
  refine ⟨handle, _, finished, (range [2] [3]).mpr ((entries (by decide) [2] [3]).mpr agree),
    (lookup [2]).mpr (fun value found => ?_)⟩
  have held : foundEntry twoEntries [2] = some ([2], some [20, 21]) := by decide +kernel
  cases held.symm.trans found
  unfold LookupReads
  decide +kernel

theorem tombstoneAccepted {key : Key} (length : key.length = 5000) : Accepted crates 7 [(key, none)] emptyDisk := by
  refine ⟨⟨rfl, rfl, rfl, rfl⟩, ?_, by simp [valueLength], fun bytes written => ?_, fun bytes written => ?_⟩
  · simp [recordLength, length, maxFileSize]
  · cases written
    have bits : (writtenFilter crates [(key, none)]).bits.length = 2 := by
      simp [writtenFilter, sortByKey, BloomFilter.fromKeys, BloomFilter.addKeyLength]
    simp [bytesOf, bits, maxFileSize]
  · cases written
    simp [writtenIndex, sortByKey, bytesOf, length, offsetsOf, maxFileSize]

theorem tombstoneDisagrees {key : Key} (length : key.length = 5000) (lo hi : Key) :
    ¬ EntriesAgree wholeReads [(key, none)] lo hi := by
  have size : (keyopsOf 0 [(key, none)]).length = 5005 := by
    rw [keyopsLength]
    simp [recordLength, length]
  rintro ⟨seen, later, split, low, high, -⟩
  rw [size] at low high
  have first : wholeReads.took 0 (min 4096 5005) = 4096 := rfl
  cases seen with
  | nil =>
    rw [first] at high
    simp [keyopsOf] at high
  | cons e rest =>
    obtain ⟨rfl, none⟩ := List.cons.inj split
    obtain ⟨rfl, -⟩ := List.append_eq_nil_iff.mp none.symm
    omega

theorem longRunDiffers : ¬ ∀ (crates : Crates) (n level : Nat) (added : List (Key × Entry)) (disk₀ disk : Disk)
    (handle : SsTableHandle) (uring : TokioUring), finish crates n added level disk₀ = .ok (handle, disk) →
      (∀ lo hi, rangeWithTombstonesBackend .ioUring uring disk handle lo hi =
        rangeWithTombstonesBackend .sync uring disk handle lo hi) ∧
      ∀ key, getBackend .ioUring uring crates disk handle key = getBackend .sync uring crates disk handle key := by
  intro always
  obtain ⟨key, length⟩ : ∃ key : Key, key.length = 5000 := ⟨List.replicate 5000 1, List.length_replicate⟩
  obtain ⟨handle, finished, _⟩ :=
    finishOk crc32OfBytes (List.cons_ne_nil (key, none) []) (tombstoneAccepted length) rfl rfl 0
  have stored := finishStored finished
  have agrees := (always crates 7 0 _ emptyDisk _ handle wholeReads finished).1 [] key
  obtain ⟨total, expressible⟩ := sortedExpressible (fun e member => by
    rw [List.mem_singleton.mp member, length]
    decide) stored.blobRoom
  rw [rangeAgreesIff wholeReads stored.keyops stored.blobs, rangeAgreesEntries wholeReads expressible total] at agrees
  exact tombstoneDisagrees length [] key agrees

end CardanoLsm.Format
