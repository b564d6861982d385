import CardanoLsm.Format.RoundTrip

/-! The indexed point lookup of a run that was written: filter, index and stored
offsets lead to the record of the key, inside the files. -/
namespace CardanoLsm.Format
open Bytes Std

section Written
variable {crc : Crc32}

theorem writeAllOk {handle handle' : ChecksumHandle crc} {c : Component} {buf : List UInt8}
    (ok : handle.writeAll c buf = .ok handle') :
    handle'.file = handle.file ++ buf ∧ handle.file.length + buf.length ≤ maxFileSize := by
  simp only [ChecksumHandle.writeAll, writeAll, bind, Except.bind, pure, Except.pure] at ok
  split at ok
  · cases ok
  · rename_i file written
    split at written
    · rename_i fits
      cases written
      cases ok
      exact ⟨rfl, fits⟩
    · cases written

theorem bindOk {α β : Type} {x : Except FormatError α} {f : α → Except FormatError β} {b : β}
    (ok : x >>= f = .ok b) : ∃ a, x = .ok a ∧ f a = .ok b := by
  cases x with
  | error e => cases ok
  | ok a => exact ⟨a, rfl, ok⟩

theorem writeEntryRoom {w w' : Layout crc} {e : Key × Entry} (ok : w.writeEntry e = .ok w')
    (bounded : w.blobsWriter.file.length ≤ maxFileSize) :
    w.keyopsWriter.file.length + recordLength e ≤ maxFileSize ∧
      w.blobsWriter.file.length + valueLength e ≤ maxFileSize := by
  obtain ⟨key, value⟩ := e
  obtain ⟨k₁, ok₁, ok⟩ := bindOk ok
  obtain ⟨k₂, ok₂, ok⟩ := bindOk ok
  have file₁ := (writeAllOk ok₁).1
  have file₂ := (writeAllOk ok₂).1
  cases value with
  | none =>
    obtain ⟨k₃, ok₃, ok⟩ := bindOk ok
    have room := (writeAllOk ok₃).2
    rw [file₂, file₁] at room
    simp only [List.length_append, leLength, List.length_singleton] at room
    refine ⟨?_, bounded⟩
    simp only [recordLength, Option.isSome_none, Bool.false_eq_true, if_false]
    omega
  | some value =>
    obtain ⟨k₃, ok₃, ok⟩ := bindOk ok
    obtain ⟨k₄, ok₄, ok⟩ := bindOk ok
    obtain ⟨k₅, ok₅, ok⟩ := bindOk ok
    obtain ⟨b, okB, ok⟩ := bindOk ok
    have room := (writeAllOk ok₅).2
    rw [(writeAllOk ok₄).1, (writeAllOk ok₃).1, file₂, file₁] at room
    simp only [List.length_append, leLength, List.length_singleton] at room
    refine ⟨?_, (writeAllOk okB).2⟩
    simp only [recordLength, Option.isSome_some, if_true]
    omega

theorem writeEntriesRoom {w w' : Layout crc} {keyops blobs : List UInt8}
    {entries : List (Key × Entry)} (laid : LaidOut w keyops blobs)
    (bounded : keyops.length ≤ maxFileSize ∧ blobs.length ≤ maxFileSize)
    (ok : entries.foldlM Layout.writeEntry w = .ok w') :
    keyops.length + (entries.map recordLength).sum ≤ maxFileSize ∧
      blobs.length + (entries.map valueLength).sum ≤ maxFileSize := by
  induction entries generalizing w keyops blobs with
  | nil => simpa using bounded
  | cons e rest ih =>
    rw [List.foldlM_cons] at ok
    obtain ⟨w₁, ok₁, ok⟩ := bindOk ok
    have room := writeEntryRoom ok₁ (by rw [laid.blobsFile.1]; exact bounded.2)
    rw [laid.keyopsFile.1, laid.blobsFile.1] at room
    obtain ⟨w₂, ok₂, laid₂, _⟩ := laid.writeEntry room.1 room.2
    rw [ok₁] at ok₂
    cases ok₂
    have blobBytes : (blobs ++ e.2.getD []).length = blobs.length + valueLength e := by
      rw [List.length_append]
      rfl
    have keyopsBytes : (keyops ++ record blobs.length e).length = keyops.length + recordLength e := by
      rw [List.length_append, recordLengthEq]
    have later := ih laid₂ (by rw [keyopsBytes, blobBytes]; exact room) ok
    rw [keyopsBytes, blobBytes] at later
    simp only [List.map_cons, List.sum_cons]
    omega

end Written

structure Stored (crates : Crates) (added : List (Key × Entry)) (handle : SsTableHandle)
    (disk : Disk) : Prop where
  keyops : (disk handle.runNumber).keyops = some (keyopsOf 0 (sortByKey added))
  blobs : (disk handle.runNumber).blobs = some (blobsOf (sortByKey added))
  bloomFilter : handle.bloomFilter = writtenFilter crates added
  index : handle.index = writtenIndex added
  room : ((sortByKey added).map recordLength).sum ≤ maxFileSize
  blobRoom : ((sortByKey added).map valueLength).sum ≤ maxFileSize

theorem createEmpty {crc : Crc32} {c : Component} {existing : Option (List UInt8)}
    {handle : ChecksumHandle crc} (ok : ChecksumHandle.create crc c existing = .ok handle) :
    handle = ChecksumHandle.empty crc := by
  unfold ChecksumHandle.create at ok
  split at ok
  · cases ok
  · cases ok
    rfl

theorem finishStored {crates : Crates} {n level : Nat} {added : List (Key × Entry)} {disk disk' : Disk}
    {handle : SsTableHandle} (ok : finish crates n added level disk = .ok (handle, disk')) :
    Stored crates added handle disk' := by
  obtain ⟨keyopsWriter, created, ok⟩ := bindOk ok
  obtain ⟨blobsWriter, createdBlobs, ok⟩ := bindOk ok
  have keyopsEmpty := createEmpty created
  have blobsEmpty := createEmpty createdBlobs
  subst keyopsEmpty blobsEmpty
  split at ok
  · cases ok
  · rename_i first rest sorted
    obtain ⟨w, written, ok⟩ := bindOk ok
    have room := writeEntriesRoom (LaidOut.start crates.crc) ⟨Nat.zero_le _, Nat.zero_le _⟩ written
    obtain ⟨w', written', laid, offsets⟩ := (LaidOut.start crates.crc).writeEntries room.1 room.2
    have same := written.symm.trans written'
    cases same
    obtain ⟨filterBytes, _, ok⟩ := bindOk ok
    obtain ⟨⟨filterFile, filterCrc⟩, _, ok⟩ := bindOk ok
    obtain ⟨indexBytes, _, ok⟩ := bindOk ok
    obtain ⟨⟨indexFile, indexCrc⟩, _, ok⟩ := bindOk ok
    cases ok
    simp only [List.length_nil, Nat.zero_add, List.nil_append] at room laid offsets
    refine ⟨?_, ?_, ?_, ?_, ?_, ?_⟩
    · simp only [Function.update_self, laid.keyopsFile.1, sorted]
    · simp only [Function.update_self, laid.blobsFile.1, sorted]
    · simp only [writtenFilter, sorted]
    · simp only [writtenIndex, sorted, offsets]
      rfl
    · rw [sorted]
      exact room.1
    · rw [sorted]
      exact room.2

theorem keyopsSplit (front : List (Key × Entry)) (e : Key × Entry) (back : List (Key × Entry))
    (blobOffset : Nat) : ∃ after, keyopsOf blobOffset (front ++ e :: back) =
      keyopsOf blobOffset front ++ (record (blobOffset + (front.map valueLength).sum) e ++ after) := by
  induction front generalizing blobOffset with
  | nil => exact ⟨keyopsOf (blobOffset + valueLength e) back, by simp [keyopsOf]⟩
  | cons x front ih =>
    obtain ⟨after, same⟩ := ih (blobOffset + valueLength x)
    refine ⟨after, ?_⟩
    rw [List.cons_append, keyopsOf, same, keyopsOf, List.append_assoc, List.map_cons, List.sum_cons,
      Nat.add_assoc]

theorem offsetsSplit (front : List (Key × Entry)) (e : Key × Entry) (back : List (Key × Entry))
    (offset : Nat) : (offsetsOf offset (front ++ e :: back))[front.length]? =
      some (offset + (front.map recordLength).sum) := by
  induction front generalizing offset with
  | nil => simp [offsetsOf]
  | cons x front ih =>
    rw [List.cons_append, offsetsOf, List.length_cons, List.getElem?_cons_succ, ih, List.map_cons,
      List.sum_cons, Nat.add_assoc]

theorem blobsSplit (front : List (Key × Entry)) (e : Key × Entry) (back : List (Key × Entry)) :
    blobsOf (front ++ e :: back) = blobsOf front ++ (e.2.getD [] ++ blobsOf back) := by
  simp [blobsOf]

theorem readRecord {keyops blobs before after blobsBefore blobsAfter : List UInt8} {e : Key × Entry}
    (keyopsIs : keyops = before ++ (record blobsBefore.length e ++ after))
    (blobsIs : blobs = blobsBefore ++ (e.2.getD [] ++ blobsAfter)) :
    readRange .keyops (some keyops) before.length (4 + e.1.length + 1) =
        .ok (le 4 e.1.length ++ (e.1 ++ [if e.2.isSome then 1 else 0])) ∧
      ∀ value, e.2 = some value →
        readRange .keyops (some keyops) (before.length + (4 + e.1.length + 1)) 16 =
          .ok (le 8 blobsBefore.length ++ le 8 value.length) ∧
        readRange .blobs (some blobs) blobsBefore.length value.length = .ok value := by
  obtain ⟨key, value⟩ := e
  subst keyopsIs blobsIs
  have headLength : (le 4 key.length ++ (key ++ [if value.isSome then 1 else 0])).length =
      4 + key.length + 1 := by
    simp only [List.length_append, leLength, List.length_singleton]
    omega
  cases value with
  | none =>
    refine ⟨?_, fun value none => by cases none⟩
    have bytes : record blobsBefore.length (key, none) ++ after =
        (le 4 key.length ++ (key ++ [0])) ++ after := by simp [record, opBytes]
    have here := readAtAppend (rfl : before.length = before.length) headLength after
    simp only [readRange, bytes, Option.isSome_none, Bool.false_eq_true, if_false] at here ⊢
    rw [here]
  | some value =>
    have bytes : record blobsBefore.length (key, some value) ++ after =
        (le 4 key.length ++ (key ++ [1])) ++
          ((le 8 blobsBefore.length ++ le 8 value.length) ++ after) := by simp [record, opBytes]
    refine ⟨?_, fun x same => ?_⟩
    · have here := readAtAppend (rfl : before.length = before.length) headLength
        ((le 8 blobsBefore.length ++ le 8 value.length) ++ after)
      simp only [readRange, bytes, Option.isSome_some, if_true] at here ⊢
      rw [here]
    · cases same
      have start : (before ++ (le 4 key.length ++ (key ++ [1]))).length =
          before.length + (4 + key.length + 1) := by
        rw [List.length_append, ← headLength]
        rfl
      have numbers : (le 8 blobsBefore.length ++ le 8 value.length).length = 16 := by
        simp only [List.length_append, leLength]
      have here := readAtAppend start numbers after
      have blob := readAtAppend (rfl : blobsBefore.length = blobsBefore.length)
        (rfl : value.length = value.length) blobsAfter
      simp only [List.append_assoc] at here bytes
      simp only [readRange, bytes, here, Option.getD_some, blob, and_self]

theorem probeMonotone {entries : List (Key × Entry)} (ascending : Ascending entries) (key : Key) :
    BinarySearch.Monotone (fun i => compare ((entries.map Prod.fst).getD i []) key)
      (entries.map Prod.fst).length := by
  refine ⟨fun i j less inside notAbove => ?_⟩
  have before : compare ((entries.map Prod.fst).getD i []) ((entries.map Prod.fst).getD j []) = .lt := by
    have keysAscending : (entries.map Prod.fst).Pairwise (fun a b => compare a b = .lt) :=
      List.pairwise_map.mpr ascending
    have := List.pairwise_iff_getElem.mp keysAscending i j (Nat.lt_trans less inside) inside less
    simpa [List.getD_eq_getElem?_getD, List.getElem?_eq_getElem inside,
      List.getElem?_eq_getElem (Nat.lt_trans less inside)] using this
  have upTo : (compare ((entries.map Prod.fst).getD j []) key).isLE = true := by
    cases c : compare ((entries.map Prod.fst).getD j []) key with
    | gt => exact absurd c notAbove
    | _ => rfl
  exact TransCmp.lt_of_lt_of_isLE before upTo

section Get
variable {crates : Crates} {added : List (Key × Entry)} {handle : SsTableHandle} {disk : Disk}

theorem getAbsent (stored : Stored crates added handle disk) {key : Key}
    (absent : ∀ e ∈ added, e.1 ≠ key) : get crates disk handle key = .ok none := by
  have missing : BinarySearch.search (fun i => compare (handle.index.keys.getD i []) key)
      handle.index.keys.length = none := by
    refine BinarySearch.searchNone (fun i inside same => ?_)
    have member : handle.index.keys.getD i [] ∈ handle.index.keys := by
      rw [List.getD_eq_getElem?_getD, List.getElem?_eq_getElem inside]
      exact List.getElem_mem inside
    have equal := LawfulEqCmp.eq_of_compare same
    rw [equal, stored.index] at member
    obtain ⟨e, inSorted, isKey⟩ := List.mem_map.mp member
    exact absent e ((sortByKeyPerm added).mem_iff.mp inSorted) isKey
  simp only [get, missing]
  split <;> rfl

structure Located (handle : SsTableHandle) (disk : Disk) (front : List (Key × Entry)) (e : Key × Entry) : Prop where
  offset : handle.index.keyopsOffsets[front.length]? = some (keyopsOf 0 front).length
  head : readRange .keyops (disk handle.runNumber).keyops (keyopsOf 0 front).length (4 + e.1.length + 1) =
    .ok (le 4 e.1.length ++ (e.1 ++ [if e.2.isSome then 1 else 0]))
  numbers : ∀ value, e.2 = some value →
    readRange .keyops (disk handle.runNumber).keyops ((keyopsOf 0 front).length + (4 + e.1.length + 1)) 16 =
      .ok (le 8 (blobsOf front).length ++ le 8 value.length)
  blob : ∀ value, e.2 = some value →
    readRange .blobs (disk handle.runNumber).blobs (blobsOf front).length value.length = .ok value
  small : (blobsOf front).length < 256 ^ 8
  short : ∀ value, e.2 = some value → value.length < 256 ^ 8

theorem storedRecord (stored : Stored crates added handle disk) {front back : List (Key × Entry)} {e : Key × Entry}
    (split : sortByKey added = front ++ e :: back) : Located handle disk front e := by
  have offset : handle.index.keyopsOffsets[front.length]? = some (keyopsOf 0 front).length := by
    rw [stored.index, keyopsLength]
    simp only [writtenIndex, split, offsetsSplit, Nat.zero_add]
  obtain ⟨after, keyopsIs⟩ := keyopsSplit front e back 0
  rw [Nat.zero_add, ← blobsLength, ← split] at keyopsIs
  have blobsIs := blobsSplit front e back
  rw [← split] at blobsIs
  obtain ⟨head, rest⟩ := readRecord keyopsIs blobsIs
  have total := stored.blobRoom
  rw [split, List.map_append, List.sum_append, List.map_cons, List.sum_cons, ← blobsLength] at total
  have bound : maxFileSize < 256 ^ 8 := by decide
  rw [← stored.keyops] at head rest
  rw [← stored.blobs] at rest
  refine ⟨offset, head, fun value same => (rest value same).1, fun value same => (rest value same).2, by omega,
    fun value same => ?_⟩
  have here : valueLength e = value.length := by rw [valueLength, same]; rfl
  omega

theorem recordLast (e : Key × Entry) : (le 4 e.1.length ++ (e.1 ++ [if e.2.isSome then (1 : UInt8) else 0])).getLast? =
    some (if e.2.isSome then 1 else 0) := by
  rw [← List.append_assoc, List.getLast?_append_of_ne_nil _ (List.cons_ne_nil _ _)]
  rfl

theorem indexKeys (stored : Stored crates added handle disk) : handle.index.keys = (sortByKey added).map Prod.fst := by
  rw [stored.index]
  rfl

theorem filterPasses (stored : Stored crates added handle disk) {e : Key × Entry} (member : e ∈ sortByKey added) :
    handle.bloomFilter.mightContain crates.hash e.1 = true := by
  rw [stored.bloomFilter]
  exact BloomFilter.fromKeysContains crates.hash (List.mem_map_of_mem (f := Prod.fst) member) (by decide)

theorem getFound (stored : Stored crates added handle disk) {front back : List (Key × Entry)} {e : Key × Entry}
    (split : sortByKey added = front ++ e :: back)
    (found : BinarySearch.search (fun i => compare (handle.index.keys.getD i []) e.1) handle.index.keys.length =
      some front.length) : get crates disk handle e.1 = .ok e.2 := by
  have passes := filterPasses stored (show e ∈ sortByKey added by rw [split]; simp)
  have here := storedRecord stored split
  simp only [get, passes, Bool.not_true, Bool.false_eq_true, if_false, found, here.offset, here.head, bind, Except.bind,
    recordLast]
  cases value : e.2 with
  | none => rfl
  | some bytes =>
    have first : readLE ((le 8 (blobsOf front).length ++ le 8 bytes.length).take 8) = (blobsOf front).length := by
      rw [List.take_left' (leLength 8 _), readLeBounded here.small]
    have second : readLE (((le 8 (blobsOf front).length ++ le 8 bytes.length).drop 8).take 8) = bytes.length := by
      rw [List.drop_left' (leLength 8 _), List.take_of_length_le (by rw [leLength]),
        readLeBounded (here.short bytes value)]
    have insert : ¬ (some (1 : UInt8) = some 0) := by decide
    simp only [Option.isSome_some, if_true, insert, if_false, here.numbers bytes value, first, second,
      here.blob bytes value]
    rfl

theorem getHeld (stored : Stored crates added handle disk) (distinct : DistinctKeys added)
    {e : Key × Entry} (member : e ∈ added) : get crates disk handle e.1 = .ok e.2 := by
  obtain ⟨front, back, split⟩ := List.append_of_mem ((sortByKeyPerm added).mem_iff.mpr member)
  refine getFound stored split ?_
  rw [indexKeys stored]
  refine BinarySearch.searchFinds (probeMonotone (sortByKeyAscending distinct) e.1) ?_ ?_
  · rw [split]
    simp
  · simp [split, List.getD_eq_getElem?_getD]

theorem lookupAgrees {n level : Nat} {disk₀ : Disk} (distinct : DistinctKeys added)
    (short : ∀ e ∈ added, e.1.length < 2 ^ 32)
    (finished : finish crates n added level disk₀ = .ok (handle, disk)) (key : Key) :
    ∃ found out, get crates disk handle key = .ok found ∧
      rangeWithTombstones disk handle key key = .ok out ∧
      ∀ value, found = some value ↔ (key, some value) ∈ out := by
  have stored := finishStored finished
  have perm := sortByKeyPerm added
  obtain ⟨total, expressible⟩ := sortedExpressible short stored.blobRoom
  have scanned := rangeLaidOut expressible total stored.keyops stored.blobs key key
  have listed : ∀ e, e ∈ (sortByKey added).filter (fun e => inRange key key e.1) ↔
      e ∈ added ∧ e.1 = key := by
    intro e
    rw [List.mem_filter, perm.mem_iff, inRangePoint]
  by_cases present : ∃ e ∈ added, e.1 = key
  · obtain ⟨e, member, rfl⟩ := present
    refine ⟨e.2, _, getHeld stored distinct member, scanned, fun value => ?_⟩
    rw [listed]
    constructor
    · intro same
      rw [← same]
      exact ⟨member, rfl⟩
    · rintro ⟨inside, -⟩
      have same := List.inj_on_of_nodup_map distinct member inside rfl
      rw [same]
  · have absent : ∀ e ∈ added, e.1 ≠ key := fun e member same => present ⟨e, member, same⟩
    refine ⟨none, _, getAbsent stored absent, scanned, fun value => ?_⟩
    rw [listed]
    constructor
    · intro none
      cases none
    · rintro ⟨inside, same⟩
      exact absurd same (absent _ inside)

end Get

theorem lookupAgreesTwo : ∃ handle disk, finish crates 7 twoEntries 0 emptyDisk = .ok (handle, disk) ∧
    ∀ key ∈ [[1], [2], [3]], ∃ found out, get crates disk handle key = .ok found ∧
      rangeWithTombstones disk handle key key = .ok out ∧
      ∀ value, found = some value ↔ (key, some value) ∈ out := by
  obtain ⟨filterBytes, filterOk, _⟩ := twoRoundTrip.1
  obtain ⟨indexBytes, indexOk, _⟩ := twoRoundTrip.2
  obtain ⟨handle, finished, _⟩ := finishOk crc32OfBytes (by decide) twoAccepted filterOk indexOk 0
  exact ⟨handle, _, finished, fun key _ => lookupAgrees (by decide) (by decide) finished key⟩

/-! The storage model keeps a run as its map of entries: a run it can read and the
bytes written from the same entries answer alike. -/

theorem mapSorted (entries : Entries) : sortByKey entries.toList = entries.toList := by
  refine List.Pairwise.insertionSort_eq ?_
  have ordered : (entries.toList.map Prod.fst).Pairwise (fun a b => compare a b = .lt) := by
    rw [ExtTreeMap.map_fst_toList_eq_keys]
    exact ExtTreeMap.ordered_keys
  refine (List.pairwise_map.mp ordered).imp (fun less => ?_)
  rw [less]
  rfl

theorem mapDistinct (entries : Entries) : DistinctKeys entries.toList := by
  rw [DistinctKeys, ExtTreeMap.map_fst_toList_eq_keys]
  exact ExtTreeMap.nodup_keys

theorem bytesRefineRun {crates : Crates} {n level : Nat} {disk₀ disk : Disk} {handle : SsTableHandle}
    {st : Storage} {sstable : CardanoLsm.SsTableHandle} (readable : st.readRun sstable = .ok sstable.run)
    (short : ∀ e ∈ sstable.run.entries.toList, e.1.length < 2 ^ 32)
    (finished : finish crates n sstable.run.entries.toList level disk₀ = .ok (handle, disk))
    (lo hi key : Key) :
    (∃ out, st.rangeWithTombstones sstable lo hi = .ok out ∧
      rangeWithTombstones disk handle lo hi = .ok out) ∧
    ∃ found, st.get crates.hash sstable key = .ok found ∧ get crates disk handle key = .ok found := by
  have stored := finishStored finished
  obtain ⟨total, expressible⟩ := sortedExpressible short stored.blobRoom
  have scanned := rangeLaidOut expressible total stored.keyops stored.blobs lo hi
  rw [mapSorted] at scanned
  refine ⟨⟨_, ?_, scanned⟩, _, Storage.getReadable readable crates.hash key, ?_⟩
  · simp only [Storage.rangeWithTombstones, readable, bind, Except.bind, pure, Except.pure]
  · cases held : sstable.run.entries[key]? with
    | none =>
      refine getAbsent stored (fun e member same => ?_)
      have found := ExtTreeMap.mem_toList_iff_getElem?_eq_some.mp member
      rw [same, held] at found
      cases found
    | some e =>
      have member : (key, e) ∈ sstable.run.entries.toList :=
        ExtTreeMap.mem_toList_iff_getElem?_eq_some.mpr held
      have found := getHeld stored (mapDistinct sstable.run.entries) member
      dsimp only at found
      rw [found, Option.join_some]

end CardanoLsm.Format
