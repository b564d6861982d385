import CardanoLsm.Format.Scan

/-! `finish`, `open` and the scan together: a run is read back as it was added. -/
namespace CardanoLsm.Format
open Bytes Std

def Ascending (entries : List (Key × Entry)) : Prop :=
  entries.Pairwise (fun a b => compare a.1 b.1 = .lt)

def DistinctKeys (entries : List (Key × Entry)) : Prop := (entries.map Prod.fst).Nodup

instance (entries : List (Key × Entry)) : Decidable (DistinctKeys entries) :=
  inferInstanceAs (Decidable (entries.map Prod.fst).Nodup)

theorem sortByKeyPerm (entries : List (Key × Entry)) : (sortByKey entries).Perm entries :=
  List.perm_insertionSort _ _

instance : Std.Total (fun a b : Key × Entry => (compare a.1 b.1).isLE = true) :=
  ⟨fun a b => by
    have swap : compare b.1 a.1 = (compare a.1 b.1).swap := OrientedCmp.eq_swap
    rw [swap]
    cases compare a.1 b.1 <;> decide⟩

instance : IsTrans (Key × Entry) (fun a b => (compare a.1 b.1).isLE = true) :=
  ⟨fun _ _ _ => TransCmp.isLE_trans⟩

theorem sortByKeyAscending {entries : List (Key × Entry)} (distinct : DistinctKeys entries) :
    Ascending (sortByKey entries) := by
  have weak : (sortByKey entries).Pairwise (fun a b => (compare a.1 b.1).isLE = true) :=
    List.pairwise_insertionSort _ entries
  have different : ((sortByKey entries).map Prod.fst).Nodup :=
    ((sortByKeyPerm entries).map _).nodup_iff.mpr distinct
  rw [List.Nodup, List.pairwise_map] at different
  refine weak.imp₂ (fun a b le ne => ?_) different
  cases c : compare a.1 b.1 with
  | lt => rfl
  | eq => exact absurd (LawfulEqCmp.eq_of_compare c) ne
  | gt => simp [c] at le

def writtenFilter (crates : Crates) (added : List (Key × Entry)) : BloomFilter :=
  BloomFilter.fromKeys crates.hash ((sortByKey added).map Prod.fst) 10

def writtenIndex (added : List (Key × Entry)) : Index :=
  ⟨(sortByKey added).map Prod.fst, offsetsOf 0 (sortByKey added)⟩

structure Accepted (crates : Crates) (n : Nat) (added : List (Key × Entry)) (disk : Disk) : Prop where
  created : (disk n).keyops = none ∧ (disk n).blobs = none ∧ (disk n).filter = none ∧
    (disk n).index = none
  keyops : (added.map recordLength).sum ≤ maxFileSize
  blobs : (added.map valueLength).sum ≤ maxFileSize
  filter : ∀ bytes, crates.filterCodec.serialize (writtenFilter crates added) = .ok bytes →
    bytes.length ≤ maxFileSize
  index : ∀ bytes, crates.indexCodec.serialize (writtenIndex added) = .ok bytes →
    bytes.length ≤ maxFileSize

def RoundTrips (crates : Crates) (added : List (Key × Entry)) : Prop :=
  crates.filterCodec.RoundTrips (writtenFilter crates added) ∧
    crates.indexCodec.RoundTrips (writtenIndex added)

def writtenFiles (crates : Crates) (added : List (Key × Entry)) (filterBytes indexBytes : List UInt8) :
    Files :=
  let keyops := keyopsOf 0 (sortByKey added)
  let blobs := blobsOf (sortByKey added)
  ⟨some keyops, some blobs, some filterBytes, some indexBytes, some (formatChecksumsFile
    [(ChecksumsFile.index, crates.crc.readFileCrc32c indexBytes),
     (ChecksumsFile.filter, crates.crc.readFileCrc32c filterBytes),
     (ChecksumsFile.blobs, crates.crc.readFileCrc32c blobs),
     (ChecksumsFile.keyops, crates.crc.readFileCrc32c keyops)])⟩

structure Describes (crates : Crates) (n : Nat) (added : List (Key × Entry)) (level : Nat)
    (handle : SsTableHandle) : Prop where
  runNumber : handle.runNumber = n
  level_ : handle.level = level
  bloomFilter : handle.bloomFilter = writtenFilter crates added
  index : handle.index = writtenIndex added
  minKey : (writtenIndex added).keys.head? = some handle.minKey
  maxKey : (writtenIndex added).keys.getLast? = some handle.maxKey
  numEntries : handle.numEntries = (writtenIndex added).keys.length

theorem writeFileOk {crc : Crc32} (ofBytes : crc.OfBytes) (c : Component) {data : List UInt8}
    (fits : data.length ≤ maxFileSize) :
    writeFileWithChecksum crc c none data = .ok (data, crc.readFileCrc32c data) := by
  have room : ([] : List UInt8).length + data.length ≤ maxFileSize := by simpa using fits
  obtain ⟨handle, ok, wrote⟩ := (wroteNothing crc).writeAll c data room
  have closed := wrote.close ofBytes
  have file := wrote.1
  simp only [List.nil_append] at closed file
  simp only [writeFileWithChecksum, ChecksumHandle.create, Option.isSome_none, Bool.false_eq_true,
    if_false, ok, bind, Except.bind, pure, Except.pure, closed, file]

section Finish
variable {crates : Crates} {n : Nat} {added : List (Key × Entry)} {disk : Disk}
  {filterBytes indexBytes : List UInt8}

theorem finishOk (ofBytes : crates.crc.OfBytes) (nonempty : added ≠ [])
    (accepted : Accepted crates n added disk)
    (filterOk : crates.filterCodec.serialize (writtenFilter crates added) = .ok filterBytes)
    (indexOk : crates.indexCodec.serialize (writtenIndex added) = .ok indexBytes) (level : Nat) :
    ∃ handle, finish crates n added level disk =
        .ok (handle, Function.update disk n (writtenFiles crates added filterBytes indexBytes)) ∧
      Describes crates n added level handle := by
  obtain ⟨noKeyops, noBlobs, noFilter, noIndex⟩ := accepted.created
  have perm := sortByKeyPerm added
  have room : ([] : List UInt8).length + ((sortByKey added).map recordLength).sum ≤ maxFileSize := by
    rw [(perm.map recordLength).sum_eq]
    simpa using accepted.keyops
  have blobRoom : ([] : List UInt8).length + ((sortByKey added).map valueLength).sum ≤ maxFileSize := by
    rw [(perm.map valueLength).sum_eq]
    simpa using accepted.blobs
  have filterFile := writeFileOk ofBytes .filter (accepted.filter _ filterOk)
  have indexFile := writeFileOk ofBytes .index (accepted.index _ indexOk)
  obtain ⟨w, written, laid, offsets⟩ := (LaidOut.start crates.crc).writeEntries room blobRoom
  have keyopsClose := laid.keyopsFile.close ofBytes
  have blobsClose := laid.blobsFile.close ofBytes
  have keyopsFile := laid.keyopsFile.1
  have blobsFile := laid.blobsFile.1
  simp only [List.nil_append, List.length_nil] at keyopsClose blobsClose keyopsFile blobsFile offsets
  have started : (Layout.start crates.crc).keyopsOffsets = [] := rfl
  rw [started, List.nil_append] at offsets
  unfold writtenFiles
  simp only [writtenFilter, writtenIndex] at filterOk indexOk
  cases sorted : sortByKey added with
  | nil =>
    rw [sorted] at perm
    exact absurd perm.symm.eq_nil nonempty
  | cons first rest =>
    rw [sorted] at written keyopsClose blobsClose keyopsFile blobsFile offsets filterOk indexOk
    refine ⟨⟨n, first.1, ((first :: rest).getLast (List.cons_ne_nil first rest)).1, (first :: rest).length,
      level, BloomFilter.fromKeys crates.hash ((first :: rest).map Prod.fst) 10,
      ⟨(first :: rest).map Prod.fst, offsetsOf 0 (first :: rest)⟩⟩, ?_, ?_⟩
    · simp only [Layout.start] at written
      simp only [finish, noKeyops, noBlobs, noFilter, noIndex, ChecksumHandle.create,
        Option.isSome_none, Bool.false_eq_true, if_false, sorted, written, bind, Except.bind, pure,
        Except.pure, serialized, filterOk, filterFile, offsets, indexOk, indexFile, keyopsClose,
        blobsClose, keyopsFile, blobsFile]
      rfl
    · refine ⟨rfl, rfl, ?_, ?_, ?_, ?_, ?_⟩
      · simp only [writtenFilter, sorted]
      · simp only [writtenIndex, sorted]
      · simp only [writtenIndex, sorted, List.map_cons, List.head?_cons]
      · simp only [writtenIndex, sorted, List.getLast?_map, List.getLast?_eq_some_getLast (List.cons_ne_nil first rest)]
        rfl
      · simp only [writtenIndex, sorted, List.length_map]

end Finish

theorem namesValid : ∀ name ∈ [ChecksumsFile.index, ChecksumsFile.filter, ChecksumsFile.blobs,
    ChecksumsFile.keyops], ValidName name := by
  intro name member
  simp only [List.mem_cons, List.not_mem_nil, or_false] at member
  rcases member with rfl | rfl | rfl | rfl <;> exact ⟨by decide, by decide, by decide⟩

theorem checksumsRead (index filter blobs keyops : UInt32) :
    ∃ checksums, parseChecksumsFile (formatChecksumsFile [(ChecksumsFile.index, index),
        (ChecksumsFile.filter, filter), (ChecksumsFile.blobs, blobs),
        (ChecksumsFile.keyops, keyops)]) = .ok checksums ∧
      getChecksum checksums ChecksumsFile.keyops = .ok keyops ∧
      getChecksum checksums ChecksumsFile.blobs = .ok blobs ∧
      getChecksum checksums ChecksumsFile.filter = .ok filter ∧
      getChecksum checksums ChecksumsFile.index = .ok index := by
  refine ⟨_, parseFormat ?_, rfl, rfl, rfl, rfl⟩
  exact fun e member => namesValid e.1 (List.mem_map_of_mem (f := Prod.fst) member)

theorem missingNone (activeDir : String) (n : Nat) (keyops blobs filter index : List UInt8)
    (checksums : Text) : missingFiles activeDir n
      ⟨some keyops, some blobs, some filter, some index, some checksums⟩ = [] := rfl

theorem verifyOk (crc : Crc32) (path : String) (c : Component) {checksums : ChecksumsFile} {name : Text}
    {contents : List UInt8} (listed : getChecksum checksums name = .ok (crc.readFileCrc32c contents)) :
    verify crc path c checksums name (some contents) = .ok () := by
  simp only [verify, expectedChecksum, listed, readFile, checkCrc, bind, Except.bind, ne_eq,
    not_true_eq_false, if_false]

theorem openOk {crates : Crates} {n : Nat} {added : List (Key × Entry)} {disk : Disk}
    {filterBytes indexBytes : List UInt8} {level : Nat} {handle : SsTableHandle}
    (described : Describes crates n added level handle)
    (written : disk n = writtenFiles crates added filterBytes indexBytes)
    (filterRead : crates.filterCodec.deserialize filterBytes = .ok (writtenFilter crates added))
    (indexRead : crates.indexCodec.deserialize indexBytes = .ok (writtenIndex added))
    (activeDir : String) : open_ crates activeDir n disk = .ok { handle with level := 0 } := by
  obtain ⟨checksums, parsed, keyops, blobs, filter, index⟩ := checksumsRead
    (crates.crc.readFileCrc32c indexBytes) (crates.crc.readFileCrc32c filterBytes)
    (crates.crc.readFileCrc32c (blobsOf (sortByKey added)))
    (crates.crc.readFileCrc32c (keyopsOf 0 (sortByKey added)))
  simp only [open_, written, writtenFiles, missingNone, ne_eq, not_true_eq_false, if_false, bind, Except.bind,
    pure, Except.pure, readFile, parsed, verifyOk _ _ _ keyops, verifyOk _ _ _ blobs,
    verifyOk _ _ _ filter, verifyOk _ _ _ index, deserialized, filterRead, indexRead,
    described.minKey, described.maxKey]
  rw [← described.numEntries, ← described.bloomFilter, ← described.index, ← described.runNumber]

/-! crc32fast and bincode as far as the run below needs them. -/

def crcBit (c : UInt32) : UInt32 :=
  if c &&& 1 = 1 then (c >>> 1) ^^^ 0xEDB88320 else c >>> 1

def crcByte (c : UInt32) (b : UInt8) : UInt32 :=
  (List.range 8).foldl (fun c _ => crcBit c) (c ^^^ b.toUInt32)

def crc32 : Crc32 := ⟨UInt32, 0xFFFFFFFF, List.foldl crcByte, fun c => c ^^^ 0xFFFFFFFF⟩

theorem crc32OfBytes : crc32.OfBytes := by
  intro chunks chunks' same
  have folded : ∀ chunks : List (List UInt8), chunks.foldl crc32.update crc32.new =
      chunks.flatten.foldl crcByte crc32.new := fun chunks => List.foldl_flatten.symm
  rw [Crc32.ofChunks, Crc32.ofChunks, folded, folded, same]

def bytesOf (bytes : List UInt8) : List UInt8 := le 8 bytes.length ++ bytes

def readNumber (width : Nat) (data : List UInt8) : Option (Nat × List UInt8) :=
  (readExact width data).map (fun parts => (readLE parts.1, parts.2))

def readTimes {α : Type} (read : List UInt8 → Option (α × List UInt8)) :
    Nat → List UInt8 → Option (List α × List UInt8)
  | 0, data => some ([], data)
  | n + 1, data => do
    let (a, data) ← read data
    let (more, data) ← readTimes read n data
    return (a :: more, data)

def readBytes (data : List UInt8) : Option (List UInt8 × List UInt8) := do
  let (n, data) ← readNumber 8 data
  readExact n data

def filterBincode : Codec BloomFilter where
  serialize f := .ok (bytesOf f.bits ++ le 8 f.numBits ++ le 4 f.numHashes)
  deserialize data :=
    match (do
      let (bits, data) ← readBytes data
      let (numBits, data) ← readNumber 8 data
      let (numHashes, _) ← readNumber 4 data
      return ⟨bits, numBits, numHashes⟩ : Option BloomFilter) with
    | some f => .ok f
    | none => .error "io error: unexpected end of file"

def indexBincode : Codec Index where
  serialize i := .ok (le 8 i.keys.length ++ i.keys.flatMap bytesOf ++
    (le 8 i.keyopsOffsets.length ++ i.keyopsOffsets.flatMap (le 8)))
  deserialize data :=
    match (do
      let (n, data) ← readNumber 8 data
      let (keys, data) ← readTimes readBytes n data
      let (m, data) ← readNumber 8 data
      let (offsets, _) ← readTimes (readNumber 8) m data
      return ⟨keys, offsets⟩ : Option Index) with
    | some i => .ok i
    | none => .error "io error: unexpected end of file"

def crates : Crates :=
  ⟨crc32, fun key seed => crc32.ofChunks [le 4 seed, key], filterBincode, indexBincode⟩

def emptyDisk : Disk := fun _ => ⟨none, none, none, none, none⟩

theorem sortedExpressible {added : List (Key × Entry)} (short : ∀ e ∈ added, e.1.length < 2 ^ 32)
    (room : ((sortByKey added).map valueLength).sum ≤ maxFileSize) :
    ((sortByKey added).map valueLength).sum < 2 ^ 64 ∧ ∀ e ∈ sortByKey added, Expressible e := by
  have total : ((sortByKey added).map valueLength).sum < 2 ^ 64 :=
    Nat.lt_of_le_of_lt room (by decide)
  refine ⟨total, fun e member => ⟨short e ((sortByKeyPerm added).mem_iff.mp member), ?_⟩⟩
  have one := List.single_le_sum (by simp) _ (List.mem_map_of_mem (f := valueLength) member)
  exact Nat.lt_of_le_of_lt one total

theorem runRoundTrips {crates : Crates} (ofBytes : crates.crc.OfBytes) {n : Nat}
    {added : List (Key × Entry)} {disk : Disk} (nonempty : added ≠ []) (distinct : DistinctKeys added)
    (short : ∀ e ∈ added, e.1.length < 2 ^ 32) (accepted : Accepted crates n added disk)
    (roundTrips : RoundTrips crates added) (level : Nat) (activeDir : String) :
    ∃ handle disk' opened, finish crates n added level disk = .ok (handle, disk') ∧
      open_ crates activeDir n disk' = .ok opened ∧ opened.minKey = handle.minKey ∧
      opened.maxKey = handle.maxKey ∧ opened.numEntries = handle.numEntries ∧
      ∀ lo hi, ∃ out, Ascending out ∧ (∀ e, e ∈ out ↔ e ∈ added ∧ inRange lo hi e.1 = true) ∧
        rangeWithTombstones disk' handle lo hi = .ok out ∧
        rangeWithTombstones disk' opened lo hi = .ok out := by
  obtain ⟨filterBytes, filterOk, filterRead⟩ := roundTrips.1
  obtain ⟨indexBytes, indexOk, indexRead⟩ := roundTrips.2
  obtain ⟨handle, finished, described⟩ := finishOk ofBytes nonempty accepted filterOk indexOk level
  have stored : Function.update disk n (writtenFiles crates added filterBytes indexBytes) n =
      writtenFiles crates added filterBytes indexBytes := Function.update_self _ _ _
  refine ⟨handle, _, _, finished, openOk described stored filterRead indexRead activeDir, rfl, rfl, rfl,
    fun lo hi => ?_⟩
  have perm := sortByKeyPerm added
  obtain ⟨total, expressible⟩ := sortedExpressible short (by
    rw [(perm.map valueLength).sum_eq]
    exact accepted.blobs)
  have ascending := (sortByKeyAscending distinct).filter (fun e => inRange lo hi e.1)
  refine ⟨(sortByKey added).filter (fun e => inRange lo hi e.1), ascending, fun e => ?_, ?_, ?_⟩
  · rw [List.mem_filter, perm.mem_iff]
  · refine rangeLaidOut expressible total ?_ ?_ lo hi
    · rw [described.runNumber, stored]
      rfl
    · rw [described.runNumber, stored]
      rfl
  · refine rangeLaidOut expressible total ?_ ?_ lo hi
    · show (Function.update disk n _ handle.runNumber).keyops = _
      rw [described.runNumber, stored]
      rfl
    · show (Function.update disk n _ handle.runNumber).blobs = _
      rw [described.runNumber, stored]
      rfl

def twoEntries : List (Key × Entry) := [([2], some [20, 21]), ([1], none)]

theorem twoAccepted : Accepted crates 7 twoEntries emptyDisk := by
  refine ⟨⟨rfl, rfl, rfl, rfl⟩, by decide, by decide, fun bytes written => ?_, fun bytes written => ?_⟩
  · cases written
    decide +kernel
  · cases written
    decide +kernel

theorem twoRoundTrip : RoundTrips crates twoEntries :=
  ⟨⟨_, rfl, by decide +kernel⟩, ⟨_, rfl, by decide +kernel⟩⟩

theorem runRoundTripsTwo : ∃ handle disk opened,
    finish crates 7 twoEntries 0 emptyDisk = .ok (handle, disk) ∧
      open_ crates "active" 7 disk = .ok opened ∧
      ∃ out, (∀ e, e ∈ out ↔ e ∈ twoEntries ∧ inRange [2] [3] e.1 = true) ∧
        rangeWithTombstones disk opened [2] [3] = .ok out := by
  obtain ⟨handle, disk, opened, finished, opens, _, _, _, reads⟩ :=
    runRoundTrips crc32OfBytes (by decide) (by decide) (by decide) twoAccepted twoRoundTrip 0 "active"
  obtain ⟨out, _, listed, _, scanned⟩ := reads [2] [3]
  exact ⟨handle, disk, opened, finished, opens, out, listed, scanned⟩

end CardanoLsm.Format
