import CardanoLsm.Format.Lookup
import CardanoLsm.Lib.Crc

/-! Bit errors in the files of a run. The checksum takes the bits of a byte from the
lowest up, so that a burst may cross from one byte into the next. -/
namespace CardanoLsm.Format
open Bytes

def bitsOf (data : List UInt8) : List Bool := data.flatMap (fun b => Crc.bits 8 b.toBitVec)

/-- A burst of at most 32 bits, those of each byte counted from the lowest up. -/
def BitBurst (contents damaged : List UInt8) : Prop := Crc.Burst 32 (bitsOf contents) (bitsOf damaged)

def Crc32.Ieee (crc : Crc32) : Prop := ∀ chunks, crc.ofChunks chunks = crc32.ofChunks chunks

def polynomial : BitVec 32 := 0xEDB88320#32

theorem crcBitShift (c : UInt32) : (crcBit c).toBitVec = Crc.shift polynomial c.toBitVec := by
  have low : c &&& 1 = 1 ↔ c.toBitVec.getLsbD 0 = true := by
    rw [← UInt32.toBitVec_inj, UInt32.toBitVec_and]
    have bit : c.toBitVec &&& 1#32 = 1#32 ↔ c.toBitVec.getLsbD 0 = true := by
      rw [BitVec.and_one_eq_setWidth_ofBool_getLsbD]
      cases c.toBitVec.getLsbD 0 <;> decide
    exact bit
  unfold crcBit Crc.shift
  by_cases set : c &&& 1 = 1
  · rw [if_pos set, if_pos (low.mp set)]
    rfl
  · rw [if_neg set, if_neg (fun bit => set (low.mpr bit))]
    rfl

theorem crcByteRegister (c : UInt32) (b : UInt8) :
    (crcByte c b).toBitVec = Crc.register polynomial c.toBitVec (Crc.bits 8 b.toBitVec) := by
  have rounds : ∀ n (c : UInt32), (crcBit^[n] c).toBitVec = (Crc.shift polynomial)^[n] c.toBitVec := by
    intro n
    induction n with
    | zero => intro c; rfl
    | succ n ih =>
      intro c
      rw [Function.iterate_succ_apply, ih, crcBitShift, Function.iterate_succ_apply]
  have small : ∀ i, 8 ≤ i → (b.toBitVec.setWidth 32).getLsbD i = false := by
    intro i above
    rw [BitVec.getLsbD_setWidth, BitVec.getLsbD_of_ge _ _ above, Bool.and_false]
  have word := Crc.absorbWord polynomial small c.toBitVec
  rw [Crc.bitsWiden (by decide)] at word
  rw [crcByte, List.foldl_const, List.length_range, rounds, ← word]
  rfl

theorem crcBytesRegister (c : UInt32) (data : List UInt8) :
    (data.foldl crcByte c).toBitVec = Crc.register polynomial c.toBitVec (bitsOf data) := by
  induction data generalizing c with
  | nil => rfl
  | cons b rest ih =>
    have split : bitsOf (b :: rest) = Crc.bits 8 b.toBitVec ++ bitsOf rest := rfl
    rw [List.foldl_cons, ih, crcByteRegister, split, Crc.registerAppend]

theorem crc32Flat (chunks : List (List UInt8)) :
    crc32.ofChunks chunks = chunks.flatten.foldl crcByte 0xFFFFFFFF ^^^ 0xFFFFFFFF := by
  have folded : chunks.foldl crc32.update crc32.new = chunks.flatten.foldl crcByte crc32.new :=
    List.foldl_flatten.symm
  rw [Crc32.ofChunks, folded]
  rfl

namespace Crc32.Ieee
variable {crc : Crc32}

theorem ofBytes (ieee : crc.Ieee) : crc.OfBytes := by
  intro chunks chunks' same
  rw [ieee, ieee, crc32OfBytes chunks chunks' same]

theorem readFile (ieee : crc.Ieee) (contents : List UInt8) :
    crc.readFileCrc32c contents = contents.foldl crcByte 0xFFFFFFFF ^^^ 0xFFFFFFFF := by
  rw [Crc32.readFileCrc32c, ieee, crc32Flat, Bytes.chunksFlatten (by decide) (Nat.le_refl _)]

theorem burstDiffers (ieee : crc.Ieee) {contents damaged : List UInt8} (burst : BitBurst contents damaged) :
    crc.readFileCrc32c damaged ≠ crc.readFileCrc32c contents := by
  rw [ieee.readFile, ieee.readFile]
  intro same
  have registers := congrArg UInt32.toBitVec ((UInt32.xor_left_inj _).mp same)
  rw [crcBytesRegister, crcBytesRegister] at registers
  exact Crc.burstDetected (by decide) burst _ registers.symm

end Crc32.Ieee

def checkedFiles : List Component := [.keyops, .blobs, .filter, .index]

def Files.data (files : Files) : Component → Option (List UInt8)
  | .keyops => files.keyops
  | .blobs => files.blobs
  | .filter => files.filter
  | .index => files.index
  | _ => none

def extensionOf : Component → String
  | .keyops => "keyops"
  | .blobs => "blobs"
  | .filter => "filter"
  | _ => "index"

def HasBurst (file damaged : Option (List UInt8)) : Prop :=
  ∃ contents contents', file = some contents ∧ damaged = some contents' ∧ BitBurst contents contents'

structure BitErrors (files damaged : Files) : Prop where
  data : ∀ c ∈ checkedFiles, damaged.data c = files.data c ∨ HasBurst (files.data c) (damaged.data c)
  checksums : damaged.checksums = files.checksums

def checksumMismatch (path : String) (expected computed : UInt32) : FormatError :=
  .invalidData ("Checksum mismatch for " ++ path ++ ": expected " ++ String.ofList (toHex expected) ++ ", got " ++
    String.ofList (toHex computed))

theorem serializedOk {α : Type} {codec : Codec α} {a : α} {bytes : List UInt8}
    (ok : serialized codec a = .ok bytes) : codec.serialize a = .ok bytes := by
  unfold serialized at ok
  split at ok
  · rename_i bytes' written
    cases ok
    exact written
  · cases ok

theorem createdNone {crc : Crc32} {c : Component} {existing : Option (List UInt8)}
    {handle : ChecksumHandle crc} (ok : ChecksumHandle.create crc c existing = .ok handle) : existing = none := by
  unfold ChecksumHandle.create at ok
  split at ok
  · cases ok
  · rename_i absent
    rwa [Bool.not_eq_true, Option.isSome_eq_false_iff, Option.isNone_iff_eq_none] at absent

theorem writeFileParts {crc : Crc32} {c : Component} {existing : Option (List UInt8)} {data : List UInt8}
    {out : List UInt8 × UInt32} (ok : writeFileWithChecksum crc c existing data = .ok out) :
    existing = none ∧ data.length ≤ maxFileSize := by
  obtain ⟨handle, created, ok⟩ := bindOk ok
  obtain ⟨handle', written, _⟩ := bindOk ok
  have room := (writeAllOk written).2
  rw [createEmpty created] at room
  exact ⟨createdNone created, by simpa [ChecksumHandle.empty] using room⟩

theorem finishWritten {crates : Crates} (ofBytes : crates.crc.OfBytes) {n level : Nat}
    {added : List (Key × Entry)} {disk disk' : Disk} {handle : SsTableHandle}
    (finished : finish crates n added level disk = .ok (handle, disk')) :
    ∃ filterBytes indexBytes, crates.filterCodec.serialize (writtenFilter crates added) = .ok filterBytes ∧
      crates.indexCodec.serialize (writtenIndex added) = .ok indexBytes ∧
      disk' = Function.update disk n (writtenFiles crates added filterBytes indexBytes) ∧
      Describes crates n added level handle := by
  have stored := finishStored finished
  have ok := finished
  obtain ⟨keyopsWriter, created, ok⟩ := bindOk ok
  obtain ⟨blobsWriter, createdBlobs, ok⟩ := bindOk ok
  have keyopsEmpty := createEmpty created
  have blobsEmpty := createEmpty createdBlobs
  subst keyopsEmpty blobsEmpty
  split at ok
  · cases ok
  · rename_i first rest sorted
    obtain ⟨w, written, ok⟩ := bindOk ok
    obtain ⟨filterBytes, filterOk, ok⟩ := bindOk ok
    obtain ⟨filterOut, filterFile, ok⟩ := bindOk ok
    obtain ⟨indexBytes, indexOk, ok⟩ := bindOk ok
    obtain ⟨indexOut, indexFile, ok⟩ := bindOk ok
    have room : 0 + ((first :: rest).map recordLength).sum ≤ maxFileSize := by simpa [sorted] using stored.room
    have blobRoom : 0 + ((first :: rest).map valueLength).sum ≤ maxFileSize := by simpa [sorted] using stored.blobRoom
    obtain ⟨w', written', -, offsets⟩ := (LaidOut.start crates.crc).writeEntries room blobRoom
    have same := written.symm.trans written'
    cases same
    have filterIs : crates.filterCodec.serialize (writtenFilter crates added) = .ok filterBytes := by
      rw [writtenFilter, sorted]
      exact serializedOk filterOk
    have indexIs : crates.indexCodec.serialize (writtenIndex added) = .ok indexBytes := by
      have serializes := serializedOk indexOk
      rw [offsets] at serializes
      rw [writtenIndex, sorted]
      exact serializes
    have nonempty : added ≠ [] := by
      intro none
      rw [none] at sorted
      cases sorted
    have perm := sortByKeyPerm added
    have accepted : Accepted crates n added disk := by
      refine ⟨⟨createdNone created, createdNone createdBlobs, (writeFileParts filterFile).1,
        (writeFileParts indexFile).1⟩, ?_, ?_, ?_, ?_⟩
      · rw [← (perm.map recordLength).sum_eq]
        exact stored.room
      · rw [← (perm.map valueLength).sum_eq]
        exact stored.blobRoom
      · intro bytes serializes
        cases filterIs.symm.trans serializes
        exact (writeFileParts filterFile).2
      · intro bytes serializes
        cases indexIs.symm.trans serializes
        exact (writeFileParts indexFile).2
    obtain ⟨handle', finished', described⟩ := finishOk ofBytes nonempty accepted filterIs indexIs level
    cases finished.symm.trans finished'
    exact ⟨filterBytes, indexBytes, filterIs, indexIs, rfl, described⟩

theorem burstPresent {contents : List UInt8} {damaged : Option (List UInt8)}
    (data : damaged = some contents ∨ HasBurst (some contents) damaged) :
    ∃ contents', damaged = some contents' ∧ (contents' = contents ∨ BitBurst contents contents') := by
  rcases data with same | ⟨_, contents', held, found, burst⟩
  · exact ⟨contents, same, Or.inl rfl⟩
  · cases held
    exact ⟨contents', found, Or.inr burst⟩

theorem verifyBurst {crc : Crc32} (ieee : crc.Ieee) (path : String) (c : Component) {checksums : ChecksumsFile}
    {name : Text} {contents contents' : List UInt8} (burst : BitBurst contents contents')
    (listed : getChecksum checksums name = .ok (crc.readFileCrc32c contents)) :
    verify crc path c checksums name (some contents') =
      .error (checksumMismatch path (crc.readFileCrc32c contents) (crc.readFileCrc32c contents')) := by
  simp only [verify, expectedChecksum, listed, readFile, checkCrc, checksumMismatch, bind, Except.bind, ne_eq,
    ieee.burstDiffers burst, not_false_eq_true, if_true]

def checkFiles (crates : Crates) (activeDir : String) (n : Nat) (checksums : ChecksumsFile) (files : Files) :
    Except FormatError Unit := do
  verify crates.crc (componentPath activeDir n "keyops") .keyops checksums ChecksumsFile.keyops files.keyops
  verify crates.crc (componentPath activeDir n "blobs") .blobs checksums ChecksumsFile.blobs files.blobs
  verify crates.crc (componentPath activeDir n "filter") .filter checksums ChecksumsFile.filter files.filter
  verify crates.crc (componentPath activeDir n "index") .index checksums ChecksumsFile.index files.index

theorem openStopped {crates : Crates} {n : Nat} {disk : Disk} {keyops blobs filter index : List UInt8} {text : Text}
    {checksums : ChecksumsFile} {e : FormatError} {activeDir : String}
    (files : disk n = ⟨some keyops, some blobs, some filter, some index, some text⟩)
    (parsed : parseChecksumsFile text = .ok checksums)
    (stopped : checkFiles crates activeDir n checksums (disk n) = .error e) :
    open_ crates activeDir n disk = .error e := by
  have checked : ∀ rest : Except FormatError SsTableHandle,
      (checkFiles crates activeDir n checksums (disk n) >>= fun _ => rest) = .error e := by
    intro rest
    rw [stopped]
    rfl
  rw [files] at checked
  simp only [checkFiles, bind_assoc] at checked
  have ok : ∀ {α β : Type} (a : α) (f : α → Except FormatError β), (Except.ok a >>= f) = f a := fun _ _ => rfl
  simp only [open_, files, missingNone, ne_eq, not_true_eq_false, if_false, readFile, ok, parsed, pure_bind]
  exact checked _

theorem openReportsBitErrors {crates : Crates} (ieee : crates.crc.Ieee) {n level : Nat}
    {added : List (Key × Entry)} {disk disk' damaged : Disk} {handle : SsTableHandle}
    (finished : finish crates n added level disk = .ok (handle, disk'))
    (errors : BitErrors (disk' n) (damaged n)) (touched : damaged n ≠ disk' n) (activeDir : String) :
    ∃ before c after contents contents', checkedFiles = before ++ c :: after ∧
      (∀ intact ∈ before, (damaged n).data intact = (disk' n).data intact) ∧
      (disk' n).data c = some contents ∧ (damaged n).data c = some contents' ∧ BitBurst contents contents' ∧
      open_ crates activeDir n damaged = .error (checksumMismatch (componentPath activeDir n (extensionOf c))
        (crates.crc.readFileCrc32c contents) (crates.crc.readFileCrc32c contents')) := by
  obtain ⟨filterBytes, indexBytes, -, -, rfl, -⟩ := finishWritten ieee.ofBytes finished
  rw [Function.update_self] at errors touched ⊢
  obtain ⟨checksums, parsed, keyops, blobs, filter, index⟩ := checksumsRead
    (crates.crc.readFileCrc32c indexBytes) (crates.crc.readFileCrc32c filterBytes)
    (crates.crc.readFileCrc32c (blobsOf (sortByKey added)))
    (crates.crc.readFileCrc32c (keyopsOf 0 (sortByKey added)))
  obtain ⟨data, text⟩ := errors
  obtain ⟨keyopsData, keyopsFound, keyopsCase⟩ := burstPresent (data .keyops (by decide))
  obtain ⟨blobsData, blobsFound, blobsCase⟩ := burstPresent (data .blobs (by decide))
  obtain ⟨filterData, filterFound, filterCase⟩ := burstPresent (data .filter (by decide))
  obtain ⟨indexData, indexFound, indexCase⟩ := burstPresent (data .index (by decide))
  have files : damaged n = ⟨some keyopsData, some blobsData, some filterData, some indexData,
      (writtenFiles crates added filterBytes indexBytes).checksums⟩ := by
    rw [← keyopsFound, ← blobsFound, ← filterFound, ← indexFound, ← text]
    rfl
  rcases keyopsCase with rfl | burst
  · rcases blobsCase with rfl | burst
    · rcases filterCase with rfl | burst
      · rcases indexCase with rfl | burst
        · exact absurd files touched
        · refine ⟨[.keyops, .blobs, .filter], .index, [], _, _, rfl, ?_, rfl, indexFound, burst,
            openStopped files parsed ?_⟩
          · simp [Files.data, files, writtenFiles]
          · simp only [checkFiles, files, verifyOk _ _ _ keyops, verifyOk _ _ _ blobs, verifyOk _ _ _ filter,
              verifyBurst ieee _ _ burst index, extensionOf, bind, Except.bind]
      · refine ⟨[.keyops, .blobs], .filter, [.index], _, _, rfl, ?_, rfl, filterFound, burst,
          openStopped files parsed ?_⟩
        · simp [Files.data, files, writtenFiles]
        · simp only [checkFiles, files, verifyOk _ _ _ keyops, verifyOk _ _ _ blobs,
            verifyBurst ieee _ _ burst filter, extensionOf, bind, Except.bind]
    · refine ⟨[.keyops], .blobs, [.filter, .index], _, _, rfl, ?_, rfl, blobsFound, burst,
        openStopped files parsed ?_⟩
      · simp [Files.data, files, writtenFiles]
      · simp only [checkFiles, files, verifyOk _ _ _ keyops, verifyBurst ieee _ _ burst blobs, extensionOf, bind,
          Except.bind]
  · refine ⟨[], .keyops, [.blobs, .filter, .index], _, _, rfl, ?_, rfl, keyopsFound, burst,
      openStopped files parsed ?_⟩
    · intro intact member
      cases member
    · simp only [checkFiles, files, verifyBurst ieee _ _ burst keyops, extensionOf, bind, Except.bind]

def flippedKeyops : List UInt8 := [1, 0, 0, 0, 129, 1] ++ keyopsOf 0 [([2], some [20, 21])]

theorem flippedBurst : BitBurst (keyopsOf 0 (sortByKey twoEntries)) flippedKeyops :=
  ⟨(bitsOf flippedKeyops).take 39, [false, false], [true, true], (bitsOf flippedKeyops).drop 41, by decide +kernel,
    by decide +kernel, by decide, by decide, by decide⟩

theorem twoFinished : ∃ handle disk, finish crates 7 twoEntries 0 emptyDisk = .ok (handle, disk) ∧
    (disk 7).keyops = some (keyopsOf 0 (sortByKey twoEntries)) := by
  obtain ⟨handle, finished, described⟩ := finishOk crc32OfBytes (by decide) twoAccepted rfl rfl 0
  have keyops := (finishStored finished).keyops
  rw [described.runNumber] at keyops
  exact ⟨handle, _, finished, keyops⟩

def flipKeyops (files : Files) : Files := { files with keyops := some flippedKeyops }

theorem flippedErrors {files : Files} (keyops : files.keyops = some (keyopsOf 0 (sortByKey twoEntries))) :
    BitErrors files (flipKeyops files) ∧ flipKeyops files ≠ files := by
  refine ⟨⟨fun c member => ?_, rfl⟩, fun same => ?_⟩
  · simp only [checkedFiles, List.mem_cons, List.not_mem_nil, or_false] at member
    rcases member with rfl | rfl | rfl | rfl
    · exact Or.inr ⟨_, _, keyops, rfl, flippedBurst⟩
    · exact Or.inl rfl
    · exact Or.inl rfl
    · exact Or.inl rfl
  · have flipped : some flippedKeyops = some (keyopsOf 0 (sortByKey twoEntries)) :=
      (congrArg Files.keyops same).trans keyops
    revert flipped
    decide +kernel

theorem openReportsBitErrorsTwo : ∃ handle disk c contents contents',
    finish crates 7 twoEntries 0 emptyDisk = .ok (handle, disk) ∧
      open_ crates "active" 7 (Function.update disk 7 (flipKeyops (disk 7))) =
        .error (checksumMismatch (componentPath "active" 7 (extensionOf c)) (crc32.readFileCrc32c contents)
          (crc32.readFileCrc32c contents')) := by
  obtain ⟨handle, disk, finished, keyops⟩ := twoFinished
  have flipped := Function.update_self 7 (flipKeyops (disk 7)) disk
  obtain ⟨errors, touched⟩ := flippedErrors keyops
  rw [← flipped] at errors touched
  have ieee : crates.crc.Ieee := fun _ => rfl
  obtain ⟨_, c, _, contents, contents', _, _, _, _, _, refused⟩ :=
    openReportsBitErrors ieee finished errors touched "active"
  exact ⟨handle, disk, c, contents, contents', finished, refused⟩

end CardanoLsm.Format
