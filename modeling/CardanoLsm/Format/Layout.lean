import CardanoLsm.Format.Reader

/-! The two data files of a run as functions of its entries, and that the writer
produces exactly these as long as no write is refused. -/
namespace CardanoLsm.Format
open Bytes Std

def valueLength (e : Key × Entry) : Nat := (e.2.getD []).length

def opBytes (blobOffset : Nat) : Entry → List UInt8
  | some value => 1 :: (le 8 blobOffset ++ le 8 value.length)
  | none => [0]

def record (blobOffset : Nat) (e : Key × Entry) : List UInt8 :=
  le 4 e.1.length ++ (e.1 ++ opBytes blobOffset e.2)

def recordLength (e : Key × Entry) : Nat := 4 + e.1.length + (if e.2.isSome then 17 else 1)

def keyopsOf : Nat → List (Key × Entry) → List UInt8
  | _, [] => []
  | blobOffset, e :: rest => record blobOffset e ++ keyopsOf (blobOffset + valueLength e) rest

def blobsOf (entries : List (Key × Entry)) : List UInt8 := entries.flatMap (fun e => e.2.getD [])

def offsetsOf : Nat → List (Key × Entry) → List Nat
  | _, [] => []
  | offset, e :: rest => offset :: offsetsOf (offset + recordLength e) rest

@[simp] theorem recordLengthEq (blobOffset : Nat) (e : Key × Entry) :
    (record blobOffset e).length = recordLength e := by
  obtain ⟨key, value⟩ := e
  cases value <;> simp [record, recordLength, opBytes] <;> omega

theorem keyopsLength (blobOffset : Nat) (entries : List (Key × Entry)) :
    (keyopsOf blobOffset entries).length = (entries.map recordLength).sum := by
  induction entries generalizing blobOffset with
  | nil => rfl
  | cons e rest ih => simp [keyopsOf, ih]

theorem blobsLength (entries : List (Key × Entry)) :
    (blobsOf entries).length = (entries.map valueLength).sum := by
  simp only [blobsOf, List.length_flatMap]
  rfl

def Wrote {crc : Crc32} (handle : ChecksumHandle crc) (bytes : List UInt8) : Prop :=
  handle.file = bytes ∧
    ∃ chunks : List (List UInt8), handle.hasher = chunks.foldl crc.update crc.new ∧ chunks.flatten = bytes

section Writes
variable {crc : Crc32}

theorem wroteNothing (crc : Crc32) : Wrote (ChecksumHandle.empty crc) [] := ⟨rfl, [], rfl, rfl⟩

theorem Wrote.close {handle : ChecksumHandle crc} {bytes : List UInt8} (wrote : Wrote handle bytes)
    (ofBytes : crc.OfBytes) : handle.close = crc.readFileCrc32c bytes := by
  obtain ⟨_, chunks, hashed, rfl⟩ := wrote
  rw [Crc32.readOfBytes ofBytes, ChecksumHandle.close, hashed]
  rfl

theorem Wrote.writeAll {handle : ChecksumHandle crc} {bytes : List UInt8} (wrote : Wrote handle bytes)
    (c : Component) (buf : List UInt8) (fits : bytes.length + buf.length ≤ maxFileSize) :
    ∃ handle', handle.writeAll c buf = .ok handle' ∧ Wrote handle' (bytes ++ buf) := by
  obtain ⟨rfl, chunks, hashed, together⟩ := wrote
  refine ⟨⟨handle.file ++ buf, crc.update handle.hasher buf⟩, ?_, rfl, chunks ++ [buf], ?_, ?_⟩
  · simp [ChecksumHandle.writeAll, Format.writeAll, fits, bind, Except.bind, pure, Except.pure]
  · simp [hashed]
  · simp [together]

structure LaidOut (w : Layout crc) (keyops blobs : List UInt8) : Prop where
  keyopsFile : Wrote w.keyopsWriter keyops
  blobsFile : Wrote w.blobsWriter blobs
  blobOffset : w.blobOffset = blobs.length
  keyopsOffset : w.currentKeyopsOffset = keyops.length

theorem LaidOut.start (crc : Crc32) : LaidOut (Layout.start crc) [] [] :=
  ⟨wroteNothing crc, wroteNothing crc, rfl, rfl⟩

theorem LaidOut.writeEntry {w : Layout crc} {keyops blobs : List UInt8} (laid : LaidOut w keyops blobs)
    {e : Key × Entry} (room : keyops.length + recordLength e ≤ maxFileSize)
    (blobRoom : blobs.length + valueLength e ≤ maxFileSize) :
    ∃ w', w.writeEntry e = .ok w' ∧
      LaidOut w' (keyops ++ record blobs.length e) (blobs ++ e.2.getD []) ∧
      w'.keyopsOffsets = w.keyopsOffsets ++ [keyops.length] := by
  obtain ⟨key, value⟩ := e
  simp only [recordLength] at room
  have recordBytes := recordLengthEq blobs.length (key, value)
  obtain ⟨k₁, ok₁, wrote₁⟩ := laid.keyopsFile.writeAll .keyops (le 4 key.length) (by
    rw [leLength]
    omega)
  obtain ⟨k₂, ok₂, wrote₂⟩ := wrote₁.writeAll .keyops key (by
    simp only [List.length_append, leLength]
    omega)
  cases value with
  | none =>
    simp only [Option.isSome_none, Bool.false_eq_true, if_false] at room
    obtain ⟨k₃, ok₃, wrote₃⟩ := wrote₂.writeAll .keyops [0] (by
      simp only [List.length_append, leLength, List.length_singleton]
      omega)
    refine ⟨⟨k₃, w.blobsWriter, w.blobOffset, w.currentKeyopsOffset + (4 + key.length + 1),
      w.keyopsOffsets ++ [w.currentKeyopsOffset]⟩, ?_, ⟨?_, ?_, ?_, ?_⟩, ?_⟩
    · simp only [Layout.writeEntry, ok₁, ok₂, ok₃, bind, Except.bind, pure, Except.pure]
    · simpa [record, opBytes] using wrote₃
    · simpa using laid.blobsFile
    · simpa using laid.blobOffset
    · rw [laid.keyopsOffset, List.length_append, recordBytes]
      rfl
    · rw [laid.keyopsOffset]
  | some value =>
    simp only [Option.isSome_some, if_true] at room
    obtain ⟨k₃, ok₃, wrote₃⟩ := wrote₂.writeAll .keyops [1] (by
      simp only [List.length_append, leLength, List.length_singleton]
      omega)
    obtain ⟨k₄, ok₄, wrote₄⟩ := wrote₃.writeAll .keyops (le 8 w.blobOffset) (by
      simp only [List.length_append, leLength, List.length_singleton]
      omega)
    obtain ⟨k₅, ok₅, wrote₅⟩ := wrote₄.writeAll .keyops (le 8 value.length) (by
      simp only [List.length_append, leLength, List.length_singleton]
      omega)
    obtain ⟨b, okB, wroteB⟩ := laid.blobsFile.writeAll .blobs value blobRoom
    refine ⟨⟨k₅, b, w.blobOffset + value.length, w.currentKeyopsOffset + (4 + key.length + 17),
      w.keyopsOffsets ++ [w.currentKeyopsOffset]⟩, ?_, ⟨?_, wroteB, ?_, ?_⟩, ?_⟩
    · simp only [Layout.writeEntry, ok₁, ok₂, ok₃, ok₄, ok₅, okB, bind, Except.bind, pure,
        Except.pure]
    · rw [laid.blobOffset] at wrote₅
      simpa [record, opBytes] using wrote₅
    · simp [laid.blobOffset]
    · rw [laid.keyopsOffset, List.length_append, recordBytes]
      rfl
    · rw [laid.keyopsOffset]

theorem LaidOut.writeEntries {w : Layout crc} {keyops blobs : List UInt8}
    (laid : LaidOut w keyops blobs) {entries : List (Key × Entry)}
    (room : keyops.length + (entries.map recordLength).sum ≤ maxFileSize)
    (blobRoom : blobs.length + (entries.map valueLength).sum ≤ maxFileSize) :
    ∃ w', entries.foldlM Layout.writeEntry w = .ok w' ∧
      LaidOut w' (keyops ++ keyopsOf blobs.length entries) (blobs ++ blobsOf entries) ∧
      w'.keyopsOffsets = w.keyopsOffsets ++ offsetsOf keyops.length entries := by
  induction entries generalizing w keyops blobs with
  | nil => exact ⟨w, rfl, by simpa [keyopsOf, blobsOf] using laid, by simp [offsetsOf]⟩
  | cons e rest ih =>
    rw [List.map_cons, List.sum_cons] at room blobRoom
    obtain ⟨w₁, ok₁, laid₁, offsets₁⟩ := laid.writeEntry (e := e) (by omega) (by omega)
    have blobBytes : (blobs ++ e.2.getD []).length = blobs.length + valueLength e := by
      rw [List.length_append]
      rfl
    have keyopsBytes : (keyops ++ record blobs.length e).length = keyops.length + recordLength e := by
      rw [List.length_append, recordLengthEq]
    obtain ⟨w₂, ok₂, laid₂, offsets₂⟩ := ih laid₁ (by omega) (by omega)
    rw [keyopsBytes, blobBytes] at *
    refine ⟨w₂, ?_, ?_, ?_⟩
    · rw [List.foldlM_cons, ok₁]
      exact ok₂
    · simpa [keyopsOf, blobsOf] using laid₂
    · rw [offsets₂, offsets₁, List.append_assoc]
      rfl

end Writes
end CardanoLsm.Format
