import CardanoLsm.Format.Checksums
import CardanoLsm.Storage

/-! The bytes of a run (`SsTableWriter`, `sstable.rs`). A write that would make a file
longer than the system can address fails, so that no 64-bit offset wraps. -/
namespace CardanoLsm.Format
open Bytes

inductive FormatError where
  | io (op : FileOp)
  | notFound (message : String)
  | invalidData (message : String)
  | corruption (message : String)
  | serialization (message : String)
  | invalidOperation (message : String)
  /-- The panic of `open` on an index without keys. -/
  | unwrapNone
  /-- The panic of an addition that overflows, where the build checks for it. -/
  | addOverflow
  deriving DecidableEq, Repr

structure Codec (α : Type) where
  serialize : α → Except String (List UInt8)
  deserialize : List UInt8 → Except String α

def Codec.RoundTrips {α : Type} (codec : Codec α) (a : α) : Prop :=
  ∃ bytes, codec.serialize a = .ok bytes ∧ codec.deserialize bytes = .ok a

structure Index where
  keys : List Key
  keyopsOffsets : List Nat
  deriving DecidableEq, Repr

structure Crates where
  crc : Crc32
  hash : KeyHash
  filterCodec : Codec BloomFilter
  indexCodec : Codec Index

def maxFileSize : Nat := 2 ^ 63 - 1

def writeAll (c : Component) (file buf : List UInt8) : Except FormatError (List UInt8) :=
  if file.length + buf.length ≤ maxFileSize then .ok (file ++ buf) else .error (.io (.write c))

structure ChecksumHandle (crc : Crc32) where
  file : List UInt8
  hasher : crc.State

namespace ChecksumHandle

def empty (crc : Crc32) : ChecksumHandle crc := ⟨[], crc.new⟩

def create (crc : Crc32) (c : Component) (existing : Option (List UInt8)) :
    Except FormatError (ChecksumHandle crc) :=
  if existing.isSome then .error (.io (.createNew c)) else .ok (empty crc)

def writeAll {crc : Crc32} (c : Component) (handle : ChecksumHandle crc) (buf : List UInt8) :
    Except FormatError (ChecksumHandle crc) := do
  let file ← Format.writeAll c handle.file buf
  return ⟨file, crc.update handle.hasher buf⟩

def close {crc : Crc32} (handle : ChecksumHandle crc) : UInt32 := crc.finalize handle.hasher

end ChecksumHandle

def writeFileWithChecksum (crc : Crc32) (c : Component) (existing : Option (List UInt8))
    (data : List UInt8) : Except FormatError (List UInt8 × UInt32) := do
  let handle ← ChecksumHandle.create crc c existing
  let handle ← handle.writeAll c data
  return (handle.file, handle.close)

structure Files where
  keyops : Option (List UInt8)
  blobs : Option (List UInt8)
  filter : Option (List UInt8)
  index : Option (List UInt8)
  checksums : Option Text

abbrev Disk := Nat → Files

structure SsTableHandle where
  runNumber : Nat
  minKey : Key
  maxKey : Key
  numEntries : Nat
  level : Nat
  bloomFilter : BloomFilter
  index : Index
  deriving DecidableEq

structure Layout (crc : Crc32) where
  keyopsWriter : ChecksumHandle crc
  blobsWriter : ChecksumHandle crc
  blobOffset : Nat
  currentKeyopsOffset : Nat
  keyopsOffsets : List Nat

def Layout.start (crc : Crc32) : Layout crc := ⟨.empty crc, .empty crc, 0, 0, []⟩

def Layout.writeEntry {crc : Crc32} (w : Layout crc) (e : Key × Entry) :
    Except FormatError (Layout crc) := do
  let keyopsOffsets := w.keyopsOffsets ++ [w.currentKeyopsOffset]
  let keyops ← w.keyopsWriter.writeAll .keyops (le 4 e.1.length)
  let keyops ← keyops.writeAll .keyops e.1
  match e.2 with
  | some value =>
    let keyops ← keyops.writeAll .keyops [1]
    let keyops ← keyops.writeAll .keyops (le 8 w.blobOffset)
    let keyops ← keyops.writeAll .keyops (le 8 value.length)
    let blobs ← w.blobsWriter.writeAll .blobs value
    return ⟨keyops, blobs, w.blobOffset + value.length, w.currentKeyopsOffset + (4 + e.1.length + 17),
      keyopsOffsets⟩
  | none =>
    let keyops ← keyops.writeAll .keyops [0]
    return ⟨keyops, w.blobsWriter, w.blobOffset, w.currentKeyopsOffset + (4 + e.1.length + 1),
      keyopsOffsets⟩

def sortByKey (entries : List (Key × Entry)) : List (Key × Entry) :=
  entries.insertionSort (fun a b => (compare a.1 b.1).isLE = true)

def serialized {α : Type} (codec : Codec α) (a : α) : Except FormatError (List UInt8) :=
  match codec.serialize a with
  | .ok bytes => .ok bytes
  | .error e => .error (.serialization e)

def finish (crates : Crates) (n : Nat) (added : List (Key × Entry)) (level : Nat) (disk : Disk) :
    Except FormatError (SsTableHandle × Disk) := do
  let keyopsWriter ← ChecksumHandle.create crates.crc .keyops (disk n).keyops
  let blobsWriter ← ChecksumHandle.create crates.crc .blobs (disk n).blobs
  match sortByKey added with
  | [] => throw (.invalidOperation "Cannot create empty SSTable")
  | first :: rest =>
    let entries := first :: rest
    let minKey := first.1
    let maxKey := (entries.getLast (List.cons_ne_nil first rest)).1
    let numEntries := entries.length
    let written ← entries.foldlM Layout.writeEntry ⟨keyopsWriter, blobsWriter, 0, 0, []⟩
    let keyopsCrc := written.keyopsWriter.close
    let blobsCrc := written.blobsWriter.close
    let bloomFilter := BloomFilter.fromKeys crates.hash (entries.map Prod.fst) 10
    let filterBytes ← serialized crates.filterCodec bloomFilter
    let (filterFile, filterCrc) ← writeFileWithChecksum crates.crc .filter (disk n).filter filterBytes
    let index : Index := ⟨entries.map Prod.fst, written.keyopsOffsets⟩
    let indexBytes ← serialized crates.indexCodec index
    let (indexFile, indexCrc) ← writeFileWithChecksum crates.crc .index (disk n).index indexBytes
    let checksums : ChecksumsFile := []
    let checksums := checksums.insert ChecksumsFile.keyops keyopsCrc
    let checksums := checksums.insert ChecksumsFile.blobs blobsCrc
    let checksums := checksums.insert ChecksumsFile.filter filterCrc
    let checksums := checksums.insert ChecksumsFile.index indexCrc
    return (⟨n, minKey, maxKey, numEntries, level, bloomFilter, index⟩,
      Function.update disk n ⟨some written.keyopsWriter.file, some written.blobsWriter.file,
        some filterFile, some indexFile, some (formatChecksumsFile checksums)⟩)

end CardanoLsm.Format
