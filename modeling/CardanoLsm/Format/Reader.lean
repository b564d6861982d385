import CardanoLsm.Format.Writer
import CardanoLsm.Lib.BinarySearch

/-! Reading a run from its bytes (`SsTableHandle`, `sstable.rs`): opening, the scan of
the whole keyops file, and the indexed point lookup. -/
namespace CardanoLsm.Format
open Bytes

def takeBytes (n : Nat) (data : List UInt8) : Except FormatError (List UInt8 × List UInt8) :=
  match readExact n data with
  | some parts => .ok parts
  | none => .error (.io (.read .keyops))

def readRange (c : Component) (file : Option (List UInt8)) (offset length : Nat) :
    Except FormatError (List UInt8) :=
  match file with
  | none => .error (.io (.open c))
  | some data =>
    match readAt data offset length with
    | some bytes => .ok bytes
    | none => .error (.io (.read c))

def readFile {α : Type} (c : Component) (file : Option α) : Except FormatError α :=
  match file with
  | some data => .ok data
  | none => .error (.io (.open c))

structure Scan where
  results : List (Key × Entry)
  blobRequests : List (Nat × Nat × Nat)

/-- The loop over the keyops file. A round takes at least four bytes, so the length of
the file is enough rounds. -/
def scanEntries (lo hi : Key) : Nat → List UInt8 → Scan → Except FormatError Scan
  | 0, _, scan => .ok scan
  | fuel + 1, data, scan =>
    if data = [] then .ok scan
    else match readExact 4 data with
    | none => .ok scan
    | some (keyLen, data) => do
      let (key, data) ← takeBytes (readLE keyLen) data
      if compare key lo = .lt ∨ compare key hi = .gt then
        let (op, data) ← takeBytes 1 data
        if op = [1] then
          let (_, data) ← takeBytes 8 data
          let (_, data) ← takeBytes 8 data
          scanEntries lo hi fuel data scan
        else scanEntries lo hi fuel data scan
      else
        let (operation, data) ← takeBytes 1 data
        if operation = [1] then
          let (blobOffset, data) ← takeBytes 8 data
          let (valueLen, data) ← takeBytes 8 data
          scanEntries lo hi fuel data ⟨scan.results ++ [(key, none)],
            scan.blobRequests ++ [(scan.results.length, readLE blobOffset, readLE valueLen)]⟩
        else scanEntries lo hi fuel data { scan with results := scan.results ++ [(key, none)] }

def readBatch (c : Component) (file : Option (List UInt8)) (requests : List (Nat × Nat × Nat)) :
    Except FormatError (List (List UInt8)) :=
  requests.mapM (fun r => readRange c file r.2.1 r.2.2)

def fillIn (results : List (Key × Entry)) (requests : List (Nat × Nat × Nat))
    (values : List (List UInt8)) : List (Key × Entry) :=
  (requests.zip values).foldl (fun results r => results.modify r.1.1 (fun e => (e.1, some r.2))) results

def rangeWithTombstones (disk : Disk) (handle : SsTableHandle) (lo hi : Key) :
    Except FormatError (List (Key × Entry)) := do
  let files := disk handle.runNumber
  let keyopsData ← readFile .keyops files.keyops
  let scan ← scanEntries lo hi keyopsData.length keyopsData ⟨[], []⟩
  if scan.blobRequests = [] then return scan.results
  else
    let blobValues ← readBatch .blobs files.blobs scan.blobRequests
    return fillIn scan.results scan.blobRequests blobValues

def range (disk : Disk) (handle : SsTableHandle) (lo hi : Key) :
    Except FormatError (List (Key × Entry)) := do
  let all ← rangeWithTombstones disk handle lo hi
  return all.filter (fun e => e.2.isSome)

def get (crates : Crates) (disk : Disk) (handle : SsTableHandle) (key : Key) :
    Except FormatError (Option Value) :=
  let files := disk handle.runNumber
  if !(handle.bloomFilter.mightContain crates.hash key) then .ok none
  else match BinarySearch.search (fun i => compare (handle.index.keys.getD i []) key)
      handle.index.keys.length with
    | none => .ok none
    | some pos =>
      match handle.index.keyopsOffsets[pos]? with
      | some keyopsOffset => do
        let prefixLen := 4 + key.length + 1
        let head ← readRange .keyops files.keyops keyopsOffset prefixLen
        if head.getLast? = some 0 then return none
        else
          let data ← readRange .keyops files.keyops (keyopsOffset + prefixLen) 16
          let blobOffset := readLE (data.take 8)
          let valueLen := readLE ((data.drop 8).take 8)
          let blob ← readRange .blobs files.blobs blobOffset valueLen
          return some blob
      | none => do
        let results ← rangeWithTombstones disk handle key key
        match results.head? with
        | some e => return e.2
        | none => return none

def paddedNumber (n : Nat) : String := String.ofList ((toString n).toList.leftpad 5 '0')

def componentPath (activeDir : String) (n : Nat) (extension : String) : String :=
  activeDir ++ "/" ++ paddedNumber n ++ "." ++ extension

def missingFiles (activeDir : String) (n : Nat) (files : Files) : List String :=
  (if files.keyops.isNone then [componentPath activeDir n "keyops"] else []) ++
  (if files.blobs.isNone then [componentPath activeDir n "blobs"] else []) ++
  (if files.filter.isNone then [componentPath activeDir n "filter"] else []) ++
  (if files.index.isNone then [componentPath activeDir n "index"] else []) ++
  (if files.checksums.isNone then [componentPath activeDir n "checksums"] else [])

def checkCrc (crc : Crc32) (path : String) (contents : List UInt8) (expected : UInt32) :
    Except FormatError Unit :=
  let computed := crc.readFileCrc32c contents
  if computed ≠ expected then
    .error (.invalidData ("Checksum mismatch for " ++ path ++ ": expected " ++
      String.ofList (toHex expected) ++ ", got " ++ String.ofList (toHex computed)))
  else .ok ()

def expectedChecksum (checksums : ChecksumsFile) (name : Text) : Except FormatError UInt32 :=
  match getChecksum checksums name with
  | .ok crc => .ok crc
  | .error e => .error (.corruption e)

def verify (crc : Crc32) (path : String) (c : Component) (checksums : ChecksumsFile) (name : Text)
    (file : Option (List UInt8)) : Except FormatError Unit := do
  let expected ← expectedChecksum checksums name
  let contents ← readFile c file
  checkCrc crc path contents expected

def deserialized {α : Type} (codec : Codec α) (bytes : List UInt8) : Except FormatError α :=
  match codec.deserialize bytes with
  | .ok a => .ok a
  | .error e => .error (.serialization e)

def open_ (crates : Crates) (activeDir : String) (n : Nat) (disk : Disk) :
    Except FormatError SsTableHandle := do
  let files := disk n
  let missing := missingFiles activeDir n files
  if missing ≠ [] then
    throw (.notFound ("SSTable files missing for run " ++ toString n ++ " in directory " ++ activeDir ++
      ":\n  " ++ "\n  ".intercalate missing))
  let text ← readFile .checksums files.checksums
  let checksums ← match parseChecksumsFile text with
    | .ok checksums => pure checksums
    | .error e => throw (.invalidData e)
  verify crates.crc (componentPath activeDir n "keyops") .keyops checksums ChecksumsFile.keyops files.keyops
  verify crates.crc (componentPath activeDir n "blobs") .blobs checksums ChecksumsFile.blobs files.blobs
  verify crates.crc (componentPath activeDir n "filter") .filter checksums ChecksumsFile.filter files.filter
  verify crates.crc (componentPath activeDir n "index") .index checksums ChecksumsFile.index files.index
  let filterBytes ← readFile .filter files.filter
  let bloomFilter ← deserialized crates.filterCodec filterBytes
  let indexBytes ← readFile .index files.index
  let index ← deserialized crates.indexCodec indexBytes
  match index.keys.head?, index.keys.getLast? with
  | some minKey, some maxKey => return ⟨n, minKey, maxKey, index.keys.length, 0, bloomFilter, index⟩
  | _, _ => throw .unwrapNone

end CardanoLsm.Format
