import CardanoLsm.Lib.FilePath
import CardanoLsm.Format.Writer
import CardanoLsm.Snapshot

/-! Snapshots as files (`snapshot.rs`, `atomic_file.rs`, `hard_link_to` of `sstable.rs`).
The name of a snapshot is joined to the path of the tree as it is; every file operation
walks its path anew, and a file is written byte by byte. The tree lives at a place that
its path names without detours. -/
namespace CardanoLsm.SnapshotFiles
open FileTree FileTree.Tree Script Format

abbrev Name := List Char
abbrev Disk := Tree Name (List UInt8)

def segment (part : Name) : List (Step Name) :=
  if part = [] ∨ part = ['.'] then [] else if part = ['.', '.'] then [.up] else [.down part]

def relative (s : Name) : Path Name :=
  let parts := s.splitOn '/'
  ⟨parts.flatMap segment,
    if (parts.reverse.dropWhile (fun part => part = [])).head? = some ['.'] then .dot
    else if parts.getLast? = some [] then .slash else .plain⟩

def join (p : Path Name) (s : Name) : Path Name :=
  if s.head? = some '/' then relative s else ⟨p.steps ++ (relative s).steps, (relative s).ending⟩

def rootPath (lsm : List Name) : Path Name := ⟨lsm.reverse.map Step.down, .plain⟩

def activeDir (lsm : List Name) : Path Name := (rootPath lsm).child "active".toList
def snapshotsDir (lsm : List Name) : Path Name := (rootPath lsm).child "snapshots".toList
def snapshotDir (lsm : List Name) (name : Name) : Path Name := join (snapshotsDir lsm) name

def components : List Component := [.keyops, .blobs, .filter, .index, .checksums]

def extension : Component → Name
  | .keyops => "keyops".toList
  | .blobs => "blobs".toList
  | .filter => "filter".toList
  | .index => "index".toList
  | .checksums => "checksums".toList
  | .metadata => "metadata".toList
  | .metadataChecksum => "metadata.checksum".toList

def runPrefix (n : Nat) : Name :=
  List.replicate (5 - (Nat.toDigits 10 n).length) '0' ++ Nat.toDigits 10 n

def fileName (n : Nat) (c : Component) : Name := runPrefix n ++ '.' :: extension c

def runPath (dir : Path Name) (n : Nat) (c : Component) : Path Name := dir.child (fileName n c)

def metadataName : Name := "metadata".toList
def temporaryName : Name := "metadata.tmp".toList
def checksumName : Name := "metadata.checksum".toList

def createDirAll (p : Path Name) : List (Op FileOp Disk) :=
  p.ancestors.map (fun dir => attempt .createDirAll (fun t => t.ensureDir dir))

def hardLinkTo (active target : Path Name) (n : Nat) : List (Op FileOp Disk) :=
  createDirAll target ++
  components.map (fun c =>
    attempt (.hardLink c) (fun t => t.hardLink (runPath active n c) (runPath target n c))) ++
  [still .openDirectory, still .syncDirectory]

def writeAll (c : Component) (p : Path Name) (bytes : List UInt8) : List (Op FileOp Disk) :=
  bytes.map (fun b => attempt (.write c) (fun t => t.modify p (fun file => file ++ [b])))

def writeMetadata (dir : Path Name) (bytes : List UInt8) : List (Op FileOp Disk) :=
  attempt (.create .metadata) (fun t => t.create (dir.child temporaryName) []) ::
  writeAll .metadata (dir.child temporaryName) bytes ++
  [still (.sync .metadata),
   attempt (.rename .metadata) (fun t => t.rename (dir.child temporaryName) (dir.child metadataName)),
   still .openDirectory, still .syncDirectory]

def writeChecksum (crc : Crc32) (dir : Path Name) (bytes : List UInt8) : List (Op FileOp Disk) :=
  attempt (.create .metadataChecksum) (fun t => t.create (dir.child checksumName) []) ::
  writeAll .metadataChecksum (dir.child checksumName)
    ((toHex (crc.ofChunks [bytes])).flatMap String.utf8EncodeChar) ++
  [still .openDirectory, still .syncDirectory]

def linkOps (lsm : List Name) (dir : Path Name) (sstables : List SsTableHandle) : List (Op FileOp Disk) :=
  createDirAll dir ++ sstables.flatMap (fun h => hardLinkTo (activeDir lsm) dir h.runNumber)

def metadataOf (label : String) (sstables : List SsTableHandle) (sequenceNumber : Nat) (config : LsmConfig) :
    SnapshotMetadata :=
  ⟨1, label, config, sstables.map PersistentSnapshot.describe, sequenceNumber⟩

def createOps (crc : Crc32) (codec : Codec SnapshotMetadata) (lsm : List Name) (dir : Path Name)
    (sstables : List SsTableHandle) (metadata : SnapshotMetadata) : List (Op FileOp Disk) :=
  linkOps lsm dir sstables ++
  match codec.serialize metadata with
  | .error _ => []
  | .ok bytes => writeMetadata dir bytes ++ writeChecksum crc dir bytes

def dropWriter (dir : Path Name) (t : Disk) : Disk :=
  match t.read (dir.child temporaryName) with
  | some _ => t.remove (dir.child temporaryName).place
  | none => t

def create (crc : Crc32) (codec : Codec SnapshotMetadata) (faults : Nat → Bool) (lsm : List Name) (name : Name)
    (label : String) (sstables : List SsTableHandle) (sequenceNumber : Nat) (config : LsmConfig) (t : Disk) :
    Except FormatError SnapshotMetadata × Disk :=
  let dir := snapshotDir lsm name
  if '\x00' ∈ name then (.error (.io .createDirAll), t)
  else if t.present dir then
    (.error (.invalidOperation s!"Snapshot '{String.ofList name}' already exists"), t)
  else
    let links := linkOps lsm dir sstables
    let metadata := metadataOf label sstables sequenceNumber config
    match Script.run faults 0 links t with
    | (some op, t) => (.error (.io op), t)
    | (none, t) =>
      match codec.serialize metadata with
      | .error e => (.error (.serialization e), t)
      | .ok bytes =>
        let written := writeMetadata dir bytes
        match Script.run faults links.length written t with
        | (some op, t) => (.error (.io op), dropWriter dir t)
        | (none, t) =>
          match Script.run faults (links.length + written.length) (writeChecksum crc dir bytes) t with
          | (some op, t) => (.error (.io op), t)
          | (none, t) => (.ok metadata, t)

def readToString (bytes : List UInt8) : Option Text :=
  (String.fromUTF8? (ByteArray.mk bytes.toArray)).map String.toList

def load (crc : Crc32) (codec : Codec SnapshotMetadata) (lsm : List Name) (name : Name) (t : Disk) :
    Except FormatError SnapshotMetadata :=
  let dir := snapshotDir lsm name
  if '\x00' ∈ name ∨ t.present dir = false then
    .error (.invalidOperation s!"Snapshot '{String.ofList name}' does not exist")
  else match t.read (dir.child metadataName) with
  | none => .error (.io (.read .metadata))
  | some bytes =>
    match (t.read (dir.child checksumName)).bind readToString with
    | none => .error (.io (.read .metadataChecksum))
    | some text =>
      match fromHex (trim text) with
      | .error e => .error (.corruption s!"Invalid checksum format: {e}")
      | .ok expected =>
        if crc.ofChunks [bytes] ≠ expected then
          .error (.corruption s!"Snapshot metadata checksum mismatch for '{String.ofList name}'")
        else match codec.deserialize bytes with
        | .error e => .error (.serialization e)
        | .ok metadata => .ok metadata

def delete (crc : Crc32) (codec : Codec SnapshotMetadata) (lsm : List Name) (name : Name) (t : Disk) :
    Except FormatError Unit × Disk :=
  match load crc codec lsm name t with
  | .error e => (.error e, t)
  | .ok _ =>
    match t.removeDirAll (snapshotDir lsm name) with
    | (true, t) => (.ok (), t)
    | (false, t) => (.error (.io .openDirectory), t)

def listSnapshots (lsm : List Name) (t : Disk) : Except FormatError (List Name) :=
  if t.present (snapshotsDir lsm) = false then .ok []
  else if t.lookup (snapshotsDir lsm) = .ok .directory then
    .ok ((t.directories (snapshotsDir lsm).place).insertionSort (fun a b => (compare a b).isLE = true))
  else .error (.io .openDirectory)

theorem rootPlace (lsm : List Name) : (rootPath lsm).place = lsm := by
  have down : ∀ (names place : List Name),
      (names.map Step.down).foldl step place = names.reverse ++ place := by
    intro names
    induction names with
    | nil => intro place; rfl
    | cons name rest ih =>
      intro place
      rw [List.map_cons, List.foldl_cons, ih, step, List.reverse_cons, List.append_assoc]
      rfl
  rw [Path.place, rootPath, down, List.reverse_reverse, List.append_nil]

theorem activePlace (lsm : List Name) : (activeDir lsm).place = "active".toList :: lsm := by
  rw [activeDir, Path.childPlace, rootPlace]

theorem snapshotsPlace (lsm : List Name) : (snapshotsDir lsm).place = "snapshots".toList :: lsm := by
  rw [snapshotsDir, Path.childPlace, rootPlace]

theorem runPlace (dir : Path Name) (n : Nat) (c : Component) :
    (runPath dir n c).place = fileName n c :: dir.place := Path.childPlace _ _

theorem readActive {t : Disk} {lsm : List Name} {n : Nat} {c : Component} {content : List UInt8} :
    t.read (runPath (activeDir lsm) n c) = some content ↔
      t.find (runPath (activeDir lsm) n c).place = some (.file content) := by
  rw [readIff]
  refine ⟨fun held => held.2.1, fun found => ⟨?_, found, rfl⟩⟩
  rw [runPlace, activePlace] at found ⊢
  have steps : (runPath (activeDir lsm) n c).steps =
      (fileName n c :: "active".toList :: lsm).reverse.map Step.down := by
    simp only [runPath, activeDir, rootPath, Path.child, List.reverse_cons, List.map_append, List.map_cons,
      List.map_nil]
  rw [steps]
  exact walkDown found

theorem runPrefixDigits (n : Nat) : ∀ d ∈ runPrefix n, d.isDigit = true := by
  intro d member
  rcases List.mem_append.mp member with zero | digit
  · rw [(List.mem_replicate.mp zero).2]
    rfl
  · exact Nat.isDigit_of_mem_toDigits (by decide) (by decide) digit

theorem runPrefixDigit (n : Nat) : ∃ d rest, runPrefix n = d :: rest ∧ d.isDigit = true := by
  obtain ⟨d, rest, split⟩ := List.exists_cons_of_ne_nil
    (List.append_ne_nil_of_right_ne_nil (List.replicate (5 - (Nat.toDigits 10 n).length) '0')
      (Nat.toDigits_ne_nil (n := n) (b := 10)))
  exact ⟨d, rest, split, runPrefixDigits n d (by rw [runPrefix, split]; exact List.mem_cons_self)⟩

theorem fileNameOther (n : Nat) (c : Component) :
    fileName n c ≠ metadataName ∧ fileName n c ≠ temporaryName ∧ fileName n c ≠ checksumName := by
  obtain ⟨d, rest, split, digit⟩ := runPrefixDigit n
  have letter : ∀ tail, fileName n c ≠ 'm' :: tail := by
    intro tail same
    rw [fileName, split, List.cons_append] at same
    rw [(List.cons.inj same).1] at digit
    cases digit
  exact ⟨letter _, letter _, letter _⟩

theorem runPrefixInjective {n m : Nat} (same : runPrefix n = runPrefix m) : n = m := by
  have value : ∀ k, Nat.ofDigitChars 10 (runPrefix k) 0 = k := by
    intro k
    rw [runPrefix, Nat.ofDigitChars_append, Nat.ofDigitChars_replicate_zero, Nat.mul_zero,
      Nat.ofDigitChars_ten_toDigits]
  rw [← value n, same, value]

theorem fileNameInjective {n m : Nat} {c d : Component} (same : fileName n c = fileName m d) : n = m ∧ c = d := by
  have split : ∀ k e, (fileName k e).span Char.isDigit = (runPrefix k, '.' :: extension e) := by
    intro k e
    rw [List.span_eq_takeWhile_dropWhile, fileName, List.takeWhile_append_of_pos (runPrefixDigits k),
      List.dropWhile_append_of_pos (runPrefixDigits k)]
    simp
  have both : (runPrefix n, '.' :: extension c) = (runPrefix m, '.' :: extension d) := by
    rw [← split, same, split]
  refine ⟨runPrefixInjective (Prod.mk.inj both).1, ?_⟩
  have endings := (List.cons.inj (Prod.mk.inj both).2).2
  revert endings
  cases c <;> cases d <;> decide

def Plain (name : Name) : Prop := name ≠ [] ∧ name ≠ ['.'] ∧ name ≠ ['.', '.'] ∧ '/' ∉ name

instance (name : Name) : Decidable (Plain name) := inferInstanceAs (Decidable (_ ∧ _ ∧ _ ∧ _))

theorem relativePlain {name : Name} (plain : Plain name) : relative name = ⟨[.down name], .plain⟩ := by
  obtain ⟨nonempty, dot, dots, whole⟩ := plain
  have parts : name.splitOn '/' = [name] := by
    have joined : (List.intercalate ['/'] [name]).splitOn '/' = [name] :=
      List.splitOn_intercalate '/' (by simpa using whole) (List.cons_ne_nil _ _)
    simpa using joined
  simp only [relative, parts, segment, nonempty, dot, dots, List.flatMap_cons, List.flatMap_nil, or_self, if_false,
    List.reverse_singleton, List.dropWhile_cons, decide_false, List.head?_cons, List.getLast?_singleton,
    Option.some.injEq, List.append_nil, Bool.false_eq_true]

theorem snapshotDirPlain {name : Name} (plain : Plain name) (lsm : List Name) :
    snapshotDir lsm name = (snapshotsDir lsm).child name := by
  have relativeName : name.head? ≠ some '/' := fun same => plain.2.2.2 (List.mem_of_mem_head? same)
  rw [snapshotDir, join, if_neg relativeName, relativePlain plain]
  rfl

end CardanoLsm.SnapshotFiles
