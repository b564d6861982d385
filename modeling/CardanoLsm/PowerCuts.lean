import CardanoLsm.Lib.PowerLoss
import CardanoLsm.Format.BitErrors
import CardanoLsm.Creation

/-! Runs under a loss of power (`SsTableWriter` and `delete_files` of `sstable.rs`,
`checksum_handle.rs`, `write_checksums_file`). The checksums file is the last one to get
its name, by a rename after all five files have been synced. -/
namespace CardanoLsm.PowerCuts
open PowerLoss Format Bytes SnapshotFiles

inductive Folder where
  | active
  | snapshots
  | snapshot (name : String)
  deriving DecidableEq, Repr

inductive FileId where
  | run (n : Nat) (c : Component)
  | snapshot (name : String) (c : Component)
  | directory (name : String)
  deriving DecidableEq, Repr

abbrev Place := Folder × Name
abbrev Volume := PowerLoss.Volume Folder Name FileId UInt8
abbrev Op := PowerLoss.Op Folder Name FileId UInt8

def place (n : Nat) (c : Component) : Place := (.active, fileName n c)

def temporary (n : Nat) : Place := (.active, runPrefix n ++ ".checksum.tmp".toList)

def utf8 (text : Text) : List UInt8 := text.flatMap String.utf8EncodeChar

def newOps (n : Nat) : List Op :=
  [.createNew (place n .keyops) (.run n .keyops), .createNew (place n .blobs) (.run n .blobs)]

def entryOps (n blobOffset : Nat) (e : Key × Entry) : List Op :=
  [.append (.run n .keyops) (le 4 e.1.length), .append (.run n .keyops) e.1] ++
  match e.2 with
  | some value =>
    [.append (.run n .keyops) [1], .append (.run n .keyops) (le 8 blobOffset),
      .append (.run n .keyops) (le 8 value.length), .append (.run n .blobs) value]
  | none => [.append (.run n .keyops) [0]]

def entriesOps (n : Nat) : Nat → List (Key × Entry) → List Op
  | _, [] => []
  | blobOffset, e :: rest => entryOps n blobOffset e ++ entriesOps n (blobOffset + valueLength e) rest

def writeFileOps (n : Nat) (c : Component) (bytes : List UInt8) : List Op :=
  [.createNew (place n c) (.run n c), .append (.run n c) bytes, .sync (.run n c)]

def atomicOps (temp final : Place) (i : FileId) (chunks : List (List UInt8)) : List Op :=
  .create temp i :: (chunks.map (.append i) ++ [.sync i]) ++ [.rename temp final, .syncDir final.1]

def listed (crates : Crates) (added : List (Key × Entry)) (filterBytes indexBytes : List UInt8) : ChecksumsFile :=
  [(ChecksumsFile.index, crates.crc.readFileCrc32c indexBytes),
    (ChecksumsFile.filter, crates.crc.readFileCrc32c filterBytes),
    (ChecksumsFile.blobs, crates.crc.readFileCrc32c (blobsOf (sortByKey added))),
    (ChecksumsFile.keyops, crates.crc.readFileCrc32c (keyopsOf 0 (sortByKey added)))]

def finishOps (crates : Crates) (n : Nat) (added : List (Key × Entry)) : List Op :=
  entriesOps n 0 (sortByKey added) ++ [.sync (.run n .keyops), .sync (.run n .blobs)] ++
  match crates.filterCodec.serialize (writtenFilter crates added) with
  | .error _ => []
  | .ok filterBytes =>
    writeFileOps n .filter filterBytes ++
    match crates.indexCodec.serialize (writtenIndex added) with
    | .error _ => []
    | .ok indexBytes =>
      writeFileOps n .index indexBytes ++
      atomicOps (temporary n) (place n .checksums) (.run n .checksums)
        [utf8 (formatChecksumsFile (listed crates added filterBytes indexBytes))] ++
      [.syncDir .active]

def writerOps (crates : Crates) (n : Nat) (added : List (Key × Entry)) : List Op :=
  newOps n ++ finishOps crates n added

def deleteFiles (n : Nat) : List Op := components.map (fun c => .remove (place n c))

/-- What a run has gone through: its writer has stopped anywhere, or it is complete and
some of its files are deleted; a file that cannot be deleted is passed over. -/
inductive Life (crates : Crates) (n : Nat) (added : List (Key × Entry)) : List Op → Prop where
  | writing {done : List Op} (reached : done <+: writerOps crates n added) : Life crates n added done
  | deleting {removed : List Op} (some : removed.Sublist (deleteFiles n)) :
      Life crates n added (writerOps crates n added ++ removed)

def filesOf (v : Volume) (n : Nat) (checksums : Option Text) : Files :=
  ⟨v.read (place n .keyops), v.read (place n .blobs), v.read (place n .filter), v.read (place n .index), checksums⟩

def openRun (crates : Crates) (activeDir : String) (n : Nat) (v : Volume) :
    Except FormatError Format.SsTableHandle :=
  match v.read (place n .checksums) with
  | none => open_ crates activeDir n (fun _ => filesOf v n none)
  | some bytes =>
    match readToString bytes with
    | some text => open_ crates activeDir n (fun _ => filesOf v n (some text))
    | none =>
      if missingFiles activeDir n (filesOf v n (some [])) ≠ [] then
        open_ crates activeDir n (fun _ => filesOf v n (some []))
      else .error (.invalidData "stream did not contain valid UTF-8")

def dottedName (n : Nat) (s : Name) : Name := runPrefix n ++ '.' :: s

theorem dottedInjective {n m : Nat} {s s' : Name} (same : dottedName n s = dottedName m s') : n = m ∧ s = s' := by
  have split : ∀ k s, (dottedName k s).span Char.isDigit = (runPrefix k, '.' :: s) := by
    intro k s
    rw [List.span_eq_takeWhile_dropWhile, dottedName, List.takeWhile_append_of_pos (runPrefixDigits k),
      List.dropWhile_append_of_pos (runPrefixDigits k)]
    simp
  have both : (runPrefix n, '.' :: s) = (runPrefix m, '.' :: s') := by rw [← split, same, split]
  exact ⟨runPrefixInjective (Prod.mk.inj both).1, (List.cons.inj (Prod.mk.inj both).2).2⟩

@[simp] theorem placeInjective {n m : Nat} {c d : Component} : place n c = place m d ↔ n = m ∧ c = d := by
  refine ⟨fun same => fileNameInjective (Prod.mk.inj same).2, ?_⟩
  intro ⟨numbers, components⟩
  rw [numbers, components]

@[simp] theorem temporaryOther (n m : Nat) (c : Component) : place m c ≠ temporary n := by
  intro same
  have names : dottedName m (extension c) = dottedName n "checksum.tmp".toList := (Prod.mk.inj same).2
  have endings := (dottedInjective names).2
  revert endings
  cases c <;> decide

@[simp] theorem temporaryNe (n m : Nat) (c : Component) : temporary n ≠ place m c := (temporaryOther n m c).symm

@[simp] theorem temporaryInjective {n m : Nat} : temporary n = temporary m ↔ n = m := by
  refine ⟨fun same => ?_, fun same => by rw [same]⟩
  have names : dottedName n "checksum.tmp".toList = dottedName m "checksum.tmp".toList := (Prod.mk.inj same).2
  exact (dottedInjective names).1

def paths (n : Nat) : Set Place := {p | (∃ c, p = place n c) ∨ p = temporary n}

def files (n : Nat) : Set FileId := {i | ∃ c, i = .run n c}

section Writing
variable (n : Nat) (entries : List (Key × Entry)) (filterBytes indexBytes checksums : List UInt8)

def writing : List Op :=
  newOps n ++ (entriesOps n 0 entries ++ [.sync (.run n .keyops), .sync (.run n .blobs)]) ++
    (writeFileOps n .filter filterBytes ++ (writeFileOps n .index indexBytes ++
      .create (temporary n) (.run n .checksums) ::
        ([checksums].map (.append (.run n .checksums)) ++ [.sync (.run n .checksums)])))

def contents : Component → List UInt8
  | .keyops => keyopsOf 0 entries
  | .blobs => blobsOf entries
  | .filter => filterBytes
  | .index => indexBytes
  | _ => checksums

end Writing

theorem entriesKeyops (n blobOffset : Nat) (entries : List (Key × Entry)) :
    ∃ chunks : List (List UInt8), (entriesOps n blobOffset entries).filter (Op.concerns (place n .keyops) (.run n .keyops)) =
      chunks.map (.append (.run n .keyops)) ∧ chunks.flatten = keyopsOf blobOffset entries := by
  induction entries generalizing blobOffset with
  | nil => exact ⟨[], rfl, rfl⟩
  | cons e rest ih =>
    obtain ⟨later, filtered, flat⟩ := ih (blobOffset + valueLength e)
    obtain ⟨key, value⟩ := e
    cases value with
    | none =>
      refine ⟨[le 4 key.length, key, [0]] ++ later, ?_, ?_⟩
      · simp [entriesOps, entryOps, Op.concerns, filtered]
      · simp [keyopsOf, record, opBytes, flat]
    | some value =>
      refine ⟨[le 4 key.length, key, [1], le 8 blobOffset, le 8 value.length] ++ later, ?_, ?_⟩
      · simp [entriesOps, entryOps, Op.concerns, filtered]
      · simp [keyopsOf, record, opBytes, flat]

theorem entriesBlobs (n blobOffset : Nat) (entries : List (Key × Entry)) :
    ∃ chunks : List (List UInt8), (entriesOps n blobOffset entries).filter (Op.concerns (place n .blobs) (.run n .blobs)) =
      chunks.map (.append (.run n .blobs)) ∧ chunks.flatten = blobsOf entries := by
  induction entries generalizing blobOffset with
  | nil => exact ⟨[], rfl, rfl⟩
  | cons e rest ih =>
    obtain ⟨later, filtered, flat⟩ := ih (blobOffset + valueLength e)
    obtain ⟨key, value⟩ := e
    cases value with
    | none =>
      refine ⟨later, ?_, ?_⟩
      · simp [entriesOps, entryOps, Op.concerns, filtered]
      · simpa [blobsOf] using flat
    | some value =>
      refine ⟨value :: later, ?_, ?_⟩
      · simp [entriesOps, entryOps, Op.concerns, filtered]
      · simpa [blobsOf] using flat

theorem entriesOther (n blobOffset : Nat) (entries : List (Key × Entry)) {p : Place} {i : FileId}
    (keyops : i ≠ .run n .keyops) (blobs : i ≠ .run n .blobs) :
    (entriesOps n blobOffset entries).filter (Op.concerns p i) = [] := by
  induction entries generalizing blobOffset with
  | nil => rfl
  | cons e rest ih =>
    obtain ⟨key, value⟩ := e
    cases value <;> simp [entriesOps, entryOps, Op.concerns, ih, keyops.symm, blobs.symm]

section Files
variable (n : Nat) (entries : List (Key × Entry)) (filterBytes indexBytes checksums : List UInt8)

theorem writingData {c : Component} (data : c ∈ checkedFiles) : ∃ chunks : List (List UInt8),
    (writing n entries filterBytes indexBytes checksums).filter (Op.concerns (place n c) (.run n c)) =
        .createNew (place n c) (.run n c) :: (chunks.map (.append (.run n c)) ++ [.sync (.run n c)]) ∧
      chunks.flatten = contents entries filterBytes indexBytes checksums c := by
  simp only [checkedFiles, List.mem_cons, List.not_mem_nil, or_false] at data
  rcases data with rfl | rfl | rfl | rfl
  · obtain ⟨chunks, filtered, flat⟩ := entriesKeyops n 0 entries
    refine ⟨chunks, ?_, flat⟩
    simp [writing, newOps, writeFileOps, Op.concerns, filtered]
  · obtain ⟨chunks, filtered, flat⟩ := entriesBlobs n 0 entries
    refine ⟨chunks, ?_, flat⟩
    simp [writing, newOps, writeFileOps, Op.concerns, filtered]
  · refine ⟨[filterBytes], ?_, List.flatten_singleton⟩
    simp [writing, newOps, writeFileOps, Op.concerns, entriesOther]
  · refine ⟨[indexBytes], ?_, List.flatten_singleton⟩
    simp [writing, newOps, writeFileOps, Op.concerns, entriesOther]

theorem writingChecksums :
    (writing n entries filterBytes indexBytes checksums).filter (Op.concerns (temporary n) (.run n .checksums)) =
      .create (temporary n) (.run n .checksums) ::
        ([checksums].map (.append (.run n .checksums)) ++ [.sync (.run n .checksums)]) := by
  simp [writing, newOps, writeFileOps, Op.concerns, entriesOther]

end Files

def Confined (n : Nat) (P : Set Place) (op : Op) : Prop := (∀ p ∈ op.touches, p ∈ P) ∧ ∀ i ∈ op.writes, i ∈ files n

theorem entriesAppend {n blobOffset : Nat} {entries : List (Key × Entry)} {op : Op}
    (member : op ∈ entriesOps n blobOffset entries) : ∃ c bytes, op = .append (.run n c) bytes := by
  induction entries generalizing blobOffset with
  | nil => cases member
  | cons e rest ih =>
    obtain ⟨key, value⟩ := e
    rcases List.mem_append.mp member with first | later
    · cases value with
      | none =>
        simp only [entryOps, List.cons_append, List.nil_append, List.mem_cons, List.not_mem_nil, or_false] at first
        rcases first with rfl | rfl | rfl <;> exact ⟨_, _, rfl⟩
      | some value =>
        simp only [entryOps, List.cons_append, List.nil_append, List.mem_cons, List.not_mem_nil, or_false] at first
        rcases first with rfl | rfl | rfl | rfl | rfl | rfl <;> exact ⟨_, _, rfl⟩
    · exact ih later

theorem entriesConfined {n blobOffset : Nat} {entries : List (Key × Entry)} {P : Set Place} {op : Op}
    (member : op ∈ entriesOps n blobOffset entries) : Confined n P op := by
  obtain ⟨c, bytes, rfl⟩ := entriesAppend member
  simp [Confined, Op.touches, Op.writes, files]

theorem writingConfined {n : Nat} {entries : List (Key × Entry)} {filterBytes indexBytes checksums : List UInt8}
    {op : Op} (member : op ∈ writing n entries filterBytes indexBytes checksums) :
    Confined n (paths n \ {place n .checksums}) op := by
  simp only [writing, newOps, writeFileOps, List.mem_append, List.mem_cons, List.not_mem_nil, or_false,
    List.map_cons, List.map_nil] at member
  rcases member with ((rfl | rfl) | data | rfl | rfl) | (rfl | rfl | rfl) | (rfl | rfl | rfl) | rfl | rfl | rfl
  case inl.inr.inl => exact entriesConfined data
  all_goals simp [Confined, Op.touches, Op.writes, files, paths]

theorem checksumsLast {n : Nat} {entries : List (Key × Entry)} {filterBytes indexBytes checksums : List UInt8} {op : Op}
    (member : op ∈ writing n entries filterBytes indexBytes checksums) : place n .checksums ∉ op.touches :=
  fun touched => ((writingConfined member).1 _ touched).2 rfl

/-! From the rename on the five files are complete; which of the names are there is open. -/

def Named (n : Nat) (c : Component) (e : Option FileId) : Prop := e = none ∨ e = some (.run n c)

structure Complete (n : Nat) (bytes : Component → List UInt8) (v : Volume) : Prop where
  closed : ∀ c ∈ components, v.Sealed (.run n c) (bytes c)
  named : ∀ c ∈ components, v.Only (place n c) (Named n c)

def Fresh (n : Nat) (v : Volume) : Prop := ∀ c ∈ components, v.Only (place n c) (fun e => e = none)

theorem placeInside (n : Nat) (c : Component) : place n c ∈ paths n := Or.inl ⟨c, rfl⟩

theorem temporaryInside (n : Nat) : temporary n ∈ paths n := Or.inr rfl

theorem fileInside (n : Nat) (c : Component) : FileId.run n c ∈ files n := ⟨c, rfl⟩

theorem Complete.rely {n : Nat} {bytes : Component → List UInt8} {v w : Volume} (complete : Complete n bytes v)
    (rely : v.Rely (paths n) (files n) w) : Complete n bytes w :=
  ⟨fun c member => (complete.closed c member).rely (fileInside n c) rely,
    fun c member => (complete.named c member).rely (placeInside n c) rely⟩

section Published
variable {n : Nat} {entries : List (Key × Entry)} {filterBytes indexBytes checksums : List UInt8} {v w : Volume}

theorem writtenData (run : Runs (paths n) (files n) (writing n entries filterBytes indexBytes checksums) v w)
    (fresh : Fresh n v) {c : Component} (data : c ∈ checkedFiles) :
    w.entry (place n c) = some (.run n c) ∧
      w.Sealed (.run n c) (contents entries filterBytes indexBytes checksums c) ∧
      w.Only (place n c) (Named n c) := by
  obtain ⟨chunks, filtered, flat⟩ := writingData n entries filterBytes indexBytes checksums data
  have component : c ∈ components := by
    revert data
    cases c <;> decide
  have own := run.file (placeInside n c) (fileInside n c)
  rw [filtered] at own
  have start : v.Only (place n c) (Named n c) := (fresh c component).weaken (fun _ none => Or.inl none)
  rw [← flat]
  exact own.written (fun _ _ applied => Volume.applyCreateNew applied) (Set.mem_singleton _) (Set.mem_singleton _)
    start (Or.inr rfl)

theorem writtenChecksums (run : Runs (paths n) (files n) (writing n entries filterBytes indexBytes checksums) v w)
    (fresh : Fresh n v) : w.entry (temporary n) = some (.run n .checksums) ∧
      w.Sealed (.run n .checksums) checksums ∧ w.Only (place n .checksums) (fun e => e = none) := by
  have own := run.file (temporaryInside n) (fileInside n .checksums)
  rw [writingChecksums] at own
  obtain ⟨entry, closed, -⟩ := own.written (A := fun _ => True) (fun _ _ applied => applied)
    (Set.mem_singleton _) (Set.mem_singleton _) (fun _ _ => trivial) trivial
  refine ⟨entry, by simpa using closed, ?_⟩
  exact run.untouched (placeInside n .checksums) (fun op member => checksumsLast member) (fresh .checksums (by decide))

theorem renameComplete {u : Volume} (closed : ∀ c ∈ checkedFiles,
      v.Sealed (.run n c) (contents entries filterBytes indexBytes checksums c) ∧ v.Only (place n c) (Named n c))
    (temp : v.entry (temporary n) = some (.run n .checksums)) (last : v.Sealed (.run n .checksums) checksums)
    (unnamed : v.Only (place n .checksums) (fun e => e = none))
    (applied : (PowerLoss.Op.rename (temporary n) (place n .checksums)).apply v = some u) :
    Complete n (contents entries filterBytes indexBytes checksums) u ∧
      u.entry (place n .checksums) = some (.run n .checksums) := by
  obtain ⟨entry, -, only, content, synced⟩ := Volume.applyRename (temporaryNe n n .checksums) applied temp
  have split : ∀ c ∈ components, c ∈ checkedFiles ∨ c = .checksums := by decide
  have stays : ∀ c ∈ checkedFiles, Volume.Rely {place n c} Set.univ v u := by
    intro c data
    refine Volume.applyRely applied (fun q touched same => ?_) (fun i written => absurd written List.not_mem_nil)
    simp only [PowerLoss.Op.touches, List.mem_cons, List.not_mem_nil, or_false] at touched
    rw [Set.mem_singleton_iff] at same
    subst same
    rcases touched with same | same
    · exact temporaryOther n n c same
    · have component := (placeInjective.mp same).2
      rw [component] at data
      revert data
      decide
  have sealedStays : ∀ c bytes, v.Sealed (.run n c) bytes → u.Sealed (.run n c) bytes := by
    intro c bytes closed
    rwa [Volume.Sealed, content, synced]
  refine ⟨⟨fun c member => ?_, fun c member => ?_⟩, entry⟩
  · rcases split c member with data | rfl
    · exact sealedStays c _ (closed c data).1
    · exact sealedStays .checksums _ last
  · rcases split c member with data | rfl
    · exact (closed c data).2.rely (Set.mem_singleton _) (stays c data)
    · exact only _ (unnamed.weaken (fun _ none => Or.inl none)) (Or.inr rfl)

def Settling (n : Nat) (op : Op) : Prop := op = .syncDir .active ∨ ∃ c ∈ components, op = .remove (place n c)

theorem Complete.step {bytes : Component → List UInt8} (complete : Complete n bytes v) {op : Op} (settling : Settling n op)
    (applied : op.apply v = some w) : Complete n bytes w := by
  rcases settling with rfl | ⟨d, _, rfl⟩
  · exact complete.rely (Volume.applyRely applied (fun _ touched => absurd touched List.not_mem_nil)
      (fun _ written => absurd written List.not_mem_nil))
  · have rely : ∀ c, c ≠ d → Volume.Rely {place n c} Set.univ v w := by
      intro c other
      refine Volume.applyRely applied (fun q touched same => ?_) (fun i written => absurd written List.not_mem_nil)
      rw [List.mem_singleton.mp touched, Set.mem_singleton_iff] at same
      exact other (placeInjective.mp same).2.symm
    obtain ⟨i, -, rfl⟩ := Option.map_eq_some_iff.mp applied
    refine ⟨complete.closed, fun c member => ?_⟩
    by_cases same : c = d
    · subst same
      exact (complete.named c member).put (Or.inl rfl)
    · exact (complete.named c member).rely (Set.mem_singleton _) (rely c same)

end Published

section Lives
variable {crates : Crates} {n : Nat} {added : List (Key × Entry)} {filterBytes indexBytes : List UInt8}
  {v w found : Volume}

def checksumsText (crates : Crates) (added : List (Key × Entry)) (filterBytes indexBytes : List UInt8) : Text :=
  formatChecksumsFile (listed crates added filterBytes indexBytes)

def writerWriting (crates : Crates) (n : Nat) (added : List (Key × Entry)) (filterBytes indexBytes : List UInt8) :
    List Op :=
  writing n (sortByKey added) filterBytes indexBytes (utf8 (checksumsText crates added filterBytes indexBytes))

def writerContents (crates : Crates) (added : List (Key × Entry)) (filterBytes indexBytes : List UInt8) :
    Component → List UInt8 :=
  contents (sortByKey added) filterBytes indexBytes (utf8 (checksumsText crates added filterBytes indexBytes))

theorem writerSplit (filterOk : crates.filterCodec.serialize (writtenFilter crates added) = .ok filterBytes)
    (indexOk : crates.indexCodec.serialize (writtenIndex added) = .ok indexBytes) :
    writerOps crates n added = writerWriting crates n added filterBytes indexBytes ++
      .rename (temporary n) (place n .checksums) :: [.syncDir .active, .syncDir .active] := by
  simp only [writerOps, finishOps, filterOk, indexOk, writerWriting, writing, atomicOps, checksumsText, place,
    List.append_assoc, List.cons_append, List.nil_append]

def Reaches (crates : Crates) (n : Nat) (added : List (Key × Entry)) (filterBytes indexBytes : List UInt8)
    (ops : List Op) : Prop :=
  ops <+: writerWriting crates n added filterBytes indexBytes ∨
    ∃ more, ops = writerWriting crates n added filterBytes indexBytes ++
      .rename (temporary n) (place n .checksums) :: more ∧ ∀ op ∈ more, Settling n op

theorem lifeReaches (filterOk : crates.filterCodec.serialize (writtenFilter crates added) = .ok filterBytes)
    (indexOk : crates.indexCodec.serialize (writtenIndex added) = .ok indexBytes) {ops : List Op}
    (life : Life crates n added ops) : Reaches crates n added filterBytes indexBytes ops := by
  have split := writerSplit (n := n) filterOk indexOk
  cases life with
  | writing reached =>
    rw [split] at reached
    rcases beforeOrAfter reached with early | ⟨more, later, rfl⟩
    · exact Or.inl early
    · refine Or.inr ⟨more, rfl, fun op member => Or.inl ?_⟩
      have inside := later.subset member
      simpa using inside
  | @deleting removed some =>
    refine Or.inr ⟨[.syncDir .active, .syncDir .active] ++ removed, ?_, fun op member => ?_⟩
    · rw [split, List.append_assoc]
      rfl
    · rcases List.mem_append.mp member with sync | remove
      · exact Or.inl (by simpa using sync)
      · obtain ⟨c, component, rfl⟩ := List.mem_map.mp (some.subset remove)
        exact Or.inr ⟨c, component, rfl⟩

theorem reachesFinds {ops : List Op} (reaches : Reaches crates n added filterBytes indexBytes ops)
    (run : Runs (paths n) (files n) ops v w) (fresh : Fresh n v) :
    w.Only (place n .checksums) (fun e => e = none) ∨
      Complete n (writerContents crates added filterBytes indexBytes) w := by
  rcases reaches with early | ⟨more, rfl, settling⟩
  · left
    exact run.untouched (placeInside n .checksums) (fun op member => checksumsLast (early.subset member))
      (fresh .checksums (by decide))
  · right
    obtain ⟨u, before, after⟩ := run.split
    obtain ⟨temp, last, unnamed⟩ := writtenChecksums before fresh
    obtain ⟨x, x', rely, applied, later⟩ := after.head
    have data : ∀ c ∈ checkedFiles, x.Sealed (.run n c) (writerContents crates added filterBytes indexBytes c) ∧
        x.Only (place n c) (Named n c) := by
      intro c checked
      obtain ⟨-, closed, named⟩ := writtenData before fresh checked
      exact ⟨closed.rely (fileInside n c) rely, named.rely (placeInside n c) rely⟩
    obtain ⟨complete, -⟩ := renameComplete data ((rely.entries _ (temporaryInside n)).1.trans temp)
      (last.rely (fileInside n _) rely) (unnamed.rely (placeInside n _) rely) applied
    exact later.keeps (fun u u' rely complete => complete.rely rely)
      (fun op member u u' applied complete => complete.step (settling op member) applied) complete

theorem writerDurable (filterOk : crates.filterCodec.serialize (writtenFilter crates added) = .ok filterBytes)
    (indexOk : crates.indexCodec.serialize (writtenIndex added) = .ok indexBytes)
    (run : Runs (paths n) (files n) (writerOps crates n added) v w) (fresh : Fresh n v) :
    ∀ c ∈ components, w.Only (place n c) (fun e => e = some (.run n c)) := by
  rw [writerSplit filterOk indexOk] at run
  obtain ⟨u, before, after⟩ := run.split
  obtain ⟨temp, last, unnamed⟩ := writtenChecksums before fresh
  obtain ⟨x, x', rely, applied, later⟩ := after.head
  obtain ⟨entry, -, -, -, -⟩ := Volume.applyRename (temporaryNe n n .checksums) applied
    ((rely.entries _ (temporaryInside n)).1.trans temp)
  obtain ⟨y, y', rely', applied', later'⟩ := later.head
  obtain ⟨z, z', rely'', applied'', idle⟩ := later'.head
  have present : ∀ c ∈ components, x'.entry (place n c) = some (.run n c) := by
    intro c member
    have split : c ∈ checkedFiles ∨ c = .checksums := by
      revert member
      cases c <;> decide
    rcases split with data | rfl
    · obtain ⟨named, -, -⟩ := writtenData before fresh data
      have kept : Volume.Rely {place n c} Set.univ x x' := by
        refine Volume.applyRely applied (fun q touched same => ?_) (fun i written => absurd written List.not_mem_nil)
        rw [Set.mem_singleton_iff] at same
        subst same
        simp only [PowerLoss.Op.touches, List.mem_cons, List.not_mem_nil, or_false, temporaryOther, false_or,
          placeInjective, true_and] at touched
        rw [touched] at data
        revert data
        decide
      rw [(kept.entries _ (Set.mem_singleton _)).1, (rely.entries _ (placeInside n c)).1, named]
    · exact entry
  intro c member
  obtain ⟨entries, -⟩ := Volume.applySyncDir (p := place n c) applied' rfl
  obtain ⟨-, only⟩ := Volume.applySyncDir (p := place n c) applied'' rfl
  have named : z.entry (place n c) = some (.run n c) := by
    rw [(rely''.entries _ (placeInside n c)).1, entries, (rely'.entries _ (placeInside n c)).1, present c member]
  rw [named] at only
  exact only.rely (placeInside n c) idle.idle

end Lives

def Holds (v : Volume) (n : Nat) (written : Files) : Prop :=
  filesOf v n written.checksums = written ∧ v.read (place n .checksums) = written.checksums.map utf8

theorem missingOpens {crates : Crates} {activeDir : String} {n : Nat} {files : Files}
    (missing : missingFiles activeDir n files ≠ []) :
    ∃ text, open_ crates activeDir n (fun _ => files) = .error (.notFound text) := by
  simp only [open_, ne_eq, missing, not_false_eq_true, if_true, bind, Except.bind, throw, throwThe, MonadExceptOf.throw]
  exact ⟨_, rfl⟩

theorem openAbsent {crates : Crates} {activeDir : String} {n : Nat} {v : Volume} {c : Component}
    (component : c ∈ components) (absent : v.read (place n c) = none) :
    ∃ text, openRun crates activeDir n v = .error (.notFound text) := by
  have missing : ∀ checksums, (c = .checksums → checksums = none) →
      missingFiles activeDir n (filesOf v n checksums) ≠ [] := by
    intro checksums last
    simp only [components, List.mem_cons, List.not_mem_nil, or_false] at component
    rcases component with rfl | rfl | rfl | rfl | rfl
    · simp [missingFiles, filesOf, absent]
    · simp [missingFiles, filesOf, absent]
    · simp [missingFiles, filesOf, absent]
    · simp [missingFiles, filesOf, absent]
    · simp [missingFiles, filesOf, last rfl]
  unfold openRun
  split
  · exact missingOpens (missing none (fun _ => rfl))
  · rename_i bytes there
    have other : c ≠ .checksums := by
      intro same
      rw [same, there] at absent
      cases absent
    split
    · exact missingOpens (missing _ (fun same => absurd same other))
    · rw [if_pos (missing _ (fun same => absurd same other))]
      exact missingOpens (missing _ (fun same => absurd same other))

theorem openHolds {crates : Crates} {activeDir : String} {n : Nat} {v : Volume} {written : Files}
    (holds : Holds v n written) : openRun crates activeDir n v = open_ crates activeDir n (fun _ => written) := by
  obtain ⟨same, checksums⟩ := holds
  unfold openRun
  cases text : written.checksums with
  | none =>
    rw [text, Option.map_none] at checksums
    rw [text] at same
    rw [checksums, same]
  | some text' =>
    rw [text, Option.map_some] at checksums
    rw [text] at same
    rw [checksums]
    dsimp only
    rw [utf8, readText]
    dsimp only
    rw [same]

theorem completeHolds {crates : Crates} {n : Nat} {added : List (Key × Entry)} {filterBytes indexBytes : List UInt8}
    {w found : Volume} (complete : Complete n (writerContents crates added filterBytes indexBytes) w)
    (survives : w.Survives found) (named : ∀ c ∈ components, found.entry (place n c) = some (.run n c)) :
    Holds found n (writtenFiles crates added filterBytes indexBytes) := by
  have read : ∀ c ∈ components,
      found.read (place n c) = some (writerContents crates added filterBytes indexBytes c) := by
    intro c member
    rw [Volume.read, named c member, Option.map_some, survives.file (complete.closed c member)]
  refine ⟨?_, read .checksums (by decide)⟩
  simp only [filesOf, writtenFiles, read .keyops (by decide), read .blobs (by decide), read .filter (by decide),
    read .index (by decide)]
  rfl

theorem completeFinds {n : Nat} {bytes : Component → List UInt8} {w found : Volume} (complete : Complete n bytes w)
    (survives : w.Survives found) : (∃ c ∈ components, found.read (place n c) = none) ∨
      ∀ c ∈ components, found.entry (place n c) = some (.run n c) := by
  by_cases named : ∀ c ∈ components, found.entry (place n c) = some (.run n c)
  · exact Or.inr named
  · left
    rw [not_forall] at named
    obtain ⟨c, lost⟩ := named
    rw [Classical.not_imp] at lost
    have absent := (survives.path (complete.named c lost.1)).resolve_right lost.2
    exact ⟨c, lost.1, by rw [Volume.read, absent, Option.map_none]⟩

def opsOf (n : Nat) (trace : List (Nat × Op)) : List Op := (trace.filter (fun x => x.1 == n)).map Prod.snd

def allPaths : Set Place := {p | ∃ n, p ∈ paths n}

def allFiles : Set FileId := {i | ∃ n, i ∈ files n}

theorem pathsApart {n m : Nat} (apart : m ≠ n) {p : Place} (inside : p ∈ paths m) : p ∉ paths n := by
  rcases inside with ⟨c, rfl⟩ | rfl
  · rintro (⟨d, same⟩ | same)
    · exact apart (placeInjective.mp same).1
    · exact temporaryOther n m c same
  · rintro (⟨d, same⟩ | same)
    · exact temporaryNe m n d same
    · exact apart (temporaryInjective.mp same)

theorem filesApart {n m : Nat} (apart : m ≠ n) {i : FileId} (inside : i ∈ files m) : i ∉ files n := by
  obtain ⟨c, rfl⟩ := inside
  rintro ⟨d, same⟩
  cases same
  exact apart rfl

theorem writeFileConfined {n : Nat} {c : Component} {bytes : List UInt8} {op : Op}
    (member : op ∈ writeFileOps n c bytes) : Confined n (paths n) op := by
  simp only [writeFileOps, List.mem_cons, List.not_mem_nil, or_false] at member
  rcases member with rfl | rfl | rfl <;> simp [Confined, Op.touches, Op.writes, files, paths]

theorem publishConfined {n : Nat} {chunks : List (List UInt8)} {op : Op}
    (member : op ∈ atomicOps (temporary n) (place n .checksums) (.run n .checksums) chunks) :
    Confined n (paths n) op := by
  simp only [atomicOps, List.mem_append, List.mem_cons, List.mem_map, List.not_mem_nil, or_false] at member
  rcases member with (rfl | ⟨_, _, rfl⟩ | rfl) | rfl | rfl <;>
    simp [Confined, Op.touches, Op.writes, files, paths]

theorem finishConfined {crates : Crates} {n : Nat} {added : List (Key × Entry)} {op : Op}
    (member : op ∈ finishOps crates n added) : Confined n (paths n) op := by
  rcases List.mem_append.mp member with data | later
  · simp only [List.mem_append, List.mem_cons, List.not_mem_nil, or_false] at data
    rcases data with entry | rfl | rfl
    · exact entriesConfined entry
    · simp [Confined, Op.touches, Op.writes]
    · simp [Confined, Op.touches, Op.writes]
  · split at later
    · cases later
    · rcases List.mem_append.mp later with filter | later
      · exact writeFileConfined filter
      · split at later
        · cases later
        · rcases List.mem_append.mp later with written | sync
          · rcases List.mem_append.mp written with index | publish
            · exact writeFileConfined index
            · exact publishConfined publish
          · rw [List.mem_singleton.mp sync]
            simp [Confined, Op.touches, Op.writes]

theorem writerConfined {crates : Crates} {n : Nat} {added : List (Key × Entry)} {op : Op}
    (member : op ∈ writerOps crates n added) : Confined n (paths n) op := by
  rcases List.mem_append.mp member with new | finish
  · simp only [newOps, List.mem_cons, List.not_mem_nil, or_false] at new
    rcases new with rfl | rfl <;> simp [Confined, Op.touches, Op.writes, files, paths]
  · exact finishConfined finish

theorem lifeConfined {crates : Crates} {n : Nat} {added : List (Key × Entry)} {ops : List Op}
    (life : Life crates n added ops) {op : Op} (member : op ∈ ops) : Confined n (paths n) op := by
  cases life with
  | writing reached => exact writerConfined (reached.subset member)
  | deleting some =>
    rcases List.mem_append.mp member with early | late
    · exact writerConfined early
    · obtain ⟨c, -, rfl⟩ := List.mem_map.mp (some.subset late)
      simp [Confined, Op.touches, Op.writes, paths]

theorem ownOps {crates : Crates} {added : Nat → List (Key × Entry)} {trace : List (Nat × Op)} {v w : Volume}
    (lives : ∀ n, Life crates n (added n) (opsOf n trace)) (run : Runs allPaths allFiles (trace.map Prod.snd) v w)
    (n : Nat) : Runs (paths n) (files n) (opsOf n trace) v w := by
  refine run.narrow (fun p inside => ⟨n, inside⟩) (fun i inside => ⟨n, inside⟩) _ ?_
  intro x member foreign
  have apart : x.1 ≠ n := ne_of_beq_false foreign
  have own : x.2 ∈ opsOf x.1 trace :=
    List.mem_map_of_mem (f := Prod.snd) (List.mem_filter.mpr ⟨member, beq_self_eq_true x.1⟩)
  obtain ⟨paths, files⟩ := lifeConfined (lives x.1) own
  exact ⟨fun p touched => pathsApart apart (paths p touched), fun i written => filesApart apart (files i written)⟩

/-- Whatever a loss of power finds the writers and the deletions of the runs at, and
whatever it brings back, a run is refused as incomplete or opens as it was written; a run
that was written and not yet deleted opens. -/
theorem powerLossKeepsRuns {crates : Crates} (ofBytes : crates.crc.OfBytes) {added : Nat → List (Key × Entry)}
    {trace : List (Nat × Op)} (lives : ∀ n, Life crates n (added n) (opsOf n trace)) {v w found : Volume}
    (fresh : ∀ n, Fresh n v) (run : Runs allPaths allFiles (trace.map Prod.snd) v w) (survives : w.Survives found)
    {n level : Nat} {disk disk' : Format.Disk} {handle : Format.SsTableHandle}
    (finished : finish crates n (added n) level disk = .ok (handle, disk'))
    (roundTrips : RoundTrips crates (added n)) (activeDir : String) :
    (∃ text, openRun crates activeDir n found = .error (.notFound text)) ∧
        opsOf n trace ≠ writerOps crates n (added n) ∨
      Holds found n (disk' n) ∧ openRun crates activeDir n found = .ok { handle with level := 0 } := by
  obtain ⟨filterBytes, indexBytes, filterOk, indexOk, rfl, described⟩ := finishWritten ofBytes finished
  obtain ⟨filterBytes', filterOk', filterRead⟩ := roundTrips.1
  obtain ⟨indexBytes', indexOk', indexRead⟩ := roundTrips.2
  cases filterOk.symm.trans filterOk'
  cases indexOk.symm.trans indexOk'
  rw [Function.update_self]
  have own := ownOps lives run n
  have opens : Holds found n (writtenFiles crates (added n) filterBytes indexBytes) →
      Holds found n (writtenFiles crates (added n) filterBytes indexBytes) ∧
        openRun crates activeDir n found = .ok { handle with level := 0 } := by
    intro holds
    refine ⟨holds, ?_⟩
    rw [openHolds holds]
    exact openOk described rfl filterRead indexRead activeDir
  have reaches := lifeReaches filterOk indexOk (lives n)
  by_cases whole : opsOf n trace = writerOps crates n (added n)
  · rw [whole] at reaches own
    have durable := writerDurable filterOk indexOk own (fresh n)
    have named : ∀ c ∈ components, found.entry (place n c) = some (.run n c) :=
      fun c member => survives.path (durable c member)
    rcases reachesFinds reaches own (fresh n) with unnamed | complete
    · have absent := survives.path unnamed
      rw [named .checksums (by decide)] at absent
      cases absent
    · exact Or.inr (opens (completeHolds complete survives named))
  · rcases reachesFinds reaches own (fresh n) with unnamed | complete
    · have absent : found.read (place n .checksums) = none := by
        rw [Volume.read, survives.path unnamed, Option.map_none]
      exact Or.inl ⟨openAbsent (by decide) absent, whole⟩
    · rcases completeFinds complete survives with ⟨c, component, absent⟩ | named
      · exact Or.inl ⟨openAbsent component absent, whole⟩
      · exact Or.inr (opens (completeHolds complete survives named))

def emptyVolume : Volume := ⟨fun _ => none, fun _ => [], fun _ => [], fun _ => true⟩

def twoAdded (n : Nat) : List (Key × Entry) := if n = 7 then twoEntries else if n = 8 then twoEntries else []

def begun : List Op := (writerOps crates 8 twoEntries).take 3

def twoTrace : List (Nat × Op) :=
  (writerOps crates 7 twoEntries).map (fun op => (7, op)) ++ begun.map (fun op => (8, op))

theorem twoOps : opsOf 7 twoTrace = writerOps crates 7 (twoAdded 7) ∧
    opsOf 8 twoTrace = begun ∧ ∀ n, n ≠ 7 → n ≠ 8 → opsOf n twoTrace = [] := by
  refine ⟨?_, ?_, fun n seven eight => ?_⟩
  · simp [opsOf, twoTrace, twoAdded, List.filter_map, Function.comp_def]
  · simp [opsOf, twoTrace, List.filter_map, Function.comp_def]
  · simp [opsOf, twoTrace, List.filter_map, Function.comp_def, seven.symm, eight.symm]

def twoLost (v : Volume) : Volume := (v.lose (place 8 .blobs) none).garble (.run 8 .keyops) [255]

theorem twoExecutes : ((execute (twoTrace.map Prod.snd) emptyVolume).map (fun v =>
    (decide (none ∈ v.past (place 8 .blobs)), v.synced (.run 8 .keyops)))) = some (true, false) := by decide +kernel

theorem powerLossKeepsRunsTwo : ∃ v handle text, execute (twoTrace.map Prod.snd) emptyVolume = some v ∧
    openRun crates "active" 7 (twoLost v) = .ok handle ∧
    openRun crates "active" 8 (twoLost v) = .error (.notFound text) := by
  obtain ⟨v, ran, lost⟩ := Option.map_eq_some_iff.mp twoExecutes
  have survives : v.Survives (twoLost v) :=
    ((Volume.Survives.refl v).lose (Or.inr (of_decide_eq_true (Prod.mk.inj lost).1))).garble (Prod.mk.inj lost).2 [255]
  have lives : ∀ n, Life crates n (twoAdded n) (opsOf n twoTrace) := by
    intro n
    by_cases seven : n = 7
    · subst seven
      exact .writing (twoOps.1 ▸ List.prefix_rfl)
    · by_cases eight : n = 8
      · subst eight
        rw [twoOps.2.1]
        exact .writing (List.take_prefix 3 _)
      · exact .writing (twoOps.2.2 n seven eight ▸ List.nil_prefix)
  have fresh : ∀ n, Fresh n emptyVolume := by
    intro n c _ e may
    exact may.resolve_right List.not_mem_nil
  have refused : ∃ text, openRun crates "active" 8 (twoLost v) = .error (.notFound text) := by
    refine openAbsent (show Component.blobs ∈ components by decide) ?_
    have gone : (twoLost v).entry (place 8 .blobs) = none := v.loseEntry (place 8 .blobs) none
    rw [Volume.read, gone, Option.map_none]
  obtain ⟨text, refused⟩ := refused
  obtain ⟨handle, finished, -⟩ := finishOk crc32OfBytes (by decide) twoAccepted rfl rfl 0
  have ofBytes : crates.crc.OfBytes := crc32OfBytes
  rcases powerLossKeepsRuns ofBytes lives fresh (Runs.executed allPaths allFiles ran) survives finished twoRoundTrip
      "active" with ⟨-, cut⟩ | ⟨-, opens⟩
  · exact absurd twoOps.1 cut
  · exact ⟨v, _, text, ran, opens, refused⟩

end CardanoLsm.PowerCuts
