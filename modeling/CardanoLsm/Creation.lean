import CardanoLsm.SnapshotFiles

/-! Creating a snapshot when no file operation fails. The new directory is the only place
that changes, with all that stands below it, and the snapshot can be loaded. -/
namespace CardanoLsm.SnapshotFiles
open FileTree FileTree.Tree Script Format

def Sourced (lsm : List Name) (sstables : List SsTableHandle) (t : Disk) : Prop :=
  ∀ h ∈ sstables, ∀ c ∈ components, ∃ content, t.read (runPath (activeDir lsm) h.runNumber c) = some content

structure There (p : Path Name) (t : Disk) : Prop where
  walked : t.walk [] p.steps = .ok p.place
  found : t.find p.place = some .directory

theorem There.lookup {p : Path Name} {t : Disk} (there : There p t) : t.lookup p = .ok .directory :=
  lookupIff.mpr ⟨there.walked, there.found, Or.inl rfl⟩

theorem There.child {p : Path Name} {t : Disk} (there : There p t) (name : Name) :
    t.walk [] (p.child name).steps = .ok (p.child name).place := by
  rw [Path.child, walkAppend, there.walked, ← Path.child, Path.childPlace]
  exact walkCons there.found _ _

theorem There.kept {p : Path Name} {t t' : Disk} (there : There p t) (keeps : Keeps t t') : There p t' :=
  ⟨walkKept keeps there.walked, keeps _ there.found⟩

theorem createDirEnds {above : Path Name} {name : Name} {t : Disk} (there : There above t)
    (absent : t.find (name :: above.place) = none) :
    ∃ t', Ends (createDirAll (above.child name)) t t' ∧ Placed t (above.child name) .directory t' := by
  rw [← Path.childPlace] at absent
  obtain ⟨t', made⟩ := placeEnds .directory (there.child name) (by rw [absent]; exact nofun)
  have step : t.ensureDir (above.child name) = some t' := by
    have missing : t.lookup (above.child name) ≠ .ok .directory := by
      intro found
      have := (lookupIff.mp found).2.1
      rw [absent] at this
      cases this
    rw [ensureDir, if_neg missing, createDir, if_pos ⟨by rw [absent]; rfl, by simp [Path.child]⟩, made]
  refine ⟨t', ?_, placeOk made⟩
  rw [createDirAll, Path.ancestors, List.map_append]
  refine Ends.append (Ends.idle (fun op member => ?_)) (Ends.attempt step)
  obtain ⟨q, inner, rfl⟩ := List.mem_map.mp member
  have found : t.lookup q = .ok .directory := by
    rcases ancestorThere (there.child name) (List.mem_append_left _ inner) with found | last
    · exact found
    · obtain ⟨k, short, rfl⟩ := List.mem_map.mp inner
      have length := congrArg (fun p => p.steps.length) last
      simp only [List.length_take] at length
      have := List.mem_range.mp short
      omega
  exact attemptEffect (by rw [ensureDir, if_pos found])

theorem createDirIdle {p : Path Name} {t : Disk} (there : There p t) : Ends (createDirAll p) t t := by
  refine Ends.idle (fun op member => ?_)
  obtain ⟨q, above, rfl⟩ := List.mem_map.mp member
  have found : t.lookup q = .ok .directory := by
    rcases ancestorThere there.walked above with found | rfl
    · exact found
    · exact there.lookup
  exact attemptEffect (by rw [ensureDir, if_pos found])

structure Filling (lsm : List Name) (dir : Path Name) (t : Disk) (made : List (Nat × Component)) (t' : Disk) :
    Prop where
  there : There dir t'
  elsewhere : ∀ place, place ≠ dir.place → (∀ m ∈ made, place ≠ (runPath dir m.1 m.2).place) →
    t'.find place = t.find place

namespace Filling
variable {lsm : List Name} {dir : Path Name} {t t' : Disk} {made : List (Nat × Component)}

theorem inside (filling : Filling lsm dir t made t') (absent : t.find dir.place = none) {name : Name}
    (other : ∀ m ∈ made, name ≠ fileName m.1 m.2) : t'.find (name :: dir.place) = none := by
  rw [filling.elsewhere _ (List.cons_ne_self _ _) (fun m member same => other m member ?_)]
  · cases found : t.find (name :: dir.place) with
    | none => rfl
    | some node =>
      rw [findAbove found] at absent
      cases absent
  · rw [runPlace] at same
    exact (List.cons.inj same).1

theorem source (filling : Filling lsm dir t made t') (absent : t.find dir.place = none) {n : Nat} {c : Component}
    {content : List UInt8} (held : t.read (runPath (activeDir lsm) n c) = some content) :
    t'.read (runPath (activeDir lsm) n c) = some content := by
  have before := readActive.mp held
  rw [readActive, filling.elsewhere _ (fun same => ?_) (fun m _ same => ?_), before]
  · rw [same, absent] at before
    cases before
  · rw [runPlace] at before
    rw [runPlace, runPlace] at same
    rw [(List.cons.inj same).2] at before
    rw [findAbove before] at absent
    cases absent

theorem link (filling : Filling lsm dir t made t') (absent : t.find dir.place = none) {n : Nat} {c : Component}
    {content : List UInt8} (held : t.read (runPath (activeDir lsm) n c) = some content) (fresh : (n, c) ∉ made) :
    ∃ t'', t'.hardLink (runPath (activeDir lsm) n c) (runPath dir n c) = some t'' ∧
      Filling lsm dir t ((n, c) :: made) t'' := by
  have free : t'.find (runPath dir n c).place = none := by
    rw [runPlace]
    refine filling.inside absent (fun m member same => fresh ?_)
    obtain ⟨rfl, rfl⟩ := fileNameInjective same
    exact member
  obtain ⟨t'', made⟩ := placeEnds (.file content) (filling.there.child (fileName n c))
    (by rw [← runPath, free]; intro blocked; cases blocked)
  have placed : Placed t' (runPath dir n c) (.file content) t'' := placeOk made
  refine ⟨t'', ?_, filling.there.kept placed.keeps, fun place other apart => ?_⟩
  · simp only [hardLink, filling.source absent held, bind, Option.bind_some, free, Option.isNone_none, true_and]
    rw [if_pos (by simp [runPath, Path.child])]
    exact made
  · rw [placed.found, if_neg (apart (n, c) List.mem_cons_self)]
    exact filling.elsewhere place other (fun m member => apart m (List.mem_cons_of_mem _ member))

theorem components (filling : Filling lsm dir t made t') (absent : t.find dir.place = none) {n : Nat}
    (cs : List Component) (once : cs.Nodup) (fresh : ∀ c ∈ cs, (n, c) ∉ made)
    (held : ∀ c ∈ cs, ∃ content, t.read (runPath (activeDir lsm) n c) = some content) :
    ∃ t'', Ends (cs.map (fun c => Script.attempt (FileOp.hardLink c)
      (fun t : Disk => t.hardLink (runPath (activeDir lsm) n c) (runPath dir n c)))) t' t'' ∧
      Filling lsm dir t ((cs.map (n, ·)).reverse ++ made) t'' := by
  induction cs generalizing t' made with
  | nil => exact ⟨t', Ends.nil t', filling⟩
  | cons c rest ih =>
    obtain ⟨apart, once⟩ := List.nodup_cons.mp once
    obtain ⟨content, stored⟩ := held c List.mem_cons_self
    obtain ⟨middle, linked, more⟩ := filling.link absent stored (fresh c List.mem_cons_self)
    obtain ⟨t'', ends, all⟩ := ih more once (fun x member => by
        simp only [List.mem_cons, Prod.mk.injEq, true_and, not_or]
        exact ⟨fun same => apart (same ▸ member), fresh x (List.mem_cons_of_mem c member)⟩)
      (fun x member => held x (List.mem_cons_of_mem c member))
    refine ⟨t'', Ends.append (Ends.attempt linked) ends, ?_⟩
    simpa only [List.map_cons, List.reverse_cons, List.append_assoc, List.singleton_append] using all

theorem hardLinks (filling : Filling lsm dir t made t') (absent : t.find dir.place = none)
    {sstables : List SsTableHandle} (once : (sstables.map SsTableHandle.runNumber).Nodup)
    (fresh : ∀ h ∈ sstables, ∀ c, (h.runNumber, c) ∉ made) (sourced : Sourced lsm sstables t) :
    ∃ t'' all, Ends (sstables.flatMap (fun h => hardLinkTo (activeDir lsm) dir h.runNumber)) t' t'' ∧
      Filling lsm dir t all t'' := by
  induction sstables generalizing t' made with
  | nil => exact ⟨t', made, Ends.nil t', filling⟩
  | cons h rest ih =>
    obtain ⟨apart, once⟩ := List.nodup_cons.mp once
    obtain ⟨middle, linked, more⟩ := filling.components absent (n := h.runNumber) SnapshotFiles.components (by decide)
      (fun c _ => fresh h List.mem_cons_self c) (sourced h List.mem_cons_self)
    obtain ⟨t'', all, ends, filled⟩ := ih more once (fun x member c => by
        rw [List.mem_append, List.mem_reverse, List.mem_map, not_or]
        refine ⟨?_, fresh x (List.mem_cons_of_mem h member) c⟩
        rintro ⟨d, _, same⟩
        exact apart ((Prod.mk.inj same).1 ▸ List.mem_map_of_mem member))
      (fun x member => sourced x (List.mem_cons_of_mem h member))
    refine ⟨t'', all, ?_, filled⟩
    rw [List.flatMap_cons]
    exact Ends.append (Ends.append (Ends.append (createDirIdle filling.there) linked)
      (Ends.still [FileOp.openDirectory, FileOp.syncDirectory])) ends

end Filling

theorem keepsApart {t t' : Disk} {other : List Name} {node : Option (Node (List UInt8))}
    (free : t.find other ≠ some .directory)
    (found : ∀ place, t'.find place = if place = other then node else t.find place) : Keeps t t' := by
  intro place inside
  rw [found, if_neg, inside]
  rintro rfl
  exact free inside

theorem writeAllEnds (c : Component) {p : Path Name} (bytes : List UInt8) {old : List UInt8} {t : Disk}
    (held : t.read p = some old) : ∃ t', Ends (writeAll c p bytes) t t' ∧ t'.read p = some (old ++ bytes) ∧
      ∀ place, t'.find place = if place = p.place then some (.file (old ++ bytes)) else t.find place := by
  induction bytes generalizing t old with
  | nil =>
    refine ⟨t, Ends.nil t, by rw [List.append_nil, held], fun place => ?_⟩
    split
    · rename_i same
      rw [same, List.append_nil, (readIff.mp held).2.1]
    · rfl
  | cons b rest ih =>
    obtain ⟨walked, found, plain⟩ := readIff.mp held
    obtain ⟨middle, written⟩ := placeEnds (.file (old ++ [b])) walked
      (by rw [found]; intro blocked; cases blocked)
    have placed := placeOk written
    have step : t.modify p (fun file => file ++ [b]) = some middle := by
      simp only [Tree.modify, held, bind, Option.bind_some, written]
    have next : middle.read p = some (old ++ [b]) :=
      readIff.mpr ⟨walkKept placed.keeps walked, by rw [placed.found, if_pos rfl], plain⟩
    obtain ⟨t', ends, read, all⟩ := ih next
    rw [List.append_assoc, List.singleton_append] at read all
    refine ⟨t', Ends.append (Ends.attempt step) ends, read, fun place => ?_⟩
    rw [all, placed.found]
    split <;> rfl

theorem writeEnds (c : Component) {dir : Path Name} (name : Name) (bytes : List UInt8) {t : Disk}
    (there : There dir t) (absent : t.find (name :: dir.place) = none) :
    ∃ t', Ends (attempt (.create c) (fun t : Disk => t.create (dir.child name) []) ::
        writeAll c (dir.child name) bytes) t t' ∧ There dir t' ∧ t'.read (dir.child name) = some bytes ∧
      ∀ place, t'.find place = if place = name :: dir.place then some (.file bytes) else t.find place := by
  obtain ⟨middle, made⟩ := placeEnds (.file []) (there.child name)
    (by rw [Path.childPlace, absent]; exact nofun)
  have placed := placeOk made
  have step : t.create (dir.child name) [] = some middle := by
    rw [Tree.create, if_pos (by simp [Path.child]), made]
  have empty : middle.read (dir.child name) = some [] :=
    readChild.mpr ⟨(there.kept placed.keeps).walked, by rw [← Path.childPlace, placed.found, if_pos rfl]⟩
  obtain ⟨t', ends, read, all⟩ := writeAllEnds c bytes empty
  have found : ∀ place, t'.find place = if place = name :: dir.place then some (.file bytes) else t.find place := by
    intro place
    rw [all, placed.found, Path.childPlace, List.nil_append]
    split <;> rfl
  exact ⟨t', Ends.append (Ends.attempt step) ends,
    there.kept (keepsApart (by rw [absent]; exact nofun) found), read, found⟩

theorem metadataEnds {dir : Path Name} (bytes : List UInt8) {t : Disk} (there : There dir t)
    (temporary : t.find (temporaryName :: dir.place) = none) (metadata : t.find (metadataName :: dir.place) = none) :
    ∃ t', Ends (writeMetadata dir bytes) t t' ∧ There dir t' ∧
      ∀ place, t'.find place = if place = metadataName :: dir.place then some (.file bytes) else t.find place := by
  obtain ⟨written, ends, stays, read, found⟩ := writeEnds .metadata temporaryName bytes there temporary
  have apart : (dir.child temporaryName).place ≠ (dir.child metadataName).place := by
    rw [Path.childPlace, Path.childPlace]
    exact fun same => absurd (List.cons.inj same).1 (by decide)
  have free : written.find (dir.child metadataName).place = none := by
    rw [found, Path.childPlace, if_neg (by rw [← Path.childPlace, ← Path.childPlace]; exact apart.symm), metadata]
  obtain ⟨middle, named⟩ := placeEnds (.file bytes) (stays.child metadataName) (by rw [free]; exact nofun)
  have step : written.rename (dir.child temporaryName) (dir.child metadataName) =
      some (middle.remove (dir.child temporaryName).place) := by
    simp only [rename, read, bind, Option.bind_some, if_neg apart, named, Option.map_some]
    rw [if_pos (by simp [Path.child])]
  obtain ⟨content, held, -, -, keeps, all⟩ := renameOk apart step
  rw [read] at held
  cases held
  refine ⟨_, Ends.append ends (Ends.append (Ends.still [FileOp.sync .metadata]) (Ends.append (Ends.attempt step)
    (Ends.still [FileOp.openDirectory, FileOp.syncDirectory]))), stays.kept keeps, fun place => ?_⟩
  rw [all, found, Path.childPlace, Path.childPlace]
  by_cases first : place = temporaryName :: dir.place
  · subst first
    rw [if_pos rfl, if_neg (fun same => absurd (List.cons.inj same).1 (by decide)), temporary]
  · rw [if_neg first, if_neg first]

structure Created (crc : Crc32) (dir : Path Name) (bytes : List UInt8) (t t' : Disk) : Prop where
  there : There dir t'
  metadata : t'.find (metadataName :: dir.place) = some (.file bytes)
  checksum : t'.find (checksumName :: dir.place) =
    some (.file ((toHex (crc.ofChunks [bytes])).flatMap String.utf8EncodeChar))
  elsewhere : ∀ place, place ≠ dir.place → (∀ name ∈ [metadataName, checksumName], place ≠ name :: dir.place) →
    (∀ n c, place ≠ (runPath dir n c).place) → t'.find place = t.find place

theorem Created.outside {crc : Crc32} {dir : Path Name} {bytes : List UInt8} {t t' : Disk}
    (created : Created crc dir bytes t t') {place : List Name} (outside : ¬ dir.place <:+ place) :
    t'.find place = t.find place := by
  have child : ∀ name, place ≠ name :: dir.place := by
    rintro name rfl
    exact outside (List.suffix_cons _ _)
  refine created.elsewhere place (fun same => outside (same ▸ List.suffix_refl _)) (fun name _ => child name)
    (fun n c => ?_)
  rw [runPlace]
  exact child _

theorem createEnds {lsm : List Name} {above : Path Name} {name : Name} {sstables : List SsTableHandle} {t : Disk}
    (there : There above t) (absent : t.find (name :: above.place) = none)
    (once : (sstables.map SsTableHandle.runNumber).Nodup) (sourced : Sourced lsm sstables t) (crc : Crc32)
    (bytes : List UInt8) : ∃ linked written t', Ends (linkOps lsm (above.child name) sstables) t linked ∧
      Ends (writeMetadata (above.child name) bytes) linked written ∧
      Ends (writeChecksum crc (above.child name) bytes) written t' ∧
      Created crc (above.child name) bytes t t' := by
  have new : t.find (above.child name).place = none := by rw [Path.childPlace, absent]
  obtain ⟨made, toDir, placed⟩ := createDirEnds there absent
  have start : Filling lsm (above.child name) t [] made := by
    refine ⟨⟨walkKept placed.keeps placed.walked, by rw [placed.found, if_pos rfl]⟩, fun place other _ => ?_⟩
    rw [placed.found, if_neg other]
  obtain ⟨linked, all, links, filling⟩ := start.hardLinks new once (fun _ _ _ => List.not_mem_nil) sourced
  obtain ⟨written, toMetadata, stays, named⟩ := metadataEnds bytes filling.there
    (filling.inside new (fun m _ => (fileNameOther m.1 m.2).2.1.symm))
    (filling.inside new (fun m _ => (fileNameOther m.1 m.2).1.symm))
  obtain ⟨t', toChecksum, final, -, found⟩ := writeEnds .metadataChecksum checksumName
    ((toHex (crc.ofChunks [bytes])).flatMap String.utf8EncodeChar) stays (by
      rw [named, if_neg (fun same => absurd (List.cons.inj same).1 (by decide))]
      exact filling.inside new (fun m _ => (fileNameOther m.1 m.2).2.2.symm))
  refine ⟨linked, written, t', Ends.append toDir links, toMetadata,
    Ends.append toChecksum (Ends.still [FileOp.openDirectory, FileOp.syncDirectory]), final, ?_, ?_,
    fun place other files runs => ?_⟩
  · rw [found, if_neg (fun same => absurd (List.cons.inj same).1 (by decide)), named, if_pos rfl]
  · rw [found, if_pos rfl]
  · rw [found, if_neg (files _ (by simp)), named, if_neg (files _ (by simp))]
    exact filling.elsewhere place other (fun m _ => runs m.1 m.2)

theorem createOpsEnd {crc : Crc32} {codec : Codec SnapshotMetadata} {lsm : List Name} {above : Path Name}
    {name : Name} {sstables : List SsTableHandle} {metadata : SnapshotMetadata} {bytes : List UInt8} {t : Disk}
    (there : There above t) (absent : t.find (name :: above.place) = none)
    (once : (sstables.map SsTableHandle.runNumber).Nodup) (sourced : Sourced lsm sstables t)
    (serialized : codec.serialize metadata = .ok bytes) :
    ∃ t', Ends (createOps crc codec lsm (above.child name) sstables metadata) t t' ∧
      Created crc (above.child name) bytes t t' := by
  obtain ⟨linked, written, t', links, toMetadata, toChecksum, created⟩ :=
    createEnds there absent once sourced crc bytes
  refine ⟨t', ?_, created⟩
  rw [createOps, serialized]
  exact Ends.append links (Ends.append toMetadata toChecksum)

theorem readText (text : Text) : readToString (text.flatMap String.utf8EncodeChar) = some text := by
  have encoded : ByteArray.mk (text.flatMap String.utf8EncodeChar).toArray = text.utf8Encode :=
    ByteArray.ext List.data_toByteArray.symm
  have valid : text.utf8Encode.IsValidUTF8 := .intro text rfl
  have read : String.fromUTF8 text.utf8Encode valid = String.ofList text := rfl
  rw [readToString, encoded, String.fromUTF8?, dif_pos valid, Option.map_some, read, String.toList_ofList]

theorem loadCreated {crc : Crc32} {codec : Codec SnapshotMetadata} {lsm : List Name} {name : Name}
    {bytes : List UInt8} {t t' : Disk} {metadata : SnapshotMetadata} (ordinary : '\x00' ∉ name)
    (created : Created crc (snapshotDir lsm name) bytes t t') (decoded : codec.deserialize bytes = .ok metadata) :
    load crc codec lsm name t' = .ok metadata := by
  have present : t'.present (snapshotDir lsm name) = true := presentIff.mpr ⟨_, created.there.lookup⟩
  have held := readChild.mpr ⟨created.there.walked, created.metadata⟩
  have checksum := readChild.mpr ⟨created.there.walked, created.checksum⟩
  have plain : trim (toHex (crc.ofChunks [bytes])) = toHex (crc.ofChunks [bytes]) := trimHex _
  simp only [load, ordinary, present, Bool.true_eq_false, or_false, if_false, held, checksum, Option.bind_some,
    readText, plain, fromToHex, ne_eq, not_true_eq_false, decoded]

end CardanoLsm.SnapshotFiles
