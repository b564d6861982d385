import CardanoLsm.Creation
import CardanoLsm.Format.RoundTrip

/-! A snapshot that was interrupted. The checksum is written last, so a snapshot that loads
has its whole metadata file, and every link before it. -/
namespace CardanoLsm.SnapshotFiles
open FileTree FileTree.Tree Script Format

inductive Effect (lsm : List Name) (dir : Path Name) (t : Disk) : Disk → Prop where
  | nothing : Effect lsm dir t t
  | directory (p : Path Name) {t' : Disk} (absent : t.find p.place = none)
      (made : Placed t p .directory t') : Effect lsm dir t t'
  | link (n : Nat) (c : Component) (content : List UInt8) {t' : Disk}
      (source : t.read (runPath (activeDir lsm) n c) = some content)
      (absent : t.find (runPath dir n c).place = none)
      (linked : Placed t (runPath dir n c) (.file content) t') : Effect lsm dir t t'

section Operations
variable {lsm : List Name} {dir : Path Name} {t : Disk}

theorem createDirEffect {p : Path Name} : ∀ op ∈ createDirAll p, op.enabled t = true →
    Effect lsm dir t (op.effect t) := by
  intro op member enabled
  obtain ⟨above, _, rfl⟩ := List.mem_map.mp member
  rcases (ensureDirOk (attemptValue enabled)).2 with same | ⟨absent, made⟩
  · rw [same]
    exact .nothing
  · exact .directory above absent made

theorem linkEffect {n : Nat} : ∀ op ∈ hardLinkTo (activeDir lsm) dir n, op.enabled t = true →
    Effect lsm dir t (op.effect t) := by
  intro op member enabled
  rcases List.mem_append.mp member with earlier | synced
  · rcases List.mem_append.mp earlier with made | linked
    · exact createDirEffect op made enabled
    · obtain ⟨c, _, rfl⟩ := List.mem_map.mp linked
      obtain ⟨content, source, absent, -, placed⟩ := hardLinkOk (attemptValue enabled)
      exact .link n c content source absent placed
  · simp only [List.mem_cons, List.not_mem_nil, or_false] at synced
    rcases synced with rfl | rfl <;> exact .nothing

theorem linkOpsEffect {sstables : List SsTableHandle} : ∀ op ∈ linkOps lsm dir sstables,
    op.enabled t = true → Effect lsm dir t (op.effect t) := by
  intro op member enabled
  rcases List.mem_append.mp member with made | linked
  · exact createDirEffect op made enabled
  · obtain ⟨h, _, inside⟩ := List.mem_flatMap.mp linked
    exact linkEffect op inside enabled

theorem writeAllElsewhere {c : Component} {p : Path Name} {bytes : List UInt8} {place : List Name}
    (other : place ≠ p.place) : ∀ op ∈ writeAll c p bytes, op.enabled t = true →
      (op.effect t).find place = t.find place := by
  intro op member enabled
  obtain ⟨b, _, rfl⟩ := List.mem_map.mp member
  obtain ⟨content, -, placed⟩ := modifyOk (attemptValue enabled)
  rw [placed.found, if_neg other]

theorem metadataElsewhere {bytes : List UInt8} {place : List Name} (first : place ≠ temporaryName :: dir.place)
    (second : place ≠ metadataName :: dir.place) : ∀ op ∈ writeMetadata dir bytes, op.enabled t = true →
      (op.effect t).find place = t.find place := by
  rw [← Path.childPlace] at first second
  intro op member enabled
  rcases List.mem_append.mp member with written | rest
  · rcases List.mem_cons.mp written with rfl | appended
    · rw [(createOk (attemptValue enabled)).2.found, if_neg first]
    · exact writeAllElsewhere first op appended enabled
  · simp only [List.mem_cons, List.not_mem_nil, or_false] at rest
    rcases rest with rfl | rfl | rfl | rfl
    · rfl
    · have apart : (dir.child temporaryName).place ≠ (dir.child metadataName).place := by
        rw [Path.childPlace, Path.childPlace]
        exact fun same => absurd (List.cons.inj same).1 (by decide)
      obtain ⟨content, -, -, -, -, found⟩ := renameOk apart (attemptValue enabled)
      rw [found, if_neg first, if_neg second]
    · rfl
    · rfl

theorem checksumElsewhere {crc : Crc32} {bytes : List UInt8} {place : List Name}
    (other : place ≠ checksumName :: dir.place) : ∀ op ∈ writeChecksum crc dir bytes,
    op.enabled t = true → (op.effect t).find place = t.find place := by
  rw [← Path.childPlace] at other
  intro op member enabled
  rcases List.mem_append.mp member with written | rest
  · rcases List.mem_cons.mp written with rfl | appended
    · rw [(createOk (attemptValue enabled)).2.found, if_neg other]
    · exact writeAllElsewhere other op appended enabled
  · simp only [List.mem_cons, List.not_mem_nil, or_false] at rest
    rcases rest with rfl | rfl <;> rfl

end Operations

def Unchecked (dir : Path Name) (t : Disk) : Prop :=
  ∀ content, t.find (checksumName :: dir.place) ≠ some (.file content)

theorem Effect.unchecked {lsm : List Name} {dir : Path Name} {t t' : Disk} (effect : Effect lsm dir t t')
    (before : Unchecked dir t) : Unchecked dir t' := by
  intro content found
  cases effect with
  | nothing => exact before content found
  | directory p absent made =>
    rw [made.found] at found
    split at found
    · cases found
    · exact before content found
  | link n c linked source absent placed =>
    have apart : checksumName :: dir.place ≠ (runPath dir n c).place := by
      rw [runPlace]
      exact fun same => (fileNameOther n c).2.2 (List.cons.inj same).1.symm
    rw [placed.found, if_neg apart] at found
    exact before content found

theorem loadOk {crc : Crc32} {codec : Codec SnapshotMetadata} {lsm : List Name} {name : Name} {t : Disk}
    {metadata : SnapshotMetadata} (loaded : load crc codec lsm name t = .ok metadata) :
    ∃ bytes checksum, t.read ((snapshotDir lsm name).child metadataName) = some bytes ∧
      t.read ((snapshotDir lsm name).child checksumName) = some checksum ∧
      codec.deserialize bytes = .ok metadata := by
  unfold load at loaded
  dsimp only at loaded
  split at loaded
  · cases loaded
  · split at loaded
    · cases loaded
    · rename_i bytes held
      split at loaded
      · cases loaded
      · rename_i text read
        obtain ⟨checksum, written, -⟩ := Option.bind_eq_some_iff.mp read
        refine ⟨bytes, checksum, held, written, ?_⟩
        split at loaded
        · cases loaded
        · split at loaded
          · cases loaded
          · split at loaded
            · cases loaded
            · rename_i decoded
              cases loaded
              exact decoded

theorem loadUnchecked {crc : Crc32} {codec : Codec SnapshotMetadata} {lsm : List Name} {name : Name} {t : Disk}
    (unchecked : Unchecked (snapshotDir lsm name) t) (metadata : SnapshotMetadata) :
    load crc codec lsm name t ≠ .ok metadata := by
  intro loaded
  obtain ⟨-, checksum, -, written, -⟩ := loadOk loaded
  have found := (readIff.mp written).2.1
  rw [Path.childPlace] at found
  exact unchecked checksum found

structure Linking (lsm : List Name) (dir : Path Name) (t : Disk) (made : List (Nat × Component)) (t' : Disk) :
    Prop where
  kept : ∀ place content, t.find place = some (.file content) → t'.find place = some (.file content)
  known : ∀ place content, t'.find place = some (.file content) → t.find place = some (.file content) ∨
    ∃ m ∈ made, place = (runPath dir m.1 m.2).place ∧ t.read (runPath (activeDir lsm) m.1 m.2) = some content
  linked : ∀ m ∈ made, ∃ content, t.read (runPath (activeDir lsm) m.1 m.2) = some content ∧
    t'.find (runPath dir m.1 m.2).place = some (.file content)

namespace Linking
variable {lsm : List Name} {dir : Path Name} {t t' t'' : Disk} {made : List (Nat × Component)}

theorem start : Linking lsm dir t [] t :=
  ⟨fun _ _ found => found, fun _ _ found => Or.inl found, fun _ member => nomatch member⟩

theorem directory (linking : Linking lsm dir t made t') {p : Path Name} (absent : t'.find p.place = none)
    (placed : Placed t' p .directory t'') : Linking lsm dir t made t'' := by
  have stays : ∀ place content, t'.find place = some (.file content) → t''.find place = some (.file content) := by
    intro place content found
    rw [placed.found, if_neg, found]
    rintro rfl
    rw [absent] at found
    cases found
  refine ⟨fun place content found => stays _ _ (linking.kept place content found), fun place content found => ?_,
    fun m member => ?_⟩
  · rw [placed.found] at found
    split at found
    · cases found
    · exact linking.known place content found
  · obtain ⟨content, source, found⟩ := linking.linked m member
    exact ⟨content, source, stays _ _ found⟩

theorem source (linking : Linking lsm dir t made t') (absent : t.find dir.place = none) {n : Nat} {c : Component}
    {content : List UInt8} (held : t'.read (runPath (activeDir lsm) n c) = some content) :
    t.read (runPath (activeDir lsm) n c) = some content := by
  rcases linking.known _ content (readActive.mp held) with there | ⟨m, _, same, before⟩
  · exact readActive.mpr there
  · have inside := readActive.mp before
    rw [runPlace] at inside
    rw [runPlace, runPlace] at same
    have active := findAbove inside
    rw [(List.cons.inj same).2, absent] at active
    cases active

theorem link (linking : Linking lsm dir t made t') (absent : t.find dir.place = none) {n : Nat} {c : Component}
    {content : List UInt8} (held : t'.read (runPath (activeDir lsm) n c) = some content)
    (free : t'.find (runPath dir n c).place = none)
    (placed : Placed t' (runPath dir n c) (.file content) t'') : Linking lsm dir t ((n, c) :: made) t'' := by
  have source := linking.source absent held
  have stays : ∀ place content, t'.find place = some (.file content) → t''.find place = some (.file content) := by
    intro place content found
    rw [placed.found, if_neg, found]
    rintro rfl
    rw [free] at found
    cases found
  refine ⟨fun place content found => stays _ _ (linking.kept place content found), fun place other found => ?_,
    fun m member => ?_⟩
  · rw [placed.found] at found
    split at found
    · rename_i here
      cases found
      exact Or.inr ⟨(n, c), List.mem_cons_self, here, source⟩
    · refine (linking.known place other found).imp_right ?_
      rintro ⟨m, member, same, before⟩
      exact ⟨m, List.mem_cons_of_mem _ member, same, before⟩
  · rcases List.mem_cons.mp member with rfl | earlier
    · exact ⟨content, source, by rw [placed.found, if_pos rfl]⟩
    · obtain ⟨content, source, found⟩ := linking.linked m earlier
      exact ⟨content, source, stays _ _ found⟩

end Linking

section Runs
variable {lsm : List Name} {dir : Path Name} {t t' t'' : Disk} {made : List (Nat × Component)}
  {faults : Nat → Bool} {i : Nat}

theorem createDirDone {p : Path Name} (linking : Linking lsm dir t made t')
    (done : Script.run faults i (createDirAll p) t' = (none, t'')) : Linking lsm dir t made t'' := by
  refine runDoneKeeps (P := Linking lsm dir t made) (fun op member s enabled before => ?_) linking done
  obtain ⟨above, _, rfl⟩ := List.mem_map.mp member
  rcases (ensureDirOk (attemptValue enabled)).2 with same | ⟨absent, placed⟩
  · rwa [same]
  · exact before.directory absent placed

theorem componentsDone (absent : t.find dir.place = none) {n : Nat} {cs : List Component}
    (linking : Linking lsm dir t made t')
    (done : Script.run faults i (cs.map (fun c => attempt (FileOp.hardLink c)
      (fun t => t.hardLink (runPath (activeDir lsm) n c) (runPath dir n c)))) t' = (none, t'')) :
    ∃ more, Linking lsm dir t more t'' ∧ made ⊆ more ∧ ∀ c ∈ cs, (n, c) ∈ more := by
  induction cs generalizing i t' made with
  | nil =>
    cases (Prod.mk.inj done).2
    exact ⟨made, linking, List.Subset.refl _, fun _ member => nomatch member⟩
  | cons c rest ih =>
    obtain ⟨enabled, later⟩ := runDoneCons done
    obtain ⟨content, held, free, -, placed⟩ := hardLinkOk (attemptValue enabled)
    obtain ⟨more, all, kept, linked⟩ := ih (linking.link absent held free placed) later
    refine ⟨more, all, fun m member => kept (List.mem_cons_of_mem _ member), fun x member => ?_⟩
    rcases List.mem_cons.mp member with rfl | after
    · exact kept List.mem_cons_self
    · exact linked x after

theorem linksDone (absent : t.find dir.place = none) {sstables : List SsTableHandle}
    (linking : Linking lsm dir t made t')
    (done : Script.run faults i (sstables.flatMap (fun h => hardLinkTo (activeDir lsm) dir h.runNumber)) t' =
      (none, t'')) : ∃ more, Linking lsm dir t more t'' ∧ made ⊆ more ∧
      ∀ h ∈ sstables, ∀ c ∈ components, (h.runNumber, c) ∈ more := by
  induction sstables generalizing i t' made with
  | nil =>
    cases (Prod.mk.inj done).2
    exact ⟨made, linking, List.Subset.refl _, fun _ member => nomatch member⟩
  | cons h rest ih =>
    obtain ⟨after, first, later⟩ := runSplit done
    obtain ⟨linkedTree, toLinks, synced⟩ := runSplit first
    obtain ⟨directoryTree, toDir, links⟩ := runSplit toLinks
    have same : linkedTree = after := by
      obtain ⟨-, opened⟩ := runDoneCons synced
      obtain ⟨-, ended⟩ := runDoneCons opened
      exact (Prod.mk.inj ended).2
    obtain ⟨one, linkedOne, keptOne, allOne⟩ := componentsDone absent (createDirDone linking toDir) links
    rw [same] at linkedOne
    obtain ⟨more, linked, kept, all⟩ := ih linkedOne later
    refine ⟨more, linked, fun m member => kept (keptOne member), fun x member => ?_⟩
    rcases List.mem_cons.mp member with rfl | after
    · exact fun c inside => kept (allOne c inside)
    · exact all x after

theorem writeAllDone {c : Component} {p : Path Name} {bytes old : List UInt8}
    (found : t'.find p.place = some (.file old)) (done : Script.run faults i (writeAll c p bytes) t' = (none, t'')) :
    t''.find p.place = some (.file (old ++ bytes)) := by
  induction bytes generalizing i t' old with
  | nil =>
    cases (Prod.mk.inj done).2
    rw [List.append_nil, found]
  | cons b rest ih =>
    obtain ⟨enabled, later⟩ := runDoneCons done
    obtain ⟨content, held, placed⟩ := modifyOk (attemptValue enabled)
    have same : content = old := by
      have before := (readIff.mp held).2.1
      rw [found] at before
      cases before
      rfl
    subst same
    have after := ih (by rw [placed.found, if_pos rfl]) later
    rwa [List.append_assoc] at after

theorem metadataDone {bytes : List UInt8} (done : Script.run faults i (writeMetadata dir bytes) t' = (none, t'')) :
    t''.find (dir.child metadataName).place = some (.file bytes) := by
  obtain ⟨written, before, rest⟩ := runSplit done
  obtain ⟨enabled, appends⟩ := runDoneCons before
  have created := (createOk (attemptValue enabled)).2
  have whole := writeAllDone (by rw [created.found, if_pos rfl]) appends
  obtain ⟨-, synced⟩ := runDoneCons rest
  obtain ⟨renames, syncs⟩ := runDoneCons synced
  obtain ⟨-, opened⟩ := runDoneCons syncs
  obtain ⟨-, ended⟩ := runDoneCons opened
  cases (Prod.mk.inj ended).2
  have apart : (dir.child temporaryName).place ≠ (dir.child metadataName).place := by
    rw [Path.childPlace, Path.childPlace]
    exact fun same => absurd (List.cons.inj same).1 (by decide)
  obtain ⟨content, held, -, -, -, found⟩ := renameOk apart (attemptValue renames)
  have same := (readIff.mp held).2.1
  rw [show (still (FileOp.sync .metadata)).effect written = written from rfl, whole] at same
  cases same
  exact (found _).trans (by rw [if_neg apart.symm, if_pos rfl, List.nil_append])

end Runs

theorem runElsewhere {ops : List (Op FileOp Disk)} {faults : Nat → Bool} {i : Nat} {t : Disk} {place : List Name}
    (elsewhere : ∀ op ∈ ops, ∀ s : Disk, op.enabled s = true → (op.effect s).find place = s.find place) :
    (Script.run faults i ops t).2.find place = t.find place :=
  runKeeps (P := fun s : Disk => s.find place = t.find place)
    (fun op member s enabled before => (elsewhere op member s enabled).trans before) rfl

structure Complete (lsm : List Name) (dir : Path Name) (sstables : List SsTableHandle) (t t' : Disk) : Prop where
  linked : ∀ h ∈ sstables, ∀ c ∈ components, ∃ content,
    t.read (runPath (activeDir lsm) h.runNumber c) = some content ∧
    t'.find (runPath dir h.runNumber c).place = some (.file content)

theorem linkOpsDone {lsm : List Name} {dir : Path Name} {sstables : List SsTableHandle} {t t' : Disk}
    {faults : Nat → Bool} {i : Nat} (absent : t.find dir.place = none)
    (done : Script.run faults i (linkOps lsm dir sstables) t = (none, t')) : Complete lsm dir sstables t t' := by
  obtain ⟨middle, first, later⟩ := runSplit done
  obtain ⟨more, linking, -, all⟩ := linksDone absent (createDirDone .start first) later
  exact ⟨fun h inside c member => linking.linked (h.runNumber, c) (all h inside c member)⟩

theorem Complete.later {lsm : List Name} {dir : Path Name} {sstables : List SsTableHandle} {t t' t'' : Disk}
    (complete : Complete lsm dir sstables t t')
    (same : ∀ n c, t''.find (runPath dir n c).place = t'.find (runPath dir n c).place) :
    Complete lsm dir sstables t t'' := by
  refine ⟨fun h inside c member => ?_⟩
  rw [same]
  exact complete.linked h inside c member

theorem runPathOther (dir : Path Name) (n : Nat) (c : Component) :
    (runPath dir n c).place ≠ metadataName :: dir.place ∧ (runPath dir n c).place ≠ temporaryName :: dir.place ∧
      (runPath dir n c).place ≠ checksumName :: dir.place := by
  obtain ⟨metadata, temporary, checksum⟩ := fileNameOther n c
  rw [runPlace]
  exact ⟨fun same => metadata (List.cons.inj same).1, fun same => temporary (List.cons.inj same).1,
    fun same => checksum (List.cons.inj same).1⟩

section Whole
variable {lsm : List Name} {dir : Path Name} {sstables : List SsTableHandle} {bytes : List UInt8} {t t' : Disk}
  {faults : Nat → Bool} {i : Nat}

theorem uncheckedKept : ∀ op ∈ linkOps lsm dir sstables ++ writeMetadata dir bytes, ∀ s : Disk,
    op.enabled s = true → Unchecked dir s → Unchecked dir (op.effect s) := by
  intro op member s enabled before
  rcases List.mem_append.mp member with linked | written
  · exact (linkOpsEffect op linked enabled).unchecked before
  · intro content found
    rw [metadataElsewhere (fun same => absurd (List.cons.inj same).1 (by decide))
      (fun same => absurd (List.cons.inj same).1 (by decide)) op written enabled] at found
    exact before content found

theorem beforeChecksum (absent : t.find dir.place = none)
    (done : Script.run faults i (linkOps lsm dir sstables ++ writeMetadata dir bytes) t = (none, t')) :
    t'.find (metadataName :: dir.place) = some (.file bytes) ∧ Complete lsm dir sstables t t' := by
  obtain ⟨middle, linked, written⟩ := runSplit done
  have whole := metadataDone written
  rw [Path.childPlace] at whole
  refine ⟨whole, (linkOpsDone absent linked).later (fun n c => ?_)⟩
  obtain ⟨metadata, temporary, -⟩ := runPathOther dir n c
  exact runDoneKeeps (P := fun s : Disk => s.find (runPath dir n c).place = middle.find (runPath dir n c).place)
    (fun op member s enabled before => (metadataElsewhere temporary metadata op member enabled).trans before)
    rfl written

end Whole

/-- An interrupted `create` leaves no snapshot that loads, or a whole one: it loads with
the metadata that was to be written, and has all files of the runs it names. -/
theorem interruptedIncomplete {crc : Crc32} {codec : Codec SnapshotMetadata} {lsm : List Name} {name : Name}
    {label : String} {sstables : List SsTableHandle} {sequenceNumber : Nat} {config : LsmConfig}
    {loaded : SnapshotMetadata} {t : Disk} (absent : t.find (snapshotDir lsm name).place = none)
    (roundTrips : codec.RoundTrips (metadataOf label sstables sequenceNumber config)) (i : Nat)
    (loads : load crc codec lsm name (stop i (createOps crc codec lsm (snapshotDir lsm name) sstables
      (metadataOf label sstables sequenceNumber config)) t) = .ok loaded) :
    loaded = metadataOf label sstables sequenceNumber config ∧
      ∀ run ∈ loaded.runs, ∀ c ∈ components, ∃ content,
        t.read (runPath (activeDir lsm) run.runNumber c) = some content ∧
        (stop i (createOps crc codec lsm (snapshotDir lsm name) sstables
          (metadataOf label sstables sequenceNumber config)) t).read
          (runPath (snapshotDir lsm name) run.runNumber c) = some content := by
  obtain ⟨bytes, serialized, deserialized⟩ := roundTrips
  simp only [createOps, serialized, stop, ← List.append_assoc] at loads ⊢
  have start : Unchecked (snapshotDir lsm name) t := by
    intro content found
    rw [findAbove found] at absent
    cases absent
  have unchecked : Unchecked (snapshotDir lsm name) (Script.run (fun j => j == i) 0
      (linkOps lsm (snapshotDir lsm name) sstables ++ writeMetadata (snapshotDir lsm name) bytes) t).2 :=
    runKeeps uncheckedKept start
  cases before : Script.run (fun j => j == i) 0
      (linkOps lsm (snapshotDir lsm name) sstables ++ writeMetadata (snapshotDir lsm name) bytes) t with
  | mk failed v =>
    rw [before] at unchecked
    cases failed with
    | some op =>
      rw [runAppendStopped before] at loads
      exact absurd loads (loadUnchecked unchecked loaded)
    | none =>
      obtain ⟨written, complete⟩ := beforeChecksum absent before
      rw [runAppend before] at loads ⊢
      generalize 0 + List.length _ = n at loads ⊢
      have after : ∀ place, place ≠ checksumName :: (snapshotDir lsm name).place →
          (Script.run (fun j => j == i) n (writeChecksum crc (snapshotDir lsm name) bytes) v).2.find place =
            v.find place :=
        fun place other => runElsewhere (fun op member s => checksumElsewhere (t := s) other op member)
      obtain ⟨stored, checksum, read, -, decoded⟩ := loadOk loads
      obtain ⟨walked, found⟩ := readChild.mp read
      rw [after _ (fun same => absurd (List.cons.inj same).1 (by decide)), written] at found
      cases found
      rw [deserialized] at decoded
      cases decoded
      refine ⟨rfl, fun run named c member => ?_⟩
      obtain ⟨h, inside, rfl⟩ := List.mem_map.mp named
      obtain ⟨content, source, target⟩ :=
        (complete.later (fun n c => after _ (runPathOther _ n c).2.2)).linked h inside c member
      rw [runPlace] at target
      exact ⟨content, source, readChild.mpr ⟨walked, target⟩⟩

/-! ciborium as far as the runs below need it; the fields of a configuration that the model
leaves out have one value. -/

def head (major n : Nat) : List UInt8 :=
  let first (more : Nat) : UInt8 := UInt8.ofNat (major * 32 + more)
  if n < 24 then [first n] else if n < 2 ^ 8 then first 24 :: [UInt8.ofNat n]
  else if n < 2 ^ 16 then first 25 :: (Bytes.le 2 n).reverse
  else if n < 2 ^ 32 then first 26 :: (Bytes.le 4 n).reverse else first 27 :: (Bytes.le 8 n).reverse

def text (s : String) : List UInt8 := head 3 s.toUTF8.size ++ s.toUTF8.data.toList

def field (name : String) (value : List UInt8) : List UInt8 := text name ++ value
def numberField (name : String) (value : Nat) : List UInt8 := field name (head 0 value)

def keyItem (key : Key) : List UInt8 := head 4 key.length ++ key.flatMap (fun b => head 0 b.toNat)

def configItem (config : LsmConfig) : List UInt8 :=
  head 5 13 ++ numberField "memtable_size" config.memtableSize ++ numberField "max_immutable_memtables" 2 ++
  numberField "block_cache_size" 4096 ++
  field "compaction_strategy" (head 5 1 ++ text "Leveled" ++ head 5 2 ++ field "size_ratio" [0xF9, 0x49, 0x00] ++
    numberField "max_level" 7) ++
  numberField "compaction_threads" 2 ++ numberField "level0_compaction_trigger" config.level0CompactionTrigger ++
  numberField "bloom_filter_bits_per_key" 10 ++
  field "bloom_filter_fp_rate" [0xFB, 0x3F, 0x84, 0x7A, 0xE1, 0x47, 0xAE, 0x14, 0x7B] ++
  numberField "max_snapshots_per_wallet" 10 ++
  field "snapshot_interval" (head 5 2 ++ numberField "secs" 600 ++ numberField "nanos" 0) ++
  numberField "sstable_size" 4096 ++ numberField "sstable_block_size" 4096 ++ numberField "merge_batch_size" 20000

def runItem (run : SnapshotRun) : List UInt8 :=
  head 5 5 ++ numberField "run_number" run.runNumber ++ field "min_key" (keyItem run.minKey) ++
  field "max_key" (keyItem run.maxKey) ++ numberField "num_entries" run.numEntries ++ numberField "level" run.level

def metadataItem (metadata : SnapshotMetadata) : List UInt8 :=
  head 5 5 ++ numberField "version" metadata.version ++ field "label" (text metadata.label) ++
  field "config" (configItem metadata.config) ++
  field "runs" (head 4 metadata.runs.length ++ metadata.runs.flatMap runItem) ++
  numberField "sequence_number" metadata.sequenceNumber

def ciborium (known : SnapshotMetadata) : Codec SnapshotMetadata where
  serialize metadata := .ok (metadataItem metadata)
  deserialize data := if data = metadataItem known then .ok known else .error "Semantic(None, \"invalid type\")"

theorem ciboriumReads (known : SnapshotMetadata) : (ciborium known).deserialize (metadataItem known) = .ok known :=
  if_pos rfl

def directoryOf (runs : List Nat) : Disk :=
  let place : List Name := ["db".toList]
  let dirs := [place, "active".toList :: place, "snapshots".toList :: place]
  let files := runs.flatMap (fun n => components.map (fun c => ((runPath (activeDir place) n c).place, n)))
  files.foldl (fun t f => t.put f.1 (.file [UInt8.ofNat f.2])) (dirs.foldl (fun t dir => t.put dir .directory) Tree.empty)

def savedRun : SsTableHandle :=
  ⟨.active, 1, ⟨(∅ : Entries).insert [5] (some [10]), Std.ExtTreeMap.insert_ne_empty⟩, 0, 0⟩

def savedMetadata : SnapshotMetadata := metadataOf "" [savedRun] 1 ⟨4096, 4⟩

def savedOps : List (Op FileOp Disk) :=
  createOps crc32 (ciborium savedMetadata) ["db".toList] (snapshotDir ["db".toList] "s".toList) [savedRun]
    savedMetadata

theorem savedLoads : load crc32 (ciborium savedMetadata) ["db".toList] "s".toList
    (stop savedOps.length savedOps (directoryOf [1])) = .ok savedMetadata := by
  have place : snapshotDir ["db".toList] "s".toList = (snapshotsDir ["db".toList]).child "s".toList :=
    snapshotDirPlain (by decide +kernel) _
  have absent : (directoryOf [1]).find ("s".toList :: (snapshotsDir ["db".toList]).place) = none := by decide +kernel
  have there : There (snapshotsDir ["db".toList]) (directoryOf [1]) := ⟨by decide +kernel, by decide +kernel⟩
  have files : ∀ c ∈ components, ((directoryOf [1]).read (runPath (activeDir ["db".toList]) 1 c)).isSome = true := by
    decide +kernel
  have sourced : Sourced ["db".toList] [savedRun] (directoryOf [1]) := by
    intro h inside c member
    cases List.mem_singleton.mp inside
    exact Option.isSome_iff_exists.mp (files c member)
  have serialized : (ciborium savedMetadata).serialize savedMetadata = .ok (metadataItem savedMetadata) := rfl
  have once : ([savedRun].map SsTableHandle.runNumber).Nodup := by decide
  obtain ⟨t', ends, created⟩ := createOpsEnd there absent once sourced serialized
  rw [← place] at ends created
  rw [savedOps, ends.stop]
  exact loadCreated (by decide +kernel) created (ciboriumReads savedMetadata)

theorem interruptedIncompleteSaved : ∃ content,
    (directoryOf [1]).read (runPath (activeDir ["db".toList]) 1 .checksums) = some content ∧
    (stop savedOps.length savedOps (directoryOf [1])).read
      (runPath (snapshotDir ["db".toList] "s".toList) 1 .checksums) = some content :=
  (interruptedIncomplete (by decide +kernel) ⟨_, rfl, ciboriumReads savedMetadata⟩ savedOps.length savedLoads).2
    (PersistentSnapshot.describe savedRun) List.mem_cons_self .checksums (by decide)

end CardanoLsm.SnapshotFiles
