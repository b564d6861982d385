import CardanoLsm.Lib.Trace
import CardanoLsm.Interruption

/-! Snapshot names (`snapshot.rs`, `lib.rs`). `create`, `load` and `delete` join the name to
a path unchecked; `list_snapshots` reads one directory. -/
namespace CardanoLsm.SnapshotFiles
open FileTree FileTree.Tree Script Format

structure World where
  disk : Disk
  kept : List Name

inductive Call where
  | save (name : Name) (label : String) (sstables : List SsTableHandle) (sequenceNumber : Nat) (config : LsmConfig)
  | delete (name : Name)
  | work (disk : Disk)

section Names
variable (crc : Crc32) (codec : Codec SnapshotMetadata) (lsm : List Name)

def step (w : World) : Call → Option World
  | .save name label sstables sequenceNumber config =>
    match create crc codec (fun _ => false) lsm name label sstables sequenceNumber config w.disk with
    | (.ok _, disk) => some ⟨disk, name :: w.kept⟩
    | (.error _, disk) => some ⟨disk, w.kept⟩
  | .delete name =>
    match delete crc codec lsm name w.disk with
    | (.ok _, disk) => some ⟨disk, w.kept.filter (fun kept => kept != name)⟩
    | (.error _, disk) => some ⟨disk, w.kept⟩
  | .work disk => some ⟨disk, w.kept⟩

def Working (w : World) : Call → Prop
  | .save _ label sstables sequenceNumber config =>
    (sstables.map SsTableHandle.runNumber).Nodup ∧ Sourced lsm sstables w.disk ∧
      ∃ bytes, codec.serialize (metadataOf label sstables sequenceNumber config) = .ok bytes
  | .delete _ => True
  | .work disk => ∀ place, ¬ (activeDir lsm).place <:+ place → disk.find place = w.disk.find place

def Fitting (w : World) : Call → Prop
  | .save name _ _ _ _ => Plain name ∨ '\x00' ∈ name ∨ w.disk.lookup (snapshotDir lsm name) ≠ .error .notFound
  | .delete name => Plain name ∨ '\x00' ∈ name ∨ w.disk.read ((snapshotDir lsm name).child metadataName) = none
  | .work _ => True

structure Named (w : World) : Prop where
  there : w.disk.find (snapshotsDir lsm).place = some .directory
  listed : ∀ name, w.disk.find (name :: (snapshotsDir lsm).place) = some .directory ↔ name ∈ w.kept
  plain : ∀ name ∈ w.kept, Plain name

end Names

section Calls
variable {crc : Crc32} {codec : Codec SnapshotMetadata} {lsm : List Name} {name : Name} {label : String}
  {sstables : List SsTableHandle} {sequenceNumber : Nat} {config : LsmConfig} {t : Disk}

theorem snapshotsThere (found : t.find (snapshotsDir lsm).place = some .directory) : There (snapshotsDir lsm) t := by
  refine ⟨?_, found⟩
  have steps : (snapshotsDir lsm).steps = ("snapshots".toList :: lsm).reverse.map Step.down := by
    simp only [snapshotsDir, rootPath, Path.child, List.reverse_cons, List.map_append, List.map_cons, List.map_nil]
  rw [snapshotsPlace] at found ⊢
  rw [steps]
  exact walkDown found

theorem createDone {above : Path Name} {last : Name} {bytes : List UInt8}
    (ends : snapshotDir lsm name = above.child last) (there : There above t)
    (absent : t.find (last :: above.place) = none) (ordinary : '\x00' ∉ name)
    (once : (sstables.map SsTableHandle.runNumber).Nodup) (sourced : Sourced lsm sstables t)
    (serialized : codec.serialize (metadataOf label sstables sequenceNumber config) = .ok bytes) :
    ∃ t', create crc codec (fun _ => false) lsm name label sstables sequenceNumber config t =
        (.ok (metadataOf label sstables sequenceNumber config), t') ∧
      Created crc (above.child last) bytes t t' := by
  obtain ⟨linked, written, t', links, toMetadata, toChecksum, created⟩ :=
    createEnds there absent once sourced crc bytes
  have new : t.present (above.child last) = false := by
    rw [Bool.eq_false_iff]
    intro present
    obtain ⟨node, found⟩ := presentIff.mp present
    have stands := (lookupIff.mp found).2.1
    rw [Path.childPlace, absent] at stands
    cases stands
  refine ⟨t', ?_, created⟩
  simp only [create, ordinary, ends, new, if_false, Bool.false_eq_true,
    links (fun _ => false) 0 (fun _ _ _ => rfl), serialized,
    toMetadata (fun _ => false) _ (fun _ _ _ => rfl), toChecksum (fun _ => false) _ (fun _ _ _ => rfl)]

theorem createRefused (there : t.lookup (snapshotDir lsm name) ≠ .error .notFound) :
    ∃ e, create crc codec (fun _ => false) lsm name label sstables sequenceNumber config t = (.error e, t) := by
  unfold create
  dsimp only
  split
  · exact ⟨_, rfl⟩
  · split
    · exact ⟨_, rfl⟩
    · rename_i missing
      have barred : t.lookup (snapshotDir lsm name) = .error .notDirectory := by
        cases found : t.lookup (snapshotDir lsm name) with
        | ok node => exact absurd (presentIff.mpr ⟨node, found⟩) missing
        | error problem =>
          cases problem with
          | notFound => exact absurd found there
          | notDirectory => rfl
      have idle : ∀ op ∈ createDirAll (snapshotDir lsm name), op.enabled t = false ∨ op.effect t = t := by
        intro op member
        obtain ⟨q, above, rfl⟩ := List.mem_map.mp member
        rcases ensureDirBarred barred above with same | fails
        · exact Or.inr (attemptEffect same).2
        · exact Or.inl (by simp [attempt, fails])
      have fails : ∃ op ∈ createDirAll (snapshotDir lsm name), op.enabled t = false :=
        ⟨_, List.mem_map_of_mem (List.mem_append_right _ List.mem_cons_self), by
          simp [attempt, ensureDirFails barred]⟩
      obtain ⟨op, stopped⟩ := runBarred idle fails
      rw [linkOps, runAppendStopped stopped]
      exact ⟨_, rfl⟩

theorem deleteDone {above : Path Name} {last : Name} {metadata : SnapshotMetadata}
    (ends : snapshotDir lsm name = above.child last)
    (walked : (t.clear (above.child last).place).walk [] above.steps = .ok above.place)
    (loads : load crc codec lsm name t = .ok metadata) :
    ∃ t', delete crc codec lsm name t = (.ok (), t') ∧
      ∀ place, t'.find place = if (above.child last).place <:+ place then none else t.find place := by
  obtain ⟨bytes, checksum, held, -, -⟩ := loadOk loads
  rw [ends] at held
  obtain ⟨reached, file⟩ := readChild.mp held
  have there : t.lookup (above.child last) = .ok .directory :=
    lookupIff.mpr ⟨reached, findAbove file, Or.inl rfl⟩
  obtain ⟨t', removed⟩ := removeDirAllEnds there walked
  refine ⟨t', ?_, (removeDirAllOk removed).2⟩
  rw [delete, loads, ends]
  dsimp only
  rw [removed]

theorem loadSame {above : Path Name} {last : Name} {t' : Disk} (ends : snapshotDir lsm name = above.child last)
    (before : There above t) (after : There above t')
    (same : ∀ place, (above.child last).place <:+ place → t'.find place = t.find place) :
    load crc codec lsm name t' = load crc codec lsm name t := by
  have reach : ∀ {s : Disk}, There above s → s.walk [] (above.child last).steps = .ok (above.child last).place :=
    fun there => there.child last
  have lookups : t'.lookup (above.child last) = t.lookup (above.child last) := by
    unfold Tree.lookup
    simp only [reach before, reach after, bind, Except.bind, same _ (List.suffix_refl _)]
  have reads : ∀ file, t'.read ((above.child last).child file) = t.read ((above.child last).child file) := by
    intro file
    refine Option.ext (fun content => ?_)
    simp only [readChild, reach before, reach after, same _ (List.suffix_cons _ _)]
  have present : t'.present (above.child last) = t.present (above.child last) := by
    unfold Tree.present
    rw [lookups]
  simp only [load, ends, reads, present]

end Calls

section Steps
variable {crc : Crc32} {codec : Codec SnapshotMetadata} {lsm : List Name} {w w' : World}

theorem besideOutside {name other : Name} {place : List Name} (apart : other ≠ name) :
    ¬ name :: place <:+ other :: place := by
  intro suffix
  have same := suffix.eq_of_length (by rw [List.length_cons, List.length_cons])
  exact apart (List.cons.inj same).1.symm

theorem aboveOutside {name : Name} {place : List Name} : ¬ name :: place <:+ place := by
  intro suffix
  have longer := suffix.length_le
  simp at longer

theorem saveNamed {name : Name} {label : String} {sstables : List SsTableHandle} {sequenceNumber : Nat}
    {config : LsmConfig} (named : Named lsm w)
    (works : Working codec lsm w (.save name label sstables sequenceNumber config))
    (fits : Fitting lsm w (.save name label sstables sequenceNumber config))
    (taken : step crc codec lsm w (.save name label sstables sequenceNumber config) = some w') : Named lsm w' := by
  obtain ⟨once, sourced, bytes, serialized⟩ := works
  have refused : (∃ e, create crc codec (fun _ => false) lsm name label sstables sequenceNumber config w.disk =
      (.error e, w.disk)) → Named lsm w' := by
    rintro ⟨e, failed⟩
    simp only [step, failed] at taken
    cases taken
    exact named
  by_cases ordinary : '\x00' ∈ name
  · exact refused ⟨_, by rw [create]; exact if_pos ordinary⟩
  · rcases fits with plain | nul | there
    · have ends := snapshotDirPlain plain lsm
      by_cases absent : w.disk.find (name :: (snapshotsDir lsm).place) = none
      · obtain ⟨t', done, created⟩ : ∃ t', create crc codec (fun _ => false) lsm name label sstables sequenceNumber
              config w.disk = (.ok (metadataOf label sstables sequenceNumber config), t') ∧
            Created crc ((snapshotsDir lsm).child name) bytes w.disk t' :=
          createDone ends (snapshotsThere named.there) absent ordinary once sourced serialized
        simp only [step, done] at taken
        cases taken
        have outside : ∀ other, other ≠ name →
            t'.find (other :: (snapshotsDir lsm).place) = w.disk.find (other :: (snapshotsDir lsm).place) := by
          intro other apart
          refine created.outside ?_
          rw [Path.childPlace]
          exact besideOutside apart
        refine ⟨?_, fun other => ?_, fun other member => ?_⟩
        · have above : ¬ ((snapshotsDir lsm).child name).place <:+ (snapshotsDir lsm).place := by
            rw [Path.childPlace]
            exact aboveOutside
          exact (created.outside above).trans named.there
        · by_cases same : other = name
          · subst same
            have made := created.there.found
            rw [Path.childPlace] at made
            simp [made]
          · rw [outside other same, named.listed, List.mem_cons]
            simp [same]
        · rcases List.mem_cons.mp member with rfl | earlier
          · exact plain
          · exact named.plain other earlier
      · refine refused (createRefused ?_)
        obtain ⟨node, found⟩ := Option.ne_none_iff_exists'.mp absent
        rw [← Path.childPlace] at found
        have stands : w.disk.lookup (snapshotDir lsm name) = .ok node := by
          rw [ends]
          exact lookupIff.mpr ⟨(snapshotsThere named.there).child name, found, Or.inr rfl⟩
        rw [stands]
        intro missing
        cases missing
    · exact absurd nul ordinary
    · exact refused (createRefused there)

theorem deleteCases (crc : Crc32) (codec : Codec SnapshotMetadata) {name : Name} (named : Named lsm w)
    (fits : Fitting lsm w (.delete name)) :
    (∃ e, delete crc codec lsm name w.disk = (.error e, w.disk)) ∨
    (Plain name ∧ ∃ t', delete crc codec lsm name w.disk = (.ok (), t') ∧
      ∀ place, t'.find place = if name :: (snapshotsDir lsm).place <:+ place then none else w.disk.find place) := by
  cases loads : load crc codec lsm name w.disk with
  | error e => exact Or.inl ⟨e, by rw [delete, loads]⟩
  | ok metadata =>
    rcases fits with plain | nul | unread
    · have root : (w.disk.clear ((snapshotsDir lsm).child name).place).find (snapshotsDir lsm).place =
          some .directory := by
        rw [findClear, if_neg, named.there]
        rw [Path.childPlace]
        exact fun below => aboveOutside below.1
      obtain ⟨t', removed, found⟩ := deleteDone (snapshotDirPlain plain lsm) (snapshotsThere root).walked loads
      rw [Path.childPlace] at found
      exact Or.inr ⟨plain, t', removed, found⟩
    · simp only [load, nul, true_or, if_true] at loads
      cases loads
    · obtain ⟨bytes, -, held, -, -⟩ := loadOk loads
      rw [unread] at held
      cases held

theorem deleteNamed {name : Name} (named : Named lsm w) (fits : Fitting lsm w (.delete name))
    (taken : step crc codec lsm w (.delete name) = some w') : Named lsm w' := by
  rcases deleteCases crc codec named fits with ⟨e, failed⟩ | ⟨plain, t', done, found⟩
  · simp only [step, failed] at taken
    cases taken
    exact named
  · simp only [step, done] at taken
    cases taken
    refine ⟨?_, fun other => ?_, fun other member => named.plain other (List.mem_of_mem_filter member)⟩
    · rw [found, if_neg aboveOutside, named.there]
    · rw [found]
      by_cases same : other = name
      · subst same
        simp
      · rw [if_neg (besideOutside same), named.listed]
        simp [same]

theorem snapshotsOutside (lsm : List Name) (names : List Name) :
    ¬ (activeDir lsm).place <:+ names ++ (snapshotsDir lsm).place := by
  intro suffix
  rw [activePlace, snapshotsPlace] at suffix
  have same := (List.suffix_of_suffix_length_le suffix (List.suffix_append _ _) (by simp)).eq_of_length (by simp)
  exact absurd (List.cons.inj same).1 (by decide)

theorem stepNamed {call : Call} (named : Named lsm w) (works : Working codec lsm w call) (fits : Fitting lsm w call)
    (taken : step crc codec lsm w call = some w') : Named lsm w' := by
  cases call with
  | save name label sstables sequenceNumber config => exact saveNamed named works fits taken
  | delete name => exact deleteNamed named fits taken
  | work disk =>
    cases taken
    have kept : ∀ names, disk.find (names ++ (snapshotsDir lsm).place) =
        w.disk.find (names ++ (snapshotsDir lsm).place) :=
      fun names => works _ (snapshotsOutside lsm names)
    refine ⟨(kept []).trans named.there, fun name => ?_, named.plain⟩
    rw [← named.listed name]
    exact iff_of_eq (congrArg (· = some Node.directory) (kept [name]))

end Steps

theorem listedFound {lsm : List Name} {t : Disk} {names : List Name} {name : Name}
    (listed : listSnapshots lsm t = .ok names) (member : name ∈ names) :
    t.find (name :: (snapshotsDir lsm).place) = some .directory := by
  unfold listSnapshots at listed
  split at listed
  · cases listed
    cases member
  · split at listed
    · cases listed
      exact memDirectories.mp ((List.perm_insertionSort _ _).mem_iff.mp member)
    · cases listed

theorem listNamed {lsm : List Name} {w : World} (named : Named lsm w) :
    ∃ names, listSnapshots lsm w.disk = .ok names ∧ names.Nodup ∧ ∀ name, name ∈ names ↔ name ∈ w.kept := by
  have there := (snapshotsThere named.there).lookup
  have present : w.disk.present (snapshotsDir lsm) = true := presentIff.mpr ⟨_, there⟩
  have listed : listSnapshots lsm w.disk = .ok ((w.disk.directories (snapshotsDir lsm).place).insertionSort
      (fun a b => (compare a b).isLE = true)) := by
    rw [listSnapshots, present, there, if_neg (by simp), if_pos rfl]
  refine ⟨_, listed, ?_, fun name => ?_⟩
  · exact (List.perm_insertionSort _ _).nodup_iff.mpr (directoriesNodup _ _)
  · rw [(List.perm_insertionSort _ _).mem_iff, memDirectories, named.listed]

structure Fresh (lsm : List Name) (t : Disk) : Prop where
  there : t.find (snapshotsDir lsm).place = some .directory
  empty : ∀ name, t.find (name :: (snapshotsDir lsm).place) ≠ some .directory

theorem Fresh.named {lsm : List Name} {t : Disk} (fresh : Fresh lsm t) : Named lsm ⟨t, []⟩ :=
  ⟨fresh.there, fun name => iff_of_false (fresh.empty name) List.not_mem_nil, nofun⟩

/-- With names of one ordinary component, the list is the set of the names saved and not
deleted since, and a deletion leaves every other snapshot as it is. -/
theorem namesAreSet {crc : Crc32} {codec : Codec SnapshotMetadata} {lsm : List Name} {t : Disk}
    (fresh : Fresh lsm t) {calls : List Call} {w : World}
    (ran : Trace.Run (step crc codec lsm) (fun w call => Working codec lsm w call ∧ Fitting lsm w call)
      ⟨t, []⟩ calls w) :
    (∃ names, listSnapshots lsm w.disk = .ok names ∧ names.Nodup ∧ ∀ name, name ∈ names ↔ name ∈ w.kept) ∧
    ∀ a t', delete crc codec lsm a w.disk = (.ok (), t') → Fitting lsm w (.delete a) →
      ∀ b ∈ w.kept, b ≠ a → load crc codec lsm b t' = load crc codec lsm b w.disk := by
  have named : Named lsm w :=
    ran.invariant (fun _ _ _ taken allowed before => stepNamed before allowed.1 allowed.2 taken) fresh.named
  refine ⟨listNamed named, fun a t' done fits b member apart => ?_⟩
  rcases deleteCases crc codec named fits with ⟨e, failed⟩ | ⟨-, t₁, again, found⟩
  · rw [failed] at done
    cases done
  · rw [done] at again
    cases again
    have after : t'.find (snapshotsDir lsm).place = some .directory := by
      rw [found, if_neg aboveOutside, named.there]
    refine loadSame (snapshotDirPlain (named.plain b member) lsm) (snapshotsThere named.there) (snapshotsThere after)
      (fun place inside => ?_)
    rw [found, if_neg]
    rw [Path.childPlace] at inside
    intro other
    have same := (List.suffix_of_suffix_length_le other inside (by simp)).eq_of_length (by simp)
    exact apart (List.cons.inj same).1.symm

def saveEmpty (name : Name) : Call := .save name "" [] 0 ⟨4096, 4⟩
def emptyMetadata : SnapshotMetadata := metadataOf "" [] 0 ⟨4096, 4⟩

theorem saveEmptyWorks (w : World) (name : Name) :
    Working (ciborium emptyMetadata) ["db".toList] w (saveEmpty name) :=
  ⟨List.nodup_nil, nofun, _, rfl⟩

theorem saveEmptyDone {name last : Name} {above : Path Name} {w : World}
    (ends : snapshotDir ["db".toList] name = above.child last) (there : There above w.disk)
    (absent : w.disk.find (last :: above.place) = none) (ordinary : '\x00' ∉ name) :
    ∃ t', step crc32 (ciborium emptyMetadata) ["db".toList] w (saveEmpty name) = some ⟨t', name :: w.kept⟩ ∧
      Created crc32 (above.child last) (metadataItem emptyMetadata) w.disk t' := by
  obtain ⟨t', done, created⟩ : ∃ t', create crc32 (ciborium emptyMetadata) (fun _ => false) ["db".toList] name "" [] 0
        ⟨4096, 4⟩ w.disk = (.ok emptyMetadata, t') ∧
      Created crc32 (above.child last) (metadataItem emptyMetadata) w.disk t' :=
    createDone ends there absent ordinary List.nodup_nil nofun rfl
  refine ⟨t', ?_, created⟩
  simp only [step, saveEmpty, done]

theorem emptyFresh : Fresh ["db".toList] (directoryOf []) := by
  refine ⟨by decide +kernel, fun name found => ?_⟩
  have none : (directoryOf []).directories (snapshotsDir ["db".toList]).place = [] := by decide +kernel
  have member := memDirectories.mpr found
  rw [none] at member
  cases member

theorem firstSaved : ∃ t, Created crc32 ((snapshotsDir ["db".toList]).child "a".toList)
      (metadataItem emptyMetadata) (directoryOf []) t ∧
    step crc32 (ciborium emptyMetadata) ["db".toList] ⟨directoryOf [], []⟩ (saveEmpty "a".toList) =
      some ⟨t, ["a".toList]⟩ := by
  obtain ⟨t, taken, created⟩ := saveEmptyDone (w := ⟨directoryOf [], []⟩)
    (snapshotDirPlain (by decide +kernel : Plain "a".toList) ["db".toList]) (snapshotsThere emptyFresh.there)
    (by decide +kernel) (by decide +kernel)
  exact ⟨t, created, taken⟩

theorem namesAreSetOne : ∃ w names, Trace.Run (step crc32 (ciborium emptyMetadata) ["db".toList])
      (fun w call => Working (ciborium emptyMetadata) ["db".toList] w call ∧ Fitting ["db".toList] w call)
      ⟨directoryOf [], []⟩ [saveEmpty "a".toList] w ∧
    listSnapshots ["db".toList] w.disk = .ok names ∧ ∀ name, name ∈ names ↔ name = "a".toList := by
  obtain ⟨t, -, taken⟩ := firstSaved
  have ran : Trace.Run (step crc32 (ciborium emptyMetadata) ["db".toList])
      (fun w call => Working (ciborium emptyMetadata) ["db".toList] w call ∧ Fitting ["db".toList] w call)
      ⟨directoryOf [], []⟩ [saveEmpty "a".toList] ⟨t, ["a".toList]⟩ :=
    .cons taken ⟨saveEmptyWorks _ _, Or.inl (by decide +kernel)⟩ (.nil _)
  obtain ⟨names, listed, -, same⟩ := (namesAreSet emptyFresh ran).1
  refine ⟨_, names, ran, listed, fun name => ?_⟩
  rw [same, List.mem_singleton]

theorem Created.around {crc : Crc32} {lsm : List Name} {last name : Name} {bytes bytes' : List UInt8} {t t₁ t₂ : Disk}
    (created : Created crc ((snapshotsDir lsm).child last) bytes t t₁) (apart : name ∉ [metadataName, checksumName])
    (inside : Created crc (((snapshotsDir lsm).child last).child name) bytes' t₁ t₂) :
    There (snapshotsDir lsm) t₂ ∧ Created crc ((snapshotsDir lsm).child last) bytes t₂ t₂ := by
  have outside : ∀ file ∈ [metadataName, checksumName],
      t₂.find (file :: ((snapshotsDir lsm).child last).place) =
        t₁.find (file :: ((snapshotsDir lsm).child last).place) := by
    intro file member
    refine inside.outside ?_
    rw [Path.childPlace _ name]
    exact besideOutside (fun same => apart (same ▸ member))
  have stays : t₂.find ((snapshotsDir lsm).child last).place = some .directory := by
    have found := inside.there.found
    rw [Path.childPlace] at found
    exact findAbove found
  have root : t₂.find (snapshotsDir lsm).place = some .directory := by
    rw [Path.childPlace] at stays
    exact findAbove stays
  exact ⟨snapshotsThere root, ⟨(snapshotsThere root).child _, stays⟩, (outside _ (by simp)).trans created.metadata,
    (outside _ (by simp)).trans created.checksum, fun _ _ _ _ => rfl⟩

theorem nestedDir : snapshotDir ["db".toList] "a/b".toList =
    ((snapshotsDir ["db".toList]).child "a".toList).child "b".toList := rfl

theorem secondSaved {t₁ : Disk} (created : Created crc32 ((snapshotsDir ["db".toList]).child "a".toList)
      (metadataItem emptyMetadata) (directoryOf []) t₁) :
    ∃ t₂, Created crc32 (((snapshotsDir ["db".toList]).child "a".toList).child "b".toList)
        (metadataItem emptyMetadata) t₁ t₂ ∧
      step crc32 (ciborium emptyMetadata) ["db".toList] ⟨t₁, ["a".toList]⟩ (saveEmpty "a/b".toList) =
        some ⟨t₂, ["a/b".toList, "a".toList]⟩ := by
  have absent : t₁.find ("b".toList :: ((snapshotsDir ["db".toList]).child "a".toList).place) = none := by
    rw [created.elsewhere _ (List.cons_ne_self _ _) (fun name member same => ?_) (fun n c same => ?_)]
    · decide +kernel
    · rw [← (List.cons.inj same).1] at member
      exact absurd member (by decide +kernel)
    · obtain ⟨d, rest, split, digit⟩ := runPrefixDigit n
      rw [runPlace, fileName, split] at same
      have first : 'b' = d := (List.cons.inj (List.cons.inj same).1).1
      rw [← first] at digit
      cases digit
  obtain ⟨t₂, taken, created'⟩ := saveEmptyDone (w := ⟨t₁, ["a".toList]⟩) nestedDir created.there absent
    (by decide +kernel)
  exact ⟨t₂, created', taken⟩

theorem namesNested : ∃ w t', Trace.Run (step crc32 (ciborium emptyMetadata) ["db".toList])
      (Working (ciborium emptyMetadata) ["db".toList]) ⟨directoryOf [], []⟩
      [saveEmpty "a".toList, saveEmpty "a/b".toList] w ∧
    "a/b".toList ∈ w.kept ∧ (∀ names, listSnapshots ["db".toList] w.disk = .ok names → "a/b".toList ∉ names) ∧
    load crc32 (ciborium emptyMetadata) ["db".toList] "a/b".toList w.disk = .ok emptyMetadata ∧
    delete crc32 (ciborium emptyMetadata) ["db".toList] "a".toList w.disk = (.ok (), t') ∧
    ∀ metadata, load crc32 (ciborium emptyMetadata) ["db".toList] "a/b".toList t' ≠ .ok metadata := by
  have outer : snapshotDir ["db".toList] "a".toList = (snapshotsDir ["db".toList]).child "a".toList :=
    snapshotDirPlain (by decide +kernel) _
  obtain ⟨t₁, created, taken⟩ := firstSaved
  obtain ⟨t₂, created', taken'⟩ := secondSaved created
  obtain ⟨root, again⟩ := created.around (by decide +kernel) created'
  have loads : load crc32 (ciborium emptyMetadata) ["db".toList] "a".toList t₂ = .ok emptyMetadata := by
    rw [← outer] at again
    exact loadCreated (by decide +kernel) again (ciboriumReads emptyMetadata)
  have kept : (t₂.clear ((snapshotsDir ["db".toList]).child "a".toList).place).find
      (snapshotsDir ["db".toList]).place = some .directory := by
    rw [findClear, if_neg, root.found]
    rw [Path.childPlace]
    exact fun below => aboveOutside below.1
  obtain ⟨t₃, deleted, gone⟩ := deleteDone outer (snapshotsThere kept).walked loads
  refine ⟨⟨t₂, _⟩, t₃, .cons taken (saveEmptyWorks _ _) (.cons taken' (saveEmptyWorks _ _) (.nil _)),
    List.mem_cons_self, fun names listed member => ?_, ?_, deleted, fun metadata nested => ?_⟩
  · have found := listedFound listed member
    rw [created'.outside, created.outside] at found
    · exact emptyFresh.empty _ found
    · rw [Path.childPlace]
      exact besideOutside (by decide)
    · rw [Path.childPlace, Path.childPlace]
      intro below
      have longer := below.length_le
      simp at longer
  · rw [← nestedDir] at created'
    exact loadCreated (by decide +kernel) created' (ciboriumReads emptyMetadata)
  · obtain ⟨bytes, -, held, -, -⟩ := loadOk nested
    rw [nestedDir] at held
    have found := (readIff.mp held).2.1
    rw [gone, if_pos] at found
    · cases found
    · simp only [Path.childPlace]
      exact (List.suffix_cons _ _).trans (List.suffix_cons _ _)

end CardanoLsm.SnapshotFiles
