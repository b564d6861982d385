import CardanoLsm.Interruption
import CardanoLsm.PowerCuts

/-! Atomic files and snapshots under a loss of power (`atomic_file.rs`, `create` and `load`
of `snapshot.rs`). A snapshot's metadata gets its name after all its links are on disk;
its checksum is written in place and not synced. -/
namespace CardanoLsm.PowerCuts
open PowerLoss Format Bytes SnapshotFiles

inductive Attempt (temp final : Place) (i : FileId) (chunks : List (List UInt8)) : List Op → Prop where
  | stopped {done : List Op} (reached : done <+: atomicOps temp final i chunks) : Attempt temp final i chunks done
  | dropped {done : List Op} (reached : done <+: .create temp i :: (chunks.map (.append i) ++ [.sync i])) :
      Attempt temp final i chunks (done ++ [.remove temp])

section Atomic
variable {S : Set Place} {I : Set FileId} {temp final : Place} {i : FileId} {chunks : List (List UInt8)}
  {done : List Op} {v w found : Volume}

theorem creationQuiet {op : Op} (member : op ∈ .create temp i :: (chunks.map (.append i) ++ [.sync i])) :
    (∀ p ∈ op.touches, p = temp) ∧ ∀ j ∈ op.writes, j = i := by
  simp only [List.mem_append, List.mem_cons, List.mem_map, List.not_mem_nil, or_false] at member
  rcases member with rfl | ⟨_, _, rfl⟩ | rfl <;> simp [Op.touches, Op.writes]

theorem atomicLeaves (reached : done <+: atomicOps temp final i chunks) (apart : temp ≠ final)
    (run : Runs S I done v w) (tempIn : temp ∈ S) (finalIn : final ∈ S) (fileIn : i ∈ I) {A : Option FileId → Prop}
    (old : v.Only final A) : w.Only final A ∧ done ≠ atomicOps temp final i chunks ∨
      w.Only final (fun e => A e ∨ e = some i) ∧ w.Sealed i chunks.flatten ∧
        (done = atomicOps temp final i chunks → w.Only final (fun e => e = some i)) := by
  have quiet : ∀ op ∈ PowerLoss.Op.create temp i :: (chunks.map (.append i) ++ [.sync i]), final ∉ op.touches :=
    fun op member touched => apart ((creationQuiet member).1 final touched).symm
  rcases beforeOrAfter reached with early | ⟨more, later, rfl⟩
  · refine Or.inl ⟨run.untouched finalIn (fun op member => quiet op (early.subset member)) old, fun whole => ?_⟩
    have lengths := early.length_le
    rw [whole, atomicOps, List.length_append] at lengths
    simp at lengths
  · right
    obtain ⟨u, before, after⟩ := run.split
    obtain ⟨named, closed, -⟩ := before.written (A := fun _ => True) (fun _ _ applied => applied) tempIn fileIn
      (fun _ _ => trivial) trivial
    have unchanged := before.untouched finalIn quiet old
    obtain ⟨x, x', rely, applied, rest⟩ := after.head
    obtain ⟨entry, -, only, content, synced⟩ := Volume.applyRename apart applied
      ((rely.entries _ tempIn).1.trans named)
    have renamed : x'.Only final (fun e => A e ∨ e = some i) :=
      only _ ((unchanged.rely finalIn rely).weaken (fun _ held => Or.inl held)) (Or.inr rfl)
    have whole : x'.Sealed i chunks.flatten := by
      rw [Volume.Sealed, content, synced]
      exact closed.rely fileIn rely
    have syncs : ∀ op ∈ more, op = .syncDir final.1 := fun op member => by simpa using later.subset member
    refine ⟨rest.untouched finalIn (fun op member => ?_) renamed, rest.unwritten fileIn (fun op member => ?_) whole,
      fun all => ?_⟩
    · rw [syncs op member]
      exact List.not_mem_nil
    · rw [syncs op member]
      exact List.not_mem_nil
    · have synced : more = [.syncDir final.1] := by
        rw [atomicOps] at all
        exact (List.cons.inj (List.append_cancel_left all)).2
      rw [synced] at rest
      obtain ⟨y, y', rely', applied', last⟩ := rest.head
      obtain ⟨-, durable⟩ := Volume.applySyncDir (p := final) applied' rfl
      rw [(rely'.entries _ finalIn).1, entry] at durable
      exact durable.rely finalIn last.idle

/-- A file that is replaced through an `AtomicFileWriter` is found whole after any loss of
power, as it was or as it was written; once `commit` has returned it is the new one. -/
theorem atomicReplaces {ops : List Op} (attempt : Attempt temp final i chunks ops) (apart : temp ≠ final)
    (run : Runs S I ops v w) (tempIn : temp ∈ S) (finalIn : final ∈ S) (fileIn : i ∈ I)
    (durable : v.Only final (fun e => e = v.entry final))
    (whole : ∀ j, v.entry final = some j → j ≠ i ∧ j ∈ I ∧ v.synced j = true) (survives : w.Survives found) :
    found.read final = v.read final ∧ ops ≠ atomicOps temp final i chunks ∨
      found.read final = some chunks.flatten := by
  have oldRead : found.entry final = v.entry final → (∀ op ∈ ops, ∀ j ∈ op.writes, j = i) →
      found.read final = v.read final := by
    intro entry writes
    rw [Volume.read, Volume.read, entry]
    cases held : v.entry final with
    | none => rfl
    | some j =>
      obtain ⟨other, inside, synced⟩ := whole j held
      have closed : v.Sealed j (v.content j) := ⟨rfl, synced⟩
      have stays := run.unwritten inside (fun op member written => other (writes op member j written)) closed
      rw [Option.map_some, Option.map_some, survives.file stays]
  cases attempt with
  | stopped reached =>
    have writes : ∀ op ∈ ops, ∀ j ∈ op.writes, j = i := by
      intro op member
      rcases List.mem_append.mp (reached.subset member) with early | late
      · exact (creationQuiet early).2
      · simp only [List.mem_cons, List.not_mem_nil, or_false] at late
        rcases late with rfl | rfl <;> intro j written <;> cases written
    rcases atomicLeaves reached apart run tempIn finalIn fileIn durable with ⟨only, short⟩ | ⟨only, closed, done⟩
    · exact Or.inl ⟨oldRead (survives.path only) writes, short⟩
    · have new : found.entry final = some i → found.read final = some chunks.flatten := by
        intro entry
        rw [Volume.read, entry, Option.map_some, survives.file closed]
      by_cases all : ops = atomicOps temp final i chunks
      · exact Or.inr (new (survives.path (done all)))
      · rcases survives.path only with entry | entry
        · exact Or.inl ⟨oldRead entry writes, all⟩
        · exact Or.inr (new entry)
  | @dropped done reached =>
    have member : ∀ op ∈ done ++ [.remove temp], (∀ p ∈ op.touches, p = temp) ∧ ∀ j ∈ op.writes, j = i := by
      intro op inside
      rcases List.mem_append.mp inside with early | last
      · exact creationQuiet (reached.subset early)
      · rw [List.mem_singleton.mp last]
        exact ⟨fun p touched => List.mem_singleton.mp touched, fun j written => absurd written List.not_mem_nil⟩
    have only := run.untouched finalIn (fun op inside touched => apart ((member op inside).1 final touched).symm) durable
    refine Or.inl ⟨oldRead (survives.path only) (fun op inside => (member op inside).2), fun same => ?_⟩
    have renames : .rename temp final ∈ atomicOps temp final i chunks := by simp [atomicOps]
    rw [← same] at renames
    exact apart ((member _ renames).1 final (List.mem_cons_of_mem temp (List.mem_singleton_self final))).symm

end Atomic

def metadataOps : List Op :=
  atomicOps (.snapshot "s", temporaryName) (.snapshot "s", metadataName) (.snapshot "s" .metadata) [[1, 2], [3]]

theorem metadataExecutes : ((execute (metadataOps.take 5) emptyVolume).map (fun v =>
    (decide (none ∈ v.past (.snapshot "s", metadataName)), v.read (.snapshot "s", metadataName)))) =
      some (true, some [1, 2, 3]) := by decide +kernel

theorem atomicReplacesMetadata : ∃ v found : Volume, execute (metadataOps.take 5) emptyVolume = some v ∧
    v.read (.snapshot "s", metadataName) = some [1, 2, 3] ∧ found.entry (.snapshot "s", metadataName) = none ∧
    (found.read (.snapshot "s", metadataName) = emptyVolume.read (.snapshot "s", metadataName) ∧
      metadataOps.take 5 ≠ metadataOps ∨ found.read (.snapshot "s", metadataName) = some [1, 2, 3]) := by
  obtain ⟨v, ran, renamed⟩ := Option.map_eq_some_iff.mp metadataExecutes
  simp only [Prod.mk.injEq, decide_eq_true_eq] at renamed
  have durable : emptyVolume.Only (.snapshot "s", metadataName) (fun e => e = none) :=
    fun e may => may.resolve_right List.not_mem_nil
  refine ⟨v, v.lose (.snapshot "s", metadataName) none, ran, renamed.2, v.loseEntry _ _, ?_⟩
  exact atomicReplaces (.stopped (List.take_prefix 5 _)) (by decide) (Runs.executed Set.univ Set.univ ran)
    (Set.mem_univ _) (Set.mem_univ _) (Set.mem_univ _) durable (fun j held => by cases held)
    ((Volume.Survives.refl v).lose (Or.inr renamed.1))

def snapshotPlace (name : String) (n : Nat) (c : Component) : Place := (.snapshot name, fileName n c)

def metadataPlace (name : String) : Place := (.snapshot name, metadataName)

def metadataTemporary (name : String) : Place := (.snapshot name, temporaryName)

def checksumPlace (name : String) : Place := (.snapshot name, checksumName)

def directoryPlace (name : String) : Place := (.snapshots, name.toList)

def linkOp (name : String) (n : Nat) (c : Component) : Op := .link (place n c) (snapshotPlace name n c)

def linkRunOps (name : String) (n : Nat) : List Op := components.map (linkOp name n) ++ [.syncDir (.snapshot name)]

def metadataCreation (name : String) (bytes : List UInt8) : List Op :=
  .create (metadataTemporary name) (.snapshot name .metadata) ::
    ([bytes].map (.append (.snapshot name .metadata)) ++ [.sync (.snapshot name .metadata)])

def checksumOps (crc : Crc32) (name : String) (bytes : List UInt8) : List Op :=
  [.create (checksumPlace name) (.snapshot name .metadataChecksum),
    .append (.snapshot name .metadataChecksum) (utf8 (toHex (crc.ofChunks [bytes]))), .syncDir (.snapshot name)]

def fillOps (crc : Crc32) (codec : Codec SnapshotMetadata) (name : String) (runs : List Nat)
    (metadata : SnapshotMetadata) : List Op :=
  runs.flatMap (linkRunOps name) ++
  match codec.serialize metadata with
  | .error _ => []
  | .ok bytes =>
    atomicOps (metadataTemporary name) (metadataPlace name) (.snapshot name .metadata) [bytes] ++
      checksumOps crc name bytes

/-- `create_dir_all` enters the directory in `snapshots`, which is not synced afterwards. -/
def directoryOp (name : String) : Op := .createNew (directoryPlace name) (.directory name)

def snapshotOps (crc : Crc32) (codec : Codec SnapshotMetadata) (name : String) (runs : List Nat)
    (metadata : SnapshotMetadata) : List Op :=
  directoryOp name :: fillOps crc codec name runs metadata

inductive Filling (crc : Crc32) (codec : Codec SnapshotMetadata) (name : String) (runs : List Nat)
    (metadata : SnapshotMetadata) : List Op → Prop where
  | stopped {done : List Op} (reached : done <+: fillOps crc codec name runs metadata) :
      Filling crc codec name runs metadata done
  | dropped {done : List Op} {bytes : List UInt8} (serialized : codec.serialize metadata = .ok bytes)
      (reached : done <+: metadataCreation name bytes) :
      Filling crc codec name runs metadata
        (runs.flatMap (linkRunOps name) ++ (done ++ [.remove (metadataTemporary name)]))

inductive Taking (crc : Crc32) (codec : Codec SnapshotMetadata) (name : String) (runs : List Nat)
    (metadata : SnapshotMetadata) : List Op → Prop where
  | before : Taking crc codec name runs metadata []
  | made {done : List Op} (filling : Filling crc codec name runs metadata done) :
      Taking crc codec name runs metadata (directoryOp name :: done)

def loadFiles (crc : Crc32) (codec : Codec SnapshotMetadata) (name : Name) (metadata checksum : Option (List UInt8)) :
    Except FormatError SnapshotMetadata :=
  match metadata with
  | none => .error (.io (.read .metadata))
  | some bytes =>
    match checksum.bind readToString with
    | none => .error (.io (.read .metadataChecksum))
    | some text =>
      match fromHex (trim text) with
      | .error e => .error (.corruption s!"Invalid checksum format: {e}")
      | .ok expected =>
        if crc.ofChunks [bytes] ≠ expected then
          .error (.corruption s!"Snapshot metadata checksum mismatch for '{String.ofList name}'")
        else match codec.deserialize bytes with
        | .error e => .error (.serialization e)
        | .ok metadata => .ok metadata

def readUnder (found : Volume) (name : String) (p : Place) : Option (List UInt8) :=
  if found.entry (directoryPlace name) = none then none else found.read p

def loadFound (crc : Crc32) (codec : Codec SnapshotMetadata) (name : String) (found : Volume) :
    Except FormatError SnapshotMetadata :=
  if found.entry (directoryPlace name) = none then
    .error (.invalidOperation s!"Snapshot '{String.ofList name.toList}' does not exist")
  else loadFiles crc codec name.toList (readUnder found name (metadataPlace name)) (readUnder found name (checksumPlace name))

theorem loadOfFound (crc : Crc32) (codec : Codec SnapshotMetadata) {lsm : List Name} {name : String}
    {t : SnapshotFiles.Disk} {found : Volume} (ordinary : '\x00' ∉ name.toList)
    (directory : t.present (snapshotDir lsm name.toList) = false ↔ found.entry (directoryPlace name) = none)
    (metadata : t.read ((snapshotDir lsm name.toList).child metadataName) = readUnder found name (metadataPlace name))
    (checksum : t.read ((snapshotDir lsm name.toList).child checksumName) = readUnder found name (checksumPlace name)) :
    load crc codec lsm name.toList t = loadFound crc codec name found := by
  by_cases absent : found.entry (directoryPlace name) = none
  · rw [loadFound, if_pos absent]
    exact if_pos (Or.inr (directory.mpr absent))
  · rw [loadFound, if_neg absent, ← metadata, ← checksum]
    exact if_neg (by simp only [ordinary, directory, absent, or_self, not_false_eq_true])

structure Held (runs : List Nat) (bytes : Nat → Component → List UInt8) (v : Volume) : Prop where
  named : ∀ n ∈ runs, ∀ c ∈ components, v.entry (place n c) = some (.run n c)
  whole : ∀ n ∈ runs, ∀ c ∈ components, v.Sealed (.run n c) (bytes n c)

def takenPaths (name : String) (runs : List Nat) : Set Place :=
  {p | p.1 = .snapshot name ∨ p = directoryPlace name ∨ ∃ n ∈ runs, ∃ c, p = place n c}

def takenFiles (name : String) (runs : List Nat) : Set FileId :=
  {i | (∃ c, i = .snapshot name c) ∨ ∃ n ∈ runs, ∃ c, i = .run n c}

def LinkedAll (name : String) (runs : List Nat) (v : Volume) : Prop :=
  ∀ n ∈ runs, ∀ c ∈ components, v.Only (snapshotPlace name n c) (fun e => e = some (.run n c))

section Links
variable {name : String} {runs all : List Nat} {bytes : Nat → Component → List UInt8} {v w : Volume}

theorem snapshotInjective {n m : Nat} {c d : Component} :
    snapshotPlace name n c = snapshotPlace name m d ↔ n = m ∧ c = d := by
  refine ⟨fun same => fileNameInjective (Prod.mk.inj same).2, ?_⟩
  intro ⟨numbers, components⟩
  rw [numbers, components]

theorem linksNamed {cs : List Component} {n : Nat} (run : Runs (takenPaths name all) (takenFiles name all)
    (cs.map (linkOp name n)) v w) (inside : n ∈ all) (once : cs.Nodup)
    (held : ∀ c ∈ cs, v.entry (place n c) = some (.run n c)) :
    ∀ c ∈ cs, w.entry (snapshotPlace name n c) = some (.run n c) := by
  induction cs generalizing v with
  | nil =>
    intro c member
    cases member
  | cons c rest ih =>
    obtain ⟨u, u', rely, applied, later⟩ := run.head
    obtain ⟨fresh, onceRest⟩ := List.nodup_cons.mp once
    have source : ∀ d, place n d ∈ takenPaths name all := fun d => Or.inr (Or.inr ⟨n, inside, d, rfl⟩)
    have linked := Volume.applyLink applied
    rw [(rely.entries _ (source c)).1, held c List.mem_cons_self] at linked
    have sources : ∀ d ∈ rest, u'.entry (place n d) = some (.run n d) := by
      intro d member
      have stays : Volume.Rely {place n d} ∅ u u' := Volume.applyRely applied
        (fun q touched same => by
          rw [List.mem_singleton.mp touched, Set.mem_singleton_iff] at same
          cases (Prod.mk.inj same).1)
        (fun _ _ none => none)
      rw [(stays.entries _ (Set.mem_singleton _)).1, (rely.entries _ (source d)).1,
        held d (List.mem_cons_of_mem c member)]
    intro d member
    rcases List.mem_cons.mp member with rfl | later'
    · rw [later.untouchedEntry (Or.inl rfl) (fun op member touched => ?_), linked]
      obtain ⟨d', inRest, rfl⟩ := List.mem_map.mp member
      have same := (snapshotInjective.mp (List.mem_singleton.mp touched)).2
      exact fresh (same ▸ inRest)
    · exact ih later onceRest sources d later'

def Aside (name : String) (op : Op) : Prop :=
  (∀ p ∈ op.touches, p.1 = .snapshot name) ∧ ∀ i ∈ op.writes, ∃ c, i = .snapshot name c

theorem Held.kept {ops : List Op} (held : Held all bytes v)
    (run : Runs (takenPaths name all) (takenFiles name all) ops v w) (aside : ∀ op ∈ ops, Aside name op) :
    Held all bytes w := by
  refine ⟨fun n inside c component => ?_, fun n inside c component => ?_⟩
  · rw [run.untouchedEntry (Or.inr (Or.inr ⟨n, inside, c, rfl⟩)) (fun op member touched => ?_), held.named n inside c component]
    cases (aside op member).1 _ touched
  · refine run.unwritten (Or.inr ⟨n, inside, c, rfl⟩) (fun op member written => ?_) (held.whole n inside c component)
    obtain ⟨_, same⟩ := (aside op member).2 _ written
    cases same

theorem linkRunAside {n : Nat} : ∀ op ∈ linkRunOps name n, Aside name op := by
  intro op member
  rcases List.mem_append.mp member with link | sync
  · obtain ⟨c, -, rfl⟩ := List.mem_map.mp link
    simp [Aside, linkOp, Op.touches, Op.writes, snapshotPlace]
  · rw [List.mem_singleton.mp sync]
    simp [Aside, Op.touches, Op.writes]

theorem linksAside : ∀ op ∈ runs.flatMap (linkRunOps name), Aside name op := by
  intro op member
  obtain ⟨n, -, inside⟩ := List.mem_flatMap.mp member
  exact linkRunAside op inside

theorem linkRunDurable {n : Nat} (run : Runs (takenPaths name all) (takenFiles name all) (linkRunOps name n) v w)
    (inside : n ∈ all) (held : Held all bytes v) :
    ∀ c ∈ components, w.Only (snapshotPlace name n c) (fun e => e = some (.run n c)) := by
  intro c component
  obtain ⟨u, links, last⟩ := run.split
  obtain ⟨x, x', rely, applied, idle⟩ := last.head
  have named := linksNamed links inside (by decide) (held.named n inside) c component
  obtain ⟨-, durable⟩ := Volume.applySyncDir (p := snapshotPlace name n c) applied rfl
  rw [(rely.entries _ (Or.inl rfl)).1, named] at durable
  exact durable.rely (Or.inl rfl) idle.idle

theorem linksDurable (run : Runs (takenPaths name all) (takenFiles name all) (runs.flatMap (linkRunOps name)) v w)
    (inside : runs ⊆ all) (held : Held all bytes v) : LinkedAll name runs w := by
  induction runs generalizing v with
  | nil =>
    intro n member
    cases member
  | cons n rest ih =>
    rw [List.flatMap_cons] at run
    obtain ⟨u, first, later⟩ := run.split
    have restLinked := ih later (fun m member => inside (List.mem_cons_of_mem n member))
      (held.kept first linkRunAside)
    intro m member c component
    by_cases again : m ∈ rest
    · exact restLinked m again c component
    · have same : m = n := (List.mem_cons.mp member).resolve_right again
      subst same
      refine later.untouched (Or.inl rfl) (fun op inOps touched => ?_)
        (linkRunDurable first (inside List.mem_cons_self) held c component)
      obtain ⟨k, inRest, inOps⟩ := List.mem_flatMap.mp inOps
      rcases List.mem_append.mp inOps with link | sync
      · obtain ⟨d, -, rfl⟩ := List.mem_map.mp link
        have number := (snapshotInjective.mp (List.mem_singleton.mp touched)).1
        exact again (number ▸ inRest)
      · rw [List.mem_singleton.mp sync] at touched
        cases touched

end Links

section Losses
variable {crc : Crc32} {codec : Codec SnapshotMetadata} {name : String} {runs : List Nat}
  {metadata : SnapshotMetadata} {bytes : List UInt8} {files : Nat → Component → List UInt8} {v w found : Volume}

theorem ownNames (n : Nat) (c : Component) : snapshotPlace name n c ≠ metadataPlace name ∧
    snapshotPlace name n c ≠ metadataTemporary name ∧ snapshotPlace name n c ≠ checksumPlace name := by
  obtain ⟨metadata, temporary, checksum⟩ := fileNameOther n c
  exact ⟨fun same => metadata (Prod.mk.inj same).2, fun same => temporary (Prod.mk.inj same).2,
    fun same => checksum (Prod.mk.inj same).2⟩

theorem linksQuiet {op : Op} (member : op ∈ runs.flatMap (linkRunOps name)) : metadataPlace name ∉ op.touches := by
  obtain ⟨n, -, inside⟩ := List.mem_flatMap.mp member
  rcases List.mem_append.mp inside with link | sync
  · obtain ⟨c, -, rfl⟩ := List.mem_map.mp link
    intro touched
    exact (ownNames n c).1 (List.mem_singleton.mp touched).symm
  · rw [List.mem_singleton.mp sync]
    exact List.not_mem_nil

theorem metadataApart : metadataTemporary name ≠ metadataPlace name := by
  intro same
  exact absurd (Prod.mk.inj same).2 (by decide)

theorem metadataAside {op : Op} (member : op ∈ atomicOps (metadataTemporary name) (metadataPlace name)
      (.snapshot name .metadata) [bytes] ++ checksumOps crc name bytes) :
    Aside name op ∧ ∀ n c, snapshotPlace name n c ∉ op.touches := by
  have metadata : ∀ n c, snapshotPlace name n c ≠ metadataPlace name := fun n c => (ownNames n c).1
  have temporary : ∀ n c, snapshotPlace name n c ≠ metadataTemporary name := fun n c => (ownNames n c).2.1
  have checksum : ∀ n c, snapshotPlace name n c ≠ checksumPlace name := fun n c => (ownNames n c).2.2
  have own : (metadataTemporary name).1 = .snapshot name ∧ (metadataPlace name).1 = .snapshot name ∧
      (checksumPlace name).1 = .snapshot name := ⟨rfl, rfl, rfl⟩
  simp only [atomicOps, checksumOps, List.map_cons, List.map_nil, List.mem_append, List.mem_cons, List.not_mem_nil,
    or_false] at member
  rcases member with ((rfl | rfl | rfl) | rfl | rfl) | rfl | rfl | rfl <;>
    simp [Aside, Op.touches, Op.writes, metadata, temporary, checksum, own]

structure Taken (name : String) (runs : List Nat) (files : Nat → Component → List UInt8) (bytes : List UInt8)
    (v : Volume) : Prop where
  metadata : v.Sealed (.snapshot name .metadata) bytes
  named : v.Only (metadataPlace name) (fun e => e = none ∨ e = some (.snapshot name .metadata))
  linked : LinkedAll name runs v
  held : Held runs files v

theorem takenLeaves {ops : List Op} (filling : Filling crc codec name runs metadata ops)
    (serialized : codec.serialize metadata = .ok bytes)
    (run : Runs (takenPaths name runs) (takenFiles name runs) ops v w)
    (fresh : ∀ p : Place, p.1 = .snapshot name → v.Only p (fun e => e = none)) (held : Held runs files v) :
    w.Only (metadataPlace name) (fun e => e = none) ∨ Taken name runs files bytes w := by
  have start := fresh (metadataPlace name) rfl
  have inside : ∀ p : Place, p.1 = .snapshot name → p ∈ takenPaths name runs := fun p own => Or.inl own
  cases filling with
  | @dropped done bytes' serialized' reached =>
    refine Or.inl (run.untouched (inside _ rfl) (fun op member touched => ?_) start)
    rcases List.mem_append.mp member with link | later
    · exact linksQuiet link touched
    · rcases List.mem_append.mp later with creation | last
      · exact metadataApart ((creationQuiet (reached.subset creation)).1 _ touched).symm
      · rw [List.mem_singleton.mp last] at touched
        exact metadataApart (List.mem_singleton.mp touched).symm
  | stopped reached =>
    simp only [fillOps, serialized] at reached
    rcases prefixCases reached with early | ⟨more, later, rfl⟩
    · exact Or.inl (run.untouched (inside _ rfl) (fun op member => linksQuiet (early.subset member)) start)
    · obtain ⟨u, links, rest⟩ := run.split
      have unnamed := links.untouched (inside _ rfl) (fun op member => linksQuiet member) start
      have aside : ∀ op ∈ more, Aside name op ∧ ∀ n c, snapshotPlace name n c ∉ op.touches :=
        fun op member => metadataAside (later.subset member)
      have linkedAll := linksDurable links (List.Subset.refl runs) held
      have linked : LinkedAll name runs w := fun n member c component =>
        rest.untouched (inside _ rfl) (fun op inOps => (aside op inOps).2 n c) (linkedAll n member c component)
      have stays : Held runs files w := (held.kept links linksAside).kept rest (fun op member => (aside op member).1)
      rcases prefixCases later with early | ⟨more', tail, rfl⟩
      · rcases atomicLeaves early metadataApart rest (inside _ rfl) (inside _ rfl) (Or.inl ⟨_, rfl⟩) unnamed with
          ⟨only, -⟩ | ⟨named, closed, -⟩
        · exact Or.inl only
        · exact Or.inr ⟨by simpa using closed, named, linked, stays⟩
      · obtain ⟨x, written, last⟩ := rest.split
        rcases atomicLeaves List.prefix_rfl metadataApart written (inside _ rfl) (inside _ rfl) (Or.inl ⟨_, rfl⟩)
          unnamed with ⟨-, cut⟩ | ⟨named, closed, -⟩
        · exact absurd rfl cut
        · refine Or.inr ⟨?_, ?_, linked, stays⟩
          · rw [List.flatten_singleton] at closed
            refine last.unwritten (Or.inl ⟨_, rfl⟩) (fun op member written => ?_) closed
            have inTail := tail.subset member
            simp only [checksumOps, List.mem_cons, List.not_mem_nil, or_false] at inTail
            rcases inTail with rfl | rfl | rfl <;> simp [Op.writes] at written
          · refine last.untouched (inside _ rfl) (fun op member touched => ?_) named
            have inTail := tail.subset member
            simp only [checksumOps, List.mem_cons, List.not_mem_nil, or_false] at inTail
            have apart : metadataPlace name ≠ checksumPlace name := fun same =>
              absurd (Prod.mk.inj same).2 (by decide)
            rcases inTail with rfl | rfl | rfl <;> simp [Op.touches, apart] at touched

theorem takenDurable (serialized : codec.serialize metadata = .ok bytes)
    (run : Runs (takenPaths name runs) (takenFiles name runs) (fillOps crc codec name runs metadata) v w)
    (fresh : ∀ p : Place, p.1 = .snapshot name → v.Only p (fun e => e = none)) :
    w.Only (metadataPlace name) (fun e => e = some (.snapshot name .metadata)) ∧
      w.Only (checksumPlace name) (fun e => e = some (.snapshot name .metadataChecksum)) := by
  have inside : ∀ p : Place, p.1 = .snapshot name → p ∈ takenPaths name runs := fun p own => Or.inl own
  simp only [fillOps, serialized] at run
  obtain ⟨u, links, rest⟩ := run.split
  obtain ⟨x, written, last⟩ := rest.split
  have unnamed := links.untouched (inside (metadataPlace name) rfl) (fun op member => linksQuiet member)
    (fresh (metadataPlace name) rfl)
  have named : x.Only (metadataPlace name) (fun e => e = some (.snapshot name .metadata)) := by
    rcases atomicLeaves List.prefix_rfl metadataApart written (inside _ rfl) (inside _ rfl) (Or.inl ⟨_, rfl⟩)
      unnamed with ⟨-, cut⟩ | ⟨-, -, done⟩
    · exact absurd rfl cut
    · exact done rfl
  have apart : metadataPlace name ≠ checksumPlace name := fun same => absurd (Prod.mk.inj same).2 (by decide)
  refine ⟨last.untouched (inside _ rfl) (fun op member touched => ?_) named, ?_⟩
  · simp only [checksumOps, List.mem_cons, List.not_mem_nil, or_false] at member
    rcases member with rfl | rfl | rfl <;> simp [Op.touches, apart] at touched
  · obtain ⟨y, y', rely, applied, later⟩ := last.head
    obtain ⟨entry, -, -⟩ := Volume.applyCreate applied
    rw [← List.singleton_append] at later
    obtain ⟨z, append, sync⟩ := later.split
    have kept := append.untouchedEntry (inside (checksumPlace name) rfl) (fun op member touched => by
      rw [List.mem_singleton.mp member] at touched
      cases touched)
    obtain ⟨a, a', rely', applied', idle⟩ := sync.head
    obtain ⟨-, durable⟩ := Volume.applySyncDir (p := checksumPlace name) applied' rfl
    rw [(rely'.entries _ (inside _ rfl)).1, kept, entry] at durable
    exact durable.rely (inside _ rfl) idle.idle

theorem loadFilesOk {label : Name} {read : Option (List UInt8)} {checksum : Option (List UInt8)}
    {loaded : SnapshotMetadata} (ok : loadFiles crc codec label read checksum = .ok loaded) :
    ∃ bytes, read = some bytes ∧ codec.deserialize bytes = .ok loaded := by
  unfold loadFiles at ok
  split at ok
  · cases ok
  · rename_i bytes
    split at ok
    · cases ok
    · split at ok
      · cases ok
      · split at ok
        · cases ok
        · split at ok
          · cases ok
          · rename_i decoded
            cases ok
            exact ⟨bytes, rfl, decoded⟩

theorem loadWritten {label : Name} {loaded : SnapshotMetadata} (decoded : codec.deserialize bytes = .ok loaded) :
    loadFiles crc codec label (some bytes) (some (utf8 (toHex (crc.ofChunks [bytes])))) = .ok loaded := by
  simp only [loadFiles, utf8, Option.bind_some, readText, trimHex, fromToHex, ne_eq, not_true_eq_false, if_false,
    decoded]

theorem fillingAside {ops : List Op} (filling : Filling crc codec name runs metadata ops)
    (serialized : codec.serialize metadata = .ok bytes) : ∀ op ∈ ops, Aside name op := by
  intro op member
  cases filling with
  | stopped reached =>
    simp only [fillOps, serialized] at reached
    rcases List.mem_append.mp (reached.subset member) with link | later
    · exact linksAside op link
    · exact (metadataAside later).1
  | @dropped done bytes' serialized' reached =>
    rcases List.mem_append.mp member with link | later
    · exact linksAside op link
    · rcases List.mem_append.mp later with creation | last
      · obtain ⟨touches, writes⟩ := creationQuiet (reached.subset creation)
        exact ⟨fun p touched => by rw [touches p touched]; rfl, fun i written => ⟨_, writes i written⟩⟩
      · rw [List.mem_singleton.mp last]
        exact ⟨fun p touched => by rw [List.mem_singleton.mp touched]; rfl, fun i written => absurd written List.not_mem_nil⟩

theorem filledFinds {ops : List Op} (filling : Filling crc codec name runs metadata ops)
    (run : Runs (takenPaths name runs) (takenFiles name runs) ops v w)
    (fresh : ∀ p : Place, p.1 = .snapshot name → v.Only p (fun e => e = none)) (held : Held runs files v)
    (survives : w.Survives found) (serialized : codec.serialize metadata = .ok bytes)
    (decoded : codec.deserialize bytes = .ok metadata) (label : Name) :
    (∀ loaded, loadFiles crc codec label (found.read (metadataPlace name)) (found.read (checksumPlace name)) = .ok loaded →
      loaded = metadata ∧ ∀ n ∈ runs, ∀ c ∈ components, found.read (snapshotPlace name n c) = some (files n c)) ∧
    (ops = fillOps crc codec name runs metadata →
      (∀ n ∈ runs, ∀ c ∈ components, found.read (snapshotPlace name n c) = some (files n c)) ∧
      found.read (metadataPlace name) = some bytes ∧ ∃ text, found.read (checksumPlace name) = some text ∧
        (text = utf8 (toHex (crc.ofChunks [bytes])) →
          loadFiles crc codec label (found.read (metadataPlace name)) (found.read (checksumPlace name)) =
            .ok metadata)) := by
  have whole : Taken name runs files bytes w →
      ∀ n ∈ runs, ∀ c ∈ components, found.read (snapshotPlace name n c) = some (files n c) := by
    intro taken n member c component
    rw [Volume.read, survives.path (taken.linked n member c component), Option.map_some,
      survives.file (taken.held.whole n member c component)]
  have metadataRead : Taken name runs files bytes w →
      found.entry (metadataPlace name) = some (.snapshot name .metadata) →
      found.read (metadataPlace name) = some bytes := by
    intro taken entry
    rw [Volume.read, entry, Option.map_some, survives.file taken.metadata]
  have leaves := takenLeaves filling serialized run fresh held
  refine ⟨fun loaded ok => ?_, fun all => ?_⟩
  · obtain ⟨read, there, decodes⟩ := loadFilesOk ok
    rcases leaves with unnamed | taken
    · rw [Volume.read, survives.path unnamed] at there
      cases there
    · rcases survives.path taken.named with none | entry
      · rw [Volume.read, none] at there
        cases there
      · rw [metadataRead taken entry] at there
        cases there
        cases decodes.symm.trans decoded
        exact ⟨rfl, whole taken⟩
  · subst all
    obtain ⟨metadataThere, checksumThere⟩ := takenDurable serialized run fresh
    rcases leaves with unnamed | taken
    · have absent := survives.path unnamed
      rw [survives.path metadataThere] at absent
      cases absent
    · have read := metadataRead taken (survives.path metadataThere)
      refine ⟨whole taken, read, found.content (.snapshot name .metadataChecksum), ?_, fun intact => ?_⟩
      · rw [Volume.read, survives.path checksumThere, Option.map_some]
      · rw [read, Volume.read, survives.path checksumThere, Option.map_some, intact]
        exact loadWritten decoded

theorem directoryMade {ops : List Op} (run : Runs (takenPaths name runs) (takenFiles name runs) (directoryOp name :: ops) v w)
    (fresh : ∀ p : Place, p.1 = .snapshot name ∨ p = directoryPlace name → v.Only p (fun e => e = none))
    (held : Held runs files v) :
    ∃ u, Runs (takenPaths name runs) (takenFiles name runs) ops u w ∧
      (∀ p : Place, p.1 = .snapshot name → u.Only p (fun e => e = none)) ∧ Held runs files u ∧
        u.Only (directoryPlace name) (fun e => e = none ∨ e = some (.directory name)) := by
  rw [← List.singleton_append] at run
  obtain ⟨u, first, later⟩ := run.split
  have inside : directoryPlace name ∈ takenPaths name runs := Or.inr (Or.inl rfl)
  have apart : ∀ p : Place, p.1 ≠ .snapshots → ∀ op ∈ [directoryOp name], p ∉ op.touches := by
    intro p other op member touched
    rw [List.mem_singleton.mp member] at touched
    rw [List.mem_singleton.mp touched] at other
    exact other rfl
  refine ⟨u, later, fun p own => ?_, ⟨fun n member c component => ?_, fun n member c component => ?_⟩, ?_⟩
  · exact first.untouched (Or.inl own) (apart p (by simp [own])) (fresh p (Or.inl own))
  · rw [first.untouchedEntry (Or.inr (Or.inr ⟨n, member, c, rfl⟩)) (apart (place n c) (by simp [place])),
      held.named n member c component]
  · refine first.unwritten (Or.inr ⟨n, member, c, rfl⟩) (fun op inOps written => ?_) (held.whole n member c component)
    rw [List.mem_singleton.mp inOps] at written
    cases List.mem_singleton.mp written
  · obtain ⟨x, x', rely, applied, idle⟩ := first.head
    obtain ⟨-, -, only⟩ := Volume.applyCreate (Volume.applyCreateNew applied)
    have unmade : x.Only (directoryPlace name) (fun e => e = none) := (fresh _ (Or.inr rfl)).rely inside rely
    have made := only (fun e => e = none ∨ e = some (.directory name))
      (unmade.weaken (fun _ none => Or.inl none)) (Or.inr rfl)
    exact made.rely inside idle.idle

/-- A snapshot that loads after a loss of power is the one that was taken, with every file
of its runs. Once `create` has returned its directory may still be gone; if it is not, only
the checksum file may be damaged, and as long as it holds what was written the snapshot loads. -/
theorem powerLossKeepsSnapshots {ops : List Op} (taking : Taking crc codec name runs metadata ops)
    (run : Runs (takenPaths name runs) (takenFiles name runs) ops v w)
    (fresh : ∀ p : Place, p.1 = .snapshot name ∨ p = directoryPlace name → v.Only p (fun e => e = none))
    (held : Held runs files v) (survives : w.Survives found) (serialized : codec.serialize metadata = .ok bytes)
    (decoded : codec.deserialize bytes = .ok metadata) :
    (∀ loaded, loadFound crc codec name found = .ok loaded → loaded = metadata ∧
      ∀ n ∈ runs, ∀ c ∈ components, readUnder found name (snapshotPlace name n c) = some (files n c)) ∧
    (ops = snapshotOps crc codec name runs metadata →
      found.entry (directoryPlace name) = none ∨
      found.entry (directoryPlace name) = some (.directory name) ∧
        (∀ n ∈ runs, ∀ c ∈ components, readUnder found name (snapshotPlace name n c) = some (files n c)) ∧
        readUnder found name (metadataPlace name) = some bytes ∧
        ∃ text, readUnder found name (checksumPlace name) = some text ∧
          (text = utf8 (toHex (crc.ofChunks [bytes])) → loadFound crc codec name found = .ok metadata)) := by
  have inside : directoryPlace name ∈ takenPaths name runs := Or.inr (Or.inl rfl)
  cases taking with
  | before =>
    have absent : found.entry (directoryPlace name) = none :=
      survives.path ((fresh _ (Or.inr rfl)).rely inside run.idle)
    refine ⟨fun loaded ok => ?_, fun _ => Or.inl absent⟩
    rw [loadFound, if_pos absent] at ok
    cases ok
  | @made done filling =>
    obtain ⟨u, rest, unfilled, heldThen, made⟩ := directoryMade run fresh held
    have aside := fillingAside filling serialized
    have directory := survives.path (rest.untouched inside (fun op member touched => by
      cases (aside op member).1 _ touched) made)
    by_cases absent : found.entry (directoryPlace name) = none
    · refine ⟨fun loaded ok => ?_, fun _ => Or.inl absent⟩
      rw [loadFound, if_pos absent] at ok
      cases ok
    · have below : ∀ p, readUnder found name p = found.read p := fun p => if_neg absent
      have loads : loadFound crc codec name found =
          loadFiles crc codec name.toList (found.read (metadataPlace name)) (found.read (checksumPlace name)) := by
        rw [loadFound, if_neg absent, below, below]
      simp only [below, loads]
      obtain ⟨safe, complete⟩ := filledFinds filling rest unfilled heldThen survives serialized decoded name.toList
      refine ⟨safe, fun all => Or.inr ⟨directory.resolve_left absent, complete (List.cons.inj all).2⟩⟩

end Losses

def oneRun : List Op := writerOps crates 1 twoEntries

def oneSnapshot : List Op := snapshotOps crc32 (ciborium savedMetadata) "s" [1] savedMetadata

theorem oneExecutes : (execute oneRun emptyVolume).bind (fun v => (execute oneSnapshot v).map (fun w =>
    (decide (none ∈ w.past (directoryPlace "s")), w.synced (.snapshot "s" .metadataChecksum),
      w.entry (directoryPlace "s")))) = some (true, false, some (.directory "s")) ∧
    ∀ c ∈ components, ((execute oneRun emptyVolume).map (fun v => (v.entry (place 1 c), v.synced (.run 1 c)))) =
      some (some (.run 1 c), true) := by decide +kernel

theorem powerLossKeepsSnapshotsOne : ∃ v w : Volume, execute oneRun emptyVolume = some v ∧
    execute oneSnapshot v = some w ∧
    (∀ c ∈ components, readUnder (w.garble (.snapshot "s" .metadataChecksum) [255]) "s" (snapshotPlace "s" 1 c) =
      some (v.content (.run 1 c))) ∧
    ∀ loaded, loadFound crc32 (ciborium savedMetadata) "s"
      ((w.garble (.snapshot "s" .metadataChecksum) [255]).lose (directoryPlace "s") none) = .ok loaded →
        loaded = savedMetadata := by
  obtain ⟨both, sources⟩ := oneExecutes
  obtain ⟨v, first, both⟩ := Option.bind_eq_some_iff.mp both
  obtain ⟨w, second, both⟩ := Option.map_eq_some_iff.mp both
  simp only [Prod.mk.injEq, decide_eq_true_eq] at both
  obtain ⟨unmade, garbled, there⟩ := both
  have held : Held [1] (fun n c => v.content (.run n c)) v := by
    simp only [first, Option.map_some, Option.some.injEq, Prod.mk.injEq] at sources
    refine ⟨fun n member c component => ?_, fun n member c component => ?_⟩
    · rw [List.mem_singleton.mp member]
      exact (sources c component).1
    · rw [List.mem_singleton.mp member]
      exact ⟨rfl, (sources c component).2⟩
  have fresh : ∀ p : Place, p.1 = .snapshot "s" ∨ p = directoryPlace "s" → v.Only p (fun e => e = none) := by
    intro p own
    refine (Runs.executed Set.univ Set.univ first).untouched (Set.mem_univ p) (fun op member touched => ?_)
      (fun e may => may.resolve_right List.not_mem_nil)
    rcases (writerConfined member).1 p touched with ⟨c, rfl⟩ | rfl <;>
      (rcases own with own | own <;> cases own)
  have survives := (Volume.Survives.refl w).garble garbled [255]
  obtain ⟨-, done⟩ := powerLossKeepsSnapshots (.made (.stopped List.prefix_rfl)) (Runs.executed _ _ second) fresh held
    survives rfl (ciboriumReads savedMetadata)
  obtain ⟨loads, -⟩ := powerLossKeepsSnapshots (.made (.stopped List.prefix_rfl)) (Runs.executed _ _ second) fresh held
    (survives.lose (Or.inr unmade)) rfl (ciboriumReads savedMetadata)
  refine ⟨v, w, first, second, ?_, fun loaded ok => (loads loaded ok).1⟩
  rcases done rfl with none | ⟨-, links, -⟩
  · cases there.symm.trans none
  · exact links 1 (List.mem_singleton_self 1)

end CardanoLsm.PowerCuts
