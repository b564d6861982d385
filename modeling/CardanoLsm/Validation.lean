import CardanoLsm.OpenFailures
import CardanoLsm.Creation
import CardanoLsm.Sessions
import CardanoLsm.Format.BitErrors
import CardanoLsm.Format.Backends

/-! `PersistentSnapshot::validate` on the bytes of the files (`snapshot.rs`), beside what
`open_snapshot` asks of the same files after it has linked them. -/
namespace CardanoLsm.Validation
open Format
open SnapshotFiles (components readToString)

abbrev Contents := Component → Option (List UInt8)

def filesOf (contents : Contents) (text : Text) : Files :=
  ⟨contents .keyops, contents .blobs, contents .filter, contents .index, (contents .checksums).map (fun _ => text)⟩

def withText {α : Type} (contents : Contents) (use : Files → Except FormatError α) : Except FormatError α :=
  let text := (contents .checksums).bind readToString
  if components.all (fun c => (contents c).isSome) && text.isNone then
    .error (.invalidData "stream did not contain valid UTF-8")
  else use (filesOf contents (text.getD []))

def validateFile (crc : Crc32) (name dir : String) (n : Nat) (checksums : ChecksumsFile) (c : Component)
    (contents : List UInt8) : Except FormatError Unit :=
  match getChecksum checksums (extensionOf c).toList with
  | .error e => .error (.corruption ("Snapshot '" ++ name ++ "' run " ++ toString n ++ ": " ++ e))
  | .ok expected =>
    match checkCrc crc (componentPath dir n (extensionOf c)) contents expected with
    | .error (.invalidData e) => .error (.corruption ("Snapshot '" ++ name ++ "' run " ++ toString n ++ " " ++
        extensionOf c ++ " checksum failed: " ++ e))
    | checked => checked

def validateRun (crc : Crc32) (name dir : String) (n : Nat) (files : Files) : Except FormatError Unit :=
  match files with
  | ⟨some keyops, some blobs, some filter, some index, some text⟩ =>
    match parseChecksumsFile text with
    | .error e => .error (.invalidData e)
    | .ok checksums => do
      validateFile crc name dir n checksums .keyops keyops
      validateFile crc name dir n checksums .blobs blobs
      validateFile crc name dir n checksums .filter filter
      validateFile crc name dir n checksums .index index
  | _ => .error (.corruption ("Snapshot '" ++ name ++ "' is corrupted - missing SSTable files for run " ++
      toString n ++ ":\n  " ++ "\n  ".intercalate (missingFiles dir n files)))

def validate (crc : Crc32) (name dir : String) (source : RunDirectory (List UInt8)) :
    List SnapshotRun → Except FormatError Unit
  | [] => .ok ()
  | run :: rest => do
    withText (source.file run.runNumber) (validateRun crc name dir run.runNumber)
    validate crc name dir source rest

def openRun (crates : Crates) (dir : String) (n : Nat) (contents : Contents) :
    Except FormatError Format.SsTableHandle :=
  withText contents (fun files => open_ crates dir n (fun _ => files))

def verified (crates : Crates) (decoded : Contents → Run) (contents : Contents) : Option Run :=
  if (openRun crates "active" 0 contents).toBool then some (decoded contents) else none

structure Intact (crc : Crc32) (contents : Contents) (checksums : ChecksumsFile) : Prop where
  text : ∃ bytes text, contents .checksums = some bytes ∧ readToString bytes = some text ∧
    parseChecksumsFile text = .ok checksums
  listed : ∀ c ∈ checkedFiles, ∃ data, contents c = some data ∧
    getChecksum checksums (extensionOf c).toList = .ok (crc.readFileCrc32c data)

def Decodes (crates : Crates) (contents : Contents) : Prop :=
  ∃ filterBytes filter indexBytes index, contents .filter = some filterBytes ∧
    crates.filterCodec.deserialize filterBytes = .ok filter ∧ contents .index = some indexBytes ∧
    crates.indexCodec.deserialize indexBytes = .ok index ∧ index.keys ≠ []

def Keyless (crates : Crates) (contents : Contents) : Prop :=
  ∃ filterBytes filter indexBytes index, contents .filter = some filterBytes ∧
    crates.filterCodec.deserialize filterBytes = .ok filter ∧ contents .index = some indexBytes ∧
    crates.indexCodec.deserialize indexBytes = .ok index ∧ index.keys = []

def PastChecks {α : Type} (r : Except FormatError α) : Prop := r = .error .unwrapNone ∨ ∃ a, r = .ok a

section Runs
variable {crc : Crc32} {crates : Crates} {name dir : String} {n : Nat} {contents : Contents}

theorem checksumsFileName : (extensionOf .keyops).toList = ChecksumsFile.keyops ∧
    (extensionOf .blobs).toList = ChecksumsFile.blobs ∧ (extensionOf .filter).toList = ChecksumsFile.filter ∧
    (extensionOf .index).toList = ChecksumsFile.index := by decide

theorem validateFileOk {checksums : ChecksumsFile} {c : Component} {data : List UInt8} :
    validateFile crc name dir n checksums c data = .ok () ↔
      getChecksum checksums (extensionOf c).toList = .ok (crc.readFileCrc32c data) := by
  unfold validateFile checkCrc
  cases listed : getChecksum checksums (extensionOf c).toList with
  | error e => simp
  | ok expected =>
    by_cases same : crc.readFileCrc32c data = expected
    · simp [same]
    · simp [same, Ne.symm same]

theorem verifyOkIff {path : String} {c : Component} {checksums : ChecksumsFile} {listedAs : Text}
    {file : Option (List UInt8)} : verify crc path c checksums listedAs file = .ok () ↔
      ∃ data, file = some data ∧ getChecksum checksums listedAs = .ok (crc.readFileCrc32c data) := by
  constructor
  · intro ok
    obtain ⟨expected, listed, ok⟩ := bindOk ok
    obtain ⟨data, there, ok⟩ := bindOk ok
    have held : file = some data := by
      cases file with
      | none => cases there
      | some data' =>
        cases there
        rfl
    refine ⟨data, held, ?_⟩
    unfold expectedChecksum at listed
    split at listed
    · rename_i expected' found
      cases listed
      rw [found]
      unfold checkCrc at ok
      dsimp only at ok
      split at ok
      · cases ok
      · rename_i same
        rw [not_not.mp same]
    · cases listed
  · rintro ⟨data, rfl, listed⟩
    exact verifyOk crc path c listed

structure Whole (contents : Contents) (keyops blobs filter index bytes : List UInt8) : Prop where
  keyops : contents .keyops = some keyops
  blobs : contents .blobs = some blobs
  filter : contents .filter = some filter
  index : contents .index = some index
  checksums : contents .checksums = some bytes

theorem withTextIff {α : Type} {use : Files → Except FormatError α} {r : Except FormatError α} (past : PastChecks r)
    (refuses : ∀ files, (∀ keyops blobs filter index text,
      files ≠ ⟨some keyops, some blobs, some filter, some index, some text⟩) → use files ≠ r) :
    withText contents use = r ↔ ∃ keyops blobs filter index bytes text,
      Whole contents keyops blobs filter index bytes ∧ readToString bytes = some text ∧
        use ⟨some keyops, some blobs, some filter, some index, some text⟩ = r := by
  constructor
  · intro ok
    unfold withText at ok
    dsimp only at ok
    split at ok
    · rcases past with rfl | ⟨a, rfl⟩ <;> cases ok
    · rename_i readable
      by_contra none
      refine refuses _ (fun keyops blobs filter index text same => none ?_) ok
      have same' := same
      simp only [filesOf, Files.mk.injEq, Option.map_eq_some_iff, exists_and_right] at same'
      obtain ⟨hasKeyops, hasBlobs, hasFilter, hasIndex, ⟨bytes, hasChecksums⟩, -⟩ := same'
      have read : ∃ text', readToString bytes = some text' := by
        have complete : components.all (fun c => (contents c).isSome) = true := by
          simp [components, hasKeyops, hasBlobs, hasFilter, hasIndex, hasChecksums]
        simpa [complete, hasChecksums, Option.ne_none_iff_exists'] using readable
      obtain ⟨text', read⟩ := read
      refine ⟨keyops, blobs, filter, index, bytes, text',
        ⟨hasKeyops, hasBlobs, hasFilter, hasIndex, hasChecksums⟩, read, ?_⟩
      simpa [filesOf, hasKeyops, hasBlobs, hasFilter, hasIndex, hasChecksums, read] using ok
  · rintro ⟨keyops, blobs, filter, index, bytes, text, whole, read, ok⟩
    simpa [withText, filesOf, whole.keyops, whole.blobs, whole.filter, whole.index, whole.checksums, read] using ok

theorem intactIff {checksums : ChecksumsFile} {keyops blobs filter index bytes : List UInt8} {text : Text}
    (whole : Whole contents keyops blobs filter index bytes) (read : readToString bytes = some text) :
    Intact crc contents checksums ↔ parseChecksumsFile text = .ok checksums ∧
      getChecksum checksums ChecksumsFile.keyops = .ok (crc.readFileCrc32c keyops) ∧
      getChecksum checksums ChecksumsFile.blobs = .ok (crc.readFileCrc32c blobs) ∧
      getChecksum checksums ChecksumsFile.filter = .ok (crc.readFileCrc32c filter) ∧
      getChecksum checksums ChecksumsFile.index = .ok (crc.readFileCrc32c index) := by
  obtain ⟨keyopsName, blobsName, filterName, indexName⟩ := checksumsFileName
  constructor
  · intro intact
    obtain ⟨bytes', text', there, read', parsed⟩ := intact.text
    rw [whole.checksums] at there
    cases there
    rw [read] at read'
    cases read'
    have listed : ∀ c ∈ checkedFiles, ∀ data, contents c = some data →
        getChecksum checksums (extensionOf c).toList = .ok (crc.readFileCrc32c data) := by
      intro c member data held
      obtain ⟨data', held', found⟩ := intact.listed c member
      rw [held] at held'
      cases held'
      exact found
    rw [← keyopsName, ← blobsName, ← filterName, ← indexName]
    exact ⟨parsed, listed .keyops (by decide) _ whole.keyops, listed .blobs (by decide) _ whole.blobs,
      listed .filter (by decide) _ whole.filter, listed .index (by decide) _ whole.index⟩
  · rintro ⟨parsed, keyopsListed, blobsListed, filterListed, indexListed⟩
    refine ⟨⟨bytes, text, whole.checksums, read, parsed⟩, fun c member => ?_⟩
    simp only [checkedFiles, List.mem_cons, List.not_mem_nil, or_false] at member
    rcases member with rfl | rfl | rfl | rfl
    · exact ⟨keyops, whole.keyops, keyopsName ▸ keyopsListed⟩
    · exact ⟨blobs, whole.blobs, blobsName ▸ blobsListed⟩
    · exact ⟨filter, whole.filter, filterName ▸ filterListed⟩
    · exact ⟨index, whole.index, indexName ▸ indexListed⟩

theorem Intact.whole {checksums : ChecksumsFile} (intact : Intact crc contents checksums) :
    ∃ keyops blobs filter index bytes text, Whole contents keyops blobs filter index bytes ∧
      readToString bytes = some text := by
  obtain ⟨bytes, text, there, read, -⟩ := intact.text
  obtain ⟨keyops, hasKeyops, -⟩ := intact.listed .keyops (by decide)
  obtain ⟨blobs, hasBlobs, -⟩ := intact.listed .blobs (by decide)
  obtain ⟨filter, hasFilter, -⟩ := intact.listed .filter (by decide)
  obtain ⟨index, hasIndex, -⟩ := intact.listed .index (by decide)
  exact ⟨keyops, blobs, filter, index, bytes, text, ⟨hasKeyops, hasBlobs, hasFilter, hasIndex, there⟩, read⟩

theorem validateRunOk (crc : Crc32) (name dir : String) (n : Nat) :
    withText contents (validateRun crc name dir n) = .ok () ↔
    ∃ checksums, Intact crc contents checksums := by
  obtain ⟨keyopsName, blobsName, filterName, indexName⟩ := checksumsFileName
  rw [withTextIff (Or.inr ⟨(), rfl⟩)]
  · constructor
    · rintro ⟨keyops, blobs, filter, index, bytes, text, whole, read, ok⟩
      unfold validateRun at ok
      dsimp only at ok
      split at ok
      · cases ok
      · rename_i checksums parsed
        obtain ⟨_, keyopsOk, ok⟩ := bindOk ok
        obtain ⟨_, blobsOk, ok⟩ := bindOk ok
        obtain ⟨_, filterOk, indexOk⟩ := bindOk ok
        refine ⟨checksums, (intactIff whole read).mpr ⟨parsed, ?_, ?_, ?_, ?_⟩⟩
        · exact keyopsName ▸ validateFileOk.mp keyopsOk
        · exact blobsName ▸ validateFileOk.mp blobsOk
        · exact filterName ▸ validateFileOk.mp filterOk
        · exact indexName ▸ validateFileOk.mp indexOk
    · rintro ⟨checksums, intact⟩
      obtain ⟨keyops, blobs, filter, index, bytes, text, whole, read⟩ := intact.whole
      obtain ⟨parsed, keyopsListed, blobsListed, filterListed, indexListed⟩ := (intactIff whole read).mp intact
      refine ⟨keyops, blobs, filter, index, bytes, text, whole, read, ?_⟩
      rw [← keyopsName] at keyopsListed
      rw [← blobsName] at blobsListed
      rw [← filterName] at filterListed
      rw [← indexName] at indexListed
      simp only [validateRun, parsed, validateFileOk.mpr keyopsListed, validateFileOk.mpr blobsListed,
        validateFileOk.mpr filterListed, validateFileOk.mpr indexListed, bind, Except.bind]
  · intro files partly
    unfold validateRun
    split
    · rename_i keyops blobs filter index text
      exact absurd rfl (partly keyops blobs filter index text)
    · intro ok
      cases ok

section Open
variable {r : Except FormatError Format.SsTableHandle}

theorem openRefuses {files : Files} (partly : ∀ keyops blobs filter index text,
    files ≠ ⟨some keyops, some blobs, some filter, some index, some text⟩) (past : PastChecks r) :
    open_ crates dir n (fun _ => files) ≠ r := by
  have missing : missingFiles dir n files ≠ [] := by
    intro none
    obtain ⟨keyops, blobs, filter, index, checksums⟩ := files
    simp only [missingFiles, List.append_eq_nil_iff, ite_eq_right_iff, List.cons_ne_nil, imp_false,
      Option.isNone_iff_eq_none, Option.ne_none_iff_exists'] at none
    obtain ⟨⟨⟨⟨⟨_, rfl⟩, _, rfl⟩, _, rfl⟩, _, rfl⟩, _, rfl⟩ := none
    exact partly _ _ _ _ _ rfl
  intro ok
  simp only [open_, ne_eq, missing, not_false_eq_true, if_true, bind, Except.bind, throw, throwThe,
    MonadExceptOf.throw] at ok
  rcases past with rfl | ⟨h, rfl⟩ <;> cases ok

theorem stepDone {α : Type} {x : Except FormatError α} {f : α → Except FormatError Format.SsTableHandle}
    (past : PastChecks r) (calm : x ≠ .error .unwrapNone) (ends : x >>= f = r) : ∃ a, x = .ok a ∧ f a = r := by
  rcases past with rfl | ⟨h, rfl⟩
  · rcases bindError ends with failed | done
    · exact absurd failed calm
    · exact done
  · exact bindOk ends

theorem verifyCalm (path : String) (c : Component) (checksums : ChecksumsFile) (listedAs : Text) (data : List UInt8) :
    verify crc path c checksums listedAs (some data) ≠ .error .unwrapNone := by
  intro failed
  rcases bindError failed with unlisted | ⟨_, -, failed⟩
  · unfold expectedChecksum at unlisted
    split at unlisted <;> cases unlisted
  · rcases bindError failed with unread | ⟨_, -, mismatch⟩
    · cases unread
    · unfold checkCrc at mismatch
      dsimp only at mismatch
      split at mismatch <;> cases mismatch

theorem deserializedCalm {α : Type} (codec : Codec α) (bytes : List UInt8) :
    deserialized codec bytes ≠ .error .unwrapNone := by
  intro failed
  unfold deserialized at failed
  split at failed <;> cases failed

theorem openWhole {keyops blobs filter index : List UInt8} {text : Text} (past : PastChecks r)
    (ends : open_ crates dir n (fun _ => ⟨some keyops, some blobs, some filter, some index, some text⟩) = r) :
    (∃ checksums, parseChecksumsFile text = .ok checksums ∧
      getChecksum checksums ChecksumsFile.keyops = .ok (crates.crc.readFileCrc32c keyops) ∧
      getChecksum checksums ChecksumsFile.blobs = .ok (crates.crc.readFileCrc32c blobs) ∧
      getChecksum checksums ChecksumsFile.filter = .ok (crates.crc.readFileCrc32c filter) ∧
      getChecksum checksums ChecksumsFile.index = .ok (crates.crc.readFileCrc32c index)) ∧
    ∃ bloomFilter decoded, crates.filterCodec.deserialize filter = .ok bloomFilter ∧
      crates.indexCodec.deserialize index = .ok decoded ∧ (decoded.keys = [] ↔ r = .error .unwrapNone) := by
  have passes : ∀ {c : Component} {path : String} {checksums : ChecksumsFile} {listedAs : Text} {data : List UInt8}
      {u : Unit}, verify crates.crc path c checksums listedAs (some data) = .ok u →
        getChecksum checksums listedAs = .ok (crates.crc.readFileCrc32c data) := by
    intro c path checksums listedAs data u checked
    obtain ⟨data', same, listed⟩ := verifyOkIff.mp checked
    cases same
    exact listed
  have decodes : ∀ {α : Type} {codec : Codec α} {bytes : List UInt8} {a : α}, deserialized codec bytes = .ok a →
      codec.deserialize bytes = .ok a := by
    intro α codec bytes a read
    unfold deserialized at read
    split at read
    · rename_i a' found
      cases read
      exact found
    · cases read
  simp only [open_, missingNone, ne_eq, not_true_eq_false, if_false, readFile] at ends
  obtain ⟨text', same, ends⟩ := stepDone past (by intro h; cases h) ends
  cases same
  split at ends
  · rename_i checksums parsed
    obtain ⟨_, same, ends⟩ := stepDone past (by intro h; cases h) ends
    cases same
    obtain ⟨_, keyopsOk, ends⟩ := stepDone past (verifyCalm _ _ _ _ _) ends
    obtain ⟨_, blobsOk, ends⟩ := stepDone past (verifyCalm _ _ _ _ _) ends
    obtain ⟨_, filterOk, ends⟩ := stepDone past (verifyCalm _ _ _ _ _) ends
    obtain ⟨_, indexOk, ends⟩ := stepDone past (verifyCalm _ _ _ _ _) ends
    obtain ⟨_, same, ends⟩ := stepDone past (by intro h; cases h) ends
    cases same
    obtain ⟨bloomFilter, filterRead, ends⟩ := stepDone past (deserializedCalm _ _) ends
    obtain ⟨_, same, ends⟩ := stepDone past (by intro h; cases h) ends
    cases same
    obtain ⟨decoded, indexRead, ends⟩ := stepDone past (deserializedCalm _ _) ends
    refine ⟨⟨checksums, parsed, passes keyopsOk, passes blobsOk, passes filterOk, passes indexOk⟩, bloomFilter,
      decoded, decodes filterRead, decodes indexRead, ?_⟩
    subst ends
    split
    · rename_i first _
      exact iff_of_false (fun none => by rw [none] at first; cases first) (by intro h; cases h)
    · rename_i some
      refine iff_of_true ?_ rfl
      by_contra keys
      exact some _ _ (List.head?_eq_some_head keys) (List.getLast?_eq_some_getLast keys)
  · obtain ⟨_, failed, -⟩ := stepDone past (by intro h; cases h) ends
    cases failed

theorem openRunWhole (past : PastChecks r) : openRun crates dir n contents = r ↔
    ∃ keyops blobs filter index bytes text, Whole contents keyops blobs filter index bytes ∧
      readToString bytes = some text ∧
        open_ crates dir n (fun _ => ⟨some keyops, some blobs, some filter, some index, some text⟩) = r :=
  withTextIff past (fun _ partly => openRefuses partly past)

theorem openRunNeeds (past : PastChecks r) (ends : openRun crates dir n contents = r) :
    (∃ checksums, Intact crates.crc contents checksums) ∧
      (r = .error .unwrapNone → Keyless crates contents) ∧ (r ≠ .error .unwrapNone → Decodes crates contents) := by
  obtain ⟨keyops, blobs, filter, index, bytes, text, whole, read, ends⟩ := (openRunWhole past).mp ends
  obtain ⟨⟨checksums, listed⟩, bloomFilter, decoded, filterRead, indexRead, keys⟩ := openWhole past ends
  refine ⟨⟨checksums, (intactIff whole read).mpr listed⟩, fun panics => ?_, fun opens => ?_⟩
  · exact ⟨filter, bloomFilter, index, decoded, whole.filter, filterRead, whole.index, indexRead, keys.mpr panics⟩
  · exact ⟨filter, bloomFilter, index, decoded, whole.filter, filterRead, whole.index, indexRead,
      fun none => opens (keys.mp none)⟩

end Open

theorem openRunReads {checksums : ChecksumsFile} (intact : Intact crates.crc contents checksums)
    {filterBytes indexBytes : List UInt8} {bloomFilter : BloomFilter} {decoded : Index}
    (hasFilter : contents .filter = some filterBytes)
    (filterRead : crates.filterCodec.deserialize filterBytes = .ok bloomFilter)
    (hasIndex : contents .index = some indexBytes)
    (indexRead : crates.indexCodec.deserialize indexBytes = .ok decoded) :
    openRun crates dir n contents = if keys : decoded.keys = [] then .error .unwrapNone
      else .ok ⟨n, decoded.keys.head keys, decoded.keys.getLast keys, decoded.keys.length, 0, bloomFilter, decoded⟩ := by
  obtain ⟨keyops, blobs, filter, index, bytes, text, whole, read⟩ := intact.whole
  obtain ⟨parsed, keyopsListed, blobsListed, filterListed, indexListed⟩ := (intactIff whole read).mp intact
  rw [whole.filter] at hasFilter
  rw [whole.index] at hasIndex
  cases hasFilter
  cases hasIndex
  have text : withText contents (fun files => open_ crates dir n (fun _ => files)) =
      open_ crates dir n (fun _ => ⟨some keyops, some blobs, some filterBytes, some indexBytes, some text⟩) := by
    simp [withText, filesOf, whole.keyops, whole.blobs, whole.filter, whole.index, whole.checksums, read]
  rw [openRun, text]
  simp only [open_, missingNone, ne_eq, not_true_eq_false, if_false, bind, Except.bind, pure, Except.pure, readFile,
    parsed, verifyOk _ _ _ keyopsListed, verifyOk _ _ _ blobsListed, verifyOk _ _ _ filterListed,
    verifyOk _ _ _ indexListed, deserialized, filterRead, indexRead]
  by_cases keys : decoded.keys = []
  · rw [dif_pos keys, keys]
    rfl
  · rw [dif_neg keys, List.head?_eq_some_head keys, List.getLast?_eq_some_getLast keys]

theorem openRunOk (crates : Crates) (dir : String) (n : Nat) : (∃ h, openRun crates dir n contents = .ok h) ↔
    (∃ checksums, Intact crates.crc contents checksums) ∧ Decodes crates contents := by
  constructor
  · rintro ⟨h, ok⟩
    obtain ⟨intact, -, decodes⟩ := openRunNeeds (Or.inr ⟨h, rfl⟩) ok
    exact ⟨intact, decodes (by intro h; cases h)⟩
  · rintro ⟨⟨checksums, intact⟩, filterBytes, bloomFilter, indexBytes, decoded, hasFilter, filterRead, hasIndex,
      indexRead, keys⟩
    rw [openRunReads intact hasFilter filterRead hasIndex indexRead, dif_neg keys]
    exact ⟨_, rfl⟩

theorem openRunPanics : openRun crates dir n contents = .error .unwrapNone ↔
    (∃ checksums, Intact crates.crc contents checksums) ∧ Keyless crates contents := by
  constructor
  · intro panics
    obtain ⟨intact, keyless, -⟩ := openRunNeeds (Or.inl rfl) panics
    exact ⟨intact, keyless rfl⟩
  · rintro ⟨⟨checksums, intact⟩, filterBytes, bloomFilter, indexBytes, decoded, hasFilter, filterRead, hasIndex,
      indexRead, keys⟩
    rw [openRunReads intact hasFilter filterRead hasIndex indexRead, dif_pos keys]

theorem openedHandle {h : Format.SsTableHandle} (ok : openRun crates dir n contents = .ok h) :
    h.runNumber = n ∧ h.level = 0 ∧ h.index.keys.head? = some h.minKey ∧
      ∃ bytes, contents .index = some bytes ∧ crates.indexCodec.deserialize bytes = .ok h.index := by
  obtain ⟨⟨checksums, intact⟩, filterBytes, bloomFilter, indexBytes, decoded, hasFilter, filterRead, hasIndex,
    indexRead, keys⟩ := (openRunOk _ _ _).mp ⟨h, ok⟩
  rw [openRunReads intact hasFilter filterRead hasIndex indexRead, dif_neg keys] at ok
  cases ok
  exact ⟨rfl, rfl, List.head?_eq_some_head keys, indexBytes, hasIndex, indexRead⟩

theorem alike (crc : Crc32) (crates : Crates) {other : Contents} (same : ∀ c ∈ components, other c = contents c) :
    ((∃ checksums, Intact crc other checksums) ↔ ∃ checksums, Intact crc contents checksums) ∧
      (Decodes crates other ↔ Decodes crates contents) := by
  have checked : ∀ c ∈ checkedFiles, other c = contents c := fun c member => same c (by
    revert member
    cases c <;> decide)
  constructor
  · refine exists_congr (fun checksums => ⟨fun intact => ?_, fun intact => ?_⟩)
    · refine ⟨same .checksums (by decide) ▸ intact.text, fun c member => ?_⟩
      rw [← checked c member]
      exact intact.listed c member
    · refine ⟨(same .checksums (by decide)).symm ▸ intact.text, fun c member => ?_⟩
      rw [checked c member]
      exact intact.listed c member
  · rw [Decodes, Decodes, same .filter (by decide), same .index (by decide)]

theorem Intact.complete {checksums : ChecksumsFile} (intact : Intact crc contents checksums) {c : Component}
    (member : c ∈ components) : (contents c).isSome = true := by
  obtain ⟨keyops, blobs, filter, index, bytes, text, whole, -⟩ := intact.whole
  simp only [components, List.mem_cons, List.not_mem_nil, or_false] at member
  rcases member with rfl | rfl | rfl | rfl | rfl
  · rw [whole.keyops, Option.isSome_some]
  · rw [whole.blobs, Option.isSome_some]
  · rw [whole.filter, Option.isSome_some]
  · rw [whole.index, Option.isSome_some]
  · rw [whole.checksums, Option.isSome_some]

end Runs

section Snapshots
variable {crc : Crc32} {crates : Crates} {name dir : String} {source : RunDirectory (List UInt8)}
  {decoded : Contents → Run} {runs : List SnapshotRun}

theorem validateOk : validate crc name dir source runs = .ok () ↔
    ∀ run ∈ runs, ∃ checksums, Intact crc (source.file run.runNumber) checksums := by
  induction runs with
  | nil => exact iff_of_true rfl (fun _ member => absurd member List.not_mem_nil)
  | cons run rest ih =>
    rw [List.forall_mem_cons, ← ih, ← validateRunOk crc name dir run.runNumber]
    constructor
    · intro ok
      obtain ⟨_, first, ok⟩ := bindOk ok
      exact ⟨first, ok⟩
    · rintro ⟨first, later⟩
      rw [validate, first]
      exact later

theorem validateStops {e : FormatError} (failed : validate crc name dir source runs = .error e) :
    ∃ before run after, runs = before ++ run :: after ∧
      (∀ x ∈ before, ∃ checksums, Intact crc (source.file x.runNumber) checksums) ∧
      withText (source.file run.runNumber) (validateRun crc name dir run.runNumber) = .error e := by
  induction runs with
  | nil => cases failed
  | cons run rest ih =>
    cases first : withText (source.file run.runNumber) (validateRun crc name dir run.runNumber) with
    | error e' =>
      rw [validate, first] at failed
      cases failed
      exact ⟨[], run, rest, rfl, fun _ member => absurd member List.not_mem_nil, first⟩
    | ok u =>
      rw [validate, first] at failed
      obtain ⟨before, stopped, after, rfl, passed, here⟩ := ih failed
      refine ⟨run :: before, stopped, after, rfl, fun x member => ?_, here⟩
      rcases List.mem_cons.mp member with rfl | earlier
      · exact (validateRunOk crc name dir _).mp first
      · exact passed x earlier

theorem contentVerified {run : SnapshotRun} :
    (contentOf (verified crates decoded) source run).isSome = true ↔
      (∃ checksums, Intact crates.crc (source.file run.runNumber) checksums) ∧
        Decodes crates (source.file run.runNumber) := by
  have same : ∀ c ∈ components, source.filesOf run.runNumber components c = source.file run.runNumber c :=
    fun c member => if_pos member
  obtain ⟨intact, decodes⟩ := alike crates.crc crates same
  rw [← intact, ← decodes, ← openRunOk crates "active" 0, contentOf, openedRun]
  constructor
  · intro some
    split at some
    · rw [verified] at some
      split at some
      · rename_i passed
        cases opened : openRun crates "active" 0 (source.filesOf run.runNumber components) with
        | error e => rw [opened] at passed; cases passed
        | ok h => exact ⟨h, rfl⟩
      · cases some
    · cases some
  · rintro ⟨h, opened⟩
    obtain ⟨⟨checksums, intact⟩, -⟩ := (openRunOk _ _ _).mp ⟨h, opened⟩
    rw [if_pos (List.all_eq_true.mpr (fun c member => intact.complete member)), verified, opened]
    rfl

theorem linkableAll {C : Type} {source : RunDirectory C} (once : (runs.map SnapshotRun.runNumber).Nodup)
    (there : ∀ run ∈ runs, ∀ c ∈ components, (source.file run.runNumber c).isSome = true) :
    Each (Linkable noFaults source) runs := by
  induction runs using List.reverseRecOn with
  | nil => exact .nil
  | append_singleton before run ih =>
    rw [List.map_append, List.nodup_append] at once
    refine .snoc (ih once.1 (fun x member => there x (List.mem_append_left _ member))) ⟨fun twin => ?_, ?_⟩
    · exact once.2.2 _ twin _ List.mem_cons_self rfl
    · intro p member
      have listed : p.1 ∈ components := (List.mem_zipIdx member).2.2 ▸ List.getElem_mem _
      exact ⟨rfl, there run (List.mem_append_right _ List.mem_cons_self) p.1 listed⟩

theorem openRunsNeed {name : String} {opened hs : List SsTableHandle} {st st' : Storage}
    (ok : LsmTree.openRuns name runs opened st = (.ok hs, st')) :
    ∀ run ∈ runs, (st.runAt .active run.runNumber).isSome = true := by
  induction runs generalizing opened st with
  | nil => exact fun _ member => absurd member List.not_mem_nil
  | cons run rest ih =>
    unfold LsmTree.openRuns at ok
    split at ok
    · rename_i h st₁ first
      obtain ⟨-, -, -, -, held, left⟩ := Owns.openOk first
      have kept : st₁.runAt .active = st.runAt .active := by
        rw [left]
        rfl
      refine List.forall_mem_cons.mpr ⟨?_, fun x member => kept ▸ ih ok x member⟩
      rw [Storage.runAt, Storage.files, held]
      rfl
    · cases ok

theorem linkedContent {C : Type} {verify : (Component → Option C) → Option Run} {source : RunDirectory C}
    (linked : Each (Linkable noFaults source) runs) (st : Storage) {run : SnapshotRun} (member : run ∈ runs) :
    ({ st with active := (linkedRuns source runs).runs verify } : Storage).runAt .active run.runNumber =
      contentOf verify source run := by
  have listed := linkedRunsListed verify linked
  have found : ((linkedRuns source runs).runs verify).lookup run.runNumber = some (contentOf verify source run) := by
    refine Assoc.lookupOnce ?_ (listed ▸ List.mem_map_of_mem member)
    rw [listed, List.map_map]
    exact linked.linked.1
  rw [Storage.runAt, Storage.files, found, Option.join_some]

theorem opensIff {C : Type} {verify : (Component → Option C) → Option Run} {source : RunDirectory C} {st : Storage}
    {metadata : SnapshotMetadata} (loaded : PersistentSnapshot.load st name = .ok metadata)
    (needs : ∀ run, (contentOf verify source run).isSome = true →
      ∀ c ∈ components, (source.file run.runNumber c).isSome = true) :
    (∃ tree st', LsmTree.openSnapshotFiles verify noFaults source name st = (.ok tree, st')) ↔
      (metadata.runs.map SnapshotRun.runNumber).Nodup ∧
        ∀ run ∈ metadata.runs, (contentOf verify source run).isSome = true := by
  constructor
  · rintro ⟨tree, st', ok⟩
    rcases firstFailure (Linkable noFaults source) metadata.runs with linked | ⟨before, run, after, split, linked, fails⟩
    · refine ⟨linked.linked.1, fun run member => ?_⟩
      rw [← linkedContent linked st member]
      simp only [LsmTree.openSnapshotFiles, loaded, linkAll linked] at ok
      split at ok
      · cases ok
      · rename_i sstables st₁ opened
        exact openRunsNeed opened run member
    · obtain ⟨op, dir, stopped, -⟩ := linkFails after linked fails
      rw [← split] at stopped
      simp only [LsmTree.openSnapshotFiles, loaded, stopped] at ok
      cases ok
  · rintro ⟨once, verified⟩
    have linked := linkableAll once (fun run member => needs run (verified run member))
    have readable : ∀ run ∈ metadata.runs,
        (({ st with active := (linkedRuns source metadata.runs).runs verify } : Storage).runAt
          .active run.runNumber).isSome = true := fun run member => linkedContent linked st member ▸ verified run member
    obtain ⟨hs, st', opened, -, -⟩ := LsmTree.openRunsEnds name [] _ readable
    simp only [LsmTree.openSnapshotFiles, loaded, linkAll linked, opened]
    exact ⟨_, _, rfl⟩

theorem maxReaches (runs : List SnapshotRun) : 2 ^ 64 ≤ (runs.map SnapshotRun.runNumber).foldl max 0 + 1 ↔
    ∃ run ∈ runs, 2 ^ 64 ≤ run.runNumber + 1 := by
  constructor
  · intro large
    rcases foldlMaxListed (runs.map SnapshotRun.runNumber) 0 with zero | listed
    · rw [zero] at large
      exact absurd large (by decide)
    · obtain ⟨run, member, number⟩ := List.mem_map.mp listed
      exact ⟨run, member, number ▸ large⟩
  · rintro ⟨run, member, large⟩
    have bound := leFoldlMax (runs.map SnapshotRun.runNumber) run.runNumber (List.mem_map_of_mem member)
    omega

theorem openedNumber {C : Type} {verify : (Component → Option C) → Option Run} {source : RunDirectory C}
    {st st' : Storage} {metadata : SnapshotMetadata} {tree : LsmTree}
    (loaded : PersistentSnapshot.load st name = .ok metadata)
    (ok : LsmTree.openSnapshotFiles verify noFaults source name st = (.ok tree, st')) :
    tree.nextRunNumber = (metadata.runs.map SnapshotRun.runNumber).foldl max 0 + 1 := by
  simp only [LsmTree.openSnapshotFiles, loaded] at ok
  split at ok
  · cases ok
  · split at ok
    · cases ok
    · cases ok
      rfl

theorem openedWord {C : Type} {verify : (Component → Option C) → Option Run} {source : RunDirectory C} {st : Storage}
    {metadata : SnapshotMetadata} (overflowChecks : Bool) (loaded : PersistentSnapshot.load st name = .ok metadata) :
    ((∃ tree st', LsmTree.openSnapshotWord overflowChecks verify noFaults source name st = some (.ok tree, st')) ↔
      (∃ tree st', LsmTree.openSnapshotFiles verify noFaults source name st = (.ok tree, st')) ∧
        (overflowChecks = true → ∀ run ∈ metadata.runs, run.runNumber + 1 < 2 ^ 64)) ∧
    (LsmTree.openSnapshotWord overflowChecks verify noFaults source name st = none ↔
      (∃ tree st', LsmTree.openSnapshotFiles verify noFaults source name st = (.ok tree, st')) ∧
        overflowChecks = true ∧ ∃ run ∈ metadata.runs, 2 ^ 64 ≤ run.runNumber + 1) := by
  obtain ⟨outcome, st', ends⟩ : ∃ outcome st', LsmTree.openSnapshotFiles verify noFaults source name st = (outcome, st') :=
    ⟨_, _, rfl⟩
  rw [ends]
  cases outcome with
  | error e =>
    have word : LsmTree.openSnapshotWord overflowChecks verify noFaults source name st = some (.error e, st') := by
      rw [LsmTree.openSnapshotWord, ends]
    rw [word]
    exact ⟨iff_of_false (by simp) (by simp), iff_of_false (by simp) (by simp)⟩
  | ok tree =>
    have word : LsmTree.openSnapshotWord overflowChecks verify noFaults source name st =
        (fitWord overflowChecks tree.nextRunNumber).map (fun next => (.ok { tree with nextRunNumber := next }, st')) := by
      rw [LsmTree.openSnapshotWord, ends]
    have opened : ∃ (tree' : LsmTree) (st'' : Storage), ((.ok tree : Except Error LsmTree), st') = (.ok tree', st'') :=
      ⟨tree, st', rfl⟩
    have large : 2 ^ 64 ≤ tree.nextRunNumber ↔ ∃ run ∈ metadata.runs, 2 ^ 64 ≤ run.runNumber + 1 := by
      rw [openedNumber loaded ends]
      exact maxReaches metadata.runs
    have small : (overflowChecks = true → ∀ run ∈ metadata.runs, run.runNumber + 1 < 2 ^ 64) ↔
        fitWord overflowChecks tree.nextRunNumber ≠ none := by
      rw [ne_eq, fitWordNone, large]
      simp only [not_and, not_exists, Nat.not_le]
    rw [word, and_iff_right opened, and_iff_right opened, small, ← large, ← fitWordNone]
    cases fitWord overflowChecks tree.nextRunNumber with
    | none => exact ⟨iff_of_false (by simp) (by simp), iff_of_true rfl rfl⟩
    | some next => exact ⟨iff_of_true ⟨_, _, rfl⟩ (by simp), iff_of_false (by simp) (by simp)⟩

end Snapshots

/-- `open_snapshot` succeeds for the snapshots that `validate` accepts, as far as their run
numbers are distinct and their filters and indexes decode; in a build that checks overflows
it panics if one of them is the last number. A snapshot that `validate` refuses is refused
for the first of its runs that is damaged. -/
theorem validatedOpens {crates : Crates} {decoded : Contents → Run} {source : RunDirectory (List UInt8)}
    {name : String} {st : Storage} {metadata : SnapshotMetadata} (overflowChecks : Bool)
    (loaded : PersistentSnapshot.load st name = .ok metadata) (dir : String) :
    ((∃ tree st', LsmTree.openSnapshotWord overflowChecks (verified crates decoded) noFaults source name st =
        some (.ok tree, st')) ↔
      (validate crates.crc name dir source metadata.runs = .ok () ∧
        (metadata.runs.map SnapshotRun.runNumber).Nodup ∧
        ∀ run ∈ metadata.runs, Decodes crates (source.file run.runNumber)) ∧
        (overflowChecks = true → ∀ run ∈ metadata.runs, run.runNumber + 1 < 2 ^ 64)) ∧
    (LsmTree.openSnapshotWord overflowChecks (verified crates decoded) noFaults source name st = none ↔
      (validate crates.crc name dir source metadata.runs = .ok () ∧
        (metadata.runs.map SnapshotRun.runNumber).Nodup ∧
        ∀ run ∈ metadata.runs, Decodes crates (source.file run.runNumber)) ∧
        overflowChecks = true ∧ ∃ run ∈ metadata.runs, 2 ^ 64 ≤ run.runNumber + 1) ∧
    ∀ e, validate crates.crc name dir source metadata.runs = .error e →
      ∃ before run after, metadata.runs = before ++ run :: after ∧
        (∀ x ∈ before, ∃ checksums, Intact crates.crc (source.file x.runNumber) checksums) ∧
        (∀ checksums, ¬ Intact crates.crc (source.file run.runNumber) checksums) ∧
        withText (source.file run.runNumber) (validateRun crates.crc name dir run.runNumber) = .error e := by
  have opens : (∃ tree st', LsmTree.openSnapshotFiles (verified crates decoded) noFaults source name st = (.ok tree, st')) ↔
      validate crates.crc name dir source metadata.runs = .ok () ∧
        (metadata.runs.map SnapshotRun.runNumber).Nodup ∧
        ∀ run ∈ metadata.runs, Decodes crates (source.file run.runNumber) := by
    rw [opensIff loaded, validateOk]
    · simp only [contentVerified, forall_and]
      exact ⟨fun both => ⟨both.2.1, both.1, both.2.2⟩, fun all => ⟨all.2.1, all.1, all.2.2⟩⟩
    · intro run some c member
      obtain ⟨⟨checksums, intact⟩, -⟩ := contentVerified.mp some
      exact intact.complete member
  rw [← opens]
  obtain ⟨succeeds, panics⟩ := openedWord overflowChecks loaded
  refine ⟨succeeds, panics, fun e failed => ?_⟩
  obtain ⟨before, run, after, split, passed, here⟩ := validateStops failed
  refine ⟨before, run, after, split, passed, fun checksums intact => ?_, here⟩
  rw [(validateRunOk _ _ _ _).mpr ⟨checksums, intact⟩] at here
  cases here

theorem validateSeen {crates : Crates} {decoded : Contents → Run} {source : RunDirectory (List UInt8)} {name : String}
    {st : Storage} {metadata : SnapshotMetadata}
    (seen : ∀ run ∈ metadata.runs,
      st.runAt (.snapshot name) run.runNumber = contentOf (verified crates decoded) source run)
    (decodes : ∀ run ∈ metadata.runs, ∀ checksums, Intact crates.crc (source.file run.runNumber) checksums →
      Decodes crates (source.file run.runNumber)) (dir : String) :
    PersistentSnapshot.validate st name metadata = .ok () ↔
      validate crates.crc name dir source metadata.runs = .ok () := by
  rw [validateOk]
  have here : ∀ run ∈ metadata.runs, (st.runAt (.snapshot name) run.runNumber).isNone = false ↔
      ∃ checksums, Intact crates.crc (source.file run.runNumber) checksums := by
    intro run member
    rw [Option.isNone_eq_false_iff, seen run member, contentVerified]
    exact ⟨fun both => both.1, fun intact => ⟨intact, intact.elim (decodes run member)⟩⟩
  unfold PersistentSnapshot.validate
  split
  · rename_i run found
    refine iff_of_false (by intro ok; cases ok) (fun all => ?_)
    have member := List.mem_of_find?_eq_some found
    have gone := List.find?_some found
    rw [(here run member).mpr (all run member)] at gone
    cases gone
  · rename_i none
    refine iff_of_true rfl (fun run member => (here run member).mp ?_)
    exact Bool.eq_false_iff.mpr (List.find?_eq_none.mp none run member)

def contentsOf (files : Files) : Contents
  | .keyops => files.keyops
  | .blobs => files.blobs
  | .filter => files.filter
  | .index => files.index
  | .checksums => files.checksums.map (fun text => text.flatMap String.utf8EncodeChar)
  | _ => none

theorem writtenIntact (crates : Crates) (added : List (Key × Entry)) (filterBytes indexBytes : List UInt8) :
    ∃ checksums, Intact crates.crc (contentsOf (writtenFiles crates added filterBytes indexBytes)) checksums := by
  obtain ⟨checksums, parsed, keyops, blobs, filter, index⟩ := checksumsRead
    (crates.crc.readFileCrc32c indexBytes) (crates.crc.readFileCrc32c filterBytes)
    (crates.crc.readFileCrc32c (blobsOf (sortByKey added)))
    (crates.crc.readFileCrc32c (keyopsOf 0 (sortByKey added)))
  exact ⟨checksums, (intactIff ⟨rfl, rfl, rfl, rfl, rfl⟩ (SnapshotFiles.readText _)).mpr
    ⟨parsed, keyops, blobs, filter, index⟩⟩

theorem writtenDecodes {crates : Crates} {added : List (Key × Entry)} {filterBytes indexBytes : List UInt8}
    (nonempty : added ≠ []) (filterRead : crates.filterCodec.deserialize filterBytes = .ok (writtenFilter crates added))
    (indexRead : crates.indexCodec.deserialize indexBytes = .ok (writtenIndex added)) :
    Decodes crates (contentsOf (writtenFiles crates added filterBytes indexBytes)) := by
  refine ⟨filterBytes, _, indexBytes, _, rfl, filterRead, rfl, indexRead, fun none => nonempty ?_⟩
  have keys : (sortByKey added).map Prod.fst = [] := none
  have perm := sortByKeyPerm added
  rw [List.map_eq_nil_iff.mp keys] at perm
  exact perm.symm.eq_nil

def twoSaved : Storage :=
  ⟨[], [("s", ⟨[(7, none)], some ⟨1, "", ⟨1, 4⟩, [⟨7, [1], [2], 2, 1⟩], 2⟩⟩)], fun _ => 0, 0⟩

theorem validatedOpensTwo : ∃ filterBytes indexBytes tree st',
    LsmTree.openSnapshotWord true (verified crates (fun _ => keptRun)) noFaults
      [(7, contentsOf (writtenFiles crates twoEntries filterBytes indexBytes))] "s" twoSaved = some (.ok tree, st') := by
  obtain ⟨⟨filterBytes, -, filterRead⟩, indexBytes, -, indexRead⟩ := twoRoundTrip
  have loaded : PersistentSnapshot.load twoSaved "s" = .ok ⟨1, "", ⟨1, 4⟩, [⟨7, [1], [2], 2, 1⟩], 2⟩ := rfl
  refine ⟨filterBytes, indexBytes, (validatedOpens true loaded "snapshots/s").1.mpr
    ⟨⟨validateOk.mpr ?_, ?_, ?_⟩, fun _ run member => ?_⟩⟩
  · intro run member
    rw [List.mem_singleton.mp member]
    exact writtenIntact crates twoEntries filterBytes indexBytes
  · exact List.nodup_singleton 7
  · intro run member
    rw [List.mem_singleton.mp member]
    exact writtenDecodes (by decide) filterRead indexRead
  · rw [List.mem_singleton.mp member]
    decide

end CardanoLsm.Validation
