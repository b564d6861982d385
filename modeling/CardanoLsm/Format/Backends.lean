import CardanoLsm.Format.Damaged

/-! The two I/O backends (`io_backend.rs`). The reads through io_uring call `read_at` once and do not look
at the count that it returns. -/
namespace CardanoLsm.Format
open Bytes Std

inductive IoBackend where
  | sync
  | ioUring
  deriving DecidableEq, Repr

/-- tokio_uring, as far as the reads rest on it: how much each call of `read_at` fills in, of the bytes that
are there and that the buffer has room for. -/
structure TokioUring where
  took : Nat → Nat → Nat
  within : ∀ call there, took call there ≤ there
  nonempty : ∀ call there, 0 < there → 0 < took call there

namespace TokioUring

def readAt (uring : TokioUring) (call : Nat) (data : List UInt8) (offset capacity : Nat) : List UInt8 :=
  (data.drop offset).take (uring.took call (min capacity (data.length - offset)))

def fill (uring : TokioUring) (call : Nat) (data : List UInt8) (offset length : Nat) : List UInt8 :=
  let read := uring.readAt call data offset length
  read ++ List.replicate (length - read.length) 0

def fillAll (uring : TokioUring) (data : List UInt8) : Nat → List (Nat × Nat × Nat) → List (List UInt8)
  | _, [] => []
  | call, r :: rest => uring.fill call data r.2.1 r.2.2 :: fillAll uring data (call + 1) rest

end TokioUring

namespace IoBackend

def readFile (backend : IoBackend) (uring : TokioUring) (call : Nat) (c : Component) (file : Option (List UInt8)) :
    Except FormatError (List UInt8) :=
  match backend with
  | .sync => Format.readFile c file
  | .ioUring =>
    match file with
    | none => .error (.io (.open c))
    | some data => .ok (uring.readAt call data 0 4096)

def readRange (backend : IoBackend) (uring : TokioUring) (call : Nat) (c : Component) (file : Option (List UInt8))
    (offset length : Nat) : Except FormatError (List UInt8) :=
  match backend with
  | .sync => Format.readRange c file offset length
  | .ioUring =>
    match file with
    | none => .error (.io (.open c))
    | some data => .ok (uring.fill call data offset length)

def readBatch (backend : IoBackend) (uring : TokioUring) (call : Nat) (c : Component) (file : Option (List UInt8))
    (requests : List (Nat × Nat × Nat)) : Except FormatError (List (List UInt8)) :=
  match backend with
  | .sync => Format.readBatch c file requests
  | .ioUring =>
    match file with
    | none => if requests = [] then .ok [] else .error (.io (.open c))
    | some data => .ok (uring.fillAll data call requests)

end IoBackend

def rangeWithTombstonesBackend (backend : IoBackend) (uring : TokioUring) (disk : Disk) (handle : SsTableHandle)
    (lo hi : Key) : Except FormatError (List (Key × Entry)) := do
  let files := disk handle.runNumber
  let keyopsData ← backend.readFile uring 0 .keyops files.keyops
  let scan ← scanEntries lo hi keyopsData.length keyopsData ⟨[], []⟩
  if scan.blobRequests = [] then return scan.results
  else
    let blobValues ← backend.readBatch uring 1 .blobs files.blobs scan.blobRequests
    return fillIn scan.results scan.blobRequests blobValues

def getBackend (backend : IoBackend) (uring : TokioUring) (crates : Crates) (disk : Disk) (handle : SsTableHandle)
    (key : Key) : Except FormatError (Option Value) :=
  let files := disk handle.runNumber
  if !(handle.bloomFilter.mightContain crates.hash key) then .ok none
  else match BinarySearch.search (fun i => compare (handle.index.keys.getD i []) key)
      handle.index.keys.length with
    | none => .ok none
    | some pos =>
      match handle.index.keyopsOffsets[pos]? with
      | some keyopsOffset => do
        let prefixLen := 4 + key.length + 1
        let head ← backend.readRange uring 0 .keyops files.keyops keyopsOffset prefixLen
        if head.getLast? = some 0 then return none
        else
          let data ← backend.readRange uring 1 .keyops files.keyops (keyopsOffset + prefixLen) 16
          let blobOffset := readLE (data.take 8)
          let valueLen := readLE ((data.drop 8).take 8)
          let blob ← backend.readRange uring 2 .blobs files.blobs blobOffset valueLen
          return some blob
      | none => do
        let results ← rangeWithTombstonesBackend backend uring disk handle key key
        match results.head? with
        | some e => return e.2
        | none => return none

theorem getSync (uring : TokioUring) (crates : Crates) (disk : Disk) (handle : SsTableHandle) (key : Key) :
    getBackend .sync uring crates disk handle key = get crates disk handle key := rfl

def Whole (uring : TokioUring) (call : Nat) (data : List UInt8) (offset length : Nat) : Prop :=
  (length = 0 ∨ offset + length ≤ data.length) ∧
    ∀ b ∈ ((data.drop offset).take length).drop (uring.took call length), b = 0

theorem zerosIff (value : List UInt8) (n : Nat) :
    value.take n ++ List.replicate (value.length - n) 0 = value ↔ ∀ b ∈ value.drop n, b = 0 := by
  have length : (value.drop n).length = value.length - n := List.length_drop
  constructor
  · intro same b member
    have parts : value.drop n = List.replicate (value.length - n) 0 :=
      List.append_cancel_left ((List.take_append_drop n value).trans same.symm)
    rw [parts] at member
    exact List.eq_of_mem_replicate member
  · intro zeros
    rw [← List.eq_replicate_iff.mpr ⟨length, zeros⟩, List.take_append_drop]

namespace TokioUring
variable (uring : TokioUring)

theorem fillLength (call : Nat) (data : List UInt8) (offset length : Nat) :
    (uring.fill call data offset length).length = length := by
  have few := uring.within call (min length (data.length - offset))
  simp only [fill, readAt, List.length_append, List.length_replicate, List.length_take, List.length_drop]
  omega

theorem fillInside {call : Nat} {data value : List UInt8} {offset length : Nat}
    (read : Bytes.readAt data offset length = some value) :
    uring.fill call data offset length = value.take (uring.took call length) ++
      List.replicate (value.length - uring.took call length) 0 := by
  unfold Bytes.readAt at read
  split at read
  · rename_i inside
    cases read
    have room : min length (data.length - offset) = length := by omega
    have few := uring.within call length
    have count : (List.take length (List.drop offset data)).length = length := by
      rw [List.length_take, List.length_drop]
      omega
    simp only [fill, readAt, room, List.take_take, Nat.min_eq_left few, count, List.length_take, List.length_drop]
    congr 2
    omega
  · cases read

theorem readRangeIff (call : Nat) (c : Component) (data : List UInt8) (offset length : Nat) :
    Format.readRange c (some data) offset length = .ok (uring.fill call data offset length) ↔
      Whole uring call data offset length := by
  cases read : Bytes.readAt data offset length with
  | none =>
    simp only [Format.readRange, read, Whole, reduceCtorEq, false_iff]
    rintro ⟨inside, -⟩
    simp [Bytes.readAt, inside] at read
  | some value =>
    have inside : (length = 0 ∨ offset + length ≤ data.length) ∧ (data.drop offset).take length = value := by
      unfold Bytes.readAt at read
      split at read
      · exact ⟨by assumption, Option.some.inj read⟩
      · cases read
    simp only [Format.readRange, read, Except.ok.injEq, Whole, inside.1, inside.2, true_and]
    rw [uring.fillInside read, eq_comm]
    exact zerosIff value _

theorem readBatchIff (c : Component) (data : List UInt8) (call : Nat) (requests : List (Nat × Nat × Nat)) :
    Format.readBatch c (some data) requests = .ok (uring.fillAll data call requests) ↔
      ∀ j r, requests[j]? = some r → Whole uring (call + j) data r.2.1 r.2.2 := by
  induction requests generalizing call with
  | nil => simp [Format.readBatch, fillAll, pure, Except.pure]
  | cons r rest ih =>
    have head := uring.readRangeIff call c data r.2.1 r.2.2
    have tail := ih (call + 1)
    have step : Format.readBatch c (some data) (r :: rest) = .ok (uring.fillAll data call (r :: rest)) ↔
        Format.readRange c (some data) r.2.1 r.2.2 = .ok (uring.fill call data r.2.1 r.2.2) ∧
          Format.readBatch c (some data) rest = .ok (uring.fillAll data (call + 1) rest) := by
      simp only [Format.readBatch, List.mapM_cons, bind, Except.bind, pure, Except.pure, fillAll]
      cases Format.readRange c (some data) r.2.1 r.2.2 with
      | error e => simp
      | ok value =>
        cases rest.mapM (fun r => Format.readRange c (some data) r.2.1 r.2.2) with
        | error e => simp
        | ok values => simp
    rw [step, head, tail]
    constructor
    · rintro ⟨first, later⟩ j x found
      cases j with
      | zero =>
        cases Option.some.inj found
        exact first
      | succ j =>
        have := later j x found
        rwa [Nat.add_assoc, Nat.add_comm 1 j] at this
    · intro all
      refine ⟨all 0 r rfl, fun j x found => ?_⟩
      have := all (j + 1) x found
      rwa [Nat.add_assoc, Nat.add_comm 1 j]

end TokioUring

def visible (lo hi : Key) (es : List RawEntry) : List RawEntry := es.filter (fun e => inRange lo hi e.key)

def inserts (es : List RawEntry) : List RawEntry := es.filter (fun e => decide (e.op = 1))

def blobRequests : Nat → List RawEntry → List (Nat × Nat × Nat)
  | _, [] => []
  | at_, e :: rest =>
    if e.op = 1 then (at_, e.blobOffset, e.valueLen) :: blobRequests (at_ + 1) rest else blobRequests (at_ + 1) rest

def placeholders (es : List RawEntry) : List (Key × Entry) := es.map (fun e => (e.key, none))

def merged : List RawEntry → List (List UInt8) → List (Key × Entry)
  | [], _ => []
  | e :: rest, values =>
    if e.op = 1 then (e.key, values.head?) :: merged rest values.tail else (e.key, none) :: merged rest values

theorem visitVisible (lo hi : Key) (es : List RawEntry) (scan : Scan) : es.foldl (Scan.visitRaw lo hi) scan =
    ⟨scan.results ++ placeholders (visible lo hi es),
      scan.blobRequests ++ blobRequests scan.results.length (visible lo hi es)⟩ := by
  induction es generalizing scan with
  | nil => simp [visible, placeholders, blobRequests]
  | cons e rest ih =>
    rw [List.foldl_cons, ih, Scan.visitRaw]
    by_cases inside : inRange lo hi e.key = true
    · by_cases insert : e.op = 1
      · simp [visible, placeholders, blobRequests, inside, insert]
      · simp [visible, placeholders, blobRequests, inside, insert]
    · simp [visible, inside]

theorem requestsLength (at_ : Nat) (es : List RawEntry) : (blobRequests at_ es).length = (inserts es).length := by
  induction es generalizing at_ with
  | nil => rfl
  | cons e rest ih => by_cases insert : e.op = 1 <;> simp [blobRequests, inserts, insert, ih]

theorem requestsAt (at_ : Nat) (es : List RawEntry) :
    (blobRequests at_ es).map Prod.snd = (inserts es).map (fun e => (e.blobOffset, e.valueLen)) := by
  induction es generalizing at_ with
  | nil => rfl
  | cons e rest ih => by_cases insert : e.op = 1 <;> simp [blobRequests, inserts, insert, ih]

theorem mergedLength (es : List RawEntry) (values : List (List UInt8)) : (merged es values).length = es.length := by
  induction es generalizing values with
  | nil => rfl
  | cons e rest ih =>
    rw [merged]
    split <;> rw [List.length_cons, List.length_cons, ih]

theorem mergedInjective {es : List RawEntry} {values values' : List (List UInt8)}
    (count : values.length = (inserts es).length) (count' : values'.length = (inserts es).length)
    (same : merged es values = merged es values') : values = values' := by
  induction es generalizing values values' with
  | nil =>
    rw [List.length_eq_zero_iff.mp count, List.length_eq_zero_iff.mp count']
  | cons e rest ih =>
    by_cases insert : e.op = 1
    · have more : (inserts (e :: rest)).length = (inserts rest).length + 1 := by simp [inserts, insert]
      obtain ⟨value, later, rfl⟩ := List.exists_cons_of_length_eq_add_one (count.trans more)
      obtain ⟨value', later', rfl⟩ := List.exists_cons_of_length_eq_add_one (count'.trans more)
      simp only [merged, insert, if_true, List.head?_cons, List.tail_cons, List.cons.injEq, Prod.mk.injEq,
        Option.some.injEq, true_and] at same
      rw [same.1, ih (by simpa [more] using count) (by simpa [more] using count') same.2]
    · have fewer : inserts (e :: rest) = inserts rest := by simp [inserts, insert]
      rw [fewer] at count count'
      simp only [merged, insert, if_false, List.cons.injEq, true_and] at same
      exact ih count count' same

theorem fillInMerged (front : List (Key × Entry)) (es : List RawEntry) {values : List (List UInt8)}
    (count : values.length = (inserts es).length) :
    fillIn (front ++ placeholders es) (blobRequests front.length es) values = front ++ merged es values := by
  induction es generalizing front values with
  | nil =>
    rw [List.length_eq_zero_iff.mp count]
    simp [fillIn, placeholders, blobRequests, merged]
  | cons e rest ih =>
    have next : ∀ x : Key × Entry, (front ++ [x]).length = front.length + 1 := fun x => by simp
    by_cases insert : e.op = 1
    · have more : (inserts (e :: rest)).length = (inserts rest).length + 1 := by simp [inserts, insert]
      obtain ⟨value, later, rfl⟩ := List.exists_cons_of_length_eq_add_one (count.trans more)
      have after := ih (front ++ [(e.key, some value)]) (by simpa [more] using count)
      rw [next] at after
      have filled : (front ++ (e.key, none) :: placeholders rest).modify front.length (fun x => (x.1, some value)) =
          front ++ [(e.key, some value)] ++ placeholders rest := by
        rw [List.append_cons, modifyAppend _ (by simp), modifyLast]
      rw [fillIn] at after ⊢
      simp only [blobRequests, insert, if_true, List.zip_cons_cons, List.foldl_cons, placeholders, List.map_cons,
        merged, List.head?_cons, List.tail_cons]
      simp only [placeholders] at filled after
      rw [filled, after, List.append_assoc]
      rfl
    · have fewer : inserts (e :: rest) = inserts rest := by simp [inserts, insert]
      have after := ih (front ++ [(e.key, none)]) (fewer ▸ count)
      rw [next] at after
      simp only [blobRequests, insert, if_false, placeholders, List.map_cons, merged] at after ⊢
      rw [List.append_cons, after, List.append_assoc]
      rfl

def rangeFrom (batch : List (Nat × Nat × Nat) → Except FormatError (List (List UInt8))) (lo hi : Key)
    (keyopsData : List UInt8) : Except FormatError (List (Key × Entry)) := do
  let scan ← scanEntries lo hi keyopsData.length keyopsData ⟨[], []⟩
  if scan.blobRequests = [] then return scan.results
  else
    let blobValues ← batch scan.blobRequests
    return fillIn scan.results scan.blobRequests blobValues

def ReadsAs (data : List UInt8) (es : List RawEntry) : Prop := ∃ tail, data = rawBytes es ++ tail ∧ tail.length < 4

theorem takeError {n : Nat} {data : List UInt8} {e : FormatError} (failed : takeBytes n data = .error e) :
    e = .io (.read .keyops) := by
  unfold takeBytes at failed
  split at failed
  · cases failed
  · exact (Except.error.inj failed).symm

theorem bindError {α β : Type} {x : Except FormatError α} {f : α → Except FormatError β} {e : FormatError}
    (failed : x >>= f = .error e) : x = .error e ∨ ∃ a, x = .ok a ∧ f a = .error e := by
  cases x with
  | error e' =>
    cases failed
    exact Or.inl rfl
  | ok a => exact Or.inr ⟨a, rfl, failed⟩

theorem scanError {lo hi : Key} {fuel : Nat} {data : List UInt8} {scan : Scan} {e : FormatError}
    (failed : scanEntries lo hi fuel data scan = .error e) : e = .io (.read .keyops) := by
  induction fuel generalizing data scan with
  | zero => cases failed
  | succ fuel ih =>
    unfold scanEntries at failed
    split at failed
    · cases failed
    · split at failed
      · cases failed
      · rcases bindError failed with early | ⟨⟨key, data₂⟩, -, failed⟩
        · exact takeError early
        · dsimp only at failed
          split at failed
          all_goals
            rcases bindError failed with early | ⟨⟨op, data₃⟩, -, failed⟩
            · exact takeError early
            dsimp only at failed
            split at failed
            · rcases bindError failed with early | ⟨⟨first, data₄⟩, -, failed⟩
              · exact takeError early
              rcases bindError failed with early | ⟨⟨second, rest⟩, -, failed⟩
              · exact takeError early
              exact ih failed
            · exact ih failed

section RangeFrom
variable {batch : List (Nat × Nat × Nat) → Except FormatError (List (List UInt8))} {lo hi : Key}
  {data : List UInt8} {es : List RawEntry}

theorem rangeStuck (stuck : ¬ ∃ es, ReadsAs data es) : rangeFrom batch lo hi data = .error (.io (.read .keyops)) := by
  unfold rangeFrom
  cases out : scanEntries lo hi data.length data ⟨[], []⟩ with
  | error e => rw [scanError out]; rfl
  | ok scan =>
    obtain ⟨es, tail, same, short⟩ := scanParts (Nat.le_refl _) out
    exact absurd ⟨es, tail, same, short⟩ stuck

theorem rangeReads (reads : ReadsAs data es) (none : batch [] = .ok [])
    (sized : ∀ requests values, batch requests = .ok values → values.length = requests.length) :
    rangeFrom batch lo hi data = (batch (blobRequests 0 (visible lo hi es))).map (merged (visible lo hi es)) := by
  obtain ⟨tail, rfl, short⟩ := reads
  have filled : ∀ values, values.length = (blobRequests 0 (visible lo hi es)).length →
      fillIn (placeholders (visible lo hi es)) (blobRequests 0 (visible lo hi es)) values =
        merged (visible lo hi es) values := fun values count =>
    fillInMerged [] (visible lo hi es) (count.trans (requestsLength 0 _))
  rw [rangeFrom, scanLoose short (Nat.le_refl _), visitVisible]
  simp only [List.nil_append, List.length_nil, bind, Except.bind, pure, Except.pure]
  split
  · rename_i empty
    have nothing := filled [] (by rw [empty]; rfl)
    rw [empty] at nothing ⊢
    rw [none]
    exact congrArg Except.ok nothing
  · cases read : batch (blobRequests 0 (visible lo hi es)) with
    | error e => rfl
    | ok values => exact congrArg Except.ok (filled values (sized _ _ read))

end RangeFrom

theorem batchSized {c : Component} {file : Option (List UInt8)} {requests : List (Nat × Nat × Nat)}
    {values : List (List UInt8)} (read : readBatch c file requests = .ok values) :
    values.length = requests.length := by
  induction requests generalizing values with
  | nil => cases read; rfl
  | cons r rest ih =>
    rw [readBatch, List.mapM_cons] at read
    obtain ⟨value, -, read⟩ := bindOk read
    obtain ⟨later, more, read⟩ := bindOk read
    cases read
    rw [List.length_cons, List.length_cons, ih more]

theorem fillAllLength (uring : TokioUring) (data : List UInt8) (call : Nat) (requests : List (Nat × Nat × Nat)) :
    (uring.fillAll data call requests).length = requests.length := by
  induction requests generalizing call with
  | nil => rfl
  | cons r rest ih => rw [TokioUring.fillAll, List.length_cons, List.length_cons, ih]

/-- The first read leaves the scan at the end of an entry, with nothing in the range behind it, and each value in
the range is read whole; or the scan gets stuck in the file, and in what was read of it. -/
def RangeAgrees (uring : TokioUring) (keyops blobs : List UInt8) (lo hi : Key) : Prop :=
  (∃ seen later, ReadsAs keyops (seen ++ later) ∧ ReadsAs (uring.readAt 0 keyops 0 4096) seen ∧ visible lo hi later = [] ∧
    ∀ j e, (inserts (visible lo hi seen))[j]? = some e → Whole uring (1 + j) blobs e.blobOffset e.valueLen) ∨
  (¬ ∃ es, ReadsAs keyops es) ∧ ¬ ∃ es, ReadsAs (uring.readAt 0 keyops 0 4096) es

theorem ReadsAs.unique {data : List UInt8} {es es' : List RawEntry} (reads : ReadsAs data es) (reads' : ReadsAs data es') :
    es = es' := by
  obtain ⟨tail, same, short⟩ := reads
  obtain ⟨tail', same', short'⟩ := reads'
  exact (rawUnique short short' (same.symm.trans same')).1

theorem seenSplit (uring : TokioUring) {keyops : List UInt8} {es seen : List RawEntry} (reads : ReadsAs keyops es)
    (seenReads : ReadsAs (uring.readAt 0 keyops 0 4096) seen) : ∃ later, es = seen ++ later := by
  obtain ⟨tail, same, short⟩ := reads
  obtain ⟨tail', same', -⟩ := seenReads
  unfold TokioUring.readAt at same'
  have parts := (List.take_append_drop (uring.took 0 (min 4096 (keyops.length - 0))) (keyops.drop 0)).symm
  rw [same', List.drop_zero, List.append_assoc] at parts
  obtain ⟨later, split, -⟩ := rawSplit short (same.symm.trans parts)
  exact ⟨later, split⟩

theorem visibleAppend (lo hi : Key) (es later : List RawEntry) :
    visible lo hi (es ++ later) = visible lo hi es ++ visible lo hi later := List.filter_append ..

theorem mapOk {α β : Type} {x : Except FormatError α} {f : α → β} {b : β} (ok : x.map f = .ok b) :
    ∃ a, x = .ok a ∧ f a = b := by
  cases x with
  | error e => cases ok
  | ok a => exact ⟨a, rfl, Except.ok.inj ok⟩

section Range
variable {disk : Disk} {handle : SsTableHandle} {keyops blobs : List UInt8}

theorem uringRange (uring : TokioUring) (keyopsIs : (disk handle.runNumber).keyops = some keyops)
    (blobsIs : (disk handle.runNumber).blobs = some blobs) (lo hi : Key) :
    rangeWithTombstonesBackend .ioUring uring disk handle lo hi =
      rangeFrom (fun requests => .ok (uring.fillAll blobs 1 requests)) lo hi (uring.readAt 0 keyops 0 4096) := by
  simp only [rangeWithTombstonesBackend, rangeFrom, IoBackend.readFile, IoBackend.readBatch, keyopsIs, blobsIs, bind,
    Except.bind]

theorem syncRange (uring : TokioUring) (keyopsIs : (disk handle.runNumber).keyops = some keyops)
    (blobsIs : (disk handle.runNumber).blobs = some blobs) (lo hi : Key) :
    rangeWithTombstonesBackend .sync uring disk handle lo hi =
      rangeFrom (readBatch .blobs (some blobs)) lo hi keyops := by
  simp only [rangeWithTombstonesBackend, rangeFrom, IoBackend.readFile, IoBackend.readBatch, readFile, keyopsIs, blobsIs,
    bind, Except.bind]

theorem readBatchError {c : Component} {data : List UInt8} {requests : List (Nat × Nat × Nat)} {e : FormatError}
    (failed : readBatch c (some data) requests = .error e) : e = .io (.read c) := by
  induction requests with
  | nil => cases failed
  | cons r rest ih =>
    rw [readBatch, List.mapM_cons] at failed
    rcases bindError failed with early | ⟨value, -, failed⟩
    · unfold readRange at early
      dsimp only at early
      split at early
      · cases early
      · exact (Except.error.inj early).symm
    · rcases bindError failed with later | ⟨values, -, failed⟩
      · exact ih later
      · cases failed

theorem batchIff (uring : TokioUring) (es : List RawEntry) :
    readBatch .blobs (some blobs) (blobRequests 0 es) = .ok (uring.fillAll blobs 1 (blobRequests 0 es)) ↔
      ∀ j e, (inserts es)[j]? = some e → Whole uring (1 + j) blobs e.blobOffset e.valueLen := by
  have requests : ∀ j : Nat, ((blobRequests 0 es)[j]?).map Prod.snd =
      ((inserts es)[j]?).map (fun e : RawEntry => (e.blobOffset, e.valueLen)) := by
    intro j
    rw [← List.getElem?_map, requestsAt, List.getElem?_map]
  rw [uring.readBatchIff]
  constructor
  · intro whole j e found
    have request := requests j
    rw [found] at request
    obtain ⟨r, there, same⟩ := Option.map_eq_some_iff.mp request
    have here := whole j r there
    rwa [same] at here
  · intro whole j r found
    have request := (requests j).symm
    rw [found] at request
    obtain ⟨e, there, same⟩ := Option.map_eq_some_iff.mp request
    rw [← same]
    exact whole j e there

theorem rangeAgreesIff (uring : TokioUring) (keyopsIs : (disk handle.runNumber).keyops = some keyops)
    (blobsIs : (disk handle.runNumber).blobs = some blobs) (lo hi : Key) :
    rangeWithTombstonesBackend .ioUring uring disk handle lo hi =
        rangeWithTombstonesBackend .sync uring disk handle lo hi ↔ RangeAgrees uring keyops blobs lo hi := by
  rw [uringRange uring keyopsIs blobsIs, syncRange uring keyopsIs blobsIs]
  have uringReads : ∀ {seen}, ReadsAs (uring.readAt 0 keyops 0 4096) seen →
      rangeFrom (fun requests => .ok (uring.fillAll blobs 1 requests)) lo hi (uring.readAt 0 keyops 0 4096) =
        .ok (merged (visible lo hi seen) (uring.fillAll blobs 1 (blobRequests 0 (visible lo hi seen)))) := fun reads =>
    rangeReads reads rfl (fun requests values same => Except.ok.inj same ▸ fillAllLength uring blobs 1 requests)
  have syncReads : ∀ {es}, ReadsAs keyops es → rangeFrom (readBatch .blobs (some blobs)) lo hi keyops =
      (readBatch .blobs (some blobs) (blobRequests 0 (visible lo hi es))).map (merged (visible lo hi es)) := fun reads =>
    rangeReads reads rfl (fun _ _ => batchSized)
  by_cases whole : ∃ es, ReadsAs keyops es
  · obtain ⟨es, reads⟩ := whole
    by_cases part : ∃ seen, ReadsAs (uring.readAt 0 keyops 0 4096) seen
    · obtain ⟨seen, seenReads⟩ := part
      obtain ⟨later, rfl⟩ := seenSplit uring reads seenReads
      rw [uringReads seenReads, syncReads reads]
      constructor
      · intro same
        obtain ⟨values, read, equal⟩ := mapOk same.symm
        have hidden : visible lo hi later = [] := by
          have lengths := congrArg List.length equal
          rw [mergedLength, mergedLength, visibleAppend, List.length_append] at lengths
          exact List.length_eq_zero_iff.mp (by omega)
        rw [visibleAppend, hidden, List.append_nil] at read equal
        have filled := mergedInjective ((batchSized read).trans (requestsLength 0 _))
          ((fillAllLength uring blobs 1 _).trans (requestsLength 0 _)) equal
        exact Or.inl ⟨seen, later, reads, seenReads, hidden, (batchIff uring _).mp (filled ▸ read)⟩
      · rintro (⟨seen', later', reads', seenReads', hidden, wholly⟩ | ⟨stuck, -⟩)
        · obtain rfl := seenReads.unique seenReads'
          obtain rfl := List.append_cancel_left (reads.unique reads')
          rw [visibleAppend, hidden, List.append_nil, (batchIff uring _).mpr wholly]
          rfl
        · exact absurd ⟨_, reads⟩ stuck
    · rw [rangeStuck part, syncReads reads]
      constructor
      · intro same
        cases read : readBatch .blobs (some blobs) (blobRequests 0 (visible lo hi es)) with
        | ok values => rw [read] at same; cases same
        | error e => rw [read, readBatchError read] at same; cases same
      · rintro (⟨seen, later, -, seenReads, -⟩ | ⟨stuck, -⟩)
        · exact absurd ⟨_, seenReads⟩ part
        · exact absurd ⟨_, reads⟩ stuck
  · rw [rangeStuck whole]
    by_cases part : ∃ seen, ReadsAs (uring.readAt 0 keyops 0 4096) seen
    · obtain ⟨seen, seenReads⟩ := part
      rw [uringReads seenReads]
      constructor
      · intro same
        cases same
      · rintro (⟨seen, later, reads, -⟩ | ⟨-, stuck⟩)
        · exact absurd ⟨_, reads⟩ whole
        · exact absurd ⟨_, seenReads⟩ stuck
    · rw [rangeStuck part]
      exact ⟨fun _ => Or.inr ⟨whole, part⟩, fun _ => rfl⟩

end Range

end CardanoLsm.Format
