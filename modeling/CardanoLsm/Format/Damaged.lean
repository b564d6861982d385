import CardanoLsm.Format.Lookup

/-! What the scan and the point lookup make of a keyops file with any content. The scan
stops without an error where fewer than four bytes are left, and takes every op byte but 1
for a tombstone; the lookup takes every op byte but 0 for a value. -/
namespace CardanoLsm.Format
open Bytes Std

def rawBytes (es : List RawEntry) : List UInt8 := es.flatMap RawEntry.bytes

def RawEntry.Known (e : RawEntry) : Prop := e.op = 0 ∨ e.op = 1

def WellFormed (data : List UInt8) : Prop := ∃ es : List RawEntry, (∀ e ∈ es, e.Known) ∧ data = rawBytes es

theorem rawHead {e e' : RawEntry} {rest rest' : List UInt8} (same : e.bytes ++ rest = e'.bytes ++ rest') :
    e = e' ∧ rest = rest' := by
  obtain ⟨key, op, numbers, keyLength, numbersLength⟩ := e
  obtain ⟨key', op', numbers', keyLength', numbersLength'⟩ := e'
  simp only [RawEntry.bytes, List.append_assoc, List.cons_append] at same
  obtain ⟨lengths, bodies⟩ := List.append_inj same (by simp)
  have length : key.length = key'.length := by
    have read := congrArg readLE lengths
    rwa [readLeBounded keyLength, readLeBounded keyLength'] at read
  obtain ⟨rfl, ops⟩ := List.append_inj bodies length
  obtain ⟨rfl, ends⟩ := List.cons.inj ops
  obtain ⟨rfl, rfl⟩ := List.append_inj ends (numbersLength.trans numbersLength'.symm)
  exact ⟨rfl, rfl⟩

theorem rawCons (e : RawEntry) (es : List RawEntry) (rest : List UInt8) :
    rawBytes (e :: es) ++ rest = e.bytes ++ (rawBytes es ++ rest) := by
  simp [rawBytes]

theorem rawSplit {es es' : List RawEntry} {tail more : List UInt8} (short : tail.length < 4)
    (same : rawBytes es ++ tail = rawBytes es' ++ more) :
    ∃ later, es = es' ++ later ∧ rawBytes later ++ tail = more := by
  induction es' generalizing es with
  | nil => exact ⟨es, rfl, same⟩
  | cons e' rest' ih =>
    cases es with
    | nil =>
      have lengths := congrArg List.length same
      rw [rawCons] at lengths
      simp only [rawBytes, List.flatMap_nil, List.nil_append, List.length_append, e'.bytesLength] at lengths
      omega
    | cons e rest =>
      rw [rawCons, rawCons] at same
      obtain ⟨rfl, after⟩ := rawHead same
      obtain ⟨later, rfl, parts⟩ := ih after
      exact ⟨later, rfl, parts⟩

theorem rawUnique {es es' : List RawEntry} {tail tail' : List UInt8} (short : tail.length < 4)
    (short' : tail'.length < 4) (same : rawBytes es ++ tail = rawBytes es' ++ tail') :
    es = es' ∧ tail = tail' := by
  obtain ⟨later, rfl, parts⟩ := rawSplit short same
  cases later with
  | nil => exact ⟨List.append_nil es', parts⟩
  | cons e rest =>
    have lengths := congrArg List.length parts
    rw [rawCons, List.length_append, e.bytesLength] at lengths
    omega

theorem takeParts {n : Nat} {data first rest : List UInt8} (taken : takeBytes n data = .ok (first, rest)) :
    data = first ++ rest ∧ first.length = n := by
  unfold takeBytes at taken
  split at taken
  · rename_i parts read
    cases taken
    exact readExactParts read
  · cases taken

theorem rawHeader {data keyLen key op data₁ data₂ rest : List UInt8}
    (head : readExact 4 data = some (keyLen, data₁)) (body : takeBytes (readLE keyLen) data₁ = .ok (key, data₂))
    (opByte : takeBytes 1 data₂ = .ok (op, rest)) :
    key.length < 2 ^ 32 ∧ ∃ code, op = [code] ∧ data = le 4 key.length ++ (key ++ code :: rest) := by
  obtain ⟨rfl, four⟩ := readExactParts head
  obtain ⟨rfl, length⟩ := takeParts body
  obtain ⟨rfl, one⟩ := takeParts opByte
  have bound := readLT keyLen
  rw [four] at bound
  obtain ⟨code, rfl⟩ := List.length_eq_one_iff.mp one
  refine ⟨by rw [length]; exact bound, code, rfl, ?_⟩
  rw [length, ← four, leRead, List.singleton_append]

theorem rawShort {data key rest : List UInt8} {code : UInt8} (small : key.length < 2 ^ 32)
    (plain : ¬ [code] = ([1] : List UInt8)) (same : data = le 4 key.length ++ (key ++ code :: rest)) :
    ∃ e : RawEntry, data = e.bytes ++ rest := by
  have other : code ≠ 1 := fun one => plain (congrArg (fun c => [c]) one)
  exact ⟨⟨key, code, [], small, (if_neg other).symm⟩, by rw [same]; simp [RawEntry.bytes]⟩

theorem rawLong {data key data₁ first second data₂ rest : List UInt8} {code : UInt8}
    (small : key.length < 2 ^ 32) (insert : [code] = ([1] : List UInt8))
    (same : data = le 4 key.length ++ (key ++ code :: data₁)) (offset : takeBytes 8 data₁ = .ok (first, data₂))
    (length : takeBytes 8 data₂ = .ok (second, rest)) : ∃ e : RawEntry, data = e.bytes ++ rest := by
  obtain ⟨rfl, eight⟩ := takeParts offset
  obtain ⟨rfl, eight'⟩ := takeParts length
  have one : code = 1 := (List.cons.inj insert).1
  refine ⟨⟨key, code, first ++ second, small, ?_⟩, by rw [same]; simp [RawEntry.bytes]⟩
  rw [if_pos one, List.length_append, eight, eight']

theorem rawRound {out : Scan} {data keyLen key data₁ data₂ : List UInt8}
    (insert : List UInt8 → List UInt8 → List UInt8 → Except FormatError Scan)
    (delete : List UInt8 → Except FormatError Scan) (head : readExact 4 data = some (keyLen, data₁))
    (body : takeBytes (readLE keyLen) data₁ = .ok (key, data₂))
    (ok : (do
      let op ← takeBytes 1 data₂
      if op.1 = [1] then
        let first ← takeBytes 8 op.2
        let second ← takeBytes 8 first.2
        insert first.1 second.1 second.2
      else delete op.2) = .ok out) :
    ∃ (e : RawEntry) (rest : List UInt8), data = e.bytes ++ rest ∧
      ((∃ first second, insert first second rest = .ok out) ∨ delete rest = .ok out) := by
  obtain ⟨⟨op, data₃⟩, opByte, ok⟩ := bindOk ok
  obtain ⟨small, code, rfl, same⟩ := rawHeader head body opByte
  dsimp only at ok
  split at ok
  · rename_i one
    obtain ⟨⟨first, data₄⟩, offset, ok⟩ := bindOk ok
    obtain ⟨⟨second, rest⟩, length, ok⟩ := bindOk ok
    obtain ⟨e, whole⟩ := rawLong small one same offset length
    exact ⟨e, rest, whole, Or.inl ⟨first, second, ok⟩⟩
  · rename_i plain
    obtain ⟨e, whole⟩ := rawShort small plain same
    exact ⟨e, data₃, whole, Or.inr ok⟩

theorem scanParts {lo hi : Key} {fuel : Nat} {data : List UInt8} {scan after : Scan}
    (enough : data.length ≤ fuel) (ok : scanEntries lo hi fuel data scan = .ok after) :
    ∃ es tail, data = rawBytes es ++ tail ∧ tail.length < 4 := by
  induction fuel generalizing data scan with
  | zero => exact ⟨[], data, rfl, by omega⟩
  | succ fuel ih =>
    unfold scanEntries at ok
    split at ok
    · rename_i none
      exact ⟨[], [], by simp [none, rawBytes], by decide⟩
    · split at ok
      · rename_i short
        exact ⟨[], data, rfl, readExactShort.mp short⟩
      · rename_i keyLen data₁ head
        obtain ⟨⟨key, data₂⟩, body, ok⟩ := bindOk ok
        have round : ∃ (e : RawEntry) (rest : List UInt8) (scan' : Scan), data = e.bytes ++ rest ∧
            scanEntries lo hi fuel rest scan' = .ok after := by
          dsimp only at ok
          split at ok
          · obtain ⟨e, rest, whole, ⟨_, _, later⟩ | later⟩ := rawRound
              (fun _ _ rest => scanEntries lo hi fuel rest scan)
              (fun rest => scanEntries lo hi fuel rest scan) head body ok
            · exact ⟨e, rest, _, whole, later⟩
            · exact ⟨e, rest, _, whole, later⟩
          · obtain ⟨e, rest, whole, ⟨_, _, later⟩ | later⟩ := rawRound
              (fun blobOffset valueLen rest => scanEntries lo hi fuel rest
                ⟨scan.results ++ [(key, none)],
                  scan.blobRequests ++ [(scan.results.length, readLE blobOffset, readLE valueLen)]⟩)
              (fun rest => scanEntries lo hi fuel rest ⟨scan.results ++ [(key, none)], scan.blobRequests⟩)
              head body ok
            · exact ⟨e, rest, _, whole, later⟩
            · exact ⟨e, rest, _, whole, later⟩
        obtain ⟨e, rest, scan', whole, ok⟩ := round
        have shorter : rest.length ≤ fuel := by
          rw [whole, List.length_append, e.bytesLength] at enough
          omega
        obtain ⟨es, tail, rfl, short⟩ := ih shorter ok
        exact ⟨e :: es, tail, by rw [whole, rawCons], short⟩

theorem scanLoose {lo hi : Key} {fuel : Nat} {es : List RawEntry} {tail : List UInt8} {scan : Scan}
    (short : tail.length < 4) (enough : (rawBytes es ++ tail).length ≤ fuel) :
    scanEntries lo hi fuel (rawBytes es ++ tail) scan = .ok (es.foldl (Scan.visitRaw lo hi) scan) := by
  induction es generalizing fuel scan with
  | nil =>
    cases fuel with
    | zero => rfl
    | succ fuel =>
      have none : readExact 4 tail = none := readExactShort.mpr short
      simp only [rawBytes, List.flatMap_nil, List.nil_append, scanEntries, none, List.foldl_nil, ite_self]
  | cons e rest ih =>
    rw [rawCons] at enough ⊢
    rw [List.length_append, e.bytesLength] at enough
    cases fuel with
    | zero => omega
    | succ fuel => rw [scanRaw, ih (by omega), List.foldl_cons]

def ScanStrict (data : List UInt8) : Prop :=
  ∀ (disk : Disk) (handle : SsTableHandle) (lo hi : Key) (out : List (Key × Entry)),
    (disk handle.runNumber).keyops = some data →
    rangeWithTombstones disk handle lo hi = .ok out → WellFormed data

def GetStrict (data : List UInt8) : Prop :=
  ∀ (crates : Crates) (disk : Disk) (handle : SsTableHandle) (before : List RawEntry) (e : RawEntry)
    (rest : List UInt8) (key : Key) (pos : Nat) (value : Value),
    (disk handle.runNumber).keyops = some data → data = rawBytes before ++ (e.bytes ++ rest) →
    BinarySearch.search (fun i => compare (handle.index.keys.getD i []) key) handle.index.keys.length =
      some pos →
    handle.index.keyopsOffsets[pos]? = some (rawBytes before).length →
    get crates disk handle key = .ok (some value) → e.op = 1

/-- The length of the key asked for decides which byte is the op byte to the lookup: each
one after the length field that has sixteen bytes after it may be. -/
def Inert (e : RawEntry) (rest : List UInt8) : Prop :=
  ∀ (first : List UInt8) (op : UInt8) (more : List UInt8), e.key ++ e.op :: rest = first ++ op :: more →
    16 ≤ more.length → op = 0

theorem emptyRange (key : Key) : inRange [0] [] key = false := by
  cases key with
  | nil => decide
  | cons b rest => simp [inRange, List.compare_cons_nil]

theorem visitNothing (es : List RawEntry) (scan : Scan) : es.foldl (Scan.visitRaw [0] []) scan = scan := by
  induction es with
  | nil => rfl
  | cons e rest ih => rw [List.foldl_cons, Scan.visitRaw, emptyRange, if_neg (by decide), ih]

theorem rangeLoose {disk : Disk} {handle : SsTableHandle} {es : List RawEntry} {tail : List UInt8}
    (short : tail.length < 4) (keyops : (disk handle.runNumber).keyops = some (rawBytes es ++ tail)) :
    rangeWithTombstones disk handle [0] [] = .ok [] := by
  have scanned : scanEntries [0] [] (rawBytes es ++ tail).length (rawBytes es ++ tail) ⟨[], []⟩ =
      .ok ⟨[], []⟩ := by rw [scanLoose short (Nat.le_refl _), visitNothing]
  simp only [rangeWithTombstones, readFile, keyops, bind, Except.bind, scanned, if_true]
  rfl

theorem rangeParts {disk : Disk} {handle : SsTableHandle} {lo hi : Key} {data : List UInt8}
    {out : List (Key × Entry)} (keyops : (disk handle.runNumber).keyops = some data)
    (ok : rangeWithTombstones disk handle lo hi = .ok out) :
    ∃ es tail, data = rawBytes es ++ tail ∧ tail.length < 4 := by
  unfold rangeWithTombstones at ok
  obtain ⟨file, read, ok⟩ := bindOk ok
  obtain ⟨scan, scanned, -⟩ := bindOk ok
  simp only [readFile, keyops, Except.ok.injEq] at read
  rw [← read] at scanned
  exact scanParts (Nat.le_refl _) scanned

theorem scanStrictIff (data : List UInt8) : ScanStrict data ↔
    ∀ es tail, data = rawBytes es ++ tail → tail.length < 4 → tail = [] ∧ ∀ e ∈ es, e.Known := by
  constructor
  · rintro strict es tail rfl short
    have handle : SsTableHandle := ⟨0, [], [], 0, 0, ⟨[], 0, 0⟩, ⟨[], []⟩⟩
    obtain ⟨es', known, same⟩ := strict (fun _ => ⟨some (rawBytes es ++ tail), none, none, none, none⟩)
      handle [0] [] [] rfl (rangeLoose short rfl)
    rw [← List.append_nil (rawBytes es')] at same
    obtain ⟨rfl, none⟩ := rawUnique short (by decide) same
    exact ⟨none, known⟩
  · intro whole disk handle lo hi out keyops ok
    obtain ⟨es, tail, same, short⟩ := rangeParts keyops ok
    obtain ⟨rfl, known⟩ := whole es tail same short
    exact ⟨es, known, by rw [same, List.append_nil]⟩

section Lookup
variable {crates : Crates} {disk : Disk} {handle : SsTableHandle} {before : List RawEntry} {e : RawEntry}
  {rest : List UInt8} {key : Key} {pos : Nat}

theorem RawEntry.bytesOther (other : e.op ≠ 1) (rest : List UInt8) :
    e.bytes ++ rest = le 4 e.key.length ++ (e.key ++ e.op :: rest) := by
  have none := e.numbersLength
  rw [if_neg other] at none
  rw [bytes, List.length_eq_zero_iff.mp none]
  simp

theorem getAt {first more : List UInt8} {op : UInt8} (other : e.op ≠ 1)
    (here : e.key ++ e.op :: rest = first ++ op :: more) (length : first.length = key.length)
    (keyops : (disk handle.runNumber).keyops = some (rawBytes before ++ (e.bytes ++ rest)))
    (found : BinarySearch.search (fun i => compare (handle.index.keys.getD i []) key)
      handle.index.keys.length = some pos)
    (offset : handle.index.keyopsOffsets[pos]? = some (rawBytes before).length)
    (passes : handle.bloomFilter.mightContain crates.hash key = true) :
    get crates disk handle key =
      if op = 0 then .ok none else do
        let data ← readRange .keyops (some (rawBytes before ++ (e.bytes ++ rest)))
          ((rawBytes before).length + (4 + key.length + 1)) 16
        let blob ← readRange .blobs (disk handle.runNumber).blobs (readLE (data.take 8))
          (readLE ((data.drop 8).take 8))
        return some blob := by
  have regroup : rawBytes before ++ (e.bytes ++ rest) =
      rawBytes before ++ ((le 4 e.key.length ++ (first ++ [op])) ++ more) := by
    rw [RawEntry.bytesOther other, here]
    simp
  have head : readRange .keyops (some (rawBytes before ++ (e.bytes ++ rest))) (rawBytes before).length
      (4 + key.length + 1) = .ok (le 4 e.key.length ++ (first ++ [op])) := by
    rw [readRange, regroup, readAtAppend rfl (by simp; omega)]
  have last : (le 4 e.key.length ++ (first ++ [op])).getLast? = some op := by
    rw [← List.append_assoc, List.getLast?_concat]
  unfold get
  simp only [passes, Bool.not_true, Bool.false_eq_true, if_false, found, offset, keyops, head, bind,
    Except.bind, last, Option.some.injEq]
  rfl

theorem numbersAt {first more : List UInt8} {op : UInt8} (other : e.op ≠ 1)
    (here : e.key ++ e.op :: rest = first ++ op :: more) (length : first.length = key.length) :
    readRange .keyops (some (rawBytes before ++ (e.bytes ++ rest)))
        ((rawBytes before).length + (4 + key.length + 1)) 16 =
      if 16 ≤ more.length then .ok (more.take 16) else .error (.io (.read .keyops)) := by
  have regroup : rawBytes before ++ (e.bytes ++ rest) =
      (rawBytes before ++ (le 4 e.key.length ++ (first ++ [op]))) ++ more := by
    rw [RawEntry.bytesOther other, here]
    simp
  have start : (rawBytes before ++ (le 4 e.key.length ++ (first ++ [op]))).length =
      (rawBytes before).length + (4 + key.length + 1) := by
    simp
    omega
  rw [readRange, regroup]
  by_cases enough : 16 ≤ more.length
  · have parts := readAtAppend start (show (more.take 16).length = 16 by simp; omega) (more.drop 16)
    rw [List.take_append_drop] at parts
    rw [parts, if_pos enough]
  · have beyond : ¬ (16 = 0 ∨ (rawBytes before).length + (4 + key.length + 1) + 16 ≤
        ((rawBytes before ++ (le 4 e.key.length ++ (first ++ [op]))) ++ more).length) := by
      rw [List.length_append, start]
      omega
    rw [readAt, if_neg beyond, if_neg enough]

theorem getInside {value : Value} (other : e.op ≠ 1)
    (keyops : (disk handle.runNumber).keyops = some (rawBytes before ++ (e.bytes ++ rest)))
    (found : BinarySearch.search (fun i => compare (handle.index.keys.getD i []) key)
      handle.index.keys.length = some pos)
    (offset : handle.index.keyopsOffsets[pos]? = some (rawBytes before).length)
    (passes : handle.bloomFilter.mightContain crates.hash key = true)
    (ok : get crates disk handle key = .ok (some value)) :
    ∃ first op more, e.key ++ e.op :: rest = first ++ op :: more ∧ first.length = key.length := by
  by_cases room : key.length < (e.key ++ e.op :: rest).length
  · refine ⟨(e.key ++ e.op :: rest).take key.length, (e.key ++ e.op :: rest)[key.length],
      (e.key ++ e.op :: rest).drop (key.length + 1), ?_, by rw [List.length_take]; omega⟩
    rw [← List.drop_eq_getElem_cons room, List.take_append_drop]
  · have beyond : ¬ (4 + key.length + 1 = 0 ∨ (rawBytes before).length + (4 + key.length + 1) ≤
        (rawBytes before ++ (e.bytes ++ rest)).length) := by
      rw [RawEntry.bytesOther other, List.length_append, List.length_append, leLength]
      omega
    have short : readRange .keyops (some (rawBytes before ++ (e.bytes ++ rest))) (rawBytes before).length
        (4 + key.length + 1) = .error (.io (.read .keyops)) := by
      rw [readRange, readAt, if_neg beyond]
    unfold get at ok
    simp only [passes, Bool.not_true, Bool.false_eq_true, if_false, found, offset, keyops, short, bind,
      Except.bind] at ok
    cases ok

end Lookup

theorem getStrictIff (data : List UInt8) : GetStrict data ↔
    ∀ (before : List RawEntry) (e : RawEntry) (rest : List UInt8),
      data = rawBytes before ++ (e.bytes ++ rest) → e.op ≠ 1 → Inert e rest := by
  constructor
  · rintro strict before e rest rfl other first op more here enough
    by_contra value
    let offset := readLE ((more.take 16).take 8)
    let size := readLE (((more.take 16).drop 8).take 8)
    let crates : Crates := ⟨⟨Unit, (), fun _ _ => (), fun _ => 0⟩, fun _ _ => 0, ⟨fun _ => .error "", fun _ => .error ""⟩,
      ⟨fun _ => .error "", fun _ => .error ""⟩⟩
    let disk : Disk := fun _ => ⟨some (rawBytes before ++ (e.bytes ++ rest)),
      some (List.replicate (offset + size) 0), none, none, none⟩
    -- The key asked for is what stands before the byte that is to be the op byte.
    let handle : SsTableHandle := ⟨0, [], [], 1, 0, BloomFilter.fromKeys crates.hash [first] 10,
      ⟨[first], [(rawBytes before).length]⟩⟩
    have passes : handle.bloomFilter.mightContain crates.hash first = true :=
      BloomFilter.fromKeysContains crates.hash List.mem_cons_self (by decide)
    have found : BinarySearch.search (fun i => compare (handle.index.keys.getD i []) first)
        handle.index.keys.length = some 0 := by simp [handle, BinarySearch.search, BinarySearch.narrow]
    have blob : readRange .blobs (some (List.replicate (offset + size) 0)) offset size =
        .ok (List.replicate size 0) := by simp [readRange, readAt]
    have keyops : (disk handle.runNumber).keyops = some (rawBytes before ++ (e.bytes ++ rest)) := rfl
    have got : get crates disk handle first = .ok (some (List.replicate size 0)) := by
      rw [getAt other here rfl keyops found rfl passes, if_neg value, numbersAt other here rfl, if_pos enough]
      show (readRange .blobs (some (List.replicate (offset + size) 0)) offset size >>= fun blob =>
        pure (some blob)) = _
      rw [blob]
      rfl
    exact other (strict crates disk handle before e rest first 0 _ keyops rfl found rfl got)
  · intro inert crates disk handle before e rest key pos value keyops same found offset ok
    subst same
    by_contra other
    by_cases passes : handle.bloomFilter.mightContain crates.hash key = true
    · obtain ⟨first, op, more, here, length⟩ := getInside other keyops found offset passes ok
      rw [getAt other here length keyops found offset passes] at ok
      by_cases zero : op = 0
      · rw [if_pos zero] at ok
        cases ok
      · have few : ¬ 16 ≤ more.length := fun enough => zero (inert before e rest rfl other first op more here enough)
        rw [if_neg zero, numbersAt other here length, if_neg few] at ok
        cases ok
    · simp [get, passes] at ok

inductive Laid : Nat → List (Key × Entry) → List RawEntry → Prop where
  | nil (blobOffset : Nat) : Laid blobOffset [] []
  | cons {blobOffset : Nat} {e : Key × Entry} {rest : List (Key × Entry)} {raw : RawEntry} {raws : List RawEntry}
      (stores : raw.Stores blobOffset e) (tail : Laid (blobOffset + valueLength e) rest raws) :
      Laid blobOffset (e :: rest) (raw :: raws)

theorem Laid.bytes {blobOffset : Nat} {entries : List (Key × Entry)} {es : List RawEntry}
    (laid : Laid blobOffset entries es) : keyopsOf blobOffset entries = rawBytes es := by
  induction laid with
  | nil blobOffset => rfl
  | cons stores tail ih =>
    rw [keyopsOf, ih, ← stores.bytes]
    simp [rawBytes]

theorem keyopsRaw {entries : List (Key × Entry)} {blobOffset : Nat}
    (expressible : ∀ e ∈ entries, Expressible e)
    (small : blobOffset + (entries.map valueLength).sum < 2 ^ 64) : ∃ es, Laid blobOffset entries es := by
  induction entries generalizing blobOffset with
  | nil => exact ⟨[], .nil blobOffset⟩
  | cons e rest ih =>
    rw [List.map_cons, List.sum_cons] at small
    obtain ⟨raw, stores⟩ := recordRaw (expressible e List.mem_cons_self) (show blobOffset < 2 ^ 64 by omega)
    obtain ⟨es, later⟩ := ih (fun x member => expressible x (List.mem_cons_of_mem e member))
      (show blobOffset + valueLength e + (rest.map valueLength).sum < 2 ^ 64 by omega)
    exact ⟨raw :: es, .cons stores later⟩

def Refused (data : List UInt8) : Prop :=
  ∀ (disk : Disk) (handle : SsTableHandle) (lo hi : Key), (disk handle.runNumber).keyops = some data →
    ∃ err, rangeWithTombstones disk handle lo hi = .error err

theorem cutRefused {es : List RawEntry} {e : RawEntry} {cut : Nat} (before : cut < e.bytes.length) :
    Refused (rawBytes es ++ e.bytes.take cut) ↔ 4 ≤ cut := by
  have length : (e.bytes.take cut).length = cut := by
    rw [List.length_take]
    omega
  constructor
  · intro refused
    by_contra short
    have handle : SsTableHandle := ⟨0, [], [], 0, 0, ⟨[], 0, 0⟩, ⟨[], []⟩⟩
    obtain ⟨err, failed⟩ := refused
      (fun _ => ⟨some (rawBytes es ++ e.bytes.take cut), none, none, none, none⟩) handle [0] [] rfl
    rw [rangeLoose (by omega) rfl] at failed
    cases failed
  · intro enough disk handle lo hi keyops
    cases out : rangeWithTombstones disk handle lo hi with
    | error err => exact ⟨err, rfl⟩
    | ok entries =>
      obtain ⟨es', tail, same, short⟩ := rangeParts keyops out
      obtain ⟨later, -, parts⟩ := rawSplit short same.symm
      cases later with
      | nil =>
        have lengths := congrArg List.length parts
        rw [length] at lengths
        simp only [rawBytes, List.flatMap_nil, List.nil_append] at lengths
        omega
      | cons first rest =>
        have whole : e.bytes ++ [] = first.bytes ++ ((rawBytes rest ++ tail) ++ e.bytes.drop cut) := by
          rw [List.append_nil, ← List.append_assoc, ← rawCons, parts, List.take_append_drop]
        obtain ⟨-, none⟩ := rawHead whole
        have dropped := congrArg List.length none
        rw [List.length_append, List.length_drop] at dropped
        simp only [List.length_nil] at dropped
        omega

/-- For every content of the keyops file: the scan takes no damaged file exactly if reading
it entry by entry meets no op byte but 0 and 1 and leaves nothing over, or gets stuck in an
entry; the lookup agrees with the scan exactly if after the length field of an entry that is
no value only zeros have sixteen bytes after them; and a written file cut inside an entry is
refused exactly if four bytes of it are left. -/
theorem damagedKeyops (data : List UInt8) :
    (ScanStrict data ↔ ∀ es tail, data = rawBytes es ++ tail → tail.length < 4 →
      tail = [] ∧ ∀ e ∈ es, e.Known) ∧
    (GetStrict data ↔ ∀ (before : List RawEntry) (e : RawEntry) (rest : List UInt8),
      data = rawBytes before ++ (e.bytes ++ rest) → e.op ≠ 1 → Inert e rest) ∧
    ∀ (entries : List (Key × Entry)) (e : Key × Entry) (cut : Nat),
      (∀ x ∈ entries ++ [e], Expressible x) → ((entries ++ [e]).map valueLength).sum < 2 ^ 64 →
      cut < recordLength e →
      data = keyopsOf 0 entries ++ (record (entries.map valueLength).sum e).take cut →
        (Refused data ↔ 4 ≤ cut) := by
  refine ⟨scanStrictIff data, getStrictIff data, ?_⟩
  rintro entries e cut expressible small inside rfl
  rw [List.map_append, List.map_singleton, List.sum_append, List.sum_singleton] at small
  obtain ⟨es, laid⟩ := keyopsRaw (fun x member => expressible x (List.mem_append_left _ member))
    (show 0 + (entries.map valueLength).sum < 2 ^ 64 by omega)
  obtain ⟨raw, stores⟩ := recordRaw (expressible e (by simp))
    (show (entries.map valueLength).sum < 2 ^ 64 by omega)
  rw [laid.bytes, ← stores.bytes]
  exact cutRefused (by rw [stores.bytes, recordLengthEq]; exact inside)

theorem damageAccepted : ¬ ScanStrict [7] ∧ ¬ ScanStrict [1, 0, 0, 0, 107, 2] ∧
    ¬ GetStrict ([1, 0, 0, 0, 107, 2] ++ List.replicate 16 0) ∧
    ¬ GetStrict [18, 0, 0, 0, 97, 98, 0, 0, 0, 0, 0, 0, 0, 0, 1, 0, 0, 0, 0, 0, 0, 0, 0, 1, 0, 0, 0, 97, 0] := by
  refine ⟨fun strict => ?_, fun strict => ?_, fun strict => ?_, fun strict => ?_⟩
  · have whole := (scanStrictIff _).mp strict [] [7] rfl (by decide)
    exact absurd whole.1 (by decide)
  · have whole := (scanStrictIff _).mp strict [⟨[107], 2, [], by decide, by decide⟩] [] rfl (by decide)
    exact (whole.2 _ List.mem_cons_self).elim (by decide) (by decide)
  · have inert := (getStrictIff _).mp strict [] ⟨[107], 2, [], by decide, by decide⟩ (List.replicate 16 0) rfl
      (by decide)
    exact absurd (inert [107] 2 (List.replicate 16 0) rfl (by decide)) (by decide)
  · have inert := (getStrictIff _).mp strict []
      ⟨[97, 98, 0, 0, 0, 0, 0, 0, 0, 0, 1, 0, 0, 0, 0, 0, 0, 0], 0, [], by decide, by decide⟩
      [1, 0, 0, 0, 97, 0] rfl (by decide)
    exact absurd (inert [97] 98
      [0, 0, 0, 0, 0, 0, 0, 0, 1, 0, 0, 0, 0, 0, 0, 0, 0, 1, 0, 0, 0, 97, 0] rfl (by decide)) (by decide)

end CardanoLsm.Format
