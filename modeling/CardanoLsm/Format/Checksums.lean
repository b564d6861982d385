import CardanoLsm.Lib.Bytes

/-! The checksums of a run's files and the text file that lists them (`checksum.rs`,
`checksum_handle.rs`). A file name in the list has no parenthesis and no newline. -/
namespace CardanoLsm.Format

abbrev Text := List Char

structure Crc32 where
  State : Type
  new : State
  update : State → List UInt8 → State
  finalize : State → UInt32

namespace Crc32

def ofChunks (crc : Crc32) (chunks : List (List UInt8)) : UInt32 :=
  crc.finalize (chunks.foldl crc.update crc.new)

def OfBytes (crc : Crc32) : Prop :=
  ∀ chunks chunks', chunks.flatten = chunks'.flatten → crc.ofChunks chunks = crc.ofChunks chunks'

def readFileCrc32c (crc : Crc32) (contents : List UInt8) : UInt32 :=
  crc.ofChunks (Bytes.chunks 8192 contents.length contents)

theorem readOfBytes {crc : Crc32} (ofBytes : crc.OfBytes) (chunks : List (List UInt8)) :
    crc.readFileCrc32c chunks.flatten = crc.ofChunks chunks :=
  ofBytes _ _ (Bytes.chunksFlatten (by decide) (Nat.le_refl _))

end Crc32

def toHex (crc : UInt32) : Text :=
  [7, 6, 5, 4, 3, 2, 1, 0].map (fun i => Nat.digitChar (crc.toNat / 16 ^ i % 16))

def hexDigit (c : Char) : Option Nat :=
  if '0' ≤ c ∧ c ≤ '9' then some (c.toNat - '0'.toNat)
  else if 'a' ≤ c ∧ c ≤ 'f' then some (c.toNat - 'a'.toNat + 10)
  else if 'A' ≤ c ∧ c ≤ 'F' then some (c.toNat - 'A'.toNat + 10)
  else none

def fromHex (s : Text) : Except String UInt32 :=
  let digits := if s.head? = some '+' then s.tail else s
  match digits.foldlM (fun n c => (hexDigit c).map (fun d => n * 16 + d)) 0 with
  | some n => if digits = [] ∨ 2 ^ 32 ≤ n then .error "Failed to parse hex" else .ok (UInt32.ofNat n)
  | none => .error "Failed to parse hex"

abbrev ChecksumsFile := List (Text × UInt32)

namespace ChecksumsFile

def insert (file : ChecksumsFile) (name : Text) (crc : UInt32) : ChecksumsFile :=
  (name, crc) :: file.filter (fun e => e.1 != name)

def keyops : Text := ['k', 'e', 'y', 'o', 'p', 's']
def blobs : Text := ['b', 'l', 'o', 'b', 's']
def filter : Text := ['f', 'i', 'l', 't', 'e', 'r']
def index : Text := ['i', 'n', 'd', 'e', 'x']

end ChecksumsFile

def isSpace (c : Char) : Bool :=
  (9 ≤ c.toNat && c.toNat ≤ 13) || (0x2000 ≤ c.toNat && c.toNat ≤ 0x200A) ||
    [0x20, 0x85, 0xA0, 0x1680, 0x2028, 0x2029, 0x202F, 0x205F, 0x3000].contains c.toNat

def trim (s : Text) : Text := (s.dropWhile isSpace).rdropWhile isSpace

def lines : Text → List Text
  | [] => []
  | c :: rest =>
    if c = '\n' then [] :: lines rest
    else match lines rest with
      | [] => [[c]]
      | line :: more => (c :: line) :: more

def lineStart : Text := ['C', 'R', 'C', '3', '2', 'C', ' ', '(']

def parseChecksumLine (line : Text) : Except String (Text × Text) :=
  if !(lineStart.isPrefixOf line) then
    .error s!"Expected line to start with 'CRC32C (', got: {String.ofList line}"
  else match line.idxOf? ')' with
    | none => .error s!"Expected ')' in line: {String.ofList line}"
    | some closeParen =>
      let filename := (line.take closeParen).drop 8
      if filename.contains '\n' || filename.contains '(' || filename.contains ')' then
        .error s!"Invalid characters in filename: {String.ofList filename}"
      else
        let rest := trim (line.drop (closeParen + 1))
        if rest.head? ≠ some '=' then
          .error s!"Expected '=' after filename, got: {String.ofList rest}"
        else
          let hexValue := trim rest.tail
          if (hexValue.map Char.utf8Size).sum ≠ 8 then
            .error s!"Expected 8 hex digits, got: {String.ofList hexValue}"
          else .ok (filename, hexValue)

def parseNext (checksums : ChecksumsFile) (numbered : Text × Nat) : Except String ChecksumsFile :=
  let line := trim numbered.1
  if line = [] then .ok checksums
  else match parseChecksumLine line with
    | .error e => .error s!"Line {numbered.2 + 1}: {e}"
    | .ok (filename, hexValue) =>
      match fromHex hexValue with
      | .error e => .error s!"Line {numbered.2 + 1}: {e}"
      | .ok crc => .ok (checksums.insert filename crc)

def parseChecksumsFile (content : Text) : Except String ChecksumsFile :=
  (lines content).zipIdx.foldlM parseNext []

def formatLine (e : Text × UInt32) : Text :=
  lineStart ++ (e.1 ++ ([')', ' ', '=', ' '] ++ toHex e.2))

def formatChecksumsFile (checksums : ChecksumsFile) : Text :=
  (checksums.insertionSort (fun a b => (compare a.1 b.1).isLE = true)).flatMap
    (fun e => formatLine e ++ ['\n'])

def getChecksum (checksums : ChecksumsFile) (filename : Text) : Except String UInt32 :=
  match checksums.lookup filename with
  | some crc => .ok crc
  | none => .error s!"Checksum not found for file: {String.ofList filename}"

theorem hexDigitChar {d : Nat} (small : d < 16) : hexDigit (Nat.digitChar d) = some d := by
  interval_cases d <;> rfl

theorem hexDigitPlain {d : Nat} (small : d < 16) :
    isSpace (Nat.digitChar d) = false ∧ Nat.digitChar d ≠ '\n' ∧ Nat.digitChar d ≠ '+' ∧
      (Nat.digitChar d).utf8Size = 1 := by
  interval_cases d <;> decide

theorem toHexDigits (crc : UInt32) : ∀ c ∈ toHex crc, ∃ d < 16, c = Nat.digitChar d := by
  intro c member
  obtain ⟨i, _, rfl⟩ := List.mem_map.mp member
  exact ⟨_, Nat.mod_lt _ (by decide), rfl⟩

theorem hexStep (n i : Nat) : n / 16 ^ (i + 1) * 16 + n / 16 ^ i % 16 = n / 16 ^ i := by
  rw [Nat.pow_succ, ← Nat.div_div_eq_div_mul]
  exact Nat.div_add_mod' _ _

theorem fromToHex (crc : UInt32) : fromHex (toHex crc) = .ok crc := by
  have bound := crc.toNat_lt
  have digit : ∀ i, hexDigit (Nat.digitChar (crc.toNat / 16 ^ i % 16)) = some (crc.toNat / 16 ^ i % 16) :=
    fun i => hexDigitChar (Nat.mod_lt _ (by decide))
  have unsigned : (toHex crc).head? ≠ some '+' := by
    simp only [toHex, List.map_cons, List.head?_cons, ne_eq, Option.some.injEq]
    exact (hexDigitPlain (Nat.mod_lt _ (by decide))).2.2.1
  have value : (toHex crc).foldlM (fun n c => (hexDigit c).map (fun d => n * 16 + d)) 0 =
      some crc.toNat := by
    have above : crc.toNat / 16 ^ 8 = 0 := Nat.div_eq_of_lt bound
    have first : 0 * 16 + crc.toNat / 16 ^ 7 % 16 = crc.toNat / 16 ^ 7 := by
      have step := hexStep crc.toNat 7
      rwa [above] at step
    simp only [toHex, List.map_cons, List.map_nil, List.foldlM_cons, List.foldlM_nil, digit,
      Option.map_some, bind, Option.bind_some, pure, first, hexStep]
    rw [pow_zero, Nat.div_one]
  unfold fromHex
  have fits : ¬ (toHex crc = [] ∨ 2 ^ 32 ≤ crc.toNat) := by
    rintro (empty | large)
    · simp [toHex] at empty
    · omega
  simp only [unsigned, if_false, value, if_neg fits, UInt32.ofNat_toNat]

def Blank (s : Text) : Prop := ∀ c ∈ s, isSpace c = true

def Trimmed (s : Text) : Prop :=
  (∀ c ∈ s.head?, isSpace c = false) ∧ ∀ c ∈ s.getLast?, isSpace c = false

theorem trimPad {before s after : Text} (front : Blank before) (back : Blank after) (ends : Trimmed s)
    (nonempty : s ≠ []) : trim (before ++ (s ++ after)) = s := by
  have first : (before ++ (s ++ after)).dropWhile isSpace = s ++ after := by
    rw [List.dropWhile_append_of_pos front]
    cases s with
    | nil => exact absurd rfl nonempty
    | cons c rest =>
      have plain : isSpace c = false := ends.1 c rfl
      simp [plain]
  have last : s.rdropWhile isSpace = s := by
    rw [List.rdropWhile_eq_self_iff]
    intro some
    simp [ends.2 _ (List.getLast?_eq_some_getLast some)]
  rw [trim, first, List.rdropWhile, List.reverse_append,
    List.dropWhile_append_of_pos (fun c member => back c (List.mem_reverse.mp member))]
  exact last

theorem linesAppend {line : Text} (single : '\n' ∉ line) (rest : Text) :
    lines (line ++ '\n' :: rest) = line :: lines rest := by
  induction line with
  | nil => rfl
  | cons c line ih =>
    simp only [List.mem_cons, not_or] at single
    have later := ih single.2
    rw [List.cons_append, lines, if_neg (Ne.symm single.1), later]

theorem hexSome (crc : UInt32) : toHex crc ≠ [] := by simp [toHex]

theorem trimmedHex {before : Text} (first : ∀ c ∈ before.head?, isSpace c = false) (crc : UInt32) :
    Trimmed (before ++ toHex crc) := by
  have plain : ∀ c ∈ toHex crc, isSpace c = false := by
    intro c member
    obtain ⟨d, small, rfl⟩ := toHexDigits crc c member
    exact (hexDigitPlain small).1
  constructor
  · intro c head
    cases before with
    | nil => exact plain c (List.mem_of_head? head)
    | cons d rest => exact first c head
  · intro c last
    rw [List.getLast?_append_of_ne_nil _ (hexSome crc)] at last
    exact plain c (List.mem_of_getLast? last)

theorem trimmedHexOnly (crc : UInt32) : Trimmed (toHex crc) := by
  have first : ∀ c ∈ ([] : Text).head?, isSpace c = false := fun _ member => by cases member
  simpa using trimmedHex first crc

theorem trimHex (crc : UInt32) : trim (toHex crc) = toHex crc := by
  have none : Blank [] := fun _ member => absurd member List.not_mem_nil
  simpa using trimPad none none (trimmedHexOnly crc) (hexSome crc)

theorem hexLength (crc : UInt32) : ((toHex crc).map Char.utf8Size).sum = 8 := by
  have digit : ∀ i, (Nat.digitChar (crc.toNat / 16 ^ i % 16)).utf8Size = 1 :=
    fun i => (hexDigitPlain (Nat.mod_lt _ (by decide))).2.2.2
  simp only [toHex, List.map_cons, List.map_nil, digit]
  rfl

structure ValidName (name : Text) : Prop where
  newline : '\n' ∉ name
  openParen : '(' ∉ name
  closeParen : ')' ∉ name

theorem idxOfAppend {c : Char} {before : Text} (absent : c ∉ before) (rest : Text) :
    (before ++ c :: rest).idxOf? c = some before.length := by
  induction before with
  | nil => simp [List.idxOf?_cons]
  | cons d before ih =>
    simp only [List.mem_cons, not_or] at absent
    have other : (d == c) = false := by simpa using Ne.symm absent.1
    rw [List.cons_append, List.idxOf?_cons, other, ih absent.2]
    rfl

structure ChecksumLine (line name hex : Text) : Prop where
  parts : ∃ before between gap after, line = before ++ ((lineStart ++ (name ++ ')' ::
    (between ++ '=' :: (gap ++ hex)))) ++ after) ∧ Blank before ∧ Blank between ∧ Blank gap ∧ Blank after
  openParen : '(' ∉ name
  closeParen : ')' ∉ name

theorem parseEntry {line name hex : Text} (entry : ChecksumLine line name hex) (newline : '\n' ∉ name)
    (ends : Trimmed hex) (nonempty : hex ≠ []) (length : (hex.map Char.utf8Size).sum = 8) :
    trim line ≠ [] ∧ parseChecksumLine (trim line) = .ok (name, hex) := by
  obtain ⟨before, between, gap, after, rfl, front, middle, space, back⟩ := entry.parts
  have last : ∀ start : Text, ∀ c ∈ (start ++ hex).getLast?, isSpace c = false := by
    intro start c member
    rw [List.getLast?_append_of_ne_nil _ nonempty] at member
    exact ends.2 c member
  have trimmed : trim (before ++ ((lineStart ++ (name ++ ')' :: (between ++ '=' :: (gap ++ hex)))) ++ after)) =
      lineStart ++ (name ++ ')' :: (between ++ '=' :: (gap ++ hex))) := by
    refine trimPad front back ⟨fun c member => ?_, fun c member => ?_⟩ (by simp [lineStart])
    · cases member
      rfl
    · exact last (lineStart ++ (name ++ ')' :: (between ++ '=' :: gap))) c (by simpa using member)
  rw [trimmed]
  refine ⟨by simp [lineStart], ?_⟩
  have regroup : lineStart ++ (name ++ ')' :: (between ++ '=' :: (gap ++ hex))) =
      (lineStart ++ name) ++ ')' :: (between ++ '=' :: (gap ++ hex)) := by simp
  have begins : lineStart.isPrefixOf (lineStart ++ (name ++ ')' :: (between ++ '=' :: (gap ++ hex)))) = true :=
    List.isPrefixOf_iff_prefix.mpr (List.prefix_append _ _)
  have closes : (lineStart ++ (name ++ ')' :: (between ++ '=' :: (gap ++ hex)))).idxOf? ')' =
      some (lineStart ++ name).length := by
    rw [regroup]
    refine idxOfAppend ?_ _
    simp only [List.mem_append, not_or]
    exact ⟨by decide, entry.closeParen⟩
  have within : ((lineStart ++ (name ++ ')' :: (between ++ '=' :: (gap ++ hex)))).take
      (lineStart ++ name).length).drop 8 = name := by
    rw [regroup, List.take_left]
    rfl
  have behind : (lineStart ++ (name ++ ')' :: (between ++ '=' :: (gap ++ hex)))).drop
      ((lineStart ++ name).length + 1) = between ++ '=' :: (gap ++ hex) := by
    rw [regroup, ← List.drop_drop, List.drop_left]
    rfl
  have none : Blank [] := fun _ member => absurd member List.not_mem_nil
  have equals : trim (between ++ '=' :: (gap ++ hex)) = '=' :: (gap ++ hex) := by
    have kept := trimPad (s := '=' :: (gap ++ hex)) middle none
      ⟨fun c member => by cases member; rfl, last ('=' :: gap)⟩ (by simp)
    rwa [List.append_nil] at kept
  have value : trim (gap ++ hex) = hex := by
    have kept := trimPad space none ends nonempty
    rwa [List.append_nil] at kept
  unfold parseChecksumLine
  simp only [begins, closes, within, behind, equals, List.tail_cons, value]
  simp [newline, entry.openParen, entry.closeParen, length]

theorem formatEntry {name : Text} (valid : ValidName name) (crc : UInt32) :
    ChecksumLine (formatLine (name, crc)) name (toHex crc) := by
  have space : Blank [' '] := fun c member => by
    rw [List.mem_singleton.mp member]
    rfl
  have none : Blank [] := fun _ member => absurd member List.not_mem_nil
  exact ⟨⟨[], [' '], [' '], [], by simp [formatLine], none, space, space, none⟩, valid.openParen,
    valid.closeParen⟩

theorem parseFormatLine {name : Text} (valid : ValidName name) (crc : UInt32) :
    trim (formatLine (name, crc)) ≠ [] ∧
      parseChecksumLine (trim (formatLine (name, crc))) = .ok (name, toHex crc) :=
  parseEntry (formatEntry valid crc) valid.newline (trimmedHexOnly crc) (hexSome crc) (hexLength crc)

theorem lineSingle {e : Text × UInt32} (valid : ValidName e.1) : '\n' ∉ formatLine e := by
  have hex : '\n' ∉ toHex e.2 := by
    intro member
    obtain ⟨d, small, same⟩ := toHexDigits e.2 _ member
    exact (hexDigitPlain small).2.1 same.symm
  simp only [formatLine, List.mem_append, not_or]
  exact ⟨by decide, valid.newline, by decide, hex⟩

theorem linesFormat {file : ChecksumsFile} (valid : ∀ e ∈ file, ValidName e.1) :
    lines (file.flatMap (fun e => formatLine e ++ ['\n'])) = file.map formatLine := by
  induction file with
  | nil => rfl
  | cons e rest ih =>
    have single := lineSingle (valid e List.mem_cons_self)
    have later := ih (fun x member => valid x (List.mem_cons_of_mem e member))
    rw [List.flatMap_cons, List.append_assoc, List.singleton_append, linesAppend single, later,
      List.map_cons]

theorem parseLines {file : ChecksumsFile} (valid : ∀ e ∈ file, ValidName e.1)
    (checksums : ChecksumsFile) (i : Nat) :
    ((file.map formatLine).zipIdx i).foldlM parseNext checksums =
      .ok (file.foldl (fun acc e => acc.insert e.1 e.2) checksums) := by
  induction file generalizing checksums i with
  | nil => rfl
  | cons e rest ih =>
    obtain ⟨some, parsed⟩ := parseFormatLine (valid e List.mem_cons_self) e.2
    have first : parseNext checksums (formatLine e, i) = .ok (checksums.insert e.1 e.2) := by
      simp only [parseNext, if_neg some, parsed, fromToHex]
    rw [List.map_cons, List.zipIdx_cons, List.foldlM_cons, first]
    exact ih (fun x member => valid x (List.mem_cons_of_mem e member)) _ _

theorem parseFormat {file : ChecksumsFile} (valid : ∀ e ∈ file, ValidName e.1) :
    parseChecksumsFile (formatChecksumsFile file) =
      .ok ((file.insertionSort (fun a b => (compare a.1 b.1).isLE = true)).foldl
        (fun acc e => acc.insert e.1 e.2) []) := by
  have sorted : ∀ e ∈ file.insertionSort (fun a b => (compare a.1 b.1).isLE = true), ValidName e.1 :=
    fun e member => valid e ((List.perm_insertionSort _ _).mem_iff.mp member)
  rw [parseChecksumsFile, formatChecksumsFile, linesFormat sorted, parseLines sorted]

theorem insertDistinct {file checksums : ChecksumsFile}
    (distinct : ((file ++ checksums).map Prod.fst).Nodup) :
    file.foldl (fun acc e => acc.insert e.1 e.2) checksums = file.reverse ++ checksums := by
  induction file generalizing checksums with
  | nil => rfl
  | cons e rest ih =>
    rw [List.cons_append, List.map_cons, List.nodup_cons] at distinct
    have absent : ∀ x ∈ checksums, x.1 ≠ e.1 := fun x member same =>
      distinct.1 (same ▸ List.mem_map_of_mem (List.mem_append_right rest member))
    have kept : List.filter (fun x => x.1 != e.1) checksums = checksums :=
      List.filter_eq_self.mpr (fun x member => by simpa using absent x member)
    have next : checksums.insert e.1 e.2 = e :: checksums := by rw [ChecksumsFile.insert, kept]
    have once : ((rest ++ e :: checksums).map Prod.fst).Nodup := by
      have moved : ((rest ++ e :: checksums).map Prod.fst).Perm ((e :: (rest ++ checksums)).map Prod.fst) :=
        List.perm_middle.map _
      refine moved.nodup_iff.mpr ?_
      rw [List.map_cons, List.nodup_cons]
      exact distinct
    rw [List.foldl_cons, next, ih once, List.reverse_cons, List.append_assoc, List.singleton_append]

theorem checksumsRoundTrip (m : ChecksumsFile) (distinct : (m.map Prod.fst).Nodup)
    (valid : ∀ e ∈ m, ValidName e.1) :
    ∃ read : ChecksumsFile, parseChecksumsFile (formatChecksumsFile m) = .ok read ∧ read.Perm m := by
  have sorted := List.perm_insertionSort (fun a b : Text × UInt32 => (compare a.1 b.1).isLE = true) m
  refine ⟨_, parseFormat valid, ?_⟩
  rw [insertDistinct (by
    rw [List.append_nil]
    exact (sorted.map _).nodup_iff.mpr distinct), List.append_nil]
  exact (List.reverse_perm _).trans sorted

theorem checksumsRoundTripOdd : ∃ read : ChecksumsFile,
    parseChecksumsFile (formatChecksumsFile [([], 10), ([' ', '=', '\r'], 4244897796)]) = .ok read ∧
      read.Perm [([], 10), ([' ', '=', '\r'], 4244897796)] := by
  refine checksumsRoundTrip [([], 10), ([' ', '=', '\r'], 4244897796)] (by decide) (fun e member => ?_)
  simp only [List.mem_cons, List.not_mem_nil, or_false] at member
  rcases member with rfl | rfl <;> exact ⟨by decide, by decide, by decide⟩

end CardanoLsm.Format
