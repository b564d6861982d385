import CardanoLsm.Format.Checksums
import CardanoLsm.Lib.Assoc

/-! What the parser of the checksum list accepts. `from_str_radix` takes a plus sign before
the digits, so a line may also carry a sign and seven digits. -/
namespace CardanoLsm.Format

def HexValue (digits : Text) (crc : UInt32) : Prop :=
  (∀ c ∈ digits, (hexDigit c).isSome = true) ∧
    crc = UInt32.ofNat (digits.foldl (fun n c => n * 16 + (hexDigit c).getD 0) 0)

def EightDigits (hex : Text) (crc : UInt32) : Prop := hex.length = 8 ∧ HexValue hex crc

def SignedSeven (hex : Text) (crc : UInt32) : Prop :=
  ∃ seven, hex = '+' :: seven ∧ seven.length = 7 ∧ HexValue seven crc

def Reads (line : Text) : Option (Text × UInt32) → Prop
  | none => Blank line
  | some (name, crc) => ∃ hex, ChecksumLine line name hex ∧ EightDigits hex crc

def Signed (line : Text) : Prop := ∃ name hex crc, ChecksumLine line name hex ∧ SignedSeven hex crc

def Accepts (line : Text) : Option (Text × UInt32) → Prop
  | none => Blank line
  | some (name, crc) => ∃ hex, ChecksumLine line name hex ∧ (EightDigits hex crc ∨ SignedSeven hex crc)

theorem hexDigitBounds {c : Char} {d : Nat} (found : hexDigit c = some d) :
    d < 16 ∧ c.utf8Size = 1 ∧ isSpace c = false ∧ c ≠ '+' := by
  have range : d < 16 ∧ (48 ≤ c.toNat ∧ c.toNat ≤ 57 ∨ 65 ≤ c.toNat ∧ c.toNat ≤ 70 ∨
      97 ≤ c.toNat ∧ c.toNat ≤ 102) := by
    unfold hexDigit at found
    split at found
    · rename_i digit
      have low : 48 ≤ c.toNat := UInt32.le_iff_toNat_le.mp digit.1
      have high : c.toNat ≤ 57 := UInt32.le_iff_toNat_le.mp digit.2
      have zero : '0'.toNat = 48 := rfl
      cases Option.some.inj found
      omega
    · split at found
      · rename_i small
        have low : 97 ≤ c.toNat := UInt32.le_iff_toNat_le.mp small.1
        have high : c.toNat ≤ 102 := UInt32.le_iff_toNat_le.mp small.2
        have first : 'a'.toNat = 97 := rfl
        cases Option.some.inj found
        omega
      · split at found
        · rename_i large
          have low : 65 ≤ c.toNat := UInt32.le_iff_toNat_le.mp large.1
          have high : c.toNat ≤ 70 := UInt32.le_iff_toNat_le.mp large.2
          have first : 'A'.toNat = 65 := rfl
          cases Option.some.inj found
          omega
        · cases found
  refine ⟨range.1, ?_, ?_, ?_⟩
  · refine Char.utf8Size_eq_one_iff.mpr (UInt32.le_iff_toNat_le.mpr ?_)
    have bound : c.toNat ≤ 127 := by omega
    exact bound
  · simp [isSpace]
    omega
  · rintro rfl
    have plus : '+'.toNat = 43 := rfl
    omega

theorem foldDigits {digits : Text} {start value : Nat} :
    digits.foldlM (fun n c => (hexDigit c).map (fun d => n * 16 + d)) start = some value ↔
      (∀ c ∈ digits, (hexDigit c).isSome = true) ∧
        value = digits.foldl (fun n c => n * 16 + (hexDigit c).getD 0) start := by
  induction digits generalizing start with
  | nil =>
    constructor
    · intro same
      cases same
      exact ⟨fun _ member => absurd member List.not_mem_nil, rfl⟩
    · rintro ⟨-, rfl⟩
      rfl
  | cons c rest ih =>
    rw [List.foldlM_cons, List.foldl_cons]
    cases found : hexDigit c with
    | none => simp [found]
    | some d => simp [found, ih]

theorem foldBounded {digits : Text} (digit : ∀ c ∈ digits, (hexDigit c).isSome = true) (start : Nat) :
    digits.foldl (fun n c => n * 16 + (hexDigit c).getD 0) start < (start + 1) * 16 ^ digits.length := by
  induction digits generalizing start with
  | nil => simp
  | cons c rest ih =>
    obtain ⟨d, found⟩ := Option.isSome_iff_exists.mp (digit c List.mem_cons_self)
    have small := (hexDigitBounds found).1
    have later := ih (fun x member => digit x (List.mem_cons_of_mem c member)) (start * 16 + d)
    rw [List.foldl_cons, found, Option.getD_some]
    calc rest.foldl (fun n c => n * 16 + (hexDigit c).getD 0) (start * 16 + d)
        < (start * 16 + d + 1) * 16 ^ rest.length := later
      _ ≤ (start + 1) * 16 * 16 ^ rest.length := Nat.mul_le_mul_right _ (by omega)
      _ = (start + 1) * 16 ^ (c :: rest).length := by rw [List.length_cons, pow_succ]; ring

theorem oneByte {digits : Text} (digit : ∀ c ∈ digits, (hexDigit c).isSome = true) :
    (digits.map Char.utf8Size).sum = digits.length := by
  induction digits with
  | nil => rfl
  | cons c rest ih =>
    obtain ⟨d, found⟩ := Option.isSome_iff_exists.mp (digit c List.mem_cons_self)
    have later := ih (fun x member => digit x (List.mem_cons_of_mem c member))
    rw [List.map_cons, List.sum_cons, (hexDigitBounds found).2.1, later, List.length_cons, Nat.add_comm]

theorem hexTrimmed {digits : Text} (digit : ∀ c ∈ digits, (hexDigit c).isSome = true) : Trimmed digits := by
  have plain : ∀ c ∈ digits, isSpace c = false := by
    intro c member
    obtain ⟨d, found⟩ := Option.isSome_iff_exists.mp (digit c member)
    exact (hexDigitBounds found).2.2.1
  exact ⟨fun c first => plain c (List.mem_of_head? first), fun c last => plain c (List.mem_of_getLast? last)⟩

theorem fromDigits {hex digits : Text} {crc : UInt32}
    (unsigned : (if hex.head? = some '+' then hex.tail else hex) = digits) (nonempty : digits ≠ [])
    (short : digits.length ≤ 8) : fromHex hex = .ok crc ↔ HexValue digits crc := by
  unfold fromHex
  simp only [unsigned]
  cases value : digits.foldlM (fun n c => (hexDigit c).map (fun d => n * 16 + d)) 0 with
  | none =>
    constructor
    · intro bad
      cases bad
    · rintro ⟨digit, -⟩
      rw [foldDigits.mpr ⟨digit, rfl⟩] at value
      cases value
  | some n =>
    obtain ⟨digit, rfl⟩ := foldDigits.mp value
    have bound := foldBounded digit 0
    have fits : 16 ^ digits.length ≤ 2 ^ 32 :=
      calc 16 ^ digits.length ≤ 16 ^ 8 := Nat.pow_le_pow_right (by decide) short
        _ = 2 ^ 32 := by decide
    have within : ¬ (digits = [] ∨ 2 ^ 32 ≤ digits.foldl (fun n c => n * 16 + (hexDigit c).getD 0) 0) := by
      rintro (none | high)
      · exact nonempty none
      · omega
    simp only [if_neg within, Except.ok.injEq, HexValue]
    exact ⟨fun same => ⟨digit, same.symm⟩, fun both => both.2.symm⟩

theorem shortBytes (s : Text) : s.length ≤ (s.map Char.utf8Size).sum := by
  induction s with
  | nil => exact Nat.le_refl 0
  | cons c rest ih =>
    have one := Char.utf8Size_pos c
    rw [List.length_cons, List.map_cons, List.sum_cons]
    omega

theorem plusNoDigit {rest : Text} {crc : UInt32} : ¬ HexValue ('+' :: rest) crc := by
  rintro ⟨digit, -⟩
  exact absurd (digit '+' List.mem_cons_self) (by decide)

theorem fromHexAccepts {hex : Text} {crc : UInt32} (length : (hex.map Char.utf8Size).sum = 8) :
    fromHex hex = .ok crc ↔ EightDigits hex crc ∨ SignedSeven hex crc := by
  cases hex with
  | nil => simp at length
  | cons c rest =>
    have short := shortBytes (c :: rest)
    by_cases sign : c = '+'
    · subst sign
      have plus : '+'.utf8Size = 1 := rfl
      rw [List.map_cons, List.sum_cons, plus] at length
      have nonempty : rest ≠ [] := by
        rintro rfl
        simp at length
      have few : rest.length ≤ 8 := by
        have := shortBytes rest
        omega
      have stripped : (if ('+' :: rest).head? = some '+' then ('+' :: rest).tail else '+' :: rest) = rest := rfl
      have digits : fromHex ('+' :: rest) = .ok crc ↔ HexValue rest crc := fromDigits stripped nonempty few
      have unsigned : ¬ EightDigits ('+' :: rest) crc := fun eight => plusNoDigit eight.2
      rw [digits]
      constructor
      · intro value
        have seven := oneByte value.1
        exact Or.inr ⟨rest, rfl, by omega, value⟩
      · rintro (eight | ⟨seven, same, -, value⟩)
        · exact absurd eight unsigned
        · rwa [(List.cons.inj same).2]
    · have other : (c :: rest).head? ≠ some '+' := by simpa using sign
      have digits : fromHex (c :: rest) = .ok crc ↔ HexValue (c :: rest) crc :=
        fromDigits (if_neg other) (by simp) (by omega)
      rw [digits]
      constructor
      · intro value
        have eight := oneByte value.1
        exact Or.inl ⟨by omega, value⟩
      · rintro (eight | ⟨seven, same, -, -⟩)
        · exact eight.2
        · exact absurd (List.cons.inj same).1 sign

theorem trimSplit (s : Text) : ∃ before after, s = before ++ (trim s ++ after) ∧ Blank before ∧ Blank after := by
  refine ⟨s.takeWhile isSpace, (s.dropWhile isSpace).rtakeWhile isSpace, ?_, ?_, ?_⟩
  · rw [trim, List.rdropWhile_append_rtakeWhile, List.takeWhile_append_dropWhile]
  · exact fun c member => List.mem_takeWhile_imp member
  · intro c member
    rw [List.rtakeWhile, List.mem_reverse] at member
    exact List.mem_takeWhile_imp member

theorem trimNil {s : Text} : trim s = [] ↔ Blank s := by
  constructor
  · intro none
    obtain ⟨before, after, same, front, back⟩ := trimSplit s
    intro c member
    rw [same, none, List.nil_append] at member
    rcases List.mem_append.mp member with inside | inside
    · exact front c inside
    · exact back c inside
  · intro blank
    have none : s.dropWhile isSpace = [] := List.dropWhile_eq_nil_iff.mpr blank
    rw [trim, none]
    rfl

theorem hexEnds {hex : Text} {crc : UInt32} (value : EightDigits hex crc ∨ SignedSeven hex crc) :
    hex ≠ [] ∧ (hex.map Char.utf8Size).sum = 8 ∧ Trimmed hex := by
  rcases value with ⟨eight, digit, -⟩ | ⟨seven, rfl, length, digit, -⟩
  · refine ⟨?_, by rw [oneByte digit, eight], hexTrimmed digit⟩
    rintro rfl
    cases eight
  · have some : seven ≠ [] := by
      rintro rfl
      cases length
    refine ⟨by simp, ?_, fun c first => ?_, fun c last => ?_⟩
    · rw [List.map_cons, List.sum_cons, oneByte digit, length]
      rfl
    · cases first
      rfl
    · rw [List.getLast?_cons_of_ne_nil some] at last
      exact (hexTrimmed digit).2 c last

theorem startLength : lineStart.length = 8 := rfl

theorem lineSlices {line : Text} {closeParen : Nat} (begins : lineStart.isPrefixOf line = true)
    (found : line.idxOf? ')' = some closeParen) :
    ∃ name rest, line = lineStart ++ (name ++ ')' :: rest) ∧ ')' ∉ name ∧
      closeParen = lineStart.length + name.length ∧ (line.take closeParen).drop 8 = name ∧
      line.drop (closeParen + 1) = rest := by
  obtain ⟨tail, rfl⟩ := List.isPrefixOf_iff_prefix.mp begins
  have member : ')' ∈ lineStart ++ tail := by
    rw [← List.isSome_idxOf?, found]
    rfl
  have absent : ')' ∉ lineStart := by decide
  have inside : ')' ∈ tail := (List.mem_append.mp member).resolve_left absent
  obtain ⟨name, rest, rfl, plain⟩ := List.eq_append_cons_of_mem inside
  have regroup : lineStart ++ (name ++ ')' :: rest) = (lineStart ++ name) ++ ')' :: rest := by simp
  have place : closeParen = (lineStart ++ name).length := by
    rw [regroup, idxOfAppend (by simp [absent, plain])] at found
    exact (Option.some.inj found).symm
  refine ⟨name, rest, rfl, plain, by rw [place, List.length_append], ?_, ?_⟩
  · rw [regroup, place, List.take_left]
    rfl
  · rw [regroup, place, ← List.drop_drop, List.drop_left]
    rfl

theorem blankAppend {s s' : Text} (left : Blank s) (right : Blank s') : Blank (s ++ s') := by
  intro c member
  rcases List.mem_append.mp member with inside | inside
  · exact left c inside
  · exact right c inside

theorem parseParts {line name hex : Text} (parsed : parseChecksumLine (trim line) = .ok (name, hex)) :
    ChecksumLine line name hex ∧ (hex.map Char.utf8Size).sum = 8 := by
  obtain ⟨before, after, outer, front, back⟩ := trimSplit line
  unfold parseChecksumLine at parsed
  split at parsed
  · cases parsed
  · rename_i begins
    split at parsed
    · cases parsed
    · rename_i closeParen found
      obtain ⟨filename, rest, parts, plain, -, within, behind⟩ := lineSlices (by simpa using begins) found
      rw [within, behind] at parsed
      dsimp only at parsed
      split at parsed
      · cases parsed
      · rename_i valid
        split at parsed
        · cases parsed
        · rename_i equals
          split at parsed
          · cases parsed
          · rename_i length
            cases parsed
            obtain ⟨between, close, middle, blank, blank'⟩ := trimSplit rest
            obtain ⟨gap, last, inner, space, space'⟩ := trimSplit (trim rest).tail
            have head : trim rest = '=' :: (trim rest).tail :=
              List.eq_cons_of_mem_head? (not_not.mp equals)
            rw [inner] at head
            rw [head] at middle
            refine ⟨⟨⟨before, between, gap, last ++ (close ++ after), ?_, front, blank, space,
              blankAppend space' (blankAppend blank' back)⟩, ?_, plain⟩, not_not.mp length⟩
            · generalize trim (trim rest).tail = value at middle
              calc line = before ++ (trim line ++ after) := outer
                _ = _ := by rw [parts, middle]; simp
            · intro member
              simp [member] at valid

theorem ChecksumLine.newline {line name hex : Text} (entry : ChecksumLine line name hex) (single : '\n' ∉ line) :
    '\n' ∉ name := by
  obtain ⟨before, between, gap, after, same, -⟩ := entry.parts
  intro member
  exact single (same ▸ by simp [member])

theorem signedApart {line : Text} (single : '\n' ∉ line) (signed : Signed line) (e : Option (Text × UInt32)) :
    ¬ Reads line e := by
  obtain ⟨name, hex, crc, entry, seven⟩ := signed
  obtain ⟨nonempty, length, ends⟩ := hexEnds (Or.inr seven)
  obtain ⟨some, parsed⟩ := parseEntry entry (entry.newline single) ends nonempty length
  cases e with
  | none => exact fun blank => some (trimNil.mpr blank)
  | some e =>
    rintro ⟨hex', entry', eight⟩
    obtain ⟨nonempty', length', ends'⟩ := hexEnds (Or.inl eight)
    have parsed' := (parseEntry entry' (entry'.newline single) ends' nonempty' length').2
    rw [parsed] at parsed'
    obtain ⟨digits, rfl, -, -⟩ := seven
    cases parsed'
    exact plusNoDigit eight.2

theorem Reads.accepts {line : Text} {e : Option (Text × UInt32)} (reads : Reads line e) : Accepts line e := by
  cases e with
  | none => exact reads
  | some e =>
    obtain ⟨hex, entry, eight⟩ := reads
    exact ⟨hex, entry, Or.inl eight⟩

theorem Accepts.reads {line : Text} {e : Option (Text × UInt32)} (accepts : Accepts line e)
    (unsigned : ¬ Signed line) : Reads line e := by
  cases e with
  | none => exact accepts
  | some e =>
    obtain ⟨hex, entry, eight | seven⟩ := accepts
    · exact ⟨hex, entry, eight⟩
    · exact absurd ⟨e.1, hex, e.2, entry, seven⟩ unsigned

theorem parseNextAccepts {line : Text} (single : '\n' ∉ line) (i : Nat) {checksums after : ChecksumsFile} :
    parseNext checksums (line, i) = .ok after ↔
      ∃ e, Accepts line e ∧ after = e.elim checksums (fun e => checksums.insert e.1 e.2) := by
  constructor
  · intro parsed
    unfold parseNext at parsed
    dsimp only at parsed
    split at parsed
    · rename_i blank
      cases parsed
      exact ⟨none, trimNil.mp blank, rfl⟩
    · split at parsed
      · cases parsed
      · rename_i name hex parts
        split at parsed
        · cases parsed
        · rename_i crc value
          cases parsed
          obtain ⟨entry, length⟩ := parseParts parts
          exact ⟨some (name, crc), ⟨hex, entry, (fromHexAccepts length).mp value⟩, rfl⟩
  · rintro ⟨e, accepts, rfl⟩
    cases e with
    | none => simp [parseNext, trimNil.mpr accepts]
    | some e =>
      obtain ⟨hex, entry, value⟩ := accepts
      obtain ⟨nonempty, length, ends⟩ := hexEnds value
      obtain ⟨some, parsed⟩ := parseEntry entry (entry.newline single) ends nonempty length
      simp only [parseNext, if_neg some, parsed, (fromHexAccepts length).mpr value, Option.elim_some]

theorem linesSingle (text : Text) : ∀ line ∈ lines text, '\n' ∉ line := by
  induction text with
  | nil => exact fun _ member => absurd member List.not_mem_nil
  | cons c rest ih =>
    unfold lines
    split
    · intro line member
      rcases List.mem_cons.mp member with rfl | later
      · exact List.not_mem_nil
      · exact ih line later
    · rename_i other
      split
      · intro line member
        rw [List.mem_singleton.mp member]
        simpa using Ne.symm other
      · rename_i first more split
        rw [split] at ih
        intro line member
        rcases List.mem_cons.mp member with rfl | later
        · have plain := ih first List.mem_cons_self
          simp only [List.mem_cons, not_or]
          exact ⟨Ne.symm other, plain⟩
        · exact ih line (List.mem_cons_of_mem first later)

theorem parseAllAccepts {lines : List Text} (single : ∀ line ∈ lines, '\n' ∉ line) (i : Nat)
    {checksums after : ChecksumsFile} :
    (lines.zipIdx i).foldlM parseNext checksums = .ok after ↔
      ∃ es, List.Forall₂ Accepts lines es ∧
        after = es.reduceOption.foldl (fun acc e => acc.insert e.1 e.2) checksums := by
  induction lines generalizing checksums i with
  | nil =>
    constructor
    · intro parsed
      cases parsed
      exact ⟨[], .nil, rfl⟩
    · rintro ⟨es, accepts, rfl⟩
      cases accepts
      rfl
  | cons line rest ih =>
    have plain : ∀ x ∈ rest, '\n' ∉ x := fun x member => single x (List.mem_cons_of_mem line member)
    rw [List.zipIdx_cons, List.foldlM_cons]
    constructor
    · intro parsed
      cases here : parseNext checksums (line, i) with
      | error e =>
        rw [here] at parsed
        cases parsed
      | ok next =>
        rw [here] at parsed
        obtain ⟨e, accepts, rfl⟩ := (parseNextAccepts (single line List.mem_cons_self) i).mp here
        obtain ⟨es, all, rfl⟩ := (ih plain (i + 1)).mp parsed
        refine ⟨e :: es, .cons accepts all, ?_⟩
        cases e <;> rfl
    · rintro ⟨es, accepts, rfl⟩
      cases accepts with
      | cons first all =>
        rename_i e es
        have here : parseNext checksums (line, i) =
            .ok (e.elim checksums (fun e => checksums.insert e.1 e.2)) :=
          (parseNextAccepts (single line List.mem_cons_self) i).mpr ⟨e, first, rfl⟩
        rw [here]
        refine (ih plain (i + 1)).mpr ⟨es, all, ?_⟩
        cases e <;> rfl

theorem readsAll {lines : List Text} {es : List (Option (Text × UInt32))}
    (accepts : List.Forall₂ Accepts lines es) (unsigned : ∀ line ∈ lines, ¬ Signed line) :
    List.Forall₂ Reads lines es := by
  induction accepts with
  | nil => exact .nil
  | cons first rest ih =>
    exact .cons (first.reads (unsigned _ List.mem_cons_self))
      (ih (fun line member => unsigned line (List.mem_cons_of_mem _ member)))

theorem acceptsAll {lines : List Text} (each : ∀ line ∈ lines, ∃ e, Accepts line e) :
    ∃ es, List.Forall₂ Accepts lines es := by
  induction lines with
  | nil => exact ⟨[], .nil⟩
  | cons line rest ih =>
    obtain ⟨e, first⟩ := each line List.mem_cons_self
    obtain ⟨es, all⟩ := ih (fun x member => each x (List.mem_cons_of_mem line member))
    exact ⟨e :: es, .cons first all⟩

theorem lookupInserted (entries : List (Text × UInt32)) (checksums : ChecksumsFile) (name : Text) :
    (entries.foldl (fun acc e => ChecksumsFile.insert acc e.1 e.2) checksums).lookup name =
      (entries.reverse ++ checksums).lookup name := by
  induction entries generalizing checksums with
  | nil => rfl
  | cons e rest ih =>
    have first : (ChecksumsFile.insert checksums e.1 e.2).lookup name = (e :: checksums).lookup name := by
      rw [ChecksumsFile.insert, Assoc.lookupCons, Assoc.lookupFilter, Assoc.lookupCons]
      split <;> rfl
    rw [List.foldl_cons, ih, List.reverse_cons, List.append_assoc, List.singleton_append,
      List.lookup_append, List.lookup_append, first]

/-- Where the parser takes a text its lines belong to the grammar and the map has the value
of the last line of each name, exactly if no line of the text has a sign or another one is
malformed. No slice of a line goes beyond it. -/
theorem grammarOnly (text : Text) :
    ((∀ m, parseChecksumsFile text = .ok m → ∃ es, List.Forall₂ Reads (lines text) es ∧
      ∀ name, m.lookup name = es.reduceOption.reverse.lookup name) ↔
    ((∀ line ∈ lines text, ¬ Signed line) ∨
      ∃ line ∈ lines text, ¬ Signed line ∧ ∀ e, ¬ Reads line e)) ∧
    ∀ line ∈ lines text, ∀ closeParen, lineStart.isPrefixOf (trim line) = true →
      (trim line).idxOf? ')' = some closeParen → 8 ≤ closeParen ∧ closeParen + 1 ≤ (trim line).length := by
  have single := linesSingle text
  refine ⟨⟨?_, ?_⟩, ?_⟩
  · intro property
    by_contra neither
    simp only [not_or, not_exists, not_and, not_forall, not_not] at neither
    obtain ⟨⟨line, member, signed⟩, others⟩ := neither
    have each : ∀ x ∈ lines text, ∃ e, Accepts x e := by
      intro x inside
      by_cases sign : Signed x
      · obtain ⟨name, hex, crc, entry, seven⟩ := sign
        exact ⟨some (name, crc), hex, entry, Or.inr seven⟩
      · obtain ⟨e, reads⟩ := others x inside sign
        exact ⟨e, reads.accepts⟩
    obtain ⟨es, all⟩ := acceptsAll each
    obtain ⟨es', reads, -⟩ := property _ ((parseAllAccepts single 0).mpr ⟨es, all, rfl⟩)
    obtain ⟨e, -, read⟩ := Assoc.relatedLeft reads member
    exact signedApart (single line member) signed e read
  · rintro cause m parsed
    obtain ⟨es, accepts, rfl⟩ := (parseAllAccepts single 0).mp parsed
    refine ⟨es, readsAll accepts ?_, fun name => by rw [lookupInserted, List.append_nil]⟩
    rcases cause with unsigned | ⟨line, member, unsigned, malformed⟩
    · exact unsigned
    · obtain ⟨e, -, accepted⟩ := Assoc.relatedLeft accepts member
      exact absurd (accepted.reads unsigned) (malformed e)
  · intro line member closeParen begins found
    obtain ⟨name, rest, parts, -, place, -, -⟩ := lineSlices begins found
    rw [parts, place]
    simp [startLength]

def signedLine : Text := lineStart ++ ['a', ')', ' ', '=', ' ', '+', '1', '2', '3', '4', '5', '6', '7']

theorem signedAccepted : parseChecksumsFile signedLine = .ok [(['a'], 0x1234567)] ∧
    ¬ ∃ es, List.Forall₂ Reads (lines signedLine) es := by
  have only : lines signedLine = [signedLine] := by decide
  have space : Blank [' '] := fun c member => by
    rw [List.mem_singleton.mp member]
    rfl
  have none : Blank [] := fun _ member => absurd member List.not_mem_nil
  have value : fromHex ['+', '1', '2', '3', '4', '5', '6', '7'] = .ok 0x1234567 := by decide +kernel
  have seven := ((fromHexAccepts (by decide)).mp value).resolve_left (fun eight => plusNoDigit eight.2)
  have signed : Signed signedLine :=
    ⟨['a'], _, _, ⟨⟨[], [' '], [' '], [], rfl, none, space, space, none⟩, by decide, by decide⟩, seven⟩
  refine ⟨by decide +kernel, ?_⟩
  rintro ⟨es, reads⟩
  rw [only] at reads
  obtain ⟨e, -, read⟩ := Assoc.relatedLeft reads List.mem_cons_self
  exact signedApart (by decide) signed e read

end CardanoLsm.Format
