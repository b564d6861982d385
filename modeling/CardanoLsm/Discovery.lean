import CardanoLsm.Validation
import CardanoLsm.SnapshotFiles

/-! How `LsmTree::open` finds the runs of a directory: by the names of the `.keyops` files
of `active/`, whoever wrote them. -/
namespace CardanoLsm.Discovery
open Format
open SnapshotFiles (Name fileName runPrefix)
open Validation (Contents openRun verified)

/-! `Path::file_stem` and `Path::extension`: the last dot splits a name, a leading dot does
not count. -/

def rsplitDot : Name → Option (Name × Name)
  | [] => none
  | c :: rest =>
    match rsplitDot rest with
    | some (before, after) => some (c :: before, after)
    | none => if c = '.' then some ([], rest) else none

def fileStem (name : Name) : Name :=
  match rsplitDot name with
  | some (before, _) => if before = [] then name else before
  | none => name

def extension (name : Name) : Option Name :=
  match rsplitDot name with
  | some (before, after) => if before = [] then none else some after
  | none => none

def pushDigit (acc : Nat) (c : Char) : Option Nat :=
  if c.isDigit ∧ 10 * acc + (c.toNat - '0'.toNat) < 2 ^ 64 then some (10 * acc + (c.toNat - '0'.toNat)) else none

def parseU64 (text : Name) : Option Nat :=
  let digits := if text.head? = some '+' then text.tail else text
  if digits = [] then none else digits.foldlM pushDigit 0

def runNumberOf (name : Name) : Option Nat :=
  if extension name = some (SnapshotFiles.extension .keyops) then parseU64 (fileStem name) else none

def contentsAt (file : Name → Option (List UInt8)) (n : Nat) : Contents := fun c => file (fileName n c)

section Directory
variable (overflowChecks : Bool) (crates : Crates) (dir : String) (file : Name → Option (List UInt8))

def opened (n : Nat) : Except FormatError Format.SsTableHandle := openRun crates dir n (contentsAt file n)

def discoverNext (acc : List Format.SsTableHandle × Nat) (name : Name) :
    Except FormatError (List Format.SsTableHandle × Nat) :=
  match runNumberOf name with
  | none => .ok acc
  | some n =>
    match opened crates dir file n with
    | .ok handle => .ok (acc.1 ++ [handle], max acc.2 n)
    | .error .unwrapNone => .error .unwrapNone
    | .error _ => .ok (acc.1, max acc.2 n)

def sortByMinKey (level : List Format.SsTableHandle) : List Format.SsTableHandle :=
  level.insertionSort (fun a b => (compare a.minKey b.minKey).isLE = true)

def assemble (maxLevel : Nat) (sstables : List Format.SsTableHandle) : List (List Format.SsTableHandle) :=
  (List.range (maxLevel + 1)).map (fun level => sortByMinKey (sstables.filter (fun h => h.level == level)))

def openActive (names : List Name) : Except FormatError (List (List Format.SsTableHandle) × Nat) := do
  let (sstables, maxRunNumber) ← names.foldlM (discoverNext crates dir file) ([], 0)
  match fitWord overflowChecks (maxRunNumber + 1) with
  | some nextRunNumber => return (assemble 6 sstables, nextRunNumber)
  | none => throw .addOverflow

end Directory

def Spells (n : Nat) (name : Name) : Prop :=
  ∃ plus zeros, (plus = [] ∨ plus = ['+']) ∧
    name = plus ++ List.replicate zeros '0' ++ Nat.toDigits 10 n ++ '.' :: SnapshotFiles.extension .keyops

theorem rsplitDotNone {name : Name} : rsplitDot name = none ↔ '.' ∉ name := by
  induction name with
  | nil => exact iff_of_true rfl List.not_mem_nil
  | cons c rest ih =>
    rw [rsplitDot, List.mem_cons, not_or, ← ih]
    cases rsplitDot rest with
    | some parts => simp
    | none =>
      by_cases dot : c = '.'
      · simp [dot]
      · simp [dot, Ne.symm dot]

theorem rsplitDotSome (before : Name) {after : Name} (clean : '.' ∉ after) :
    rsplitDot (before ++ '.' :: after) = some (before, after) := by
  induction before with
  | nil => rw [List.nil_append, rsplitDot, rsplitDotNone.mpr clean, if_pos rfl]
  | cons c before ih => rw [List.cons_append, rsplitDot, ih]

theorem rsplitDotParts {name before after : Name} (split : rsplitDot name = some (before, after)) :
    name = before ++ '.' :: after := by
  induction name generalizing before after with
  | nil => cases split
  | cons c rest ih =>
    unfold rsplitDot at split
    cases inner : rsplitDot rest with
    | some parts =>
      rw [inner] at split
      cases split
      rw [ih inner, List.cons_append]
    | none =>
      rw [inner] at split
      obtain ⟨rfl, same⟩ := Option.ite_none_right_eq_some.mp split
      cases same
      rfl

theorem digitOf {c : Char} (digit : c.isDigit = true) : ∃ d < 10, c = Nat.digitChar d := by
  obtain ⟨low, high⟩ := Char.isDigit_iff_toNat.mp digit
  refine ⟨c.toNat - 48, by simp at high; omega, Char.toNat_inj.mp ?_⟩
  have small : c.toNat - 48 < 10 := by simp at high; omega
  have back := Nat.toNat_digitChar_sub_48_of_lt_ten small
  have above : 48 ≤ (Nat.digitChar (c.toNat - 48)).toNat := by
    have isDigit : (Nat.digitChar (c.toNat - 48)).isDigit = true := by
      rw [Nat.isDigit_digitChar, decide_eq_true small]
    exact (Char.isDigit_iff_toNat.mp isDigit).1
  simp at low
  omega

theorem valueGrows (digits : Name) (acc : Nat) : acc ≤ Nat.ofDigitChars 10 digits acc := by
  rw [Nat.ofDigitChars_eq_ofDigitChars_zero]
  exact Nat.le_trans (Nat.le_mul_of_pos_left acc (Nat.pow_pos (by decide))) (Nat.le_add_right _ _)

theorem foldDigits {digits : Name} {acc n : Nat} (small : acc < 2 ^ 64) :
    digits.foldlM pushDigit acc = some n ↔
      (∀ c ∈ digits, c.isDigit = true) ∧ Nat.ofDigitChars 10 digits acc = n ∧ n < 2 ^ 64 := by
  induction digits generalizing acc with
  | nil =>
    rw [List.foldlM_nil, Nat.ofDigitChars_nil]
    constructor
    · intro same
      cases same
      exact ⟨fun _ member => absurd member List.not_mem_nil, rfl, small⟩
    · intro ⟨_, same, _⟩
      rw [same]
      rfl
  | cons c rest ih =>
    rw [List.foldlM_cons, List.forall_mem_cons, Nat.ofDigitChars_cons, pushDigit]
    split
    · rename_i fits
      have next := ih fits.2
      simp only [Option.bind_eq_bind, Option.bind_some]
      rw [next]
      simp only [fits.1, true_and]
    · rename_i fails
      simp only [Option.bind_eq_bind, Option.bind_none]
      refine iff_of_false (by intro h; cases h) ?_
      intro ⟨⟨digit, _⟩, value, below⟩
      have grown := valueGrows rest (10 * acc + (c.toNat - '0'.toNat))
      exact fails ⟨digit, by omega⟩

theorem leadingZeros {digits : Name} (numeral : ∀ c ∈ digits, c.isDigit = true) (some : digits ≠ []) :
    ∃ zeros, digits = List.replicate zeros '0' ++ Nat.toDigits 10 (Nat.ofDigitChars 10 digits 0) := by
  induction digits using List.reverseRecOn with
  | nil => exact absurd rfl some
  | append_singleton before c ih =>
    obtain ⟨d, small, rfl⟩ := digitOf (numeral c (List.mem_append_right _ List.mem_cons_self))
    have last : ∀ v, Nat.ofDigitChars 10 [Nat.digitChar d] v = 10 * v + d := fun v => by
      rw [Nat.ofDigitChars_cons_digitChar_of_lt_ten small, Nat.ofDigitChars_nil]
    have one : Nat.toDigits 10 d = [Nat.digitChar d] := Nat.toDigits_of_lt_base small
    rw [Nat.ofDigitChars_append, last]
    by_cases first : before = []
    · refine ⟨0, ?_⟩
      rw [first, Nat.ofDigitChars_nil, Nat.mul_zero, Nat.zero_add, one]
      rfl
    · obtain ⟨zeros, split⟩ := ih (fun c member => numeral c (List.mem_append_left _ member)) first
      by_cases zero : Nat.ofDigitChars 10 before 0 = 0
      · refine ⟨zeros + 1, ?_⟩
        rw [zero, Nat.toDigits_zero] at split
        rw [zero, Nat.mul_zero, Nat.zero_add, one, split, List.replicate_succ']
      · refine ⟨zeros, ?_⟩
        rw [← Nat.toDigits_append_toDigits (by decide) (by omega) small, one, ← List.append_assoc, ← split]

theorem parseU64Iff {text : Name} {n : Nat} : parseU64 text = some n ↔ n < 2 ^ 64 ∧
    ∃ plus digits, (plus = [] ∨ plus = ['+']) ∧ text = plus ++ digits ∧ digits ≠ [] ∧
      (∀ c ∈ digits, c.isDigit = true) ∧ Nat.ofDigitChars 10 digits 0 = n := by
  unfold parseU64
  constructor
  · intro parsed
    obtain ⟨nonempty, folded⟩ := Option.ite_none_left_eq_some.mp parsed
    obtain ⟨numeral, value, below⟩ := (foldDigits (by decide)).mp folded
    refine ⟨below, if text.head? = some '+' then ['+'] else [], _, ?_, ?_, nonempty, numeral, value⟩
    · split
      · exact Or.inr rfl
      · exact Or.inl rfl
    · split
      · rename_i plus
        obtain ⟨rest, rfl⟩ := List.head?_eq_some_iff.mp plus
        rfl
      · rfl
  · intro ⟨below, plus, digits, sign, split, nonempty, numeral, value⟩
    have stripped : (if text.head? = some '+' then text.tail else text) = digits := by
      rcases sign with rfl | rfl
      · obtain ⟨c, rest, rfl⟩ := List.exists_cons_of_ne_nil nonempty
        have digit := numeral c List.mem_cons_self
        rw [split, List.nil_append, List.head?_cons, if_neg]
        intro same
        rw [Option.some.inj same] at digit
        cases digit
      · rw [split, List.singleton_append, List.head?_cons, if_pos rfl, List.tail_cons]
    simp only [stripped, nonempty, if_false]
    exact (foldDigits (by decide)).mpr ⟨numeral, value, below⟩

theorem runNumberStem {name : Name} {n : Nat} : runNumberOf name = some n ↔
    ∃ stem, name = stem ++ '.' :: SnapshotFiles.extension .keyops ∧ stem ≠ [] ∧ parseU64 stem = some n := by
  constructor
  · intro found
    obtain ⟨ending, parsed⟩ := Option.ite_none_right_eq_some.mp found
    unfold extension at ending
    cases split : rsplitDot name with
    | none =>
      rw [split] at ending
      cases ending
    | some parts =>
      obtain ⟨stem, after⟩ := parts
      simp only [split] at ending
      obtain ⟨nonempty, same⟩ := Option.ite_none_left_eq_some.mp ending
      cases same
      simp only [fileStem, split, if_neg nonempty] at parsed
      exact ⟨stem, rsplitDotParts split, nonempty, parsed⟩
  · intro ⟨stem, split, nonempty, parsed⟩
    have clean : '.' ∉ SnapshotFiles.extension .keyops := by decide
    have dot : rsplitDot name = some (stem, SnapshotFiles.extension .keyops) := split ▸ rsplitDotSome stem clean
    simp only [runNumberOf, extension, fileStem, dot, if_neg nonempty, if_true, parsed]

theorem spelled {name : Name} {n : Nat} : runNumberOf name = some n ↔ n < 2 ^ 64 ∧ Spells n name := by
  rw [runNumberStem]
  constructor
  · intro ⟨stem, split, _, parsed⟩
    obtain ⟨below, plus, digits, sign, parts, nonempty, numeral, value⟩ := parseU64Iff.mp parsed
    obtain ⟨zeros, canonical⟩ := leadingZeros numeral nonempty
    rw [value] at canonical
    exact ⟨below, plus, zeros, sign, by rw [split, parts, canonical, ← List.append_assoc plus]⟩
  · intro ⟨below, plus, zeros, sign, split⟩
    have digits : List.replicate zeros '0' ++ Nat.toDigits 10 n ≠ [] :=
      List.append_ne_nil_of_right_ne_nil _ Nat.toDigits_ne_nil
    refine ⟨plus ++ (List.replicate zeros '0' ++ Nat.toDigits 10 n), by rw [split, ← List.append_assoc plus],
      List.append_ne_nil_of_right_ne_nil _ digits, parseU64Iff.mpr ⟨below, plus, _, sign, rfl, digits, ?_, ?_⟩⟩
    · intro c member
      rcases List.mem_append.mp member with zero | digit
      · rw [(List.mem_replicate.mp zero).2]
        rfl
      · exact Nat.isDigit_of_mem_toDigits (by decide) (by decide) digit
    · rw [Nat.ofDigitChars_append, Nat.ofDigitChars_replicate_zero, Nat.mul_zero, Nat.ofDigitChars_ten_toDigits]

example : runNumberOf "00042.keyops".toList = some 42 ∧ runNumberOf "+7.keyops".toList = some 7 ∧
    runNumberOf "00042.keyops.tmp".toList = none := by decide

theorem canonicalSpells (n : Nat) : Spells n (fileName n .keyops) :=
  ⟨[], 5 - (Nat.toDigits 10 n).length, Or.inl rfl, rfl⟩

section Loop
variable {overflowChecks : Bool} {crates : Crates} {dir : String} {file : Name → Option (List UInt8)}

theorem discoverRun {names : List Name} {sstables : List Format.SsTableHandle} {m : Nat}
    (calm : ∀ n ∈ names.filterMap runNumberOf, opened crates dir file n ≠ .error .unwrapNone) :
    names.foldlM (discoverNext crates dir file) (sstables, m) =
      .ok (sstables ++ (names.filterMap runNumberOf).filterMap (fun n => (opened crates dir file n).toOption),
        (names.filterMap runNumberOf).foldl max m) := by
  induction names generalizing sstables m with
  | nil => simp only [List.filterMap_nil, List.append_nil, List.foldl_nil]; rfl
  | cons name names ih =>
    rw [List.foldlM_cons, discoverNext]
    cases found : runNumberOf name with
    | none =>
      rw [List.filterMap_cons_none found] at calm ⊢
      exact ih calm
    | some n =>
      rw [List.filterMap_cons_some found] at calm ⊢
      obtain ⟨here, later⟩ := List.forall_mem_cons.mp calm
      rw [List.foldl_cons]
      dsimp only
      split
      · rename_i h tried
        rw [List.filterMap_cons_some (by rw [tried]; rfl)]
        exact (ih later).trans (by rw [List.append_assoc, List.singleton_append])
      · rename_i tried
        exact absurd tried here
      · rename_i e _ tried
        rw [List.filterMap_cons_none (by rw [tried]; rfl)]
        exact ih later

theorem discoverPanics {names : List Name} {sstables : List Format.SsTableHandle} {m : Nat}
    (panics : ∃ n ∈ names.filterMap runNumberOf, opened crates dir file n = .error .unwrapNone) :
    names.foldlM (discoverNext crates dir file) (sstables, m) = .error .unwrapNone := by
  induction names generalizing sstables m with
  | nil =>
    obtain ⟨n, member, -⟩ := panics
    exact absurd member List.not_mem_nil
  | cons name names ih =>
    obtain ⟨n, member, panic⟩ := panics
    rw [List.foldlM_cons, discoverNext]
    cases found : runNumberOf name with
    | none =>
      rw [List.filterMap_cons_none found] at member
      exact ih ⟨n, member, panic⟩
    | some k =>
      rw [List.filterMap_cons_some found] at member
      dsimp only
      split
      · rename_i h tried
        rcases List.mem_cons.mp member with rfl | later
        · cases panic.symm.trans tried
        · exact ih ⟨n, later, panic⟩
      · rfl
      · rename_i e other tried
        rcases List.mem_cons.mp member with rfl | later
        · cases other (Except.error.inj (tried.symm.trans panic))
        · exact ih ⟨n, later, panic⟩

def listedRuns (names : List Name) : List Nat := names.filterMap runNumberOf

theorem memListed {names : List Name} {n : Nat} :
    n ∈ listedRuns names ↔ n < 2 ^ 64 ∧ ∃ name ∈ names, Spells n name := by
  simp only [listedRuns, List.mem_filterMap, spelled]
  exact ⟨fun ⟨name, member, below, spells⟩ => ⟨below, name, member, spells⟩,
    fun ⟨below, name, member, spells⟩ => ⟨name, member, below, spells⟩⟩

def loaded (crates : Crates) (dir : String) (file : Name → Option (List UInt8)) (numbers : List Nat) :
    List Format.SsTableHandle :=
  numbers.filterMap (fun n => (opened crates dir file n).toOption)

theorem memLoaded {numbers : List Nat} {h : Format.SsTableHandle} :
    h ∈ loaded crates dir file numbers ↔ h.runNumber ∈ numbers ∧ opened crates dir file h.runNumber = .ok h := by
  rw [loaded, List.mem_filterMap]
  constructor
  · intro ⟨n, member, found⟩
    cases tried : opened crates dir file n with
    | error e =>
      rw [tried] at found
      cases found
    | ok h' =>
      rw [tried] at found
      cases found
      obtain ⟨number, -, -⟩ := Validation.openedHandle tried
      exact number ▸ ⟨member, number ▸ tried⟩
  · intro ⟨member, tried⟩
    exact ⟨h.runNumber, member, by rw [tried]; rfl⟩

theorem countLoaded {numbers : List Nat} {n : Nat} (opens : ∃ h, opened crates dir file n = .ok h) :
    (loaded crates dir file numbers).countP (fun h => h.runNumber == n) = numbers.count n := by
  rw [loaded, List.countP_filterMap, List.count]
  refine List.countP_congr (fun k _ => ?_)
  cases tried : opened crates dir file k with
  | error e =>
    refine iff_of_false (by simp [Except.toOption]) (fun same => ?_)
    obtain ⟨h, ok⟩ := opens
    rw [beq_iff_eq.mp same, ok] at tried
    cases tried
  | ok h =>
    obtain ⟨number, -, -⟩ := Validation.openedHandle tried
    simp [Except.toOption, number]

theorem sortedByMinKey (hs : List Format.SsTableHandle) :
    (sortByMinKey hs).Pairwise (fun a b => (compare a.minKey b.minKey).isLE = true) := by
  have total : Std.Total (fun a b : Format.SsTableHandle => (compare a.minKey b.minKey).isLE = true) :=
    ⟨fun a b => by
      have swap : compare b.minKey a.minKey = (compare a.minKey b.minKey).swap := Std.OrientedCmp.eq_swap
      rw [swap]
      cases compare a.minKey b.minKey <;> simp⟩
  have trans : IsTrans Format.SsTableHandle (fun a b => (compare a.minKey b.minKey).isLE = true) :=
    ⟨fun _ _ _ => Std.TransCmp.isLE_trans⟩
  exact List.pairwise_insertionSort _ _

theorem assembleZero {hs : List Format.SsTableHandle} (zero : ∀ h ∈ hs, h.level = 0) :
    assemble 6 hs = sortByMinKey hs :: List.replicate 6 [] := by
  have here : hs.filter (fun h => h.level == 0) = hs :=
    List.filter_eq_self.mpr (fun h member => by simp [zero h member])
  have none : ∀ level, hs.filter (fun h => h.level == level + 1) = [] :=
    fun level => List.filter_eq_nil_iff.mpr (fun h member => by simp [zero h member])
  rw [assemble, List.range_succ_eq_map, List.map_cons, here, List.map_map]
  simp only [Function.comp_def, Nat.succ_eq_add_one, none, sortByMinKey, List.insertionSort_nil, List.map_const',
    List.length_range]

theorem openActiveEnds {names : List Name}
    (calm : ∀ n ∈ listedRuns names, opened crates dir file n ≠ .error .unwrapNone) :
    openActive overflowChecks crates dir file names =
      match fitWord overflowChecks ((listedRuns names).foldl max 0 + 1) with
      | some next => .ok (assemble 6 (loaded crates dir file (listedRuns names)), next)
      | none => .error .addOverflow := by
  rw [openActive, discoverRun calm]
  rfl

theorem openActiveOk {names : List Name}
    (calm : ∀ n ∈ listedRuns names, opened crates dir file n ≠ .error .unwrapNone) {next : Nat}
    (fits : fitWord overflowChecks ((listedRuns names).foldl max 0 + 1) = some next) :
    openActive overflowChecks crates dir file names =
      .ok (sortByMinKey (loaded crates dir file (listedRuns names)) :: List.replicate 6 [], next) := by
  have zero : ∀ h ∈ loaded crates dir file (listedRuns names), h.level = 0 :=
    fun h member => (Validation.openedHandle (memLoaded.mp member).2).2.1
  rw [← assembleZero zero, openActiveEnds calm, fits]

end Loop

def Written (name : Name) : Prop := ∃ n, (∃ c, name = fileName n c) ∨ name = runPrefix n ++ ".checksum.tmp".toList

theorem runPrefixSpells {m n : Nat} (spells : Spells m (fileName n .keyops)) : m = n := by
  obtain ⟨plus, zeros, sign, split⟩ := spells
  have stem : runPrefix n = plus ++ (List.replicate zeros '0' ++ Nat.toDigits 10 m) := by
    have cut := split
    rw [fileName, ← List.append_assoc plus] at *
    exact List.append_cancel_right cut
  obtain ⟨d, rest, starts, digit⟩ := SnapshotFiles.runPrefixDigit n
  have value : ∀ zeros m, Nat.ofDigitChars 10 (List.replicate zeros '0' ++ Nat.toDigits 10 m) 0 = m := by
    intro zeros m
    rw [Nat.ofDigitChars_append, Nat.ofDigitChars_replicate_zero, Nat.mul_zero, Nat.ofDigitChars_ten_toDigits]
  rcases sign with rfl | rfl
  · rw [List.nil_append] at stem
    rw [← value zeros m, ← stem, runPrefix, value]
  · rw [starts, List.singleton_append] at stem
    rw [(List.cons.inj stem).1] at digit
    cases digit

theorem spellsEnding {before after : Name} {m : Nat} (spells : Spells m (before ++ '.' :: after)) (clean : '.' ∉ after) :
    after = SnapshotFiles.extension .keyops := by
  obtain ⟨plus, zeros, -, split⟩ := spells
  have dot := rsplitDotSome before clean
  rw [split, rsplitDotSome _ (by decide)] at dot
  exact (Prod.mk.inj (Option.some.inj dot)).2.symm

theorem writtenSpells {name : Name} {m : Nat} (written : Written name) :
    Spells m name ↔ name = fileName m .keyops := by
  refine ⟨fun spells => ?_, fun canonical => canonical ▸ canonicalSpells m⟩
  have other : ∀ before after : Name, name = before ++ '.' :: after → '.' ∉ after →
      after ≠ SnapshotFiles.extension .keyops → name = fileName m .keyops := by
    intro before after split clean differs
    exact absurd (spellsEnding (split ▸ spells) clean) differs
  obtain ⟨n, ⟨c, rfl⟩ | rfl⟩ := written
  · cases c with
    | keyops => rw [runPrefixSpells spells]
    | metadataChecksum =>
      exact other (runPrefix n ++ ".metadata".toList) "checksum".toList
        (List.append_assoc (runPrefix n) ".metadata".toList ".checksum".toList).symm (by decide) (by decide)
    | blobs => exact other _ _ rfl (by decide) (by decide)
    | filter => exact other _ _ rfl (by decide) (by decide)
    | index => exact other _ _ rfl (by decide) (by decide)
    | checksums => exact other _ _ rfl (by decide) (by decide)
    | metadata => exact other _ _ rfl (by decide) (by decide)
  · exact other (runPrefix n ++ ".checksum".toList) "tmp".toList
      (List.append_assoc (runPrefix n) ".checksum".toList ".tmp".toList).symm (by decide) (by decide)

open Classical in
structure Discovered (crates : Crates) (file : Name → Option (List UInt8)) (names : List Name)
    (level : List Format.SsTableHandle) (next : Nat) : Prop where
  sorted : level.Pairwise (fun a b => (compare a.minKey b.minKey).isLE = true)
  found : ∀ h ∈ level, h.level = 0 ∧ h.runNumber < 2 ^ 64 ∧ ∃ name ∈ names, Spells h.runNumber name
  sound : ∀ h ∈ level, (∃ checksums, Validation.Intact crates.crc (contentsAt file h.runNumber) checksums) ∧
    Validation.Decodes crates (contentsAt file h.runNumber)
  complete : ∀ n < 2 ^ 64, (∃ checksums, Validation.Intact crates.crc (contentsAt file n) checksums) →
    Validation.Decodes crates (contentsAt file n) →
    level.countP (fun h => h.runNumber == n) = names.countP (fun name => decide (Spells n name))
  next : (∀ n < 2 ^ 64, ∀ name ∈ names, Spells n name → n < next) ∨
    (next = 0 ∧ ∃ name ∈ names, Spells (2 ^ 64 - 1) name)

theorem maxListed {names : List Name} (top : 2 ^ 64 ≤ (listedRuns names).foldl max 0 + 1) :
    (listedRuns names).foldl max 0 = 2 ^ 64 - 1 ∧ ∃ name ∈ names, Spells (2 ^ 64 - 1) name := by
  have listed : (listedRuns names).foldl max 0 ∈ listedRuns names := by
    rcases foldlMaxListed (listedRuns names) 0 with zero | listed
    · rw [zero] at top
      exact absurd top (by decide)
    · exact listed
  obtain ⟨below, name, member, spells⟩ := memListed.mp listed
  have last : (listedRuns names).foldl max 0 = 2 ^ 64 - 1 := by omega
  rw [last] at spells
  exact ⟨last, name, member, spells⟩

open Classical in
/-- `open` ends in a panic for a directory that lists an intact run without keys, in a build
that checks overflows also for one with a name that spells the last number, and in no other
way. Otherwise its runs are the intact ones whose number some name spells. -/
theorem opensActive (overflowChecks : Bool) (crates : Crates) (dir : String) (file : Name → Option (List UInt8))
    (names : List Name) :
    (openActive overflowChecks crates dir file names = .error .unwrapNone ∧
      ∃ n < 2 ^ 64, (∃ name ∈ names, Spells n name) ∧
        (∃ checksums, Validation.Intact crates.crc (contentsAt file n) checksums) ∧
          Validation.Keyless crates (contentsAt file n)) ∨
    ((∀ n < 2 ^ 64, (∃ name ∈ names, Spells n name) →
      (∃ checksums, Validation.Intact crates.crc (contentsAt file n) checksums) →
        ¬ Validation.Keyless crates (contentsAt file n)) ∧
      (openActive overflowChecks crates dir file names = .error .addOverflow ∧ overflowChecks = true ∧
          (∃ name ∈ names, Spells (2 ^ 64 - 1) name) ∨
        ¬ (overflowChecks = true ∧ ∃ name ∈ names, Spells (2 ^ 64 - 1) name) ∧
          ∃ level next, openActive overflowChecks crates dir file names = .ok (level :: List.replicate 6 [], next) ∧
            Discovered crates file names level next)) := by
  by_cases panics : ∃ n ∈ listedRuns names, opened crates dir file n = .error .unwrapNone
  · obtain ⟨n, member, panic⟩ := panics
    obtain ⟨below, spelledBy⟩ := memListed.mp member
    refine Or.inl ⟨?_, n, below, spelledBy, Validation.openRunPanics.mp panic⟩
    rw [openActive, discoverPanics ⟨n, member, panic⟩]
    rfl
  · have calm : ∀ n ∈ listedRuns names, opened crates dir file n ≠ .error .unwrapNone :=
      fun n member panic => panics ⟨n, member, panic⟩
    refine Or.inr ⟨fun n below spelledBy intact keyless => ?_, ?_⟩
    · exact calm n (memListed.mpr ⟨below, spelledBy⟩) (Validation.openRunPanics.mpr ⟨intact, keyless⟩)
    have bound := leFoldlMax (listedRuns names)
    have level : ∀ next, ((∀ n < 2 ^ 64, ∀ name ∈ names, Spells n name → n < next) ∨
        (next = 0 ∧ ∃ name ∈ names, Spells (2 ^ 64 - 1) name)) →
        Discovered crates file names (sortByMinKey (loaded crates dir file (listedRuns names))) next := by
      refine fun next above => ⟨sortedByMinKey _, fun h member => ?_, fun h member => ?_, fun n below intact decodes => ?_,
        above⟩
      · obtain ⟨listed, opens⟩ := memLoaded.mp ((List.mem_insertionSort _).mp member)
        obtain ⟨below, spelledBy⟩ := memListed.mp listed
        exact ⟨(Validation.openedHandle opens).2.1, below, spelledBy⟩
      · obtain ⟨-, opens⟩ := memLoaded.mp ((List.mem_insertionSort _).mp member)
        exact (Validation.openRunOk _ _ _).mp ⟨h, opens⟩
      · have opens := (Validation.openRunOk crates dir n).mpr ⟨intact, decodes⟩
        rw [sortByMinKey, (List.perm_insertionSort _ _).countP_eq, countLoaded opens, listedRuns, List.count_filterMap]
        refine List.countP_congr (fun name _ => ?_)
        rw [beq_iff_eq, spelled, decide_eq_true_iff]
        exact and_iff_right below
    by_cases fits : (listedRuns names).foldl max 0 + 1 < 2 ^ 64
    · refine Or.inr ⟨fun ⟨_, name, member, spells⟩ => ?_, _, _, openActiveOk calm (fitWordFits fits),
        level _ (Or.inl (fun n below name member spells => ?_))⟩
      · have last := bound _ (memListed.mpr ⟨by decide, name, member, spells⟩)
        omega
      · exact Nat.lt_succ_of_le (bound n (memListed.mpr ⟨below, name, member, spells⟩))
    · obtain ⟨top, spelledBy⟩ := maxListed (Nat.not_lt.mp fits)
      cases overflowChecks with
      | true =>
        refine Or.inl ⟨?_, rfl, spelledBy⟩
        rw [openActiveEnds calm, fitWordNone.mpr ⟨rfl, Nat.not_lt.mp fits⟩]
      | false =>
        have wraps : fitWord false ((listedRuns names).foldl max 0 + 1) = some 0 := by
          rw [top]
          rfl
        exact Or.inr ⟨fun both => absurd both.1 (by decide), _, _, openActiveOk calm wraps,
          level 0 (Or.inr ⟨rfl, spelledBy⟩)⟩

def storageOf (crates : Crates) (decoded : Contents → Run) (file : Name → Option (List UInt8)) (names : List Name) :
    Storage :=
  ⟨(listedRuns names).map (fun n => (n, verified crates decoded (contentsAt file n))), [], fun _ => 0, 0⟩

def summary (h : SsTableHandle) : Nat × Nat × List Key := (h.runNumber, h.level, h.run.index)
def fileSummary (h : Format.SsTableHandle) : Nat × Nat × List Key := (h.runNumber, h.level, h.index.keys)

def byFirstKey (a b : Nat × Nat × List Key) : Prop := (compare (a.2.2.headD []) (b.2.2.headD [])).isLE = true

instance : DecidableRel byFirstKey := fun _ _ => inferInstanceAs (Decidable ((compare _ _).isLE = true))

def grouped (maxLevel : Nat) (runs : List (Nat × Nat × List Key)) : List (List (Nat × Nat × List Key)) :=
  (List.range (maxLevel + 1)).map (fun level => (runs.filter (fun run => run.2.1 == level)).insertionSort byFirstKey)

theorem levelsMap {α β : Type} (view : α → β) {level : α → Nat} (level' : β → Nat) {r : α → α → Prop}
    (s : β → β → Prop) [DecidableRel r] [DecidableRel s] {hs : List α} (same : ∀ h, level' (view h) = level h)
    (ordered : ∀ a ∈ hs, ∀ b ∈ hs, r a b ↔ s (view a) (view b)) (m : Nat) :
    ((List.range m).map (fun l => (hs.filter (fun h => level h == l)).insertionSort r)).map (List.map view) =
      (List.range m).map (fun l => ((hs.map view).filter (fun v => level' v == l)).insertionSort s) := by
  rw [List.map_map]
  refine List.map_congr_left (fun l _ => ?_)
  have commutes := List.map_insertionSort r s view (hs.filter (fun h => level h == l)) (fun a inA b inB =>
    ordered a (List.mem_filter.mp inA).1 b (List.mem_filter.mp inB).1)
  rw [Function.comp_apply, List.filter_map, commutes]
  simp only [Function.comp_def, same]

theorem assembleSummary (maxLevel : Nat) (hs : List SsTableHandle) :
    (CardanoLsm.assemble maxLevel hs).map (List.map summary) = grouped maxLevel (hs.map summary) := by
  have first : ∀ h : SsTableHandle, h.minKey = (summary h).2.2.headD [] := fun h => by
    rw [summary, List.headD_eq_head?_getD, List.head?_eq_some_head h.run.indexNonempty]
    rfl
  refine levelsMap summary (fun run => run.2.1) byFirstKey (fun _ => rfl) (fun a _ b _ => ?_) (maxLevel + 1)
  rw [first a, first b]
  rfl

theorem assembleFileSummary (maxLevel : Nat) {hs : List Format.SsTableHandle}
    (keyed : ∀ h ∈ hs, h.index.keys.head? = some h.minKey) :
    (assemble maxLevel hs).map (List.map fileSummary) = grouped maxLevel (hs.map fileSummary) := by
  have first : ∀ h ∈ hs, h.minKey = (fileSummary h).2.2.headD [] := fun h member => by
    rw [fileSummary, List.headD_eq_head?_getD, keyed h member]
    rfl
  refine levelsMap fileSummary (fun run => run.2.1) byFirstKey (fun _ => rfl) (fun a inA b inB => ?_) (maxLevel + 1)
  rw [first a inA, first b inB]
  rfl

section Refinement
variable {overflowChecks : Bool} {crates : Crates} {decoded : Contents → Run} {dir : String} {file : Name → Option (List UInt8)}
  {names : List Name}

theorem storageListed (crates : Crates) (decoded : Contents → Run) (file : Name → Option (List UInt8))
    (names : List Name) : (storageOf crates decoded file names).active.map Prod.fst = listedRuns names := by
  rw [storageOf, List.map_map]
  exact List.map_id _

theorem storageRunAt {n : Nat} (member : n ∈ listedRuns names) :
    (storageOf crates decoded file names).runAt .active n = verified crates decoded (contentsAt file n) := by
  have found : (storageOf crates decoded file names).active.lookup n =
      some (verified crates decoded (contentsAt file n)) :=
    List.lookup_graph (fun n => verified crates decoded (contentsAt file n)) member
  rw [Storage.runAt, Storage.files, found, Option.join_some]

theorem verifiedIs (dir : String) {n : Nat} : verified crates decoded (contentsAt file n) =
    (opened crates dir file n).toOption.map (fun _ => decoded (contentsAt file n)) := by
  have alike : (∃ h, opened crates dir file n = .ok h) ↔ ∃ h, openRun crates "active" 0 (contentsAt file n) = .ok h :=
    (Validation.openRunOk crates dir n).trans (Validation.openRunOk crates "active" 0).symm
  rw [verified]
  cases here : opened crates dir file n with
  | ok h =>
    obtain ⟨h', ok⟩ := alike.mp ⟨h, here⟩
    rw [ok]
    rfl
  | error e =>
    cases there : openRun crates "active" 0 (contentsAt file n) with
    | ok h' =>
      obtain ⟨h, ok⟩ := alike.mpr ⟨h', there⟩
      rw [here] at ok
      cases ok
    | error e' => rfl

theorem listedSummaries (decodes : ∀ n ∈ listedRuns names, ∀ h, opened crates dir file n = .ok h →
      (decoded (contentsAt file n)).index = h.index.keys) :
    (LsmTree.openListed (listedRuns names) (storageOf crates decoded file names)).1.map summary =
      (loaded crates dir file (listedRuns names)).map fileSummary := by
  have all := openListedFound (listedRuns names) [] (storageOf crates decoded file names)
  have seen : ∀ hs : List SsTableHandle, hs.map summary = (hs.map SsTableHandle.found).filterMap
      (fun f => f.content.map (fun run => (f.number, f.level, run.index))) := by
    intro hs
    rw [List.filterMap_map, ← List.filterMap_eq_map]
    rfl
  rw [seen, LsmTree.openListed, all, List.map_nil, List.nil_append, List.filterMap_filter, List.filterMap_map, loaded,
    List.map_filterMap]
  refine List.filterMap_congr (fun n member => ?_)
  simp only [Function.comp_apply, storageRunAt member, verifiedIs dir]
  cases here : opened crates dir file n with
  | ok h =>
    obtain ⟨number, level, -⟩ := Validation.openedHandle here
    simp [Except.toOption, fileSummary, decodes n member h here, number, level]
  | error e => simp [Except.toOption]

theorem listedOnce (once : names.Nodup) (written : ∀ name ∈ names, Written name) : (listedRuns names).Nodup := by
  rw [listedRuns, List.Nodup, List.pairwise_filterMap]
  refine List.Pairwise.imp_of_mem (fun {a b} inA inB differ n foundA m foundB same => differ ?_) once
  rw [(writtenSpells (written a inA)).mp (spelled.mp foundA).2, (writtenSpells (written b inB)).mp (spelled.mp foundB).2,
    same]

theorem openRefines (decodes : ∀ n ∈ listedRuns names, ∀ h, opened crates dir file n = .ok h →
      (decoded (contentsAt file n)).index = h.index.keys) (config : LsmConfig)
    {levels : List (List Format.SsTableHandle)} {next : Nat}
    (ends : openActive overflowChecks crates dir file names = .ok (levels, next)) :
    let tree := (LsmTree.open config (storageOf crates decoded file names)).1
    tree.levels.map (List.map summary) = levels.map (List.map fileSummary) ∧ next = tree.nextRunNumber % 2 ^ 64 ∧
      (names.Nodup → (∀ name ∈ names, Written name) → (storageOf crates decoded file names).AtRest) := by
  intro tree
  have calm : ∀ n ∈ listedRuns names, opened crates dir file n ≠ .error .unwrapNone := by
    intro n member panic
    rw [openActive, discoverPanics ⟨n, member, panic⟩] at ends
    cases ends
  rw [openActiveEnds calm] at ends
  obtain ⟨number, rfl⟩ : next = ((listedRuns names).foldl max 0 + 1) % 2 ^ 64 ∧
      levels = assemble 6 (loaded crates dir file (listedRuns names)) := by
    split at ends
    · rename_i fits
      cases ends
      exact ⟨(fitWordMod fits), rfl⟩
    · cases ends
  refine ⟨?_, ?_, fun once written => ⟨fun _ => rfl, ?_⟩⟩
  · have levels : tree.levels = CardanoLsm.assemble 6
        (LsmTree.openListed (listedRuns names) (storageOf crates decoded file names)).1 := by
      rw [← storageListed crates decoded file names]
      rfl
    rw [levels, assembleSummary, listedSummaries decodes, assembleFileSummary]
    exact fun h member => (Validation.openedHandle (memLoaded.mp member).2).2.2.1
  · have tops : tree.nextRunNumber = (listedRuns names).foldl max 0 + 1 := by
      rw [← storageListed crates decoded file names]
      rfl
    rw [tops, number]
  · rw [storageListed]
    exact listedOnce once written

end Refinement

def sevenFiles (files : Files) (name : Name) : Option (List UInt8) :=
  (SnapshotFiles.components.find? (fun c => fileName 7 c = name)).bind (Validation.contentsOf files)

theorem sevenContents (files : Files) : contentsAt (sevenFiles files) 7 = Validation.contentsOf files := by
  funext c
  have same : ∀ d, fileName 7 d = fileName 7 c ↔ d = c :=
    fun d => ⟨fun names => (SnapshotFiles.fileNameInjective names).2, fun here => here ▸ rfl⟩
  simp only [contentsAt, sevenFiles, SnapshotFiles.components, same]
  cases c <;> rfl

theorem twoNonempty : (((∅ : Entries).insert [1] none).insert [2] (some [20, 21])) ≠ ∅ :=
  Std.ExtTreeMap.insert_ne_empty

def twoRun : Run := ⟨((∅ : Entries).insert [1] none).insert [2] (some [20, 21]), twoNonempty⟩

example : twoRun.index = [[1], [2]] := by decide +kernel

theorem openRefinesTwo : ∃ filterBytes indexBytes levels next,
    let file := sevenFiles (writtenFiles crates twoEntries filterBytes indexBytes)
    let names := SnapshotFiles.components.map (fileName 7)
    openActive true crates "active" file names = .ok (levels, next) ∧
      (LsmTree.open ⟨1, 1⟩ (storageOf crates (fun _ => twoRun) file names)).1.levels.map (List.map summary) =
        levels.map (List.map fileSummary) := by
  obtain ⟨⟨filterBytes, -, filterRead⟩, indexBytes, -, indexRead⟩ := twoRoundTrip
  have listed : listedRuns (SnapshotFiles.components.map (fileName 7)) = [7] := by decide
  have contents := sevenContents (writtenFiles crates twoEntries filterBytes indexBytes)
  have opens : ∃ h, opened crates "active"
      (sevenFiles (writtenFiles crates twoEntries filterBytes indexBytes)) 7 = .ok h := by
    rw [opened, contents]
    exact (Validation.openRunOk _ _ _).mpr ⟨Validation.writtenIntact crates twoEntries filterBytes indexBytes,
      Validation.writtenDecodes (by decide) filterRead indexRead⟩
  obtain ⟨h, ok⟩ := opens
  have calm : ∀ n ∈ listedRuns (SnapshotFiles.components.map (fileName 7)), opened crates "active"
      (sevenFiles (writtenFiles crates twoEntries filterBytes indexBytes)) n ≠ .error .unwrapNone := by
    rw [listed]
    intro n member panic
    rw [List.mem_singleton.mp member, ok] at panic
    cases panic
  have fits : fitWord true ((listedRuns (SnapshotFiles.components.map (fileName 7))).foldl max 0 + 1) = some 8 := by
    rw [listed]
    rfl
  refine ⟨filterBytes, indexBytes, _, _, openActiveOk calm fits, (openRefines ?_ ⟨1, 1⟩ (openActiveOk calm fits)).1⟩
  rw [listed]
  intro n member h' ok'
  rw [List.mem_singleton.mp member] at ok'
  obtain ⟨-, -, -, bytes, there, decoded⟩ := Validation.openedHandle ok'
  rw [contents] at there
  cases there
  rw [← Except.ok.inj (indexRead.symm.trans decoded)]
  decide +kernel

end CardanoLsm.Discovery
