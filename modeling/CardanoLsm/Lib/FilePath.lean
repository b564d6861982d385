import CardanoLsm.Lib.FileTree

/-! Paths in a tree of directories and files, and the operations of a file system that take
them. A path is walked step by step, and every step needs the directory it is taken from.
A trailing separator or a trailing dot asks for a directory; no directory can be made under
a name that ends in a dot. -/
namespace FileTree

inductive Step (γ : Type) where
  | up
  | down (name : γ)
  deriving DecidableEq

inductive Ending where
  | plain | slash | dot
  deriving DecidableEq

structure Path (γ : Type) where
  steps : List (Step γ)
  ending : Ending

inductive Problem where
  | notFound | notDirectory
  deriving DecidableEq

section Paths
variable {γ : Type}

def step (place : List γ) : Step γ → List γ
  | .up => place.tail
  | .down name => name :: place

def Path.place (p : Path γ) : List γ := p.steps.foldl step []

def Path.child (p : Path γ) (name : γ) : Path γ := ⟨p.steps ++ [.down name], .plain⟩

def Path.ancestors (p : Path γ) : List (Path γ) :=
  (List.range p.steps.length).map (fun k => ⟨p.steps.take k, .plain⟩) ++ [p]

theorem Path.childPlace (p : Path γ) (name : γ) : (p.child name).place = name :: p.place := by
  simp only [Path.place, Path.child, List.foldl_append, List.foldl_cons, List.foldl_nil, step]

end Paths

namespace Tree
variable {γ C : Type} [DecidableEq γ]

def walk (t : Tree γ C) (place : List γ) : List (Step γ) → Except Problem (List γ)
  | [] => .ok place
  | s :: rest =>
    match t.find place with
    | none => .error .notFound
    | some (.file _) => .error .notDirectory
    | some .directory => t.walk (step place s) rest

theorem walkCons {t : Tree γ C} {place : List γ} (inside : t.find place = some .directory) (s : Step γ)
    (rest : List (Step γ)) : t.walk place (s :: rest) = t.walk (step place s) rest := by
  rw [walk, inside]

theorem walkStart {t : Tree γ C} {place last : List γ} {s : Step γ} {rest : List (Step γ)}
    (walked : t.walk place (s :: rest) = .ok last) : t.find place = some .directory := by
  unfold walk at walked
  split at walked
  · cases walked
  · cases walked
  · assumption

theorem walkEnd {t : Tree γ C} {place last : List γ} {steps : List (Step γ)}
    (walked : t.walk place steps = .ok last) : last = steps.foldl step place := by
  induction steps generalizing place with
  | nil => exact (Except.ok.inj walked).symm
  | cons s rest ih =>
    rw [walkCons (walkStart walked)] at walked
    exact ih walked

theorem findTail {t : Tree γ C} {place : List γ} {node : Node C} (found : t.find place = some node) :
    t.find place.tail = some .directory := by
  cases place with
  | nil => rfl
  | cons name above => exact findAbove found

theorem walkInside {t : Tree γ C} {place last : List γ} {steps : List (Step γ)}
    (start : t.find place.tail = some .directory) (walked : t.walk place steps = .ok last) :
    t.find last.tail = some .directory := by
  induction steps generalizing place with
  | nil => exact Except.ok.inj walked ▸ start
  | cons s rest ih =>
    have inside := walkStart walked
    rw [walkCons inside] at walked
    refine ih ?_ walked
    cases s with
    | up => exact findTail (findTail inside)
    | down name => exact inside

theorem walkAppend (t : Tree γ C) (place : List γ) (first second : List (Step γ)) :
    t.walk place (first ++ second) = t.walk place first >>= fun next => t.walk next second := by
  induction first generalizing place with
  | nil => rfl
  | cons s rest ih =>
    rw [List.cons_append, walk, walk]
    cases t.find place with
    | none => rfl
    | some node =>
      cases node with
      | directory => exact ih _
      | file content => rfl

def Keeps (t t' : Tree γ C) : Prop :=
  ∀ place, t.find place = some .directory → t'.find place = some .directory

theorem walkKept {t t' : Tree γ C} (keeps : Keeps t t') {place last : List γ} {steps : List (Step γ)}
    (walked : t.walk place steps = .ok last) : t'.walk place steps = .ok last := by
  induction steps generalizing place with
  | nil => exact walked
  | cons s rest ih =>
    have inside := walkStart walked
    rw [walkCons inside] at walked
    rw [walkCons (keeps place inside)]
    exact ih walked

theorem walkDown {t : Tree γ C} {place : List γ} {name : γ} {node : Node C}
    (found : t.find (name :: place) = some node) :
    t.walk [] ((name :: place).reverse.map Step.down) = .ok (name :: place) := by
  induction place generalizing name node with
  | nil => rfl
  | cons next rest ih =>
    have above := findAbove found
    rw [List.reverse_cons, List.map_append, walkAppend, ih above]
    exact walkCons above _ _

def lookup (t : Tree γ C) (p : Path γ) : Except Problem (Node C) := do
  let place ← t.walk [] p.steps
  match t.find place with
  | none => .error .notFound
  | some .directory => return .directory
  | some (.file content) => if p.ending = .plain then return .file content else .error .notDirectory

def present (t : Tree γ C) (p : Path γ) : Bool := (t.lookup p).toBool

def read (t : Tree γ C) (p : Path γ) : Option C :=
  match t.lookup p with
  | .ok (.file content) => some content
  | _ => none

section
variable [DecidableEq C]

def place (t : Tree γ C) (p : Path γ) (node : Node C) : Option (Tree γ C) :=
  match t.walk [] p.steps with
  | .ok last => if t.find last ≠ some .directory then some (t.put last node) else none
  | .error _ => none

def createDir (t : Tree γ C) (p : Path γ) : Option (Tree γ C) :=
  if (t.find p.place).isNone ∧ p.ending ≠ .dot then t.place p .directory else none

def ensureDir (t : Tree γ C) (p : Path γ) : Option (Tree γ C) :=
  if t.lookup p = .ok .directory then some t else t.createDir p

def hardLink (t : Tree γ C) (source target : Path γ) : Option (Tree γ C) := do
  let content ← t.read source
  if (t.find target.place).isNone ∧ target.ending = .plain then t.place target (.file content) else none

def create (t : Tree γ C) (p : Path γ) (empty : C) : Option (Tree γ C) :=
  if p.ending = .plain then t.place p (.file empty) else none

def modify (t : Tree γ C) (p : Path γ) (f : C → C) : Option (Tree γ C) := do
  let content ← t.read p
  t.place p (.file (f content))

def rename (t : Tree γ C) (source target : Path γ) : Option (Tree γ C) := do
  let content ← t.read source
  if source.place = target.place then some t
  else if target.ending = .plain then (t.place target (.file content)).map (fun t => t.remove source.place)
  else none

end

def removeDir (t : Tree γ C) (p : Path γ) : Option (Tree γ C) :=
  match t.lookup p with
  | .ok .directory =>
    if p.ending ≠ .dot ∧ p.steps.getLast? ≠ some .up ∧ p.place ≠ [] ∧ ∀ e ∈ t.entries, e.1.tail ≠ p.place then
      some (t.remove p.place)
    else none
  | _ => none

def removeDirAll (t : Tree γ C) (p : Path γ) : Bool × Tree γ C :=
  match t.lookup p with
  | .ok .directory =>
    match (t.clear p.place).removeDir p with
    | some t' => (true, t')
    | none => (false, t.clear p.place)
  | _ => (false, t)

theorem lookupIff {t : Tree γ C} {p : Path γ} {node : Node C} : t.lookup p = .ok node ↔
    t.walk [] p.steps = .ok p.place ∧ t.find p.place = some node ∧ (node = .directory ∨ p.ending = .plain) := by
  unfold lookup
  cases walked : t.walk [] p.steps with
  | error problem => simp [bind, Except.bind]
  | ok last =>
    have ends : last = p.place := walkEnd walked
    subst ends
    simp only [bind, Except.bind, true_and]
    cases found : t.find p.place with
    | none => simp
    | some other =>
      cases other with
      | directory => simp only [pure, Except.pure, Except.ok.injEq, Option.some.injEq]; grind
      | file content =>
        by_cases ending : p.ending = .plain
        · simp only [ending, if_true, pure, Except.pure, Except.ok.injEq, Option.some.injEq, or_true, and_true]
        · simp only [if_neg ending, Option.some.injEq]
          grind

theorem presentIff {t : Tree γ C} {p : Path γ} : t.present p = true ↔ ∃ node, t.lookup p = .ok node := by
  unfold present
  cases t.lookup p with
  | error problem => simp [Except.toBool]
  | ok node => simp [Except.toBool]

theorem readIff {t : Tree γ C} {p : Path γ} {content : C} : t.read p = some content ↔
    t.walk [] p.steps = .ok p.place ∧ t.find p.place = some (.file content) ∧ p.ending = .plain := by
  have found : t.lookup p = .ok (.file content) ↔ _ := lookupIff
  simp only [reduceCtorEq, false_or] at found
  rw [← found]
  unfold read
  split
  · rename_i other same
    rw [same]
    simp
  · rename_i otherwise
    constructor
    · rintro ⟨⟩
    · exact fun same => absurd same (otherwise content)

theorem readChild {t : Tree γ C} {p : Path γ} {name : γ} {content : C} : t.read (p.child name) = some content ↔
    t.walk [] p.steps = .ok p.place ∧ t.find (name :: p.place) = some (.file content) := by
  rw [readIff, Path.childPlace, Path.child, walkAppend]
  constructor
  · rintro ⟨walked, found, -⟩
    refine ⟨?_, found⟩
    cases before : t.walk [] p.steps with
    | error problem => rw [before] at walked; cases walked
    | ok last => rw [walkEnd before]; rfl
  · rintro ⟨walked, found⟩
    refine ⟨?_, found, rfl⟩
    rw [walked]
    exact walkCons (findAbove found) _ _

theorem ancestorThere {t : Tree γ C} {p q : Path γ} {place : List γ} (walked : t.walk [] p.steps = .ok place)
    (above : q ∈ p.ancestors) : t.lookup q = .ok .directory ∨ q = p := by
  rcases List.mem_append.mp above with inner | last
  · left
    obtain ⟨k, inside, rfl⟩ := List.mem_map.mp inner
    have short := List.mem_range.mp inside
    rw [← List.take_append_drop k p.steps, List.drop_eq_getElem_cons short, walkAppend] at walked
    cases reached : t.walk [] (p.steps.take k) with
    | error problem => rw [reached] at walked; cases walked
    | ok next =>
      rw [reached] at walked
      have ends : next = (Path.mk (p.steps.take k) .plain).place := walkEnd reached
      exact lookupIff.mpr ⟨ends ▸ reached, ends ▸ walkStart walked, Or.inl rfl⟩
  · exact Or.inr (List.mem_singleton.mp last)

theorem ancestorBarred {t : Tree γ C} {p q : Path γ} (barred : t.lookup p = .error .notDirectory)
    (above : q ∈ p.ancestors) : t.lookup q = .ok .directory ∨
      ¬ (t.walk [] q.steps = .ok q.place ∧ t.find q.place = none) := by
  refine or_iff_not_imp_right.mpr (fun missing => ?_)
  obtain ⟨walked, none⟩ := not_not.mp missing
  exfalso
  rcases List.mem_append.mp above with inner | last
  · obtain ⟨k, inside, rfl⟩ := List.mem_map.mp inner
    have short := List.mem_range.mp inside
    unfold lookup at barred
    rw [← List.take_append_drop k p.steps, List.drop_eq_getElem_cons short, walkAppend, walked] at barred
    simp only [bind, Except.bind, walk, none] at barred
    cases barred
  · cases List.mem_singleton.mp last
    unfold lookup at barred
    simp only [walked, bind, Except.bind, none] at barred
    cases barred

structure Placed (t : Tree γ C) (p : Path γ) (node : Node C) (t' : Tree γ C) : Prop where
  walked : t.walk [] p.steps = .ok p.place
  free : t.find p.place ≠ some .directory
  found : ∀ other, t'.find other = if other = p.place then some node else t.find other

theorem Placed.keeps {t t' : Tree γ C} {p : Path γ} {node : Node C} (placed : Placed t p node t') : Keeps t t' := by
  intro place found
  rw [placed.found, if_neg, found]
  rintro rfl
  exact placed.free found

section
variable [DecidableEq C] {t t' : Tree γ C} {p : Path γ}

theorem placeOk {node : Node C} (ok : t.place p node = some t') : Placed t p node t' := by
  unfold place at ok
  split at ok
  · rename_i last walked
    have ends : last = p.place := walkEnd walked
    subst ends
    split at ok
    · rename_i free
      cases ok
      have root : p.place ≠ [] := fun top => free (by rw [top]; rfl)
      exact ⟨walked, free, findPut root (walkInside rfl walked) free⟩
    · cases ok
  · cases ok

theorem placeEnds (node : Node C) (walked : t.walk [] p.steps = .ok p.place)
    (free : t.find p.place ≠ some .directory) : ∃ t', t.place p node = some t' := by
  rw [place, walked]
  exact ⟨_, if_pos free⟩

theorem createDirOk (ok : t.createDir p = some t') : t.find p.place = none ∧ Placed t p .directory t' := by
  unfold createDir at ok
  split at ok
  · rename_i absent
    exact ⟨Option.isNone_iff_eq_none.mp absent.1, placeOk ok⟩
  · cases ok

theorem ensureDirOk (ok : t.ensureDir p = some t') : t'.lookup p = .ok .directory ∧
    (t' = t ∨ (t.find p.place = none ∧ Placed t p .directory t')) := by
  unfold ensureDir at ok
  split at ok
  · rename_i there
    cases ok
    exact ⟨there, Or.inl rfl⟩
  · obtain ⟨absent, made⟩ := createDirOk ok
    refine ⟨lookupIff.mpr ⟨walkKept made.keeps made.walked, ?_, Or.inl rfl⟩, Or.inr ⟨absent, made⟩⟩
    rw [made.found, if_pos rfl]

theorem hardLinkOk {source : Path γ} (ok : t.hardLink source p = some t') : ∃ content,
    t.read source = some content ∧ t.find p.place = none ∧ p.ending = .plain ∧ Placed t p (.file content) t' := by
  unfold hardLink at ok
  obtain ⟨content, stored, rest⟩ := Option.bind_eq_some_iff.mp ok
  split at rest
  · rename_i absent
    exact ⟨content, stored, Option.isNone_iff_eq_none.mp absent.1, absent.2, placeOk rest⟩
  · cases rest

theorem createOk {empty : C} (ok : t.create p empty = some t') : p.ending = .plain ∧ Placed t p (.file empty) t' := by
  unfold create at ok
  split at ok
  · rename_i plain
    exact ⟨plain, placeOk ok⟩
  · cases ok

theorem modifyOk {f : C → C} (ok : t.modify p f = some t') : ∃ content,
    t.read p = some content ∧ Placed t p (.file (f content)) t' := by
  unfold modify at ok
  obtain ⟨content, stored, rest⟩ := Option.bind_eq_some_iff.mp ok
  exact ⟨content, stored, placeOk rest⟩

theorem renameOk {source : Path γ} (apart : source.place ≠ p.place) (ok : t.rename source p = some t') :
    ∃ content, t.read source = some content ∧ p.ending = .plain ∧ t.walk [] p.steps = .ok p.place ∧
      Keeps t t' ∧ ∀ other, t'.find other = if other = source.place then none
        else if other = p.place then some (.file content) else t.find other := by
  unfold rename at ok
  obtain ⟨content, stored, rest⟩ := Option.bind_eq_some_iff.mp ok
  rw [if_neg apart] at rest
  split at rest
  · rename_i plain
    obtain ⟨middle, put, rfl⟩ := Option.map_eq_some_iff.mp rest
    have placed := placeOk put
    have file := (readIff.mp stored).2.1
    have root : source.place ≠ [] := by
      intro top
      rw [top] at file
      cases file
    have still : middle.find source.place = some (.file content) := by
      rw [placed.found, if_neg apart, file]
    -- nothing stands below a file
    have leaf : ∀ name, middle.find (name :: source.place) = none := by
      intro name
      cases under : middle.find (name :: source.place) with
      | none => rfl
      | some node =>
        have above := findAbove under
        rw [still] at above
        cases above
    have found : ∀ other, (middle.remove source.place).find other = if other = source.place then none
        else if other = p.place then some (.file content) else t.find other := by
      intro other
      rw [findRemove root leaf, placed.found]
    refine ⟨content, stored, plain, placed.walked, fun place inside => ?_, found⟩
    rw [found, if_neg, ← placed.found, placed.keeps place inside]
    rintro rfl
    rw [file] at inside
    cases inside
  · cases rest

end

theorem removeDirAllOk {t t' : Tree γ C} {p : Path γ} (ok : t.removeDirAll p = (true, t')) :
    t.lookup p = .ok .directory ∧ ∀ other, t'.find other = if p.place <:+ other then none else t.find other := by
  unfold removeDirAll at ok
  split at ok
  · rename_i there
    refine ⟨there, ?_⟩
    split at ok
    · rename_i last removed
      cases ok
      unfold removeDir at removed
      split at removed
      · split at removed
        · rename_i allowed
          cases removed
          have leaf : ∀ name, (t.clear p.place).find (name :: p.place) = none := by
            intro name
            have longer : name :: p.place ≠ p.place := List.cons_ne_self _ _
            rw [findClear, if_pos ⟨List.suffix_cons _ _, longer⟩]
          intro other
          rw [findRemove allowed.2.2.1 leaf, findClear]
          by_cases same : other = p.place
          · subst same
            rw [if_pos rfl, if_pos (List.suffix_refl _)]
          · rw [if_neg same]
            by_cases under : p.place <:+ other
            · rw [if_pos ⟨under, same⟩, if_pos under]
            · rw [if_neg (fun b => under b.1), if_neg under]
        · cases removed
      · cases removed
    · cases ok
  · cases ok

theorem removeDirAllEnds {t : Tree γ C} {p : Path γ} {name : γ} (there : t.lookup (p.child name) = .ok .directory)
    (walked : (t.clear (p.child name).place).walk [] p.steps = .ok p.place) :
    ∃ t', t.removeDirAll (p.child name) = (true, t') := by
  have found : (t.clear (p.child name).place).find (p.child name).place = some .directory := by
    rw [findClear, if_neg (fun below => below.2 rfl), (lookupIff.mp there).2.1]
  have above : (t.clear (p.child name).place).find p.place = some .directory := by
    rw [Path.childPlace] at found ⊢
    exact findAbove found
  have again : (t.clear (p.child name).place).lookup (p.child name) = .ok .directory := by
    refine lookupIff.mpr ⟨?_, found, Or.inl rfl⟩
    rw [Path.childPlace, Path.child, walkAppend] at *
    rw [walked]
    exact walkCons above _ _
  have leaf : ∀ e ∈ (t.clear (p.child name).place).entries, e.1.tail ≠ (p.child name).place := by
    intro e member same
    obtain ⟨first, rest, split, -⟩ := (t.clear (p.child name).place).placed e member
    have stands := findEntry member
    rw [split, List.tail_cons] at same
    rw [split, same, findClear, if_pos ⟨List.suffix_cons _ _, List.cons_ne_self _ _⟩] at stands
    cases stands
  have removed : (t.clear (p.child name).place).removeDir (p.child name) =
      some ((t.clear (p.child name).place).remove (p.child name).place) := by
    unfold removeDir
    rw [again]
    refine if_pos ⟨by simp [Path.child], by simp [Path.child], ?_, leaf⟩
    rw [Path.childPlace]
    exact List.cons_ne_nil _ _
  refine ⟨(t.clear (p.child name).place).remove (p.child name).place, ?_⟩
  unfold removeDirAll
  rw [there]
  dsimp only
  rw [removed]

theorem ensureDirBarred [DecidableEq C] {t : Tree γ C} {p q : Path γ} (barred : t.lookup p = .error .notDirectory)
    (above : q ∈ p.ancestors) : t.ensureDir q = some t ∨ t.ensureDir q = none := by
  unfold ensureDir
  rcases ancestorBarred barred above with there | missing
  · exact Or.inl (if_pos there)
  · by_cases there : t.lookup q = .ok .directory
    · exact Or.inl (if_pos there)
    · right
      rw [if_neg there, createDir]
      split
      · rename_i free
        unfold place
        cases walked : t.walk [] q.steps with
        | error problem => rfl
        | ok last =>
          have ends : last = q.place := walkEnd walked
          exact absurd ⟨ends ▸ walked, Option.isNone_iff_eq_none.mp free.1⟩ missing
      · rfl

theorem ensureDirFails [DecidableEq C] {t : Tree γ C} {p : Path γ} (barred : t.lookup p = .error .notDirectory) :
    t.ensureDir p = none := by
  rcases ensureDirBarred barred (List.mem_append_right _ List.mem_cons_self) with idle | fails
  · have there := (ensureDirOk idle).1
    rw [barred] at there
    cases there
  · exact fails

end Tree
end FileTree
