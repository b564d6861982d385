import CardanoLsm.Keys

/-! What the session reads, and the invariant behind it: what a cycle or `compact_all`
took still stands where it stood, or its result will not be used. It is kept by every
step in which nothing fails, a write-back finds its sources in place, a merge into the
bottom level is safe, and `compact_all` starts where run numbers order the runs as the
levels do. -/
namespace CardanoLsm
open Std Layered

namespace State

def top (s : State) : List Entries := s.tree.memtable.data :: s.foreground.inFlight

def view (s : State) (k : Key) : Option Value :=
  visible (s.top ++ layersOf (rangeOrder s.tree.levels)) k

theorem idleView {s : State} (sound : Sound s) (idle : s.foreground.inFlight = []) (k : Key) :
    s.view k = s.tree.view k := by
  have none : s.tree.immutableMemtables = [] := sound.tree.immutables
  simp only [view, top, idle, LsmTree.view, LsmTree.layers, memLayers, none, List.map_nil,
    List.reverse_nil]

end State

def Action.Clean : Action → Prop
  | .foreground faults | .background faults => ∀ j, faults j = false
  | _ => True

def Foreground.cycle : Foreground → Option Cycle
  | .compacting c => some c
  | _ => none

theorem Foreground.cycleSome {f : Foreground} {c : Cycle} (here : c ∈ f.cycle) : f = .compacting c := by
  cases f with
  | compacting d =>
    cases Option.some.inj here
    rfl
  | _ => cases here

def State.cycleOf (s : State) : Action → Option Cycle
  | .foreground _ => s.foreground.cycle
  | .background _ => s.background
  | _ => none

structure KeysInside (levels snap : Levels) (maxLevel : Nat) (job : LevelCompactionJob) : Prop where
  sources : RunsKeys Scanned (snap.getD job.sourceLevel [])
  targets : job.targetLevel = maxLevel → RunsKeys Scanned (levels.getD maxLevel [])

def Cycle.WriteBackOk (gone : Prop) (s : State) : Cycle → Prop
  | .merged g snap job _ _ => s.tree.compactionGeneration = g →
    (gone → InPlace s.tree.levels snap job) ∧ KeysInside s.tree.levels snap s.tree.maxLevel job ∧
      BottomSafe s.top s.tree.levels snap s.tree.maxLevel job
  | _ => True

/-- The conditions under which a step keeps the relation. Without `gone` there is only
the background compactor. -/
structure StepOk (gone : Prop) (s : State) (a : Action) : Prop where
  clean : a.Clean
  cycle : ∀ c ∈ s.cycleOf a, c.WriteBackOk gone s
  compactAll : a = .compactAll → RunsKeys Scanned s.tree.levels.flatten ∧
    OrdersAgree [s.tree.memtable.data] s.tree.levels
  lone : ¬ gone → a ≠ .compact ∧ a ≠ .compactAll

theorem StepOk.foreground {gone : Prop} {s : State} {faults : Nat → Bool} {c : Cycle}
    (ok : StepOk gone s (.foreground faults)) (here : s.foreground = .compacting c) :
    c.WriteBackOk gone s := ok.cycle c (by simp [State.cycleOf, here, Foreground.cycle])

theorem StepOk.background {gone : Prop} {s : State} {faults : Nat → Bool} {c : Cycle}
    (ok : StepOk gone s (.background faults)) (here : s.background = some c) : c.WriteBackOk gone s :=
  ok.cycle c here

def stepChecked (s : State) (a : Action) : Bool :=
  match a, s.cycleOf a with
  | _, some (.merged g snap job _ _) =>
    decide (s.tree.compactionGeneration = g → InPlace s.tree.levels snap job ∧
      RunsKeys Scanned (snap.getD job.sourceLevel []) ∧ job.targetLevel ≠ s.tree.maxLevel)
  | .compactAll, _ => decide (RunsKeys Scanned s.tree.levels.flatten ∧
      byNumber s.tree.levels.flatten = rangeOrder s.tree.levels)
  | _, _ => true

theorem stepOkOf {s : State} {a : Action} (clean : a.Clean) (checked : stepChecked s a = true) :
    StepOk True s a := by
  refine ⟨clean, fun c here => ?_, ?_, fun alone => absurd trivial alone⟩
  · cases c with
    | merged g snap job runs result =>
      unfold stepChecked at checked
      rw [Option.mem_def.mp here] at checked
      intro wanted
      obtain ⟨place, keys, middle⟩ := of_decide_eq_true checked wanted
      exact ⟨fun _ => place, ⟨keys, fun bottom => absurd bottom middle⟩,
        fun bottom => absurd bottom middle⟩
    | _ => trivial
  · rintro rfl
    obtain ⟨keys, same⟩ := of_decide_eq_true checked
    exact ⟨keys, fun k _ => by rw [same]⟩

def Foreground.AboveL0 (levels : Levels) : Foreground → Prop
  | .flushNumbered _ n _ => Below levels 0 n
  | .flushWritten h _ => Below levels 0 h.runNumber
  | _ => True

def Cycle.Tied (gone : Prop) (levels : Levels) (maxLevel : Nat) : Cycle → Prop
  | .loaded _ => True
  | .selected _ snap job => Tie gone levels maxLevel snap job none
  | .numbered _ snap job n _ => Tie gone levels maxLevel snap job (some n)
  | .merged _ snap job _ result =>
    Tie gone levels maxLevel snap job (result.output.map SsTableHandle.runNumber)

def Cycle.Current (gone : Prop) (t : LsmTree) (c : Cycle) : Prop :=
  c.genBefore = t.compactionGeneration → c.Tied gone t.levels t.maxLevel

def Foreground.Gathered (s : State) : Foreground → Prop
  | .compactAllCloned all | .compactAllNumbered all _ | .compactAllMerged all _ =>
    RunsKeys Scanned all ∧ ∀ k, visible (s.top ++ layersOf (byNumber all)) k = s.view k
  | _ => True

def Foreground.plain : Foreground → Bool
  | .compacting _ | .compactAllCloned _ | .compactAllNumbered _ _ | .compactAllMerged _ _ => false
  | _ => true

structure Content (gone : Prop) (s : State) : Prop where
  aboveL0 : s.foreground.AboveL0 s.tree.levels
  foreground : ∀ c, s.foreground = .compacting c → c.Current gone s.tree
  background : ∀ c ∈ s.background, c.Current gone s.tree
  bottom : (s.tree.levels.getD s.tree.maxLevel []).length ≤ 1
  heldBottom : ∀ snap ∈ s.held, (snap.levels.getD s.tree.maxLevel []).length ≤ 1
  gathered : s.foreground.Gathered s
  lone : ¬ gone → s.foreground.plain = true

namespace Cycle.Moves
variable {gone : Prop} {faults : Nat → Bool} {s t : State} {c : Cycle} {p : Progress}
  {rest : Multiset SsTableHandle} {outputs : List SsTableHandle} {allocated : List Nat}

theorem writeBackAlive {g : Nat} {snap : Levels} {job : LevelCompactionJob} {runs : List SsTableHandle}
    {result : CompactionResult} (wanted : s.tree.compactionGeneration = g)
    (current : (Cycle.merged g snap job runs result).Current gone s.tree)
    (ok : (Cycle.merged g snap job runs result).WriteBackOk gone s) :
    Alive s.tree.levels s.tree.maxLevel snap job ∧
      (∀ out ∈ result.output, Below s.tree.levels job.targetLevel out.runNumber) ∧
      KeysInside s.tree.levels snap s.tree.maxLevel job ∧
      BottomSafe s.top s.tree.levels snap s.tree.maxLevel job := by
  obtain ⟨place, keys, safe⟩ := ok wanted
  obtain ⟨alive, below⟩ := Tie.alive (current wanted.symm) place
  refine ⟨alive, fun out member => below out.runNumber ?_, keys, safe⟩
  exact Option.mem_map_of_mem _ member

theorem viewKept (moved : Cycle.Moves faults s c p t)
    (tree : SnapshotShape s.tree.maxLevel s.tree.sequenceNumber s.tree.snapshot)
    (small : (s.tree.levels.getD s.tree.maxLevel []).length ≤ 1)
    (shape : c.Shape s.tree.maxLevel s.tree.compactionGeneration) (current : c.Current gone s.tree)
    (ok : c.WriteBackOk gone s) (k : Key) :
    visible (s.top ++ layersOf (rangeOrder t.tree.levels)) k = s.view k := by
  cases moved with
  | writeBack g snap job runs result wanted =>
    obtain ⟨alive, below, keys, safe⟩ := writeBackAlive wanted current ok
    obtain ⟨selected, rfl, yields⟩ := shape.2
    exact writeBackView tree.length tree.distinct selected alive yields (fun _ => below) keys.sources
      keys.targets small safe k
  | _ => rfl

theorem bottomKept (moved : Cycle.Moves faults s c p t) (length : s.tree.levels.length = s.tree.maxLevel + 1)
    (small : (s.tree.levels.getD s.tree.maxLevel []).length ≤ 1) (arranged : c.Arranged s.tree.maxLevel) :
    (t.tree.levels.getD s.tree.maxLevel []).length ≤ 1 := by
  cases moved with
  | writeBack g snap job runs result wanted =>
    obtain ⟨picked, rfl, removes⟩ := arranged
    have level := writeBackLevel length picked.job removes s.tree.maxLevel
    have source := picked.job.source
    simp only [State.discard, State.withLevels]
    rw [level]
    by_cases bottom : s.tree.maxLevel = job.targetLevel
    · rw [if_pos bottom, ← bottom]
      cases result.output with
      | none => exact small
      | some h => simp [Compactor.newTarget]
    · rw [if_neg bottom, if_neg (by omega)]
      exact small
  | _ => exact small

theorem level0 (moved : Cycle.Moves faults s c p t)
    (tree : SnapshotShape s.tree.maxLevel s.tree.sequenceNumber s.tree.snapshot)
    (shape : c.Shape s.tree.maxLevel s.tree.compactionGeneration) {h : SsTableHandle}
    (member : h ∈ t.tree.levels.getD 0 []) : h ∈ s.tree.levels.getD 0 [] := by
  cases moved with
  | writeBack g snap job runs result wanted =>
    obtain ⟨selected, rfl, removes, -⟩ := shape.2
    have length : s.tree.levels.length = s.tree.maxLevel + 1 := tree.length
    have level := writeBackLevel length selected.job removes 0
    have target := selected.job.target
    simp only [State.discard, State.withLevels] at member
    rw [level, if_neg (by omega)] at member
    split at member
    · rename_i here
      rw [here]
      exact List.mem_of_mem_drop member
    · exact member
  | _ => exact member

theorem current {c' : Cycle} (moved : Cycle.Moves faults s c (.running c') t)
    (book : Book s c rest outputs allocated)
    (shape : c.Shape s.tree.maxLevel s.tree.compactionGeneration) (current : c.Current gone s.tree) :
    c'.Current gone t.tree := by
  have newest : ∀ h ∈ s.tree.levels.flatten, h.runNumber < s.tree.nextRunNumber := fun h member =>
    (book.number (Multiset.mem_add.mpr (Or.inl (bookLevels member)))).1
  cases moved with
  | select g job selected => exact fun _ => Tie.start _ _ _
  | number g snap job => exact fun wanted => Tie.assign (current wanted) newest
  | merge g snap job n runs result st done =>
    intro wanted
    have tie := current wanted
    obtain ⟨selected, rfl⟩ := shape.2
    have sources : Readable s.storage (snap.getD job.sourceLevel []) := book.readable
      (fun x member => bookClones (List.mem_append_right _ member))
    have targets : Readable s.storage job.targetLevelRuns := book.readable
      (fun x member => bookClones (List.mem_append_left _ (List.mem_append_right _ member)))
    have merged := Compactor.mergeAndWriteOk
      (Compactor.mergeLevelsAll s.tree.maxLevel selected.job.indices sources targets) done
    cases merged with
    | nothing empty => exact Tie.forget tie
    | output nonempty h st' written =>
      have number : h.runNumber = n := written.handle.2.1
      simp only [Cycle.Tied, Option.map_some, number]
      exact tie

theorem Tied.change {levels levels' : Levels} {maxLevel generation : Nat} {d : Cycle}
    (shape : d.Shape maxLevel generation)
    (change : ∀ snap job number, Selected maxLevel snap job →
      (∀ x ∈ snap.getD job.sourceLevel [], x ∈ d.clones) → Tie gone levels maxLevel snap job number →
      Tie gone levels' maxLevel snap job number)
    (tied : d.Tied gone levels maxLevel) : d.Tied gone levels' maxLevel := by
  cases d with
  | loaded g => trivial
  | selected g snap job =>
    exact change snap job _ shape.2 (fun x member => List.mem_append_left _ (levelSubset member)) tied
  | numbered g snap job n runs =>
    exact change snap job _ shape.2.1 (fun x member =>
      List.mem_append_left _ (List.mem_append_left _ (levelSubset member))) tied
  | merged g snap job runs result =>
    exact change snap job _ shape.2.1 (fun x member => List.mem_append_left _ (levelSubset member)) tied

theorem other (moved : Cycle.Moves faults s c p t) (may : gone) {d : Cycle}
    (book : Book s c rest outputs allocated) (inside : ∀ x ∈ d.clones, x ∈ rest)
    (tree : SnapshotShape s.tree.maxLevel s.tree.sequenceNumber s.tree.snapshot)
    (shape : c.Shape s.tree.maxLevel s.tree.compactionGeneration) (current : c.Current gone s.tree)
    (ok : c.WriteBackOk gone s) (shape' : d.Shape s.tree.maxLevel s.tree.compactionGeneration)
    (current' : d.Current gone s.tree) : d.Current gone t.tree := by
  cases moved with
  | writeBack g snap job runs result wanted =>
    obtain ⟨alive, below, -, -⟩ := writeBackAlive wanted current ok
    obtain ⟨selected, rfl, removes, -⟩ := shape.2
    intro wanted'
    refine Tied.change shape' (fun snap' job' number selected' members tie => ?_) (current' wanted')
    refine tie.writeBack may selected' tree.length selected removes alive below ?_
    intro out member x inSource same
    refine book.fresh x ?_ (same ▸ List.mem_map_of_mem ?_)
    · exact Multiset.mem_add.mpr (Or.inr (inside x (members x inSource)))
    · exact List.mem_append_left _ (Option.mem_toList.mpr member)
  | _ => exact current'

end Cycle.Moves

namespace State.Moves
variable {gone : Prop} {s t : State} {a : Action}

theorem foregroundCycle (sound : Sound s) (content : Content gone s) {c : Cycle}
    (here : s.foreground = .compacting c) :
    c.Shape s.tree.maxLevel s.tree.compactionGeneration ∧ c.Current gone s.tree ∧ gone := by
  have shape := sound.foreground
  rw [here] at shape
  refine ⟨shape, content.foreground c here, ?_⟩
  by_contra alone
  have plain := content.lone alone
  rw [here] at plain
  cases plain

theorem levelsUnder (sound : Sound s) : ∀ h ∈ s.tree.levels.flatten, h.runNumber < s.tree.nextRunNumber :=
  fun h member => (sound.ledger.number (Multiset.mem_add.mpr (Or.inl (levelsSettled s h member)))).1

theorem levelsInside (sound : Sound s) : s.tree.levels.length = s.tree.maxLevel + 1 := sound.tree.length

theorem flushDone (sound : Sound s) {faults : Nat → Bool} (clean : ∀ j, faults j = false)
    {old : MemTable} {n : Nat} {after : AfterFlush} {e : Error} {st : Storage}
    (here : s.foreground = .flushNumbered old n after)
    (failed : SsTableWriter.write faults 0 n old.data 0 s.storage = (.error e, st)) : False := by
  have nonempty := sound.foreground
  rw [here] at nonempty
  have unused := (bookAt sound here).unused n (Or.inl (by simp [Foreground.allocated]))
  obtain ⟨h, st', done⟩ := SsTableWriter.writeSucceeds clean 0 0 unused nonempty
  rw [done] at failed
  cases failed

theorem bottomAfterInstall (levels : Levels) {maxLevel : Nat} (output : Option SsTableHandle) :
    ((clearedLevels levels maxLevel output).getD maxLevel []).length ≤ 1 := by
  have blank : (levels.map (fun _ => ([] : List SsTableHandle))).getD maxLevel [] = [] := by
    rw [List.getD_eq_getElem?_getD, List.getElem?_map]
    cases levels[maxLevel]? <;> rfl
  unfold clearedLevels
  cases output with
  | none => simp
  | some out =>
    dsimp only
    rw [getDSet, blank]
    split <;> simp

theorem aboveL0 (moved : Moves s a t) (sound : Sound s)
    (above : s.foreground.AboveL0 s.tree.levels) : t.foreground.AboveL0 t.tree.levels := by
  have lower : ∀ {c p t' faults}, Cycle.Moves faults s c p t' →
      c.Shape s.tree.maxLevel s.tree.compactionGeneration → s.foreground.AboveL0 t'.tree.levels := by
    intro c p t' faults moved shape
    cases here : s.foreground with
    | flushNumbered old n after =>
      rw [here] at above
      exact fun h member => above h (moved.level0 sound.tree shape member)
    | flushWritten h after =>
      rw [here] at above
      exact fun x member => above x (moved.level0 sound.tree shape member)
    | _ => trivial
  cases moved with
  | flushNumber faults old after here =>
    exact fun h member => levelsUnder sound h (levelSubset member)
  | flushWrite faults old n after h st here done =>
    rw [here] at above
    have number : h.runNumber = n := (SsTableWriter.writeOk done).handle.2.1
    simp only [at_, Foreground.AboveL0, number]
    exact above
  | flushPush faults h after f r here quiet ends => cases quiet <;> trivial
  | drained faults after f r here quiet ends => cases quiet <;> trivial
  | background t faults c c' here moved =>
    simp only [moved.frame.foreground]
    exact lower moved (sound.background c here)
  | backgroundEnd t faults c r here moved =>
    simp only [moved.frame.foreground]
    exact lower moved (sound.background c here)
  | snapshot idle => exact above
  | cloneSnapshot i snap found => exact above
  | dropSnapshot i snap found => exact above
  | begin faults none => exact above
  | collect i h found => exact above
  | _ => trivial

theorem foregroundCurrent (moved : Moves s a t) (sound : Sound s) (content : Content gone s)
    (ok : StepOk gone s a) : ∀ d, t.foreground = .compacting d → d.Current gone t.tree := by
  intro d isCycle
  have kept := content.foreground d
  -- a step of the background leaves the cycle of the foreground tied
  have across : ∀ (t' : State) {c p faults}, s.background = some c → c.WriteBackOk gone s →
      Cycle.Moves faults s c p t' → s.foreground = .compacting d → d.Current gone t'.tree := by
    intro t' c p faults here allowed moved same
    obtain ⟨shape, current, may⟩ := foregroundCycle sound content same
    refine moved.other may (bookBackground sound here) (fun x member => ?_) sound.tree
      (sound.background c here) (content.background c here) allowed shape current
    rw [same, Multiset.mem_add]
    exact Or.inr member
  cases moved with
  | compact idle =>
    cases isCycle
    exact fun _ => trivial
  | flushPush faults h after f r here quiet ends => cases quiet <;> cases isCycle
  | drained faults after f r here quiet ends => cases quiet <;> cases isCycle
  | compacting t faults c c' here moved =>
    cases isCycle
    obtain ⟨shape, current, may⟩ := foregroundCycle sound content here
    exact moved.current (bookCycle sound here) shape current
  | background t faults c c' here moved =>
    exact across t here (ok.background here) moved (moved.frame.foreground ▸ isCycle)
  | backgroundEnd t faults c r here moved =>
    exact across t here (ok.background here) moved (moved.frame.foreground ▸ isCycle)
  | snapshot idle => exact kept isCycle
  | cloneSnapshot i snap found => exact kept isCycle
  | dropSnapshot i snap found => exact kept isCycle
  | begin faults none => exact kept isCycle
  | collect i h found => exact kept isCycle
  | _ => cases isCycle

theorem backgroundCurrent (moved : Moves s a t) (sound : Sound s) (content : Content gone s)
    (ok : StepOk gone s a) : ∀ d ∈ t.background, d.Current gone t.tree := by
  intro d isCycle
  have kept := content.background d
  have across : ∀ (t' : State) {c p faults}, s.foreground = .compacting c → c.WriteBackOk gone s →
      Cycle.Moves faults s c p t' → s.background = some d → d.Current gone t'.tree := by
    intro t' c p faults here allowed moved same
    obtain ⟨shape, current, may⟩ := foregroundCycle sound content here
    refine moved.other may (bookCycle sound here) (fun x member => ?_) sound.tree shape current allowed
      (sound.background d same) (content.background d same)
    rw [same, Multiset.mem_add]
    exact Or.inr member
  cases moved with
  | rollback i snap idle found past =>
    -- the generation moved on: nothing of the cycle will be taken
    intro wanted
    have older := (sound.background d isCycle).1
    simp only [discard, withTree, return_, LsmTree.restore] at wanted
    omega
  | flushPush faults h after f r here quiet ends =>
    intro wanted
    have above := content.aboveL0
    rw [here] at above
    have inside := levelsInside sound
    refine Cycle.Moves.Tied.change (sound.background d isCycle)
      (fun snap job number selected members tie => ?_) (kept isCycle wanted)
    refine tie.push selected (by omega) above (fun x member same => ?_)
    refine (bookAt sound here).fresh x ?_ (same ▸ List.mem_cons_self)
    have same : s.background = some d := isCycle
    simp only [settledBase, same, Option.elim_some, Multiset.mem_add, Multiset.mem_coe]
    exact Or.inr (members x member)
  | compacting t faults c c' here moved =>
    exact across t here (ok.foreground here) moved (moved.frame.background ▸ isCycle)
  | compacted t faults c r here moved =>
    exact across t here (ok.foreground here) moved (moved.frame.background ▸ isCycle)
  | compactAllInstall faults all result here =>
    intro wanted
    have may : gone := by
      by_contra alone
      have plain := content.lone alone
      rw [here] at plain
      cases plain
    exact Cycle.Moves.Tied.change (sound.background d isCycle)
      (fun snap job number selected members tie => Tie.cleared may selected _) (kept isCycle wanted)
  | begin faults none =>
    cases Option.some.inj isCycle
    exact fun _ => trivial
  | background t faults c c' here moved =>
    cases Option.some.inj isCycle
    exact moved.current (bookBackground sound here) (sound.background c here) (content.background c here)
  | backgroundEnd t faults c r here moved => cases isCycle
  | _ => exact kept isCycle

theorem bottomKept (moved : Moves s a t) (arranged : s.Arranged)
    (small : (s.tree.levels.getD s.tree.maxLevel []).length ≤ 1)
    (held : ∀ i snap, a = .rollback i → s.held[i]? = some snap → (snap.levels.getD s.tree.maxLevel []).length ≤ 1) :
    (t.tree.levels.getD t.tree.maxLevel []).length ≤ 1 := by
  have cycle : ∀ (t' : State) {c p faults}, Cycle.Moves faults s c p t' → c.Arranged s.tree.maxLevel →
      (t'.tree.levels.getD t'.tree.maxLevel []).length ≤ 1 := by
    intro t' c p faults moved cycle
    rw [moved.frame.maxLevel]
    exact moved.bottomKept arranged.length small cycle
  have foreground := arranged.foreground
  cases moved with
  | rollback i snap idle found past => exact held i snap rfl found
  | flushPush faults h after f r here quiet ends =>
    have positive := arranged.positive
    simp only [pushL0, withLevels]
    rw [getDSet, if_neg (by omega)]
    exact small
  | compactAllInstall faults all result here => exact bottomAfterInstall _ _
  | compacting t faults c c' here moved =>
    rw [here] at foreground
    exact cycle t moved foreground
  | compacted t faults c r here moved =>
    rw [here] at foreground
    exact cycle t moved foreground
  | background t faults c c' here moved => exact cycle t moved (arranged.background c here)
  | backgroundEnd t faults c r here moved => exact cycle t moved (arranged.background c here)
  | _ => exact small

theorem heldBottom (moved : Moves s a t) (content : Content gone s) :
    ∀ snap ∈ t.held, (snap.levels.getD t.tree.maxLevel []).length ≤ 1 := by
  intro x member
  rw [moved.maxLevelKept.1]
  have held := content.heldBottom
  cases moved with
  | snapshot idle =>
    rcases List.mem_append.mp member with old | new
    · exact held x old
    · rw [List.mem_singleton.mp new]
      exact content.bottom
  | refused i snap idle found future => exact held x (List.mem_of_mem_eraseIdx member)
  | rollback i snap idle found past => exact held x (List.mem_of_mem_eraseIdx member)
  | cloneSnapshot i snap found =>
    rcases List.mem_append.mp member with old | new
    · exact held x old
    · rw [List.mem_singleton.mp new]
      exact held snap (List.mem_of_getElem? found)
  | dropSnapshot i snap found => exact held x (List.mem_of_mem_eraseIdx member)
  | compacting t faults c c' here moved => exact held x (moved.frame.held ▸ member)
  | compacted t faults c r here moved => exact held x (moved.frame.held ▸ member)
  | background t faults c c' here moved => exact held x (moved.frame.held ▸ member)
  | backgroundEnd t faults c r here moved => exact held x (moved.frame.held ▸ member)
  | _ => exact held x member

theorem viewStep (moved : Moves s a t) (sound : Sound s)
    (content : Content gone s) (ok : StepOk gone s a) (noWrite : a.isWrite = false)
    (noRollback : ∀ i, a ≠ .rollback i) (k : Key) : t.view k = s.view k := by
  have cycle : ∀ (t' : State) {c p faults}, Cycle.Moves faults s c p t' →
      c.Shape s.tree.maxLevel s.tree.compactionGeneration →
      c.Current gone s.tree → c.WriteBackOk gone s →
      visible (s.top ++ layersOf (rangeOrder t'.tree.levels)) k = s.view k :=
    fun t' c p faults moved shape current allowed =>
      moved.viewKept sound.tree content.bottom shape current allowed k
  cases moved with
  | wrote a memtable isWrite idle data => rw [isWrite] at noWrite; cases noWrite
  | wroteFull a memtable isWrite idle data nonempty => rw [isWrite] at noWrite; cases noWrite
  | refused i snap idle found future => exact absurd rfl (noRollback i)
  | rollback i snap idle found past => exact absurd rfl (noRollback i)
  | compact idle => simp only [view, top, at_, idle, Foreground.inFlight]
  | compactAllNothing idle none => simp only [view, top, return_, idle, Foreground.inFlight]
  | compactAllClone idle some => simp only [view, top, at_, cloneAll, idle, Foreground.inFlight]
  | saveFlush name label idle nonempty =>
    simp only [view, top, at_, withTree, idle, Foreground.inFlight]
    simp [visible, MemTable.new]
  | saveNoFlush name label idle empty =>
    simp only [view, top, at_, withTree, idle, Foreground.inFlight, empty, MemTable.new]
  | flushNumber faults old after here =>
    simp only [view, top, at_, allocate, here, Foreground.inFlight]
  | flushFailed faults old n after e st here failed => exact (flushDone sound ok.clean here failed).elim
  | flushWrite faults old n after h st here done =>
    have entries := (SsTableWriter.writeOk done).entries
    simp only [view, top, at_, here, Foreground.inFlight, entries]
  | flushPush faults h after f r here quiet ends =>
    have above := content.aboveL0
    rw [here] at above
    have inside := levelsInside sound
    have pushed := pushOrder sound.tree.distinct above (show 0 < s.tree.levels.length by omega)
    have none := quiet.inFlight
    simp only [view, top, pushL0, withLevels, none, here]
    exact congrArg (fun runs => visible (s.tree.memtable.data :: layersOf runs) k) pushed
  | drained faults after f r here quiet ends =>
    have none := quiet.inFlight
    simp only [view, top, here, none]
    rfl
  | compacting t faults c c' here moved =>
    obtain ⟨shape, current, -⟩ := foregroundCycle sound content here
    have read := cycle t moved shape current (ok.foreground here)
    simp only [top, here, Foreground.inFlight] at read
    simp only [view, top, at_, Foreground.inFlight, moved.frame.memtable]
    exact read.trans (by simp only [view, top, here, Foreground.inFlight])
  | compacted t faults c r here moved =>
    obtain ⟨shape, current, -⟩ := foregroundCycle sound content here
    have read := cycle t moved shape current (ok.foreground here)
    simp only [top, here, Foreground.inFlight] at read
    simp only [view, top, return_, Foreground.inFlight, moved.frame.memtable]
    exact read.trans (by simp only [view, top, here, Foreground.inFlight])
  | compactAllNumber faults all here =>
    simp only [view, top, at_, allocate, here, Foreground.inFlight]
  | compactAllFailed faults all n e st here failed =>
    simp only [view, top, return_, discard, here, Foreground.inFlight]
  | compactAllMerge faults all n result st here done =>
    simp only [view, top, at_, here, Foreground.inFlight]
  | compactAllInstall faults all result here =>
    have shape := sound.foreground
    have gathered := content.gathered
    rw [here] at shape gathered
    have inside := levelsInside sound
    have read : visible (s.top ++ layersOf (rangeOrder
        (clearedLevels s.tree.levels s.tree.maxLevel result.output))) k =
          visible (s.top ++ layersOf (byNumber all)) k :=
      installView (show s.tree.maxLevel < s.tree.levels.length by omega) gathered.1 shape.2.2 k
    rw [gathered.2 k] at read
    have same : (((s.withLevels (clearedLevels s.tree.levels s.tree.maxLevel result.output)).discard
        (s.tree.levels.flatten ++ all)).return_ (.ok ())).top = s.top := by
      simp only [top, return_, discard, withLevels, here, Foreground.inFlight]
    simp only [view, same]
    exact read
  | saveClone faults name label here => simp only [view, top, at_, cloneAll, here, Foreground.inFlight]
  | saveCreate faults name label seq all r st here created =>
    simp only [view, top, return_, discard, here, Foreground.inFlight]
  | background t faults c c' here moved =>
    have read := cycle t moved (sound.background c here)
      (content.background c here) (ok.background here)
    have same : ({ t with background := some c' } : State).top = s.top := by
      simp only [top, moved.frame.memtable, moved.frame.foreground]
    simp only [view, same]
    exact read
  | backgroundEnd t faults c r here moved =>
    have read := cycle t moved (sound.background c here)
      (content.background c here) (ok.background here)
    have same : ({ t with background := none } : State).top = s.top := by
      simp only [top, moved.frame.memtable, moved.frame.foreground]
    simp only [view, same]
    exact read
  | _ => rfl

theorem gathered (moved : Moves s a t) (sound : Sound s)
    (content : Content gone s) (ok : StepOk gone s a) : t.foreground.Gathered t := by
  have before := content.gathered
  -- the background may exchange runs meanwhile, without changing what is read
  have across : t.foreground = s.foreground → t.tree.memtable = s.tree.memtable →
      (∀ k, t.view k = s.view k) → t.foreground.Gathered t := by
    intro foreground memtable view
    have same : t.top = s.top := by simp only [top, foreground, memtable]
    rw [foreground]
    cases here : s.foreground with
    | compactAllCloned all =>
      rw [here] at before
      exact ⟨before.1, fun k => by rw [same, view k]; exact before.2 k⟩
    | compactAllNumbered all n =>
      rw [here] at before
      exact ⟨before.1, fun k => by rw [same, view k]; exact before.2 k⟩
    | compactAllMerged all result =>
      rw [here] at before
      exact ⟨before.1, fun k => by rw [same, view k]; exact before.2 k⟩
    | _ => trivial
  have view := moved.viewStep sound content ok
  cases moved with
  | compactAllClone idle some =>
    obtain ⟨keys, agree⟩ := ok.compactAll rfl
    refine ⟨keys, fun k => ?_⟩
    simp only [State.view, top, at_, cloneAll, Foreground.inFlight]
    exact visibleReplace _ (agree k)
  | compactAllNumber faults all here =>
    rw [here] at before
    refine ⟨before.1, fun k => ?_⟩
    have read := before.2 k
    simpa only [State.view, top, at_, allocate, Foreground.inFlight, here] using read
  | compactAllMerge faults all n result st here done =>
    rw [here] at before
    refine ⟨before.1, fun k => ?_⟩
    have read := before.2 k
    simpa only [State.view, top, at_, Foreground.inFlight, here] using read
  | flushPush faults h after f r here quiet ends => cases quiet <;> trivial
  | drained faults after f r here quiet ends => cases quiet <;> trivial
  | background t faults c c' here moved =>
    exact across moved.frame.foreground moved.frame.memtable (view rfl (fun i => by simp))
  | backgroundEnd t faults c r here moved =>
    exact across moved.frame.foreground moved.frame.memtable (view rfl (fun i => by simp))
  | snapshot idle => exact across rfl rfl (view rfl (fun i => by simp))
  | cloneSnapshot i snap found => exact across rfl rfl (view rfl (fun i => by simp))
  | dropSnapshot i snap found => exact across rfl rfl (view rfl (fun i => by simp))
  | begin faults none => exact across rfl rfl (view rfl (fun i => by simp))
  | collect i h found => exact across rfl rfl (view rfl (fun i => by simp))
  | _ => trivial

theorem lone (moved : Moves s a t) (content : Content gone s) (ok : StepOk gone s a)
    (alone : ¬ gone) : t.foreground.plain = true := by
  have plain := content.lone alone
  have calls := ok.lone alone
  cases moved with
  | compact idle => exact absurd rfl calls.1
  | compactAllClone idle some => exact absurd rfl calls.2
  | flushPush faults h after f r here quiet ends => cases quiet <;> rfl
  | drained faults after f r here quiet ends => cases quiet <;> rfl
  | compacting t faults c c' here moved => rw [here] at plain; cases plain
  | compactAllNumber faults all here => rw [here] at plain; cases plain
  | compactAllMerge faults all n result st here done => rw [here] at plain; cases plain
  | background t faults c c' here moved => simpa only [moved.frame.foreground] using plain
  | backgroundEnd t faults c r here moved => simpa only [moved.frame.foreground] using plain
  | snapshot idle => exact plain
  | cloneSnapshot i snap found => exact plain
  | dropSnapshot i snap found => exact plain
  | begin faults none => exact plain
  | collect i h found => exact plain
  | _ => rfl

theorem content (moved : Moves s a t) (sound : Sound s)
    (content : Content gone s) (ok : StepOk gone s a) : Content gone t :=
  ⟨moved.aboveL0 sound content.aboveL0, moved.foregroundCurrent sound content ok,
    moved.backgroundCurrent sound content ok, moved.bottomKept sound.arranged content.bottom
      (fun _ snap _ found => content.heldBottom snap (List.mem_of_getElem? found)),
    moved.heldBottom content, moved.gathered sound content ok, moved.lone content ok⟩

end State.Moves
end CardanoLsm
