import CardanoLsm.Failures

/-! The names in `active/`, file by file. A session finds its runs by their `.keyops` files
and numbers its own from the highest of these on; the writer of a run makes its files with
`create_new`, so a file that is left there under the number stops it. -/
namespace CardanoLsm
open Std Layered Script

structure ActiveDir where
  files : List (Nat × Component)
  once : files.Nodup

namespace ActiveDir

def add (dir : ActiveDir) (n : Nat) (c : Component) : ActiveDir :=
  ⟨dir.files.insert (n, c), dir.once.insert⟩

def remove (dir : ActiveDir) (n : Nat) (c : Component) : ActiveDir :=
  ⟨dir.files.erase (n, c), dir.once.erase (n, c)⟩

def runNumbers (dir : ActiveDir) : List Nat :=
  (dir.files.filter (fun f => decide (f.2 = .keyops))).map Prod.fst

def deleteFiles (dir : ActiveDir) (n k : Nat) : ActiveDir :=
  ([.keyops, .blobs, .filter, .index, .checksums].take k).foldl (fun dir c => dir.remove n c) dir

theorem memAdd {dir : ActiveDir} {n : Nat} {c : Component} {f : Nat × Component} :
    f ∈ (dir.add n c).files ↔ f = (n, c) ∨ f ∈ dir.files := List.mem_insert_iff

theorem memDelete {dir : ActiveDir} {n k : Nat} {f : Nat × Component} : f ∈ (dir.deleteFiles n k).files ↔
    f ∈ dir.files ∧ (f.1 = n → f.2 ∉ [Component.keyops, .blobs, .filter, .index, .checksums].take k) := by
  have general : ∀ (cs : List Component) (dir : ActiveDir),
      f ∈ (cs.foldl (fun dir c => dir.remove n c) dir).files ↔ f ∈ dir.files ∧ (f.1 = n → f.2 ∉ cs) := by
    intro cs
    induction cs with
    | nil => simp
    | cons c rest ih =>
      intro dir
      rw [List.foldl_cons, ih, remove, dir.once.mem_erase_iff, List.mem_cons, not_or, ne_eq, Prod.ext_iff]
      tauto
  exact general _ dir

theorem memRunNumbers {dir : ActiveDir} {n : Nat} : n ∈ dir.runNumbers ↔ (n, .keyops) ∈ dir.files := by
  simp [runNumbers]

theorem runNumbersNodup (dir : ActiveDir) : dir.runNumbers.Nodup := by
  refine (List.nodup_map_iff_inj_on (dir.once.filter _)).mpr ?_
  rintro ⟨n, c⟩ left ⟨m, d⟩ right same
  have here := (List.mem_filter.mp left).2
  have there := (List.mem_filter.mp right).2
  simp only [decide_eq_true_eq] at here there same
  rw [here, there, same]

end ActiveDir

def writerOp (n : Nat) : FileOp → Op FileOp ActiveDir
  | .createNew c => ⟨.createNew c, fun dir => decide ((n, c) ∉ dir.files), fun dir => dir.add n c⟩
  | .rename c => ⟨.rename c, fun _ => true, fun dir => dir.add n c⟩
  | op => still op

structure WriteJob where
  inputs : List SsTableHandle
  runNumber : Nat
  entries : Entries

namespace WriteJob

def ops (job : WriteJob) : List FileOp :=
  job.inputs.flatMap Compactor.readOps ++ ((SsTableWriter.newOps job.runNumber).map Op.name ++
    if nonempty : job.entries = ∅ then []
    else (SsTableWriter.finishOps job.runNumber ⟨job.entries, nonempty⟩).map Op.name)

def script (job : WriteJob) : List (Op FileOp ActiveDir) := job.ops.map (writerOp job.runNumber)

def faults (job : WriteJob) (dir : ActiveDir) (faults : Nat → Bool) (j : Nat) : Bool :=
  faults j || (job.script[j]?).any (fun op => !op.enabled (Script.final (job.script.take j) dir))

end WriteJob

def mergeJob (inputs : List SsTableHandle) (merged : Except Error Entries) (n : Nat) : Option WriteJob :=
  match merged with
  | .ok all => if all = ∅ then none else some ⟨inputs, n, all⟩
  | .error _ => none

def Cycle.writes (s : State) : Cycle → Option WriteJob
  | .numbered _ _ job n sourceRuns =>
    mergeJob (Compactor.sortedInputs sourceRuns job.sourceRuns ++
        if job.targetLevel = s.tree.maxLevel then job.targetLevelRuns else [])
      (Compactor.mergeLevels s.storage job sourceRuns s.tree.maxLevel) n
  | _ => none

def State.writes (s : State) : Action → Option WriteJob
  | .foreground _ =>
    match s.foreground with
    | .flushNumbered old n _ => some ⟨[], n, old.data⟩
    | .compacting cycle => cycle.writes s
    | .compactAllNumbered all n =>
      mergeJob (Compactor.sortedInputs all (List.range all.length))
        (Compactor.mergeAll s.storage (List.range all.length) all) n
    | _ => none
  | .background _ => s.background.bind (fun cycle => cycle.writes s)
  | _ => none

def Action.faults : Action → Nat → Bool
  | .foreground faults | .background faults => faults
  | _ => fun _ => false

def Action.withFaults (a : Action) (faults : Nat → Bool) : Action :=
  match a with
  | .foreground _ => .foreground faults
  | .background _ => .background faults
  | a => a

structure Process where
  session : State
  dir : ActiveDir

namespace Process

def collected (p : Process) : Action → ActiveDir
  | .collect i =>
    match p.session.garbage[i]? with
    | some h => if p.session.storage.refcounts h.refcount = 1 then p.dir.deleteFiles h.runNumber 5 else p.dir
    | none => p.dir
  | _ => p.dir

def step (p : Process) (a : Action) : Option Process :=
  match p.session.writes a with
  | some job =>
    (p.session.step (a.withFaults (job.faults p.dir a.faults))).map (fun s =>
      ⟨s, (Script.run a.faults 0 job.script p.dir).2⟩)
  | none => (p.session.step a).map (fun s => ⟨s, p.collected a⟩)

def Clashes (p : Process) (a : Action) : Prop :=
  ∃ job c, p.session.writes a = some job ∧ (Script.run a.faults 0 job.script p.dir).1 = some (.createNew c) ∧
    (job.runNumber, c) ∈ (Script.run a.faults 0 job.script p.dir).2.files

/-- The names left when the process stops without running destructors: between two steps,
inside the writing of a run, or inside the removal of one. -/
inductive Stops (p : Process) : ActiveDir → Prop where
  | between : Stops p p.dir
  | writing (a : Action) (job : WriteJob) (writes : p.session.writes a = some job) (i : Nat) :
      Stops p (Script.stop i job.script p.dir)
  | deleting (i : Nat) (h : SsTableHandle) (found : p.session.garbage[i]? = some h)
      (last : p.session.storage.refcounts h.refcount = 1) (k : Nat) :
      Stops p (p.dir.deleteFiles h.runNumber k)

end Process

structure Leftover where
  dir : ActiveDir
  content : Nat → Option Run
  snapshots : List (String × SavedSnapshot)

def Leftover.storage (left : Leftover) : Storage :=
  ⟨left.dir.runNumbers.map (fun n => (n, left.content n)), left.snapshots, fun _ => 0, 0⟩

def Leftover.open (config : LsmConfig) (left : Leftover) (overflowChecks : Bool := false) : Process :=
  ⟨.begin (LsmTree.open config left.storage) overflowChecks, left.dir⟩

namespace Leftover

def maxRunNumber (left : Leftover) : Nat := left.dir.runNumbers.foldl max 0

theorem listed (left : Leftover) : left.storage.active.map Prod.fst = left.dir.runNumbers := by
  rw [storage, List.map_map]
  exact List.map_id _

theorem starts (config : LsmConfig) (left : Leftover) (overflowChecks : Bool := false) :
    Starts (left.open config overflowChecks).session :=
  .opened config left.storage ⟨fun _ => rfl, by rw [listed]; exact left.dir.runNumbersNodup⟩ overflowChecks

end Leftover

def State.Reserved (s : State) (n : Nat) : Prop := n ∈ s.allocated ∨ s.tree.nextRunNumber ≤ n

namespace State.Moves
variable {s t : State} {a : Action}

theorem cycleReserved {faults : Nat → Bool} {c : Cycle} {p : Progress} (moved : Cycle.Moves faults s c p t) :
    s.tree.nextRunNumber ≤ t.tree.nextRunNumber ∧
      ∀ n ∈ p.allocated, n ∈ c.allocated ∨ s.tree.nextRunNumber ≤ n := by
  cases moved with
  | number g snap job =>
    refine ⟨Nat.le_succ _, fun n member => ?_⟩
    rw [List.mem_singleton.mp member]
    exact Or.inr (Nat.le_refl _)
  | _ => exact ⟨Nat.le_refl _, nofun⟩

theorem nextLater (moved : Moves s a t) : s.tree.nextRunNumber ≤ t.tree.nextRunNumber := by
  cases moved with
  | flushNumber faults old after here => exact Nat.le_succ _
  | compactAllNumber faults all here => exact Nat.le_succ _
  | compacting t faults c c' here moved => exact (cycleReserved moved).1
  | compacted t faults c r here moved => exact (cycleReserved moved).1
  | background t faults c c' here moved => exact (cycleReserved moved).1
  | backgroundEnd t faults c r here moved => exact (cycleReserved moved).1
  | _ => exact Nat.le_refl _

theorem foregroundReserved (moved : Moves s a t) : ∀ n ∈ t.foreground.allocated,
    n ∈ s.foreground.allocated ∨ s.tree.nextRunNumber ≤ n := by
  cases moved with
  | flushNumber faults old after here =>
    intro n member
    rw [List.mem_singleton.mp member]
    exact Or.inr (Nat.le_refl _)
  | compactAllNumber faults all here =>
    intro n member
    rw [List.mem_singleton.mp member]
    exact Or.inr (Nat.le_refl _)
  | flushPush faults h after f r here quiet ends =>
    intro n member
    rw [quiet.allocated] at member
    cases member
  | drained faults after f r here quiet ends =>
    intro n member
    rw [quiet.allocated] at member
    cases member
  | compacting t faults c c' here moved =>
    rw [here]
    exact (cycleReserved moved).2
  | background t faults c c' here moved =>
    rw [moved.frame.foreground]
    exact fun n => Or.inl
  | backgroundEnd t faults c r here moved =>
    rw [moved.frame.foreground]
    exact fun n => Or.inl
  | snapshot idle => exact fun n => Or.inl
  | cloneSnapshot i snap found => exact fun n => Or.inl
  | dropSnapshot i snap found => exact fun n => Or.inl
  | begin faults none => exact fun n => Or.inl
  | collect i h found => exact fun n => Or.inl
  | _ => exact nofun

theorem backgroundReserved (moved : Moves s a t) : ∀ n ∈ t.background.elim [] Cycle.allocated,
    n ∈ s.background.elim [] Cycle.allocated ∨ s.tree.nextRunNumber ≤ n := by
  cases moved with
  | compacting t faults c c' here moved =>
    show ∀ n ∈ t.background.elim [] Cycle.allocated, _
    rw [moved.frame.background]
    exact fun n => Or.inl
  | compacted t faults c r here moved =>
    show ∀ n ∈ t.background.elim [] Cycle.allocated, _
    rw [moved.frame.background]
    exact fun n => Or.inl
  | background t faults c c' here moved =>
    rw [here]
    exact (cycleReserved moved).2
  | backgroundEnd t faults c r here moved => exact nofun
  | begin faults none => exact nofun
  | _ => exact fun n => Or.inl

theorem reserved (moved : Moves s a t) {n : Nat} (reserved : t.Reserved n) : s.Reserved n := by
  rcases reserved with member | high
  · rcases List.mem_append.mp member with front | back
    · exact (moved.foregroundReserved n front).imp_left (List.mem_append_left _)
    · exact (moved.backgroundReserved n back).imp_left (List.mem_append_right _)
  · exact Or.inr (Nat.le_trans moved.nextLater high)

end State.Moves

theorem mergeJobNumber {inputs : List SsTableHandle} {merged : Except Error Entries} {n : Nat} {job : WriteJob}
    (writes : mergeJob inputs merged n = some job) : job.runNumber = n ∧ job.entries ≠ ∅ := by
  unfold mergeJob at writes
  split at writes
  · split at writes
    · cases writes
    · rename_i nonempty
      cases writes
      exact ⟨rfl, nonempty⟩
  · cases writes

theorem Cycle.writesNumber {s : State} {c : Cycle} {job : WriteJob} (writes : c.writes s = some job) :
    c.allocated = [job.runNumber] := by
  cases c with
  | numbered g snap job' n runs => rw [(mergeJobNumber writes).1]; rfl
  | _ => cases writes

theorem State.writesAllocated {s : State} {a : Action} {job : WriteJob} (writes : s.writes a = some job) :
    job.runNumber ∈ s.allocated := by
  cases a with
  | foreground faults =>
    refine List.mem_append_left _ ?_
    cases here : s.foreground with
    | flushNumbered old n after =>
      simp only [State.writes, here, Option.some.injEq] at writes
      subst writes
      exact List.mem_cons_self
    | compacting c =>
      simp only [State.writes, here] at writes
      rw [Foreground.allocated, Cycle.writesNumber writes]
      exact List.mem_cons_self
    | compactAllNumbered all n =>
      simp only [State.writes, here] at writes
      exact (mergeJobNumber writes).1 ▸ List.mem_cons_self
    | _ => simp only [State.writes, here] at writes; cases writes
  | background faults =>
    obtain ⟨c, here, writes⟩ := Option.bind_eq_some_iff.mp writes
    refine List.mem_append_right _ ?_
    rw [here, Option.elim_some, Cycle.writesNumber writes]
    exact List.mem_cons_self
  | _ => cases writes

theorem Cycle.writesUsed {faults : Nat → Bool} {s t : State} {c : Cycle} {p : Progress} {job : WriteJob}
    (writes : c.writes s = some job) (moved : Cycle.Moves faults s c p t) : p.allocated = [] := by
  cases moved with
  | failed g snap job n runs e st failed => rfl
  | merge g snap job n runs result st done => rfl
  | _ => cases writes

theorem State.foregroundUses {s t : State} {faults faults' : Nat → Bool} {job : WriteJob}
    (writes : s.writes (.foreground faults') = some job) (taken : s.stepForeground faults = some t) :
    s.foreground.allocated = [job.runNumber] ∧ t.foreground.allocated = [] ∧ t.background = s.background := by
  cases here : s.foreground with
  | flushNumbered old n after =>
    simp only [State.writes, here, Option.some.injEq] at writes
    subst writes
    simp only [stepForeground, here] at taken
    split at taken
    · cases taken
      exact ⟨rfl, rfl, rfl⟩
    · cases taken
      exact ⟨rfl, rfl, rfl⟩
  | compacting c =>
    simp only [State.writes, here] at writes
    simp only [stepForeground, here] at taken
    have moved := Cycle.advanceMoves faults s c
    have used := Cycle.writesUsed writes moved
    split at taken
    · rename_i c' s' out
      cases taken
      rw [out] at moved used
      exact ⟨Cycle.writesNumber writes, used, moved.frame.background⟩
    · rename_i r s' out
      cases taken
      rw [out] at moved
      exact ⟨Cycle.writesNumber writes, rfl, moved.frame.background⟩
  | compactAllNumbered all n =>
    simp only [State.writes, here] at writes
    rw [(mergeJobNumber writes).1]
    simp only [stepForeground, here] at taken
    split at taken
    · cases taken
      exact ⟨rfl, rfl, rfl⟩
    · cases taken
      exact ⟨rfl, rfl, rfl⟩
  | _ => simp only [State.writes, here] at writes; cases writes

theorem State.backgroundUses {s : State} (faults : Nat → Bool) {faults' : Nat → Bool} {job : WriteJob}
    (writes : s.writes (.background faults') = some job) :
    s.background.elim [] Cycle.allocated = [job.runNumber] ∧
      (s.stepBackground faults).background.elim [] Cycle.allocated = [] ∧
        (s.stepBackground faults).foreground = s.foreground := by
  obtain ⟨c, here, writes⟩ := Option.bind_eq_some_iff.mp writes
  have moved := Cycle.advanceMoves faults s c
  have used := Cycle.writesUsed writes moved
  simp only [stepBackground, here]
  split
  · rename_i c' s' out
    rw [out] at moved used
    exact ⟨Cycle.writesNumber writes, used, moved.frame.foreground⟩
  · rename_i r s' out
    rw [out] at moved
    exact ⟨Cycle.writesNumber writes, rfl, moved.frame.foreground⟩

theorem State.writesReserved {s t : State} {a : Action} {faults : Nat → Bool} {job : WriteJob} (sound : Sound s)
    (writes : s.writes a = some job) (taken : s.step (a.withFaults faults) = some t) :
    ¬ t.Reserved job.runNumber := by
  have once : s.allocated.Nodup := (List.nodup_append.mp sound.ledger.apart).1
  have later := (State.stepMoves taken).nextLater
  rintro (member | high)
  · cases a with
    | foreground faults' =>
      obtain ⟨mine, gone, same⟩ := State.foregroundUses writes taken
      rw [State.allocated, mine] at once
      rw [State.allocated, gone, same] at member
      exact (List.nodup_cons.mp once).1 member
    | background faults' =>
      cases taken
      obtain ⟨mine, gone, same⟩ := State.backgroundUses faults writes
      rw [State.allocated, mine] at once
      rw [State.allocated, gone, same, List.append_nil] at member
      exact (List.nodup_append.mp once).2.2 _ member _ List.mem_cons_self rfl
    | _ => cases writes
  · have := sound.ledger.below _ (State.writesAllocated writes)
    omega

def FileOp.makes : FileOp → Option (Component × Bool)
  | .createNew c => some (c, true)
  | .rename c => some (c, false)
  | _ => none

theorem readsMake (inputs : List SsTableHandle) : (inputs.flatMap Compactor.readOps).filterMap FileOp.makes = [] := by
  refine List.filterMap_eq_nil_iff.mpr (fun op member => ?_)
  obtain ⟨h, _, inside⟩ := List.mem_flatMap.mp member
  rcases List.mem_cons.mp inside with rfl | later
  · rfl
  · obtain ⟨e, _, inside⟩ := List.mem_flatMap.mp later
    rcases List.mem_cons.mp inside with rfl | last
    · rfl
    · rw [List.mem_singleton.mp last]
      rfl

theorem entriesMake (entries : List (Key × Entry)) :
    (entries.flatMap SsTableWriter.entryOps).filterMap FileOp.makes = [] := by
  refine List.filterMap_eq_nil_iff.mpr (fun op member => ?_)
  obtain ⟨⟨key, value⟩, _, inside⟩ := List.mem_flatMap.mp member
  cases value with
  | none =>
    simp only [SsTableWriter.entryOps, List.mem_cons, List.not_mem_nil, or_false, or_self] at inside
    rw [inside]
    rfl
  | some v =>
    simp only [SsTableWriter.entryOps, List.mem_cons, List.not_mem_nil, or_false] at inside
    rcases inside with rfl | rfl | rfl | rfl | rfl | rfl <;> rfl

theorem WriteJob.makes (job : WriteJob) : job.ops.filterMap FileOp.makes = [(.keyops, true), (.blobs, true)] ++
    if job.entries = ∅ then [] else [(.filter, true), (.index, true), (.checksums, false)] := by
  by_cases empty : job.entries = ∅
  · simp [ops, empty, readsMake, SsTableWriter.newOps, still, FileOp.makes]
  · simp [ops, empty, readsMake, entriesMake, SsTableWriter.newOps, SsTableWriter.finishOps,
      SsTableWriter.dataOps, still, FileOp.makes, Function.comp_def]
    rfl

theorem WriteJob.makesOnce (job : WriteJob) : ((job.ops.filterMap FileOp.makes).map Prod.fst).Nodup := by
  rw [job.makes]
  split <;> decide

theorem WriteJob.creates (job : WriteJob) {c : Component} (member : .createNew c ∈ job.ops) :
    c ∈ [Component.keyops, .blobs, .filter, .index] := by
  have made : (c, true) ∈ job.ops.filterMap FileOp.makes := List.mem_filterMap.mpr ⟨_, member, rfl⟩
  rw [job.makes] at made
  split at made
  · simp only [List.append_nil, List.mem_cons, Prod.mk.injEq, and_true, List.not_mem_nil, or_false] at made
    rcases made with rfl | rfl <;> simp
  · simpa using made

theorem WriteJob.createsAll {job : WriteJob} (nonempty : job.entries ≠ ∅) {c : Component}
    (member : c ∈ [Component.keyops, .blobs, .filter, .index]) : .createNew c ∈ job.ops := by
  have made : (c, true) ∈ job.ops.filterMap FileOp.makes := by
    rw [job.makes, if_neg nonempty]
    simp only [List.mem_cons, List.not_mem_nil, or_false] at member
    rcases member with rfl | rfl | rfl | rfl <;> simp
  obtain ⟨op, inside, makes⟩ := List.mem_filterMap.mp made
  cases op with
  | createNew d =>
    cases makes
    exact inside
  | _ => cases makes

theorem writerOpName (n : Nat) (op : FileOp) : (writerOp n op).name = op := by
  cases op <;> rfl

theorem writerOpFiles {n : Nat} {op : FileOp} {dir : ActiveDir} {f : Nat × Component} :
    f ∈ ((writerOp n op).effect dir).files ↔ f ∈ dir.files ∨ ∃ c new, op.makes = some (c, new) ∧ f = (n, c) := by
  cases op with
  | createNew c => simp [writerOp, FileOp.makes, ActiveDir.memAdd, or_comm]
  | rename c => simp [writerOp, FileOp.makes, ActiveDir.memAdd, or_comm]
  | _ => simp [writerOp, FileOp.makes, still]

theorem writerNames {n i : Nat} {faults : Nat → Bool} {names : List FileOp} {dir : ActiveDir}
    {f : Nat × Component} (member : f ∈ (Script.run faults i (names.map (writerOp n)) dir).2.files) :
    f ∈ dir.files ∨ f.1 = n := by
  refine runKeeps (P := fun d : ActiveDir => ∀ f ∈ d.files, f ∈ dir.files ∨ f.1 = n)
    (fun op inside d _ before f found => ?_) (fun f => Or.inl) f member
  obtain ⟨name, _, rfl⟩ := List.mem_map.mp inside
  rcases writerOpFiles.mp found with old | ⟨c, new, _, rfl⟩
  · exact before f old
  · exact Or.inr rfl

theorem writerFree {n i : Nat} {faults : Nat → Bool} {names : List FileOp} {dir : ActiveDir} {c : Component}
    (once : ((names.filterMap FileOp.makes).map Prod.fst).Nodup) (free : ∀ c, .createNew c ∈ names → (n, c) ∉ dir.files)
    (stopped : (Script.run faults i (names.map (writerOp n)) dir).1 = some (.createNew c)) :
    (n, c) ∉ (Script.run faults i (names.map (writerOp n)) dir).2.files := by
  induction names generalizing dir i with
  | nil => cases stopped
  | cons op rest ih =>
    rw [List.map_cons] at stopped ⊢
    unfold Script.run at stopped ⊢
    split at stopped
    · rename_i fails
      rw [if_pos fails]
      rw [writerOpName] at stopped
      cases stopped
      exact free c List.mem_cons_self
    · rename_i passed
      rw [if_neg passed]
      refine ih (once.sublist (((List.sublist_cons_self op rest).filterMap _).map _)) (fun d later found => ?_) stopped
      rcases writerOpFiles.mp found with old | ⟨c', new, makes, same⟩
      · exact free d (List.mem_cons_of_mem op later) old
      · cases same
        rw [List.filterMap_cons_some makes] at once
        exact (List.nodup_cons.mp once).1
          (List.mem_map.mpr ⟨(d, true), List.mem_filterMap.mpr ⟨_, later, rfl⟩, rfl⟩)

theorem writerStopped {n i : Nat} {names : List FileOp} {dir : ActiveDir} {c : Component}
    (there : (n, c) ∈ dir.files) (creates : .createNew c ∈ names) :
    ∃ c', (Script.run noFaults i (names.map (writerOp n)) dir).1 = some (.createNew c') ∧
      (n, c') ∈ (Script.run noFaults i (names.map (writerOp n)) dir).2.files := by
  induction names generalizing dir i with
  | nil => cases creates
  | cons op rest ih =>
    rw [List.map_cons]
    unfold Script.run
    by_cases passes : (writerOp n op).enabled dir = true
    · have other : op ≠ .createNew c := by
        rintro rfl
        exact of_decide_eq_true passes there
      have later : FileOp.createNew c ∈ rest := (List.mem_cons.mp creates).resolve_left (Ne.symm other)
      rw [passes, if_neg (by simp [noFaults])]
      exact ih (writerOpFiles.mpr (Or.inl there)) later
    · cases op with
      | createNew d =>
        rw [if_pos (by simp [passes])]
        refine ⟨d, rfl, ?_⟩
        by_contra free
        exact passes (decide_eq_true free)
      | _ => exact absurd rfl passes

namespace Process

theorem collectedMem {p : Process} {a : Action} {f : Nat × Component} (member : f ∈ (p.collected a).files) :
    f ∈ p.dir.files := by
  unfold collected at member
  split at member
  · split at member
    · split at member
      · exact (ActiveDir.memDelete.mp member).1
      · exact member
    · exact member
  · exact member

theorem stepOf {p q : Process} {a : Action} (taken : p.step a = some q) :
    (∃ job, p.session.writes a = some job ∧
      p.session.step (a.withFaults (job.faults p.dir a.faults)) = some q.session ∧
        q.dir = (Script.run a.faults 0 job.script p.dir).2) ∨
      (p.session.writes a = none ∧ p.session.step a = some q.session ∧ q.dir = p.collected a) := by
  unfold step at taken
  split at taken
  · rename_i job writes
    obtain ⟨s, moved, rfl⟩ := Option.map_eq_some_iff.mp taken
    exact Or.inl ⟨job, writes, moved, rfl⟩
  · rename_i none
    obtain ⟨s, moved, rfl⟩ := Option.map_eq_some_iff.mp taken
    exact Or.inr ⟨none, moved, rfl⟩

theorem sound {p q : Process} {as : List Action} (ran : Trace.Run step (fun _ _ => True) p as q)
    (start : Sound p.session) : Sound q.session := by
  refine ran.invariant (I := fun p => Sound p.session) (fun p a q taken _ sound => ?_) start
  rcases stepOf taken with ⟨job, writes, moved, dir⟩ | ⟨none, moved, dir⟩
  · exact (State.stepMoves moved).sound sound
  · exact (State.stepMoves moved).sound sound

structure Clear (p : Process) : Prop where
  sound : Sound p.session
  free : ∀ f ∈ p.dir.files, f.2 ∈ [Component.keyops, .blobs, .filter, .index] → ¬ p.session.Reserved f.1

theorem Clear.next {p q : Process} {a : Action} (clear : Clear p) (taken : p.step a = some q) : Clear q := by
  rcases stepOf taken with ⟨job, writes, moved, dir⟩ | ⟨-, moved, dir⟩
  · have own := State.writesReserved clear.sound writes moved
    have moves := State.stepMoves moved
    refine ⟨moves.sound clear.sound, fun f member new reserved => ?_⟩
    rw [dir] at member
    rcases writerNames member with old | mine
    · exact clear.free f old new (moves.reserved reserved)
    · exact own (mine ▸ reserved)
  · have moves := State.stepMoves moved
    refine ⟨moves.sound clear.sound, fun f member new reserved => ?_⟩
    rw [dir] at member
    exact clear.free f (collectedMem member) new (moves.reserved reserved)

theorem Clear.noClash {p : Process} (clear : Clear p) (a : Action) : ¬ p.Clashes a := by
  rintro ⟨job, c, writes, stopped, there⟩
  refine writerFree job.makesOnce (fun d creates found => ?_) stopped there
  have reserved : p.session.Reserved job.runNumber := Or.inl (State.writesAllocated writes)
  exact clear.free _ found (job.creates creates) reserved

theorem plainStep {p : Process} {a : Action} {t : State} (none : p.session.writes a = none)
    (taken : p.session.step a = some t) : p.step a = some ⟨t, p.collected a⟩ := by
  simp only [step, none, taken, Option.map_some]

theorem flushBegins {p : Process} (idle : p.session.foreground = .idle) :
    ∃ as q old after, Trace.Run step (fun _ _ => True) p as q ∧ q.session.foreground = .flushing old after ∧
      q.session.tree.nextRunNumber = p.session.tree.nextRunNumber ∧ q.dir = p.dir := by
  obtain ⟨t, taken⟩ : ∃ t, p.session.step (.insert [1] [10]) = some t := by
    simp [State.step, State.isIdle, idle, State.call]
  have first := plainStep (show p.session.writes (.insert [1] [10]) = none from rfl) taken
  cases State.stepMoves taken with
  | wroteFull a memtable isWrite idle data nonempty =>
    exact ⟨_, _, memtable, .finish, .single first trivial, rfl, rfl, rfl⟩
  | wrote a memtable isWrite idle data =>
    -- the memtable is not full yet: saving a snapshot flushes it all the same
    let s := (p.session.withTree { p.session.tree with memtable := memtable }).return_ (.ok ())
    obtain ⟨u, saved⟩ : ∃ u, s.step (.saveSnapshot "a" "") = some u := ⟨_, rfl⟩
    have second := plainStep (p := ⟨s, p.dir⟩) (show s.writes (.saveSnapshot "a" "") = none from rfl) saved
    have held : memtable.data ≠ ∅ := by
      intro empty
      have here : memtable.data[([1] : Key)]? = some (some [10]) := by
        rw [data]
        simp [insertAll, Action.writes]
      rw [empty] at here
      simp at here
    cases State.stepMoves saved with
    | wrote a memtable isWrite idle data => cases isWrite
    | wroteFull a memtable isWrite idle data nonempty => cases isWrite
    | saveNoFlush name label idle empty => exact absurd empty held
    | saveFlush name label idle nonempty =>
      exact ⟨_, _, memtable, .saveSnapshot "a" "", .cons first trivial (.single second trivial), rfl, rfl, rfl⟩

theorem flushNumbers {p : Process} {old : MemTable} {after : AfterFlush}
    (here : p.session.foreground = .flushing old after) :
    ∃ q, p.step (.foreground noFaults) = some q ∧
      q.session.foreground = .flushNumbered old p.session.tree.nextRunNumber after ∧
        q.session.tree.nextRunNumber = p.session.tree.nextRunNumber + 1 ∧ q.dir = p.dir := by
  have none : p.session.writes (.foreground noFaults) = none := by simp only [State.writes, here]
  have taken : p.session.step (.foreground noFaults) = some
      (p.session.allocate.at_ (.flushNumbered old p.session.tree.nextRunNumber after)) := by
    simp only [State.step, State.stepForeground, here]
  exact ⟨_, plainStep none taken, rfl, rfl, rfl⟩

theorem flushFails {p : Process} {old : MemTable} {n : Nat} {after : AfterFlush}
    (here : p.session.foreground = .flushNumbered old n after) :
    ∃ q, p.step (.foreground allFail) = some q ∧ q.session.foreground = .idle ∧
      q.session.tree.nextRunNumber = p.session.tree.nextRunNumber ∧ q.dir = p.dir := by
  have writes : p.session.writes (.foreground allFail) = some ⟨[], n, old.data⟩ := by
    simp only [State.writes, here]
  have failed : ∀ faults : Nat → Bool, faults 0 = true → SsTableWriter.write faults 0 n old.data 0 p.session.storage =
      (.error (.io (.createNew .keyops)), p.session.storage) := by
    intro faults first
    simp [SsTableWriter.write, SsTableWriter.newOps, Script.run, first]
  have kept : (Script.run allFail 0 (WriteJob.script ⟨[], n, old.data⟩) p.dir).2 = p.dir := rfl
  obtain ⟨t, taken, idle, next⟩ : ∃ t, p.session.step ((Action.foreground allFail).withFaults
      (WriteJob.faults ⟨[], n, old.data⟩ p.dir (Action.foreground allFail).faults)) = some t ∧
        t.foreground = .idle ∧ t.tree.nextRunNumber = p.session.tree.nextRunNumber := by
    refine ⟨p.session.return_ (.error (.io (.createNew .keyops))), ?_, rfl, rfl⟩
    simp only [Action.withFaults, State.step, State.stepForeground, here]
    rw [failed _ rfl]
    rfl
  refine ⟨⟨t, p.dir⟩, ?_, idle, next, rfl⟩
  simp only [step, writes, taken, Option.map_some]
  exact congrArg (fun dir => some (Process.mk t dir)) kept

theorem numberReached (d : Nat) {p : Process} (idle : p.session.foreground = .idle) :
    ∃ as q old after, Trace.Run step (fun _ _ => True) p as q ∧
      q.session.foreground = .flushNumbered old (p.session.tree.nextRunNumber + d) after ∧ q.dir = p.dir := by
  induction d generalizing p with
  | zero =>
    obtain ⟨as, q, old, after, ran, here, next, dir⟩ := flushBegins idle
    obtain ⟨r, numbered, there, -, kept⟩ := flushNumbers here
    rw [next] at there
    exact ⟨_, r, old, after, ran.append (.single numbered trivial), there, kept.trans dir⟩
  | succ d ih =>
    obtain ⟨as, q, old, after, ran, here, next, dir⟩ := flushBegins idle
    obtain ⟨r, numbered, there, later, kept⟩ := flushNumbers here
    obtain ⟨s, failed, idle', same, kept'⟩ := flushFails there
    obtain ⟨bs, t, old', after', ran', reached, kept''⟩ := ih idle'
    rw [same, later, next, Nat.add_right_comm] at reached
    exact ⟨_, t, old', after', ran.append (.cons numbered trivial (.cons failed trivial ran')), reached,
      kept''.trans (kept'.trans (kept.trans dir))⟩

end Process

theorem Leftover.openNext (config : LsmConfig) (left : Leftover) (overflowChecks : Bool) :
    (left.open config overflowChecks).session.tree.nextRunNumber = left.maxRunNumber + 1 := by
  rw [Leftover.maxRunNumber, ← left.listed]
  rfl

theorem Leftover.neverClashes {config : LsmConfig} {left : Leftover} {overflowChecks : Bool}
    (below : ∀ f ∈ left.dir.files, f.2 ∈ [Component.blobs, .filter, .index] → f.1 ≤ left.maxRunNumber)
    {as : List Action} {p : Process}
    (ran : Trace.Run Process.step (fun _ _ => True) (left.open config overflowChecks) as p) (a : Action) : ¬ p.Clashes a := by
  have clear : Process.Clear (left.open config overflowChecks) := by
    refine ⟨(left.starts config overflowChecks).sound, fun f member made reserved => ?_⟩
    have high : left.maxRunNumber < f.1 := by
      rcases reserved with none | high
      · cases none
      · rwa [openNext config left overflowChecks] at high
    have low : f.1 ≤ left.maxRunNumber := by
      rcases List.mem_cons.mp made with keyops | rest
      · exact leFoldlMax left.dir.runNumbers f.1 (ActiveDir.memRunNumbers.mpr (keyops ▸ member))
      · exact below f member rest
    omega
  exact (ran.invariant (fun _ _ _ taken _ clear => clear.next taken) clear).noClash a

/-- No flush and no compaction of a session meets a file of its number exactly if no file
that a writer makes anew is left with a number above those of the `.keyops` files. -/
theorem runNumbersClash (config : LsmConfig) (left : Leftover) (overflowChecks : Bool) :
    (∀ as p a, Trace.Run Process.step (fun _ _ => True) (left.open config overflowChecks) as p → ¬ p.Clashes a) ↔
      ∀ f ∈ left.dir.files, f.2 ∈ [Component.blobs, .filter, .index] → f.1 ≤ left.maxRunNumber := by
  constructor
  · intro never f member made
    by_contra above
    obtain ⟨as, p, old, after, ran, here, dir⟩ :=
      Process.numberReached (f.1 - (left.maxRunNumber + 1)) (p := left.open config overflowChecks) rfl
    rw [left.openNext config overflowChecks, show left.maxRunNumber + 1 + (f.1 - (left.maxRunNumber + 1)) = f.1 by omega] at here
    have nonempty : old.data ≠ ∅ := by
      have shape := (Process.sound ran (left.starts config overflowChecks).sound).foreground
      rw [here] at shape
      exact shape
    have writes : p.session.writes (.foreground noFaults) = some ⟨[], f.1, old.data⟩ := by
      simp only [State.writes, here]
    have creates : .createNew f.2 ∈ WriteJob.ops ⟨[], f.1, old.data⟩ :=
      WriteJob.createsAll nonempty (List.mem_cons_of_mem _ made)
    obtain ⟨c, stopped, there⟩ := writerStopped (i := 0) (show (f.1, f.2) ∈ p.dir.files from dir ▸ member) creates
    exact never as p (.foreground noFaults) ran ⟨_, c, writes, stopped, there⟩
  · exact fun below as p a ran => Leftover.neverClashes below ran a

def ActiveDir.Whole (dir : ActiveDir) : Prop :=
  ∀ f ∈ dir.files, f.2 ∈ [Component.blobs, .filter, .index] → (f.1, .keyops) ∈ dir.files

theorem readsWrite (faults : Nat → Bool) (i n : Nat) (inputs : List SsTableHandle) (dir : ActiveDir) :
    (Script.run faults i ((inputs.flatMap Compactor.readOps).map (writerOp n)) dir).2 = dir := by
  refine runKeeps (P := fun d => d = dir) (fun op member d _ same => ?_) rfl
  obtain ⟨name, inside, rfl⟩ := List.mem_map.mp member
  have makes := List.filterMap_eq_nil_iff.mp (readsMake inputs) name inside
  cases name with
  | createNew c => cases makes
  | rename c => cases makes
  | _ => exact same

theorem writerWhole {i : Nat} {faults : Nat → Bool} {dir : ActiveDir} (whole : dir.Whole) (job : WriteJob) :
    (Script.run faults i job.script dir).2.Whole := by
  have later : ∀ (names : List FileOp) (i : Nat) (d : ActiveDir), d.Whole → (job.runNumber, .keyops) ∈ d.files →
      (Script.run faults i (names.map (writerOp job.runNumber)) d).2.Whole := by
    intro names i d whole keyops
    refine (runKeeps (P := fun d : ActiveDir => d.Whole ∧ (job.runNumber, .keyops) ∈ d.files)
      (fun op member d _ holds => ?_) ⟨whole, keyops⟩).1
    obtain ⟨name, _, rfl⟩ := List.mem_map.mp member
    refine ⟨fun f found made => ?_, writerOpFiles.mpr (Or.inl holds.2)⟩
    rcases writerOpFiles.mp found with old | ⟨c, new, _, rfl⟩
    · exact writerOpFiles.mpr (Or.inl (holds.1 f old made))
    · exact writerOpFiles.mpr (Or.inl holds.2)
  have before := readsWrite faults i job.runNumber job.inputs dir
  generalize out : Script.run faults i ((job.inputs.flatMap Compactor.readOps).map (writerOp job.runNumber)) dir =
    left at before
  obtain ⟨stopped, d⟩ := left
  dsimp only at before
  subst before
  rw [WriteJob.script, WriteJob.ops, List.map_append]
  cases stopped with
  | some name =>
    rw [runAppendStopped out]
    exact whole
  | none =>
    rw [runAppend out]
    simp only [SsTableWriter.newOps, still, List.map_cons, List.map_nil, List.cons_append, List.nil_append]
    unfold Script.run
    split
    · exact whole
    · refine later (_ :: _) _ _ (fun f found made => ?_) (ActiveDir.memAdd.mpr (Or.inl rfl))
      rcases ActiveDir.memAdd.mp found with rfl | old
      · simp at made
      · exact ActiveDir.memAdd.mpr (Or.inr (whole f old made))

theorem ActiveDir.deleteWhole {dir : ActiveDir} (whole : dir.Whole) (n : Nat) : (dir.deleteFiles n 5).Whole := by
  intro f found made
  obtain ⟨old, kept⟩ := memDelete.mp found
  refine memDelete.mpr ⟨whole f old made, fun same => absurd ?_ (kept same)⟩
  simp only [List.mem_cons, List.not_mem_nil, or_false] at made
  rcases made with here | here | here <;> simp [here]

theorem Process.wholeNext {p q : Process} {a : Action} (whole : p.dir.Whole) (taken : p.step a = some q) :
    q.dir.Whole := by
  rcases stepOf taken with ⟨job, writes, moved, dir⟩ | ⟨none, moved, dir⟩
  · rw [dir]
    exact writerWhole whole job
  · rw [dir]
    unfold collected
    split
    · split
      · split
        · exact ActiveDir.deleteWhole whole _
        · exact whole
      · exact whole
    · exact whole

def Leftover.empty : Leftover := ⟨⟨[], List.nodup_nil⟩, fun _ => none, []⟩

theorem writingLeavesFree {config config' : LsmConfig} {overflowChecks : Bool} {as bs : List Action} {p q : Process}
    {left : Leftover} (ran : Trace.Run Process.step (fun _ _ => True) (Leftover.empty.open config overflowChecks) as p)
    (stops : left.dir = p.dir ∨ ∃ a job i, p.session.writes a = some job ∧ left.dir = Script.stop i job.script p.dir)
    (again : Trace.Run Process.step (fun _ _ => True) (left.open config' overflowChecks) bs q) (a : Action) :
    ¬ q.Clashes a := by
  have started : (Leftover.empty.open config overflowChecks).dir.Whole := fun f member => absurd member List.not_mem_nil
  have whole : p.dir.Whole := ran.invariant (I := fun p : Process => p.dir.Whole)
    (fun _ _ _ taken _ whole => Process.wholeNext whole taken) started
  have kept : left.dir.Whole := by
    rcases stops with same | ⟨a, job, i, -, same⟩
    · rwa [same]
    · rw [same]
      exact writerWhole whole job
  refine Leftover.neverClashes (fun f member made => ?_) again a
  exact leFoldlMax left.dir.runNumbers f.1 (ActiveDir.memRunNumbers.mpr (kept f member made))

def abandonedScript : List Action :=
  [.snapshot, .insert [1] [10]] ++ ownSteps 3 ++ [.rollback 0]

def Process.clashes (p : Process) (a : Action) : Bool :=
  (p.session.writes a).any (fun job =>
    match Script.run a.faults 0 job.script p.dir with
    | (some (FileOp.createNew c), dir) => decide ((job.runNumber, c) ∈ dir.files)
    | _ => false)

theorem Process.clashesOf {p : Process} {a : Action} (test : p.clashes a = true) : p.Clashes a := by
  obtain ⟨job, writes, test⟩ := (Option.any_eq_true _ _).mp test
  split at test
  · rename_i c dir out
    exact ⟨job, c, writes, by rw [out], by rw [out]; exact of_decide_eq_true test⟩
  · cases test

theorem removedRunClashes : ∃ (p : Process) (left : Leftover) (q t : Process),
    Trace.Run Process.step (fun _ _ => True) (Leftover.empty.open ⟨1, 1⟩) abandonedScript p ∧
      p.Stops left.dir ∧
        Trace.Run Process.step (fun _ _ => True) (left.open ⟨1, 1⟩) (.insert [1] [10] :: ownSteps 1) q ∧
          q.Clashes (.foreground noFaults) ∧ q.step (.foreground noFaults) = some t ∧
            t.session.returned = some (.error (.io (.createNew .blobs))) := by
  have ended : (Trace.execWhile Process.step (fun _ _ => true) (Leftover.empty.open ⟨1, 1⟩) abandonedScript).any
      (fun p => (p.session.garbage[0]?).any (fun h =>
        decide (p.session.storage.refcounts h.refcount = 1) &&
          (Trace.execWhile Process.step (fun _ _ => true)
            (Leftover.open ⟨1, 1⟩ ⟨p.dir.deleteFiles h.runNumber 1, fun _ => none, []⟩)
            (.insert [1] [10] :: ownSteps 1)).any (fun q => q.clashes (.foreground noFaults) &&
              (q.step (.foreground noFaults)).any (fun t : Process =>
                decide (t.session.returned = some (.error (.io (.createNew .blobs)))))))) = true := by
    decide +kernel
  obtain ⟨p, ran, tested⟩ := Trace.runTo (fun _ _ _ _ => trivial) ended
  obtain ⟨h, found, tested⟩ := (Option.any_eq_true _ _).mp tested
  obtain ⟨last, tested⟩ := Bool.and_eq_true_iff.mp tested
  obtain ⟨q, again, tested⟩ := Trace.runTo (fun _ _ _ _ => trivial) tested
  obtain ⟨clash, tested⟩ := Bool.and_eq_true_iff.mp tested
  obtain ⟨t, taken, error⟩ := (Option.any_eq_true _ _).mp tested
  exact ⟨p, ⟨p.dir.deleteFiles h.runNumber 1, fun _ => none, []⟩, q, t, ran,
    .deleting 0 h found (of_decide_eq_true last) 1, again, Process.clashesOf clash, taken, of_decide_eq_true error⟩

end CardanoLsm
