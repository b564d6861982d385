import CardanoLsm.Lib.Trace

/-! The session lock (`session_lock.rs`) on a Unix system, with any number of
processes. `flock` belongs to the file that was opened, `drop` removes the name: the
lock excludes a second holder as long as nobody locks a file whose name is gone. -/
namespace CardanoLsm

structure LockInfo where
  pid : Nat
  hostname : String
  timestamp : Nat
  uuid : String
  deriving DecidableEq, Repr

structure Host where
  toStringPretty : LockInfo → List UInt8
  fromStr : List UInt8 → Option LockInfo
  /-- Whether `kill(pid, 0)` returns 0, given which processes exist. -/
  kill : (Nat → Bool) → Nat → Bool

structure LockFile where
  contents : List UInt8
  flock : Option Nat
  deriving DecidableEq, Repr

inductive AcquireError where
  | alreadyExists (message : String)
  | wouldBlock (message : String)
  | io
  deriving DecidableEq, Repr

def lockedBy (info : LockInfo) : AcquireError :=
  .alreadyExists s!"Session locked by PID {info.pid} on {info.hostname} (acquired at timestamp {info.timestamp})"

def lockFailed : AcquireError :=
  .wouldBlock "Failed to acquire exclusive file lock (another process may hold it)"

inductive LockPhase where
  | absent
  | outside (returned : Option AcquireError)
  | found
  | checked
  | opened (file : Nat)
  | locked (file : Nat)
  | held (file : Nat) (info : LockInfo)
  | unlinked (file : Nat)
  deriving DecidableEq, Repr

structure LockDir where
  path : Option Nat
  files : Nat → LockFile
  created : Nat
  phase : Nat → LockPhase

inductive LockAction where
  | start (p : Nat)
  | exists_ (p : Nat)
  | readLockInfo (p : Nat)
  | open_ (p : Nat)
  | flock (p : Nat)
  | writeInfo (p : Nat) (hostname : String) (timestamp : Nat) (uuid : String)
  /-- An I/O error of `open` or of the write; a failed write may leave some bytes. -/
  | fails (p : Nat) (written : List UInt8)
  | unlink (p : Nat)
  | close (p : Nat)
  | exit (p : Nat)
  deriving DecidableEq, Repr

namespace LockPhase

def flocked : LockPhase → Option Nat
  | locked i => some i
  | held i _ => some i
  | unlinked i => some i
  | _ => none

def guarded : LockPhase → Option Nat
  | locked i => some i
  | held i _ => some i
  | _ => none

theorem guardedFlocked {phase : LockPhase} {i : Nat} (h : phase.guarded = some i) :
    phase.flocked = some i := by
  cases phase <;> simp_all [guarded, flocked]

end LockPhase

namespace LockDir

def overlay (old new : List UInt8) : List UInt8 := new ++ old.drop new.length

def at_ (s : LockDir) (p : Nat) (phase : LockPhase) : LockDir :=
  { s with phase := Function.update s.phase p phase }

def setFlock (s : LockDir) (i : Nat) (flock : Option Nat) : LockDir :=
  { s with files := Function.update s.files i { s.files i with flock := flock } }

def setContents (s : LockDir) (i : Nat) (contents : List UInt8) : LockDir :=
  { s with files := Function.update s.files i { s.files i with contents := contents } }

def alive (s : LockDir) (p : Nat) : Bool := s.phase p != .absent

def inspect (host : Host) (s : LockDir) : LockPhase :=
  match s.path.bind (fun i => host.fromStr (s.files i).contents) with
  | some info => if host.kill s.alive info.pid then .outside (some (lockedBy info)) else .checked
  | none => .checked

def createFile (s : LockDir) : LockDir :=
  { s with
    path := some s.created
    files := Function.update s.files s.created ⟨[], none⟩
    created := s.created + 1 }

def openTruncated (s : LockDir) (p : Nat) : LockDir :=
  match s.path with
  | some i => (s.setContents i []).at_ p (.opened i)
  | none => s.createFile.at_ p (.opened s.created)

def release (s : LockDir) (p : Nat) : LockDir :=
  match (s.phase p).flocked with
  | some i => s.setFlock i none
  | none => s

def step (host : Host) (s : LockDir) : LockAction → Option LockDir
  | .start p => if s.phase p = .absent then some (s.at_ p (.outside none)) else none
  | .exists_ p =>
    match s.phase p with
    | .outside _ => some (s.at_ p (if s.path.isSome then .found else .checked))
    | _ => none
  | .readLockInfo p => if s.phase p = .found then some (s.at_ p (s.inspect host)) else none
  | .open_ p => if s.phase p = .checked then some (s.openTruncated p) else none
  | .flock p =>
    match s.phase p with
    | .opened i =>
      if (s.files i).flock = none then some ((s.setFlock i (some p)).at_ p (.locked i))
      else some (s.at_ p (.outside (some lockFailed)))
    | _ => none
  | .writeInfo p hostname timestamp uuid =>
    match s.phase p with
    | .locked i =>
      let lockInfo : LockInfo := ⟨p, hostname, timestamp, uuid⟩
      some ((s.setContents i (overlay (s.files i).contents (host.toStringPretty lockInfo ++ [10]))).at_
        p (.held i lockInfo))
    | _ => none
  | .fails p written =>
    match s.phase p with
    | .checked => some (s.at_ p (.outside (some .io)))
    | .locked i =>
      some (((s.setContents i (overlay (s.files i).contents written)).release p).at_ p
        (.outside (some .io)))
    | _ => none
  | .unlink p =>
    match s.phase p with
    | .held i _ => some ({ s with path := none }.at_ p (.unlinked i))
    | _ => none
  | .close p =>
    match s.phase p with
    | .unlinked _ => some ((s.release p).at_ p (.outside none))
    | _ => none
  | .exit p => if s.phase p = .absent then none else some ((s.release p).at_ p .absent)

structure Fresh (s : LockDir) : Prop where
  outside : ∀ p, s.phase p = .absent ∨ s.phase p = .outside none
  unlocked : ∀ i, (s.files i).flock = none
  named : ∀ i, s.path = some i → i < s.created

def Holds (s : LockDir) (p : Nat) : Prop := ∃ i info, s.phase p = .held i info

def Exclusive (s : LockDir) : Prop := ∀ p q, s.Holds p → s.Holds q → p = q

def OnPath (s : LockDir) : LockAction → Prop
  | .flock p => ∀ i, s.phase p = .opened i → (s.files i).flock = none → s.path = some i
  | _ => True

structure Guarded (s : LockDir) : Prop where
  locks : ∀ p i, (s.phase p).flocked = some i ↔ (s.files i).flock = some p
  guards : ∀ p i, (s.phase p).guarded = some i → s.path = some i
  opens : ∀ p i, s.phase p = .opened i → i < s.created
  named : ∀ i, s.path = some i → i < s.created
  unmade : ∀ i, s.created ≤ i → (s.files i).flock = none

theorem Fresh.guarded {s : LockDir} (fresh : s.Fresh) : s.Guarded := by
  have free : ∀ p, (s.phase p).flocked = none ∧ (s.phase p).guarded = none ∧
      ∀ i, s.phase p ≠ .opened i := by
    intro p
    rcases fresh.outside p with here | here <;>
      simp [here, LockPhase.flocked, LockPhase.guarded]
  refine ⟨fun p i => ?_, fun p i h => ?_, fun p i h => ?_, fresh.named, fun i _ => fresh.unlocked i⟩
  · simp [(free p).1, fresh.unlocked i]
  · simp [(free p).2.1] at h
  · exact absurd h ((free p).2.2 i)

section Steps
variable {host : Host} {s t : LockDir} {p i : Nat} {phase : LockPhase}

@[simp] theorem phaseAt (s : LockDir) (p q : Nat) (phase : LockPhase) :
    (s.at_ p phase).phase q = if q = p then phase else s.phase q := by
  simp [at_, Function.update_apply]

@[simp] theorem flockContents (s : LockDir) (i j : Nat) (contents : List UInt8) :
    ((s.setContents i contents).files j).flock = (s.files j).flock := by
  by_cases same : j = i
  · simp [setContents, same]
  · simp [setContents, Function.update_of_ne same]

@[simp] theorem flockSet (s : LockDir) (i j : Nat) (flock : Option Nat) :
    ((s.setFlock i flock).files j).flock = if j = i then flock else (s.files j).flock := by
  by_cases same : j = i
  · simp [setFlock, same]
  · simp [setFlock, same]

theorem Guarded.contents (guarded : s.Guarded) (contents : List UInt8) :
    (s.setContents i contents).Guarded :=
  ⟨fun p j => by rw [flockContents]; exact guarded.locks p j, guarded.guards, guarded.opens,
    guarded.named, fun j high => by rw [flockContents]; exact guarded.unmade j high⟩

theorem Guarded.move (guarded : s.Guarded) (from_ : (s.phase p).flocked = none)
    (to_ : phase.flocked = none) (opens : ∀ i, phase = .opened i → i < s.created) :
    (s.at_ p phase).Guarded := by
  refine ⟨fun q j => ?_, fun q j h => ?_, fun q j h => ?_, guarded.named, guarded.unmade⟩
  · rw [phaseAt]
    split
    · rename_i same
      subst same
      have before := guarded.locks q j
      rw [from_] at before
      rw [to_]
      exact before
    · exact guarded.locks q j
  · rw [phaseAt] at h
    split at h
    · have locked := LockPhase.guardedFlocked h
      rw [to_] at locked
      cases locked
    · exact guarded.guards q j h
  · rw [phaseAt] at h
    split at h
    · exact opens j h
    · exact guarded.opens q j h

theorem Guarded.keep (guarded : s.Guarded) (from_ : (s.phase p).guarded = some i)
    (to_ : phase.flocked = some i) : (s.at_ p phase).Guarded := by
  have locked := LockPhase.guardedFlocked from_
  refine ⟨fun q j => ?_, fun q j h => ?_, fun q j h => ?_, guarded.named, guarded.unmade⟩
  · rw [phaseAt]
    split
    · rename_i same
      subst same
      rw [to_, ← locked]
      exact guarded.locks q j
    · exact guarded.locks q j
  · rw [phaseAt] at h
    split at h
    · have same := LockPhase.guardedFlocked h
      rw [to_] at same
      rw [← Option.some.inj same]
      exact guarded.guards p i from_
    · exact guarded.guards q j h
  · rw [phaseAt] at h
    split at h
    · rw [h] at to_
      cases to_
    · exact guarded.opens q j h

theorem Guarded.lock (guarded : s.Guarded) (here : s.phase p = .opened i)
    (free : (s.files i).flock = none) (onPath : s.path = some i) :
    ((s.setFlock i (some p)).at_ p (.locked i)).Guarded := by
  refine ⟨fun q j => ?_, fun q j h => ?_, fun q j h => ?_, guarded.named, fun j high => ?_⟩
  · have before := guarded.locks q j
    rw [phaseAt, at_, flockSet]
    by_cases self : q = p
    · subst self
      rw [here] at before
      by_cases same : j = i
      · simp [same, LockPhase.flocked]
      · simpa [same, Ne.symm same, LockPhase.flocked] using before
    · by_cases same : j = i
      · subst same
        rw [free] at before
        simp only [reduceCtorEq, iff_false] at before
        simp [self, Ne.symm self, setFlock, before]
      · simpa [self, same, setFlock] using before
  · rw [phaseAt] at h
    split at h
    · cases h
      exact onPath
    · exact guarded.guards q j h
  · rw [phaseAt] at h
    split at h
    · cases h
    · exact guarded.opens q j h
  · have other : j ≠ i := by
      have := guarded.opens p i here
      have bound : s.created ≤ j := high
      omega
    rw [at_, flockSet, if_neg other]
    exact guarded.unmade j high

theorem Guarded.leave (guarded : s.Guarded) (to_ : phase.flocked = none)
    (opens : ∀ i, phase ≠ .opened i) : ((s.release p).at_ p phase).Guarded := by
  cases held : (s.phase p).flocked with
  | none =>
    rw [release, held]
    exact guarded.move held to_ (fun i same => absurd same (opens i))
  | some i =>
    have owner := (guarded.locks p i).mp held
    rw [release, held]
    refine ⟨fun q j => ?_, fun q j h => ?_, fun q j h => ?_, guarded.named, fun j high => ?_⟩
    · have before := guarded.locks q j
      rw [phaseAt, at_, flockSet]
      by_cases self : q = p
      · subst self
        rw [held] at before
        by_cases same : j = i
        · simp [same, to_]
        · simpa [same, Ne.symm same, to_] using before
      · by_cases same : j = i
        · subst same
          rw [owner] at before
          have different : (s.phase q).flocked ≠ some j := fun h => self (Option.some.inj (before.mp h)).symm
          simpa [self, setFlock] using different
        · simpa [self, same, setFlock] using before
    · rw [phaseAt] at h
      split at h
      · have locked := LockPhase.guardedFlocked h
        rw [to_] at locked
        cases locked
      · exact guarded.guards q j h
    · rw [phaseAt] at h
      split at h
      · exact absurd h (opens j)
      · exact guarded.opens q j h
    · rw [at_, flockSet]
      split
      · rfl
      · exact guarded.unmade j high

theorem Guarded.openTruncated (guarded : s.Guarded) (here : s.phase p = .checked) :
    (s.openTruncated p).Guarded := by
  have from_ : (s.phase p).flocked = none := by rw [here]; rfl
  unfold LockDir.openTruncated
  split
  · rename_i i named
    refine (guarded.contents []).move from_ rfl (fun j same => ?_)
    cases same
    exact guarded.named i named
  · rename_i nameless
    -- nobody guards a name that is not there, and the new file is not locked
    have made : s.createFile.Guarded := by
      refine ⟨fun q j => ?_, fun q j h => ?_, fun q j h => ?_, fun j h => ?_, fun j high => ?_⟩
      · simp only [createFile, Function.update_apply]
        split
        · rename_i same
          have free := guarded.unmade j (Nat.le_of_eq same.symm)
          rw [guarded.locks q j, free]
        · exact guarded.locks q j
      · have := guarded.guards q j h
        rw [nameless] at this
        cases this
      · exact Nat.lt_succ_of_lt (guarded.opens q j h)
      · cases h
        exact Nat.lt_succ_self _
      · have other : j ≠ s.created := by
          have bound : s.created + 1 ≤ j := high
          omega
        simp only [createFile, Function.update_of_ne other]
        exact guarded.unmade j (Nat.le_of_succ_le high)
    refine made.move from_ rfl (fun j same => ?_)
    cases same
    exact Nat.lt_succ_self _

theorem Guarded.unlink {info : LockInfo} (guarded : s.Guarded) (here : s.phase p = .held i info) :
    ({ s with path := none }.at_ p (.unlinked i)).Guarded := by
  have guards : (s.phase p).guarded = some i := by rw [here]; rfl
  have mine := guarded.guards p i guards
  have kept := guarded.keep guards (show (LockPhase.unlinked i).flocked = some i from rfl)
  refine ⟨kept.locks, fun q j h => ?_, kept.opens, fun j h => ?_, kept.unmade⟩
  · rw [phaseAt] at h
    split at h
    · cases h
    · rename_i other
      have theirs := guarded.guards q j h
      rw [mine] at theirs
      cases theirs
      have byP := (guarded.locks p i).mp (LockPhase.guardedFlocked guards)
      have byQ := (guarded.locks q i).mp (LockPhase.guardedFlocked h)
      rw [byP] at byQ
      exact absurd (Option.some.inj byQ).symm other
  · cases h

theorem inspectFlocked (host : Host) (s : LockDir) :
    (s.inspect host).flocked = none ∧ ∀ i, s.inspect host ≠ .opened i := by
  unfold inspect
  split
  · split <;> simp [LockPhase.flocked]
  · simp [LockPhase.flocked]

theorem Guarded.step {a : LockAction} (taken : s.step host a = some t) (onPath : s.OnPath a)
    (guarded : s.Guarded) : t.Guarded := by
  cases a with
  | start p =>
    simp only [LockDir.step] at taken
    split at taken
    · rename_i here
      cases taken
      exact guarded.move (by rw [here]; rfl) rfl (fun i same => by cases same)
    · cases taken
  | exists_ p =>
    simp only [LockDir.step] at taken
    split at taken
    · rename_i here
      cases taken
      refine guarded.move (by rw [here]; rfl) ?_ (fun i same => ?_)
      · split <;> rfl
      · split at same <;> cases same
    · cases taken
  | readLockInfo p =>
    simp only [LockDir.step] at taken
    split at taken
    · rename_i here
      cases taken
      have after := inspectFlocked host s
      exact guarded.move (by rw [here]; rfl) after.1 (fun i same => absurd same (after.2 i))
    · cases taken
  | open_ p =>
    simp only [LockDir.step] at taken
    split at taken
    · rename_i here
      cases taken
      exact guarded.openTruncated here
    · cases taken
  | flock p =>
    simp only [LockDir.step] at taken
    split at taken
    · rename_i i here
      split at taken
      · rename_i free
        cases taken
        exact guarded.lock here free (onPath i here free)
      · cases taken
        exact guarded.move (by rw [here]; rfl) rfl (fun i same => by cases same)
    · cases taken
  | writeInfo p hostname timestamp uuid =>
    simp only [LockDir.step] at taken
    split at taken
    · rename_i i here
      cases taken
      exact (guarded.contents _).keep (show (s.phase p).guarded = some i by rw [here]; rfl) rfl
    · cases taken
  | fails p written =>
    simp only [LockDir.step] at taken
    split at taken
    · rename_i here
      cases taken
      exact guarded.move (by rw [here]; rfl) rfl (fun i same => by cases same)
    · cases taken
      exact (guarded.contents _).leave rfl (fun i same => by cases same)
    · cases taken
  | unlink p =>
    simp only [LockDir.step] at taken
    split at taken
    · rename_i i info here
      cases taken
      exact guarded.unlink here
    · cases taken
  | close p =>
    simp only [LockDir.step] at taken
    split at taken
    · cases taken
      exact guarded.leave rfl (fun i same => by cases same)
    · cases taken
  | exit p =>
    simp only [LockDir.step] at taken
    split at taken
    · cases taken
    · cases taken
      exact guarded.leave rfl (fun i same => by cases same)

end Steps

theorem Guarded.exclusive {s : LockDir} (guarded : s.Guarded) : s.Exclusive := by
  rintro p q ⟨i, info, here⟩ ⟨j, info', there⟩
  have left : s.path = some i := guarded.guards p i (by simp [here, LockPhase.guarded])
  have right : s.path = some j := guarded.guards q j (by simp [there, LockPhase.guarded])
  have same : i = j := Option.some.inj (left.symm.trans right)
  subst same
  have byP : (s.files i).flock = some p := (guarded.locks p i).mp (by simp [here, LockPhase.flocked])
  have byQ : (s.files i).flock = some q := (guarded.locks q i).mp (by simp [there, LockPhase.flocked])
  exact Option.some.inj (byP.symm.trans byQ)

/-- While every lock that is taken is on the file that has the name, at most one
process holds the session lock. -/
theorem lockExclusive (host : Host) {s t : LockDir} {actions : List LockAction} (fresh : s.Fresh)
    (run : Trace.Run (step host) OnPath s actions t) : t.Exclusive :=
  (run.invariant (fun _ _ _ taken onPath guarded => Guarded.step taken onPath guarded)
    fresh.guarded).exclusive

def onPathChecked (s : LockDir) : LockAction → Bool
  | .flock p =>
    match s.phase p with
    | .opened i => s.path == some i
    | _ => true
  | _ => true

theorem onPathOk {s : LockDir} {a : LockAction} (h : s.onPathChecked a = true) : s.OnPath a := by
  cases a with
  | flock p =>
    intro i here _
    simpa [onPathChecked, here] using h
  | _ => trivial

def emptyDir : LockDir := ⟨none, fun _ => ⟨[], none⟩, 0, fun _ => .outside none⟩

theorem emptyFresh : emptyDir.Fresh :=
  ⟨fun _ => Or.inr rfl, fun _ => rfl, fun _ h => by cases h⟩

def lockText (info : LockInfo) : String :=
  "\x7b\n  \"pid\": " ++ toString info.pid ++ ",\n  \"hostname\": \"" ++ info.hostname ++
    "\",\n  \"timestamp\": " ++ toString info.timestamp ++ ",\n  \"uuid\": \"" ++ info.uuid ++ "\"\n\x7d"

def plainHost : Host := ⟨fun info => (lockText info).toUTF8.toList, fun _ => none, fun exists_ pid => exists_ pid⟩

def holdsFile (s : LockDir) (p : Nat) : Bool :=
  match s.phase p with
  | .held _ _ => true
  | _ => false

theorem holdsOfFile {s : LockDir} {p : Nat} (h : s.holdsFile p = true) : s.Holds p := by
  unfold holdsFile at h
  split at h
  · rename_i i info here
    exact ⟨i, info, here⟩
  · cases h

theorem lockExclusiveTwo : ∃ actions t, Trace.Run (step plainHost) OnPath emptyDir actions t ∧
    t.Holds 2 ∧ t.Exclusive := by
  let script : List LockAction := [.exists_ 1, .exists_ 2, .open_ 1, .open_ 2, .flock 1, .flock 2,
    .writeInfo 1 "host" 5 "a", .unlink 1, .close 1,
    .exists_ 2, .open_ 2, .flock 2, .writeInfo 2 "host" 6 "b"]
  have ended : (Trace.execWhile (step plainHost) onPathChecked emptyDir script).any
      (fun t => t.holdsFile 2) = true := by decide +kernel
  obtain ⟨t, run, held⟩ := Trace.runTo (fun _ _ _ => onPathOk) ended
  exact ⟨script, t, run, holdsOfFile held, lockExclusive plainHost emptyFresh run⟩

theorem lockHeldTwice : ¬ ∀ (host : Host) (s t : LockDir) (actions : List LockAction), s.Fresh →
    Trace.Run (step host) (fun _ _ => True) s actions t → t.Exclusive := by
  intro exclusive
  let script : List LockAction := [.exists_ 1, .exists_ 2, .open_ 1, .open_ 2, .flock 1,
    .writeInfo 1 "host" 5 "a", .unlink 1, .close 1, .flock 2, .writeInfo 2 "host" 6 "b",
    .exists_ 3, .open_ 3, .flock 3, .writeInfo 3 "host" 7 "c"]
  have ended : (Trace.execWhile (step plainHost) (fun _ _ => true) emptyDir script).any
      (fun t => t.holdsFile 2 && t.holdsFile 3) = true := by decide +kernel
  obtain ⟨t, run, held⟩ : ∃ t, Trace.Run (step plainHost) (fun _ _ => True) emptyDir script t ∧
      (t.holdsFile 2 && t.holdsFile 3) = true := Trace.runTo (fun _ _ _ _ => trivial) ended
  rw [Bool.and_eq_true] at held
  have same := exclusive plainHost emptyDir t script emptyFresh run 2 3 (holdsOfFile held.1)
    (holdsOfFile held.2)
  omega

end LockDir
end CardanoLsm
