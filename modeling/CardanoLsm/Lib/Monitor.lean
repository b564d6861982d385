import Mathlib.Logic.Basic

/-! A lock with a condition variable: one thread waits at it until what the lock guards is
ready, another changes this and notifies. A waiter gives the lock back in the same step in
which it falls asleep, and may wake without having been notified. -/

inductive Monitor.Waiter where
  | away
  | locking
  | testing
  | admitted
  | inside
  | asleep
  deriving DecidableEq

inductive Monitor.Signaller where
  | away
  | locking
  | changing
  | notifying
  | unlocking
  deriving DecidableEq

structure Monitor (σ : Type) where
  shared : σ
  waiter : Monitor.Waiter
  signaller : Monitor.Signaller

namespace Monitor
variable {σ : Type}

def Waiter.holds : Waiter → Bool
  | .testing | .admitted | .inside => true
  | _ => false

def Signaller.holds : Signaller → Bool
  | .changing | .notifying | .unlocking => true
  | _ => false

def await (ready : σ → Bool) (m : Monitor σ) : Option (Monitor σ) :=
  match m.waiter with
  | .locking => if m.signaller.holds then none else some { m with waiter := .testing }
  | .testing => some { m with waiter := if ready m.shared then .admitted else .asleep }
  | _ => none

def take (f : σ → σ) (m : Monitor σ) : Monitor σ := { m with shared := f m.shared, waiter := .inside }

def leave (m : Monitor σ) (next : Waiter) : Monitor σ := { m with waiter := next }

def wake (m : Monitor σ) : Option (Monitor σ) :=
  match m.waiter with
  | .asleep => some { m with waiter := .locking }
  | _ => none

def arrive (m : Monitor σ) : Monitor σ := { m with signaller := .locking }

def notified : Waiter → Waiter
  | .asleep => .locking
  | w => w

def signal (change : σ → σ) (m : Monitor σ) : Option (Monitor σ) :=
  match m.signaller with
  | .away => none
  | .locking => if m.waiter.holds then none else some { m with signaller := .changing }
  | .changing => some { m with shared := change m.shared, signaller := .notifying }
  | .notifying => some { m with waiter := notified m.waiter, signaller := .unlocking }
  | .unlocking => some { m with signaller := .away }

inductive Awaits (ready : σ → Bool) (m : Monitor σ) : Monitor σ → Prop where
  | lock (locking : m.waiter = .locking) (free : m.signaller.holds = false) :
      Awaits ready m { m with waiter := .testing }
  | enters (testing : m.waiter = .testing) (goes : ready m.shared = true) :
      Awaits ready m { m with waiter := .admitted }
  | sleep (testing : m.waiter = .testing) (stays : ready m.shared = false) :
      Awaits ready m { m with waiter := .asleep }

inductive Signals (change : σ → σ) (m : Monitor σ) : Monitor σ → Prop where
  | lock (locking : m.signaller = .locking) (free : m.waiter.holds = false) :
      Signals change m { m with signaller := .changing }
  | change (changing : m.signaller = .changing) :
      Signals change m { m with shared := change m.shared, signaller := .notifying }
  | notify (notifying : m.signaller = .notifying) :
      Signals change m { m with waiter := notified m.waiter, signaller := .unlocking }
  | unlock (unlocking : m.signaller = .unlocking) : Signals change m { m with signaller := .away }

theorem awaitMoves {ready : σ → Bool} {m m' : Monitor σ} (taken : m.await ready = some m') : Awaits ready m m' := by
  unfold await at taken
  split at taken
  · rename_i locking
    split at taken
    · cases taken
    · rename_i free
      cases taken
      exact .lock locking (by simpa using free)
  · rename_i testing
    cases goes : ready m.shared with
    | true =>
      rw [goes] at taken
      cases taken
      exact .enters testing goes
    | false =>
      rw [goes] at taken
      cases taken
      exact .sleep testing goes
  · cases taken

theorem signalMoves {change : σ → σ} {m m' : Monitor σ} (taken : m.signal change = some m') :
    Signals change m m' := by
  unfold signal at taken
  split at taken
  · cases taken
  · rename_i locking
    split at taken
    · cases taken
    · rename_i free
      cases taken
      exact .lock locking (by simpa using free)
  · rename_i changing
    cases taken
    exact .change changing
  · rename_i notifying
    cases taken
    exact .notify notifying
  · rename_i unlocking
    cases taken
    exact .unlock unlocking

theorem wakeMoves {m m' : Monitor σ} (taken : m.wake = some m') :
    m.waiter = .asleep ∧ m' = { m with waiter := .locking } := by
  unfold wake at taken
  split at taken
  · rename_i asleep
    cases taken
    exact ⟨asleep, rfl⟩
  · cases taken

structure Ordered (ready : σ → Bool) (m : Monitor σ) : Prop where
  exclusive : m.waiter.holds = true → m.signaller.holds = false
  admitted : m.waiter = .admitted → ready m.shared = true
  /-- Who sleeps over something ready is about to be notified. -/
  noticed : m.waiter = .asleep → ready m.shared = true → m.signaller = .notifying

namespace Ordered
variable {ready : σ → Bool} {m m' : Monitor σ}

theorem outside (free : m.waiter.holds = false) (awake : m.waiter ≠ .asleep) : Ordered ready m := by
  refine ⟨fun holds => ?_, fun admitted => ?_, fun asleep => absurd asleep awake⟩
  · rw [free] at holds
    cases holds
  · rw [admitted] at free
    cases free

theorem free (ordered : Ordered ready m) (mine : m.signaller.holds = true) : m.waiter.holds = false := by
  cases theirs : m.waiter.holds with
  | false => rfl
  | true =>
    rw [ordered.exclusive theirs] at mine
    cases mine

theorem await (ordered : Ordered ready m) (moved : Awaits ready m m') : Ordered ready m' := by
  cases moved with
  | lock locking free =>
    refine ⟨fun _ => free, fun same => ?_, fun same => ?_⟩
    · cases same
    · cases same
  | enters testing goes =>
    refine ⟨fun _ => ordered.exclusive (by rw [testing]; rfl), fun _ => goes, fun same => ?_⟩
    cases same
  | sleep testing stays =>
    refine ⟨fun holds => ?_, fun same => ?_, fun _ goes => ?_⟩
    · cases holds
    · cases same
    · rw [show ready m.shared = true from goes] at stays
      cases stays

theorem take (ordered : Ordered ready m) (admitted : m.waiter.holds = true) (f : σ → σ) :
    Ordered ready (m.take f) := by
  refine ⟨fun _ => ordered.exclusive admitted, fun same => ?_, fun same => ?_⟩
  · cases same
  · cases same

theorem leave {next : Waiter} (free : next.holds = false) (awake : next ≠ .asleep) : Ordered ready (m.leave next) :=
  outside free awake

theorem wake (taken : m.wake = some m') : Ordered ready m' := by
  obtain ⟨-, rfl⟩ := wakeMoves taken
  exact outside rfl (by intro same; cases same)

theorem arrive (ordered : Ordered ready m) (away : m.signaller = .away) : Ordered ready m.arrive := by
  refine ⟨fun _ => rfl, ordered.admitted, fun asleep goes => ?_⟩
  rw [ordered.noticed asleep goes] at away
  cases away

theorem signal (ordered : Ordered ready m) {change : σ → σ} (moved : Signals change m m') : Ordered ready m' := by
  cases moved with
  | lock locking free =>
    refine ⟨fun holds => ?_, ordered.admitted, fun asleep goes => ?_⟩
    · rw [show m.waiter.holds = true from holds] at free
      cases free
    · rw [ordered.noticed asleep goes] at locking
      cases locking
  | change changing =>
    have free := ordered.free (by rw [changing]; rfl)
    refine ⟨fun holds => ?_, fun admitted => ?_, fun _ _ => rfl⟩
    · rw [show m.waiter.holds = true from holds] at free
      cases free
    · rw [show m.waiter = .admitted from admitted] at free
      cases free
  | notify notifying =>
    have free := ordered.free (by rw [notifying]; rfl)
    refine outside ?_ ?_
    · cases here : m.waiter with
      | asleep => rfl
      | _ => rw [here] at free; exact free
    · cases m.waiter <;> intro same <;> cases same
  | unlock unlocking =>
    refine ⟨fun _ => rfl, ordered.admitted, fun asleep goes => ?_⟩
    rw [ordered.noticed asleep goes] at unlocking
    cases unlocking

theorem awake (ordered : Ordered ready m) (goes : ready m.shared = true) (away : m.signaller = .away) :
    m.waiter ≠ .asleep := by
  intro asleep
  rw [ordered.noticed asleep goes] at away
  cases away

end Ordered
end Monitor
