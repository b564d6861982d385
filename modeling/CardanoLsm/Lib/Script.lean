import Mathlib

/-! Scripts of fallible operations on a state. An operation fails when the fault
schedule says so or when the state does not allow it; the operations before it have
taken effect, those after it are not reached. -/
namespace Script

structure Op (ω σ : Type) where
  name : ω
  enabled : σ → Bool
  effect : σ → σ

variable {ω σ : Type}

def run (faults : Nat → Bool) : Nat → List (Op ω σ) → σ → Option ω × σ
  | _, [], s => (none, s)
  | i, op :: rest, s =>
    if faults i || !op.enabled s then (some op.name, s) else run faults (i + 1) rest (op.effect s)

def final (ops : List (Op ω σ)) (s : σ) : σ := ops.foldl (fun s op => op.effect s) s

theorem runDone {faults : Nat → Bool} {i : Nat} {ops : List (Op ω σ)} {s t : σ}
    (h : run faults i ops s = (none, t)) : t = final ops s := by
  induction ops generalizing i s with
  | nil => exact (Prod.mk.inj h).2.symm
  | cons op rest ih =>
    unfold run at h
    split at h
    · simp at h
    · exact ih h

theorem runKeeps {P : σ → Prop} {faults : Nat → Bool} {i : Nat} {ops : List (Op ω σ)} {s : σ}
    (keep : ∀ op ∈ ops, ∀ s, op.enabled s = true → P s → P (op.effect s)) (start : P s) :
    P (run faults i ops s).2 := by
  induction ops generalizing i s with
  | nil => exact start
  | cons op rest ih =>
    unfold run
    split
    · exact start
    · rename_i passed
      simp only [Bool.or_eq_true, Bool.not_eq_true', not_or, Bool.not_eq_false] at passed
      exact ih (fun op' member => keep op' (List.mem_cons_of_mem _ member))
        (keep op List.mem_cons_self s passed.2 start)

theorem runAppend {faults : Nat → Bool} {i : Nat} {first second : List (Op ω σ)} {s t : σ}
    (h : run faults i first s = (none, t)) :
    run faults i (first ++ second) s = run faults (i + first.length) second t := by
  induction first generalizing i s with
  | nil => cases (Prod.mk.inj h).2; rfl
  | cons op rest ih =>
    unfold run at h
    split at h
    · simp at h
    · rename_i passed
      rw [List.cons_append, run, if_neg passed, ih h, List.length_cons]
      congr 1
      omega

theorem runAppendStopped {faults : Nat → Bool} {i : Nat} {first second : List (Op ω σ)} {s t : σ} {name : ω}
    (h : run faults i first s = (some name, t)) : run faults i (first ++ second) s = (some name, t) := by
  induction first generalizing i s with
  | nil => cases h
  | cons op rest ih =>
    unfold run at h ⊢
    rw [List.cons_append]
    dsimp only
    split at h
    · rename_i failed
      rw [if_pos failed, h]
    · rename_i passed
      rw [if_neg passed, ih h]

def still (name : ω) : Op ω σ := ⟨name, fun _ => true, id⟩

theorem runSplit {faults : Nat → Bool} {i : Nat} {first second : List (Op ω σ)} {s t : σ}
    (h : run faults i (first ++ second) s = (none, t)) :
    ∃ middle, run faults i first s = (none, middle) ∧ run faults (i + first.length) second middle = (none, t) := by
  cases ran : run faults i first s with
  | mk stopped middle =>
    cases stopped with
    | none =>
      rw [runAppend ran] at h
      exact ⟨middle, rfl, h⟩
    | some name => rw [runAppendStopped ran] at h; cases h

def attempt (name : ω) (f : σ → Option σ) : Op ω σ := ⟨name, fun s => (f s).isSome, fun s => (f s).getD s⟩

theorem attemptEffect {name : ω} {f : σ → Option σ} {s t : σ} (value : f s = some t) :
    (attempt name f).enabled s = true ∧ (attempt name f).effect s = t := by
  simp only [attempt, value, Option.isSome_some, Option.getD_some, and_self]

theorem attemptValue {name : ω} {f : σ → Option σ} {s : σ} (enabled : (attempt name f).enabled s = true) :
    f s = some ((attempt name f).effect s) := by
  obtain ⟨t, value⟩ := Option.isSome_iff_exists.mp enabled
  rw [(attemptEffect value).2, value]

theorem runDoneKeeps {P : σ → Prop} {faults : Nat → Bool} {i : Nat} {ops : List (Op ω σ)} {s t : σ}
    (keep : ∀ op ∈ ops, ∀ s, op.enabled s = true → P s → P (op.effect s)) (start : P s)
    (h : run faults i ops s = (none, t)) : P t := by
  have kept : P (run faults i ops s).2 := runKeeps keep start
  rwa [h] at kept

theorem runDoneCons {faults : Nat → Bool} {i : Nat} {op : Op ω σ} {rest : List (Op ω σ)} {s t : σ}
    (h : run faults i (op :: rest) s = (none, t)) :
    op.enabled s = true ∧ run faults (i + 1) rest (op.effect s) = (none, t) := by
  unfold run at h
  split at h
  · cases h
  · rename_i passed
    simp only [Bool.or_eq_true, Bool.not_eq_true', not_or, Bool.not_eq_false] at passed
    exact ⟨passed.2, h⟩

theorem runBarred {faults : Nat → Bool} {i : Nat} {ops : List (Op ω σ)} {s : σ}
    (idle : ∀ op ∈ ops, op.enabled s = false ∨ op.effect s = s) (barred : ∃ op ∈ ops, op.enabled s = false) :
    ∃ name, run faults i ops s = (some name, s) := by
  induction ops generalizing i with
  | nil =>
    obtain ⟨op, member, -⟩ := barred
    cases member
  | cons op rest ih =>
    unfold run
    split
    · exact ⟨op.name, rfl⟩
    · rename_i passed
      simp only [Bool.or_eq_true, Bool.not_eq_true', not_or, Bool.not_eq_false] at passed
      have still : op.effect s = s := (idle op List.mem_cons_self).resolve_left (by rw [passed.2]; exact nofun)
      rw [still]
      obtain ⟨op', member, fails⟩ := barred
      rcases List.mem_cons.mp member with rfl | later
      · rw [passed.2] at fails
        cases fails
      · exact ih (fun x inside => idle x (List.mem_cons_of_mem op inside)) ⟨op', later, fails⟩

def stop (i : Nat) (ops : List (Op ω σ)) (s : σ) : σ := (run (fun j => j == i) 0 ops s).2

def Ends (ops : List (Op ω σ)) (s t : σ) : Prop :=
  ∀ faults i, (∀ j, i ≤ j → j < i + ops.length → faults j = false) → run faults i ops s = (none, t)

namespace Ends
variable {ops first second : List (Op ω σ)} {s t u : σ}

theorem nil (s : σ) : Ends ([] : List (Op ω σ)) s s := fun _ _ _ => rfl

theorem append (before : Ends first s t) (after : Ends second t u) : Ends (first ++ second) s u := by
  intro faults i clean
  rw [List.length_append] at clean
  rw [runAppend (before faults i (fun j low high => clean j low (by omega)))]
  exact after faults _ (fun j low high => clean j (by omega) (by omega))

theorem one {op : Op ω σ} (enabled : op.enabled s = true) : Ends [op] s (op.effect s) := by
  intro faults i clean
  simp only [run, enabled, clean i (Nat.le_refl i) (by simp), Bool.not_true, Bool.or_self, Bool.false_eq_true,
    if_false]

theorem attempt {name : ω} {f : σ → Option σ} (value : f s = some t) : Ends [Script.attempt name f] s t := by
  obtain ⟨enabled, effect⟩ := attemptEffect value
  exact effect ▸ one enabled

theorem always (enabled : ∀ op ∈ ops, ∀ s, op.enabled s = true) (s : σ) : Ends ops s (final ops s) := by
  induction ops generalizing s with
  | nil => exact nil s
  | cons op rest ih =>
    exact append (one (enabled op List.mem_cons_self s))
      (ih (fun x member => enabled x (List.mem_cons_of_mem op member)) (op.effect s))

theorem idle (same : ∀ op ∈ ops, op.enabled s = true ∧ op.effect s = s) : Ends ops s s := by
  intro faults i clean
  induction ops generalizing i with
  | nil => rfl
  | cons op rest ih =>
    obtain ⟨enabled, effect⟩ := same op List.mem_cons_self
    rw [List.length_cons] at clean
    simp only [run, enabled, clean i (Nat.le_refl i) (by omega), effect, Bool.not_true, Bool.or_self,
      Bool.false_eq_true, if_false]
    exact ih (fun op member => same op (List.mem_cons_of_mem _ member)) (i + 1)
      (fun j low high => clean j (by omega) (by omega))

theorem still (names : List ω) : Ends (names.map Script.still) s s :=
  idle (fun op member => by
    obtain ⟨name, _, rfl⟩ := List.mem_map.mp member
    exact ⟨rfl, rfl⟩)

theorem stop (ends : Ends ops s t) : Script.stop ops.length ops s = t := by
  rw [Script.stop, ends _ 0 (fun j _ high => beq_false_of_ne (by omega))]

end Ends

theorem finalAppend (first second : List (Op ω σ)) (s : σ) :
    final (first ++ second) s = final second (final first s) := List.foldl_append

theorem finalStill (names : List ω) (s : σ) : final (names.map still) s = s := by
  induction names with
  | nil => rfl
  | cons name rest ih => exact ih

end Script
