import Mathlib

/-! Runs of a partial step function over a list of actions, with a side condition
that every step of the run meets. -/
namespace Trace

variable {σ α τ : Type} {step : σ → α → Option σ} {ok ok' : σ → α → Prop}

def exec (step : σ → α → Option σ) : σ → List α → Option σ
  | s, [] => some s
  | s, a :: rest => (step s a).bind (fun m => exec step m rest)

inductive Run (step : σ → α → Option σ) (ok : σ → α → Prop) : σ → List α → σ → Prop where
  | nil (s : σ) : Run step ok s [] s
  | cons {s m t : σ} {a : α} {rest : List α} (taken : step s a = some m) (allowed : ok s a)
      (tail : Run step ok m rest t) : Run step ok s (a :: rest) t

def execWhile (step : σ → α → Option σ) (check : σ → α → Bool) : σ → List α → Option σ
  | s, [] => some s
  | s, a :: rest => if check s a then (step s a).bind (fun m => execWhile step check m rest) else none

theorem runOfExecWhile {check : σ → α → Bool} {s t : σ} {as : List α}
    (allowed : ∀ s, ∀ a ∈ as, check s a = true → ok s a) (h : execWhile step check s as = some t) :
    Run step ok s as t := by
  induction as generalizing s with
  | nil => cases Option.some.inj h; exact .nil _
  | cons a rest ih =>
    unfold execWhile at h
    split at h
    · rename_i checked
      obtain ⟨m, taken, later⟩ := Option.bind_eq_some_iff.mp h
      exact .cons taken (allowed s a List.mem_cons_self checked)
        (ih (fun s b member => allowed s b (List.mem_cons_of_mem a member)) later)
    · cases h

theorem runTo {check : σ → α → Bool} {s : σ} {as : List α} {test : σ → Bool}
    (allowed : ∀ s, ∀ a ∈ as, check s a = true → ok s a)
    (h : (execWhile step check s as).any test = true) : ∃ t, Run step ok s as t ∧ test t = true := by
  obtain ⟨t, ended, tested⟩ := (Option.any_eq_true _ _).mp h
  exact ⟨t, runOfExecWhile allowed ended, tested⟩

theorem runThen {check check' : σ → α → Bool} {s : σ} {as bs : List α} {call : α}
    {test : σ → σ → Bool} (allowed : ∀ s, ∀ a ∈ as, check s a = true → ok s a)
    (allowed' : ∀ s, ∀ a ∈ bs, check' s a = true → ok' s a)
    (h : (execWhile step check s as).any (fun u => (step u call).any (fun m =>
      (execWhile step check' m bs).any (test u))) = true) :
    ∃ u m t, Run step ok s as u ∧ step u call = some m ∧ Run step ok' m bs t ∧ test u t = true := by
  obtain ⟨u, before, rest⟩ := runTo allowed h
  obtain ⟨m, called, rest⟩ := (Option.any_eq_true _ _).mp rest
  obtain ⟨t, own, tested⟩ := runTo allowed' rest
  exact ⟨u, m, t, before, called, own, tested⟩

theorem Run.append {s m t : σ} {as bs : List α} (first : Run step ok s as m)
    (second : Run step ok m bs t) : Run step ok s (as ++ bs) t := by
  induction first with
  | nil s => exact second
  | cons taken allowed tail ih => exact .cons taken allowed (ih second)

theorem Run.single {s t : σ} {a : α} (taken : step s a = some t) (allowed : ok s a) :
    Run step ok s [a] t := .cons taken allowed (.nil t)

theorem Run.weaken (weaker : ∀ s a, ok s a → ok' s a) {s t : σ} {as : List α}
    (h : Run step ok s as t) : Run step ok' s as t := by
  induction h with
  | nil s => exact .nil s
  | cons taken allowed tail ih => exact .cons taken (weaker _ _ allowed) ih

theorem Run.invariant {I : σ → Prop} (keep : ∀ s a t, step s a = some t → ok s a → I s → I t)
    {s t : σ} {as : List α} (h : Run step ok s as t) (start : I s) : I t := by
  induction h with
  | nil s => exact start
  | cons taken allowed tail ih => exact ih (keep _ _ _ taken allowed start)

theorem Run.assume {I : σ → Prop} (keep : ∀ s a t, step s a = some t → ok s a → I s → I t)
    {s t : σ} {as : List α} (h : Run step ok s as t) (start : I s) :
    Run step (fun s a => ok s a ∧ I s) s as t := by
  induction h with
  | nil s => exact .nil s
  | cons taken allowed tail ih =>
    exact .cons taken ⟨allowed, start⟩ (ih (keep _ _ _ taken allowed start))

theorem Run.simulate {R : σ → τ → Prop} {abs : τ → α → τ}
    (keep : ∀ s a t u, step s a = some t → ok s a → R s u → R t (abs u a))
    {s t : σ} {as : List α} (h : Run step ok s as t) {u : τ} (start : R s u) :
    R t (as.foldl abs u) := by
  induction h generalizing u with
  | nil s => exact start
  | cons taken allowed tail ih => exact ih (keep _ _ _ _ taken allowed start)

theorem Run.refines {β : Type} {below : τ → β → Option τ} {fits : τ → β → Prop} {R : σ → τ → Prop}
    {name : α → Option β}
    (keep : ∀ s a t u, step s a = some t → ok s a → R s u →
      R t u ∨ ∃ b v, name a = some b ∧ below u b = some v ∧ fits u b ∧ R t v)
    {s t : σ} {as : List α} (h : Run step ok s as t) {u : τ} (start : R s u) :
    ∃ bs v, bs.Sublist (as.filterMap name) ∧ Run below fits u bs v ∧ R t v := by
  induction h generalizing u with
  | nil s => exact ⟨[], u, .slnil, .nil u, start⟩
  | @cons s m t a rest taken allowed tail ih =>
    rcases keep _ _ _ u taken allowed start with same | ⟨b, v, named, moves, may, related⟩
    · obtain ⟨bs, v, among, later, ends⟩ := ih same
      refine ⟨bs, v, among.trans ?_, later, ends⟩
      exact (List.sublist_cons_self a rest).filterMap name
    · obtain ⟨bs, v', among, later, ends⟩ := ih related
      refine ⟨b :: bs, v', ?_, .cons moves may later, ends⟩
      rw [List.filterMap_cons_some named]
      exact among.cons_cons b

end Trace
