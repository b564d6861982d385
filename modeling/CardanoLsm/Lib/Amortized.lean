import CardanoLsm.Lib.Trace

/-! Work along a run, paid out of a potential of the states. -/
namespace Trace

variable {σ α : Type} {step : σ → α → Option σ} {ok : σ → α → Prop}

def total (step : σ → α → Option σ) (cost : σ → α → Nat) : σ → List α → Nat
  | _, [] => 0
  | s, a :: rest => cost s a + (step s a).elim 0 (fun m => total step cost m rest)

theorem totalCons {cost : σ → α → Nat} {s m : σ} {a : α} {rest : List α} (taken : step s a = some m) :
    total step cost s (a :: rest) = cost s a + total step cost m rest := by
  rw [total, taken, Option.elim_some]

theorem Run.amortized {potential : σ → Nat} {cost income : σ → α → Nat}
    (pays : ∀ s a t, step s a = some t → ok s a → potential t + cost s a ≤ potential s + income s a)
    {s t : σ} {as : List α} (run : Run step ok s as t) :
    potential t + total step cost s as ≤ potential s + total step income s as := by
  induction run with
  | nil s => exact Nat.le_refl _
  | @cons s m t a rest taken allowed later ih =>
    have first := pays s a m taken allowed
    rw [totalCons taken, totalCons taken]
    omega

end Trace
