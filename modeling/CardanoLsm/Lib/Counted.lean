import Mathlib

/-! Reference-counted resources. A handle names a resource (`num`), carries the
identity of the counter it shares with its clones (`ctr`) and stands for a stored
value (`val`). `Tally` says that every counter equals the number of live handles
that share it, `Owned` also that the store holds the value of every live handle.
Cloning, creating and dropping handles keep both, in any order. -/
namespace Counted

variable {H N A : Type} {num : H → N} {ctr : H → Nat} {val : H → A}

structure Owned (num : H → N) (ctr : H → Nat) (val : H → A) (store : N → Option A)
    (count : Nat → Nat) (next : Nat) (live : Multiset H) : Prop where
  counted : ∀ c, count c = live.countP (fun h => ctr h = c)
  stored : ∀ h ∈ live, store (num h) = some (val h)
  shared : ∀ h ∈ live, ∀ h' ∈ live, num h = num h' ↔ ctr h = ctr h'
  bounded : ∀ h ∈ live, ctr h < next

variable {store store' : N → Option A} {count : Nat → Nat} {next : Nat} {live : Multiset H}

structure Tally (ctr : H → Nat) (count : Nat → Nat) (next : Nat) (live : Multiset H) : Prop where
  counted : ∀ c, count c = live.countP (fun h => ctr h = c)
  bounded : ∀ h ∈ live, ctr h < next

namespace Tally

theorem unused (tally : Tally ctr count next live) {c : Nat} (high : next ≤ c) : count c = 0 := by
  rw [tally.counted, Multiset.countP_eq_zero]
  intro h member same
  have := tally.bounded h member
  omega

theorem positive (tally : Tally ctr count next live) {h : H} (member : h ∈ live) : 0 < count (ctr h) := by
  rw [tally.counted, Multiset.countP_pos]
  exact ⟨h, member, rfl⟩

theorem clone (tally : Tally ctr count next live) {h : H} (member : h ∈ live) :
    Tally ctr (Function.update count (ctr h) (count (ctr h) + 1)) next (h ::ₘ live) := by
  refine ⟨fun c => ?_, fun x mem => ?_⟩
  · rw [Multiset.countP_cons, ← tally.counted, Function.update_apply]
    by_cases same : c = ctr h
    · simp [same]
    · simp [same, Ne.symm same]
  · rcases Multiset.mem_cons.mp mem with rfl | mem
    · exact tally.bounded x member
    · exact tally.bounded x mem

theorem create (tally : Tally ctr count next live) {h : H} (counter : ctr h = next) :
    Tally ctr (Function.update count next 1) (next + 1) (h ::ₘ live) := by
  refine ⟨fun c => ?_, fun x mem => ?_⟩
  · rw [Multiset.countP_cons, ← tally.counted, Function.update_apply, counter]
    by_cases same : c = next
    · simp [same, tally.unused (Nat.le_refl next)]
    · simp [same, Ne.symm same]
  · rcases Multiset.mem_cons.mp mem with rfl | mem
    · omega
    · have := tally.bounded x mem
      omega

theorem drop {h : H} (tally : Tally ctr count next (h ::ₘ live)) :
    Tally ctr (Function.update count (ctr h) (count (ctr h) - 1)) next live := by
  have total := tally.counted (ctr h)
  rw [Multiset.countP_cons] at total
  simp only [if_true] at total
  refine ⟨fun c => ?_, fun x mem => tally.bounded x (Multiset.mem_cons_of_mem mem)⟩
  have here := tally.counted c
  rw [Multiset.countP_cons] at here
  rw [Function.update_apply]
  by_cases same : c = ctr h
  · subst same
    simp only [if_true]
    omega
  · simp only [if_neg (Ne.symm same)] at here
    simp only [if_neg same]
    omega

end Tally

theorem Owned.tally (own : Owned num ctr val store count next live) : Tally ctr count next live :=
  ⟨own.counted, own.bounded⟩

theorem Owned.positive (own : Owned num ctr val store count next live) {h : H} (member : h ∈ live) :
    0 < count (ctr h) := own.tally.positive member

theorem Owned.restore (own : Owned num ctr val store count next live)
    (kept : ∀ h ∈ live, store' (num h) = store (num h)) :
    Owned num ctr val store' count next live :=
  ⟨own.counted, fun h member => (kept h member).trans (own.stored h member), own.shared, own.bounded⟩

theorem Owned.another {h : H} (own : Owned num ctr val store count next (h ::ₘ live))
    (more : count (ctr h) ≠ 1) : ∃ x ∈ live, num x = num h := by
  have total := own.counted (ctr h)
  rw [Multiset.countP_cons] at total
  simp only [if_true] at total
  have others : 0 < live.countP (fun y => ctr y = ctr h) := by omega
  obtain ⟨x, member, shares⟩ := Multiset.countP_pos.mp others
  exact ⟨x, member, (own.shared x (Multiset.mem_cons_of_mem member) h
    (Multiset.mem_cons_self h live)).mpr shares⟩

theorem Owned.countNum [DecidableEq N] (own : Owned num ctr val store count next live) {h : H}
    (member : h ∈ live) : count (ctr h) = live.countP (fun x => num x = num h) := by
  rw [own.counted]
  exact Multiset.countP_congr rfl (fun x inside => propext (own.shared x inside h member).symm)

theorem Owned.clone (own : Owned num ctr val store count next live) {h : H} (member : h ∈ live) :
    Owned num ctr val store (Function.update count (ctr h) (count (ctr h) + 1)) next (h ::ₘ live) := by
  have tally := own.tally.clone member
  refine ⟨tally.counted, ?_, ?_, tally.bounded⟩
  · intro x mem
    rcases Multiset.mem_cons.mp mem with rfl | mem
    · exact own.stored x member
    · exact own.stored x mem
  · intro x mx y my
    have inside : ∀ z ∈ h ::ₘ live, z ∈ live := by
      intro z mz
      rcases Multiset.mem_cons.mp mz with rfl | mz
      · exact member
      · exact mz
    exact own.shared x (inside x mx) y (inside y my)

theorem Owned.create (own : Owned num ctr val store count next live) {h : H}
    (fresh : ∀ x ∈ live, num x ≠ num h) (counter : ctr h = next)
    (written : store' (num h) = some (val h)) (kept : ∀ n, n ≠ num h → store' n = store n) :
    Owned num ctr val store' (Function.update count next 1) (next + 1) (h ::ₘ live) := by
  have tally := own.tally.create counter
  refine ⟨tally.counted, ?_, ?_, tally.bounded⟩
  · intro x mem
    rcases Multiset.mem_cons.mp mem with rfl | mem
    · exact written
    · rw [kept _ (fresh x mem)]
      exact own.stored x mem
  · intro x mx y my
    rcases Multiset.mem_cons.mp mx with rfl | px <;> rcases Multiset.mem_cons.mp my with rfl | py
    · simp
    · have low := own.bounded y py
      have apart := fresh y py
      constructor
      · intro same; exact absurd same.symm apart
      · intro same; omega
    · have low := own.bounded x px
      have apart := fresh x px
      constructor
      · intro same; exact absurd same apart
      · intro same; omega
    · exact own.shared x px y py

theorem Owned.drop {h : H} (own : Owned num ctr val store count next (h ::ₘ live))
    (kept : ∀ n, n ≠ num h → store' n = store n)
    (held : count (ctr h) ≠ 1 → store' = store) :
    Owned num ctr val store' (Function.update count (ctr h) (count (ctr h) - 1)) next live := by
  have total := own.counted (ctr h)
  rw [Multiset.countP_cons] at total
  simp only [if_true] at total
  have tally := own.tally.drop
  refine ⟨tally.counted, ?_, ?_, tally.bounded⟩
  · intro x mem
    have before := own.stored x (Multiset.mem_cons_of_mem mem)
    by_cases same : num x = num h
    · have shares : ctr x = ctr h :=
        (own.shared x (Multiset.mem_cons_of_mem mem) h (Multiset.mem_cons_self h live)).mp same
      have others : 0 < live.countP (fun y => ctr y = ctr h) :=
        Multiset.countP_pos.mpr ⟨x, mem, shares⟩
      rw [held (by omega)]
      exact before
    · rw [kept _ same]
      exact before
  · intro x mx y my
    exact own.shared x (Multiset.mem_cons_of_mem mx) y (Multiset.mem_cons_of_mem my)

end Counted
