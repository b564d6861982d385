import CardanoLsm.Ownership

/-! The books of a session: which handles are live, which of them are outputs that no
level holds yet, and which run numbers are allocated but not written. A run number is
used once: an allocated or written number is never that of another run. -/
namespace CardanoLsm
open Std Assoc

structure Ledger (st : Storage) (nextRunNumber : Nat) (settled : Multiset SsTableHandle)
    (outputs : List SsTableHandle) (allocated : List Nat) : Prop where
  owns : Owns st (settled + ↑outputs)
  apart : (allocated ++ outputs.map SsTableHandle.runNumber).Nodup
  fresh : ∀ h ∈ settled, h.runNumber ∉ outputs.map SsTableHandle.runNumber
  unused : ∀ n, n ∈ allocated ∨ nextRunNumber ≤ n → st.active.lookup n = none
  below : ∀ n ∈ allocated, n < nextRunNumber

namespace Ledger
variable {st st' : Storage} {next n level : Nat} {settled settled' : Multiset SsTableHandle}
  {outputs outputs' : List SsTableHandle} {allocated allocated' : List Nat} {h : SsTableHandle}

theorem listed (book : Ledger st next settled outputs allocated) (live : h ∈ settled + ↑outputs) :
    st.active.lookup h.runNumber = some (some h.run) := by
  have stored := book.owns.counts.stored h live
  simpa [Storage.runAt, Storage.files, Option.join_eq_some_iff] using stored

theorem number (book : Ledger st next settled outputs allocated) (live : h ∈ settled + ↑outputs) :
    h.runNumber < next ∧ h.runNumber ∉ allocated := by
  have found := book.listed live
  constructor
  · by_contra high
    rw [book.unused _ (Or.inr (by omega))] at found
    simp at found
  · intro member
    rw [book.unused _ (Or.inl member)] at found
    simp at found

theorem readable (book : Ledger st next settled outputs allocated) {runs : List SsTableHandle}
    (members : ∀ x ∈ runs, x ∈ settled) : Readable st runs :=
  book.owns.readable (fun x member => Multiset.mem_add.mpr (Or.inl (members x member)))

theorem congr (book : Ledger st next settled outputs allocated) (same : settled = settled')
    (sameOutputs : outputs.Perm outputs') (sameAllocated : allocated.Perm allocated') :
    Ledger st next settled' outputs' allocated' := by
  subst same
  refine ⟨?_, ?_, ?_, ?_, ?_⟩
  · rw [← Multiset.coe_eq_coe.mpr sameOutputs]
    exact book.owns
  · exact (sameAllocated.append (sameOutputs.map _)).nodup_iff.mp book.apart
  · intro h member inside
    exact book.fresh h member ((sameOutputs.map _).mem_iff.mpr inside)
  · intro n cause
    exact book.unused n (cause.imp_left sameAllocated.mem_iff.mpr)
  · intro n member
    exact book.below n (sameAllocated.mem_iff.mpr member)

theorem allocate (book : Ledger st next settled outputs allocated) :
    Ledger st (next + 1) settled outputs (next :: allocated) := by
  refine ⟨book.owns, ?_, book.fresh, ?_, ?_⟩
  · rw [List.cons_append, List.nodup_cons]
    refine ⟨?_, book.apart⟩
    intro member
    rcases List.mem_append.mp member with old | output
    · have := book.below next old
      omega
    · obtain ⟨h, inside, same⟩ := List.mem_map.mp output
      have := (book.number (Multiset.mem_add.mpr (Or.inr (Multiset.mem_coe.mpr inside)))).1
      omega
  · intro m cause
    rcases cause with member | high
    · rcases List.mem_cons.mp member with rfl | member
      · exact book.unused _ (Or.inr (Nat.le_refl _))
      · exact book.unused m (Or.inl member)
    · exact book.unused m (Or.inr (by omega))
  · intro m member
    rcases List.mem_cons.mp member with rfl | member
    · omega
    · have := book.below m member
      omega

theorem forget (book : Ledger st next settled outputs (n :: allocated)) :
    Ledger st next settled outputs allocated :=
  ⟨book.owns, (List.nodup_cons.mp book.apart).2, book.fresh,
    fun m cause => book.unused m (cause.imp_left (List.mem_cons_of_mem n)),
    fun m member => book.below m (List.mem_cons_of_mem n member)⟩

theorem abandon (book : Ledger st next settled outputs (n :: allocated))
    (touches : Storage.Touches n st st') : Ledger st' next settled outputs allocated := by
  have free := (List.nodup_cons.mp book.apart).1
  have low := book.below n List.mem_cons_self
  refine ⟨?_, (List.nodup_cons.mp book.apart).2, book.fresh, ?_, ?_⟩
  · refine book.owns.touched (fun x live same => ?_) touches
    exact (book.number live).2 (same ▸ List.mem_cons_self)
  · intro m cause
    have other : m ≠ n := by
      rintro rfl
      rcases cause with member | high
      · exact free (List.mem_append_left _ member)
      · omega
    rw [touches.others m other]
    exact book.unused m (cause.imp_left (List.mem_cons_of_mem n))
  · exact fun m member => book.below m (List.mem_cons_of_mem n member)

theorem write {entries : Entries} (book : Ledger st next settled outputs (n :: allocated))
    (written : SsTableWriter.Written n entries level st h st') :
    Ledger st' next settled (h :: outputs) allocated := by
  obtain ⟨-, number, -, -⟩ := written.handle
  have free := (List.nodup_cons.mp book.apart).1
  have low := book.below n List.mem_cons_self
  have different : ∀ x ∈ settled + ↑outputs, x.runNumber ≠ n := fun x live same =>
    (book.number live).2 (same ▸ List.mem_cons_self)
  refine ⟨?_, ?_, ?_, ?_, ?_⟩
  · refine (book.owns.written different written).congr ?_
    rw [← Multiset.cons_coe, Multiset.add_cons]
  · have moved : (allocated ++ (h :: outputs).map SsTableHandle.runNumber).Perm
        (n :: allocated ++ outputs.map SsTableHandle.runNumber) := by
      rw [List.map_cons, number]
      exact List.perm_middle
    exact moved.nodup_iff.mpr book.apart
  · intro x member inside
    rw [List.map_cons] at inside
    rcases List.mem_cons.mp inside with same | old
    · exact different x (Multiset.mem_add.mpr (Or.inl member)) (same.trans number)
    · exact book.fresh x member old
  · intro m cause
    have other : m ≠ n := by
      rintro rfl
      rcases cause with member | high
      · exact free (List.mem_append_left _ member)
      · omega
    rw [written.others m other]
    exact book.unused m (cause.imp_left (List.mem_cons_of_mem n))
  · exact fun m member => book.below m (List.mem_cons_of_mem n member)

theorem publish (book : Ledger st next settled (h :: outputs) allocated) :
    Ledger st next (h ::ₘ settled) outputs allocated := by
  have parts := List.nodup_append.mp book.apart
  refine ⟨book.owns.congr ?_, ?_, ?_, book.unused, book.below⟩
  · rw [← Multiset.cons_coe, Multiset.add_cons, Multiset.cons_add]
  · refine List.nodup_append.mpr ⟨parts.1, (List.nodup_cons.mp parts.2.1).2, ?_⟩
    exact fun a inA b inB => parts.2.2 a inA b (List.mem_cons_of_mem _ inB)
  · intro x member
    rcases Multiset.mem_cons.mp member with rfl | member
    · exact (List.nodup_cons.mp parts.2.1).1
    · exact fun inside => book.fresh x member (List.mem_cons_of_mem _ inside)

theorem cloneActive (hs : List SsTableHandle) (st : Storage) :
    (st.cloneAll hs).active = st.active ∧ (st.cloneAll hs).snapshots = st.snapshots := by
  induction hs generalizing st with
  | nil => exact ⟨rfl, rfl⟩
  | cons h rest ih => exact ih (st.cloneHandle h)

theorem cloneAll (book : Ledger st next settled outputs allocated) {hs : List SsTableHandle}
    (members : ∀ x ∈ hs, x ∈ settled) : Ledger (st.cloneAll hs) next (↑hs + settled) outputs allocated := by
  refine ⟨?_, book.apart, ?_, ?_, book.below⟩
  · rw [add_assoc]
    exact book.owns.cloneAll (fun x member => Multiset.mem_add.mpr (Or.inl (members x member)))
  · intro x member
    rcases Multiset.mem_add.mp member with clone | old
    · exact book.fresh x (members x (Multiset.mem_coe.mp clone))
    · exact book.fresh x old
  · intro m cause
    rw [(cloneActive hs st).1]
    exact book.unused m cause

theorem dropActive (st : Storage) (h : SsTableHandle) {m : Nat} (absent : st.active.lookup m = none) :
    (st.dropHandle h).active.lookup m = none := by
  unfold Storage.dropHandle
  dsimp only
  split
  · cases h.dir with
    | active =>
      simp only [Storage.removeFiles, lookupFilter]
      split
      · rfl
      · exact absent
    | snapshot name => exact absent
  · exact absent

theorem dropListed {st : Storage} {h : SsTableHandle} {m : Nat} {content : Option Run}
    (found : (st.dropHandle h).active.lookup m = some content) : st.active.lookup m = some content := by
  unfold Storage.dropHandle at found
  dsimp only at found
  split at found
  · cases place : h.dir with
    | active =>
      simp only [place, Storage.removeFiles, lookupFilter] at found
      split at found
      · cases found
      · exact found
    | snapshot name =>
      simp only [place] at found
      exact found
  · exact found

theorem drop (book : Ledger st next (h ::ₘ settled) outputs allocated) :
    Ledger (st.dropHandle h) next settled outputs allocated := by
  refine ⟨?_, book.apart, ?_, ?_, book.below⟩
  · refine Owns.dropHandle (book.owns.congr ?_)
    rw [Multiset.cons_add]
  · exact fun x member => book.fresh x (Multiset.mem_cons_of_mem member)
  · exact fun m cause => dropActive st h (book.unused m cause)

theorem elsewhere (book : Ledger st next settled outputs allocated) (active : st'.active = st.active)
    (refcounts : st'.refcounts = st.refcounts) (nextRefcount : st'.nextRefcount = st.nextRefcount) :
    Ledger st' next settled outputs allocated := by
  have runAt : st'.runAt .active = st.runAt .active := by
    funext m
    simp only [Storage.runAt, Storage.files, active]
  refine ⟨⟨?_, book.owns.inActive⟩, book.apart, book.fresh, ?_, book.below⟩
  · rw [runAt, refcounts, nextRefcount]
    exact book.owns.counts
  · intro m cause
    rw [active]
    exact book.unused m cause

end Ledger

structure Bookkeeping
    (Books : Storage → Nat → Multiset SsTableHandle → List SsTableHandle → List Nat → Prop) : Prop where
  congr : ∀ {st next settled settled' outputs outputs' allocated allocated'},
    Books st next settled outputs allocated → settled = settled' → outputs.Perm outputs' →
      allocated.Perm allocated' → Books st next settled' outputs' allocated'
  positive : ∀ {st next settled outputs allocated h},
    Books st next settled outputs allocated → h ∈ settled → 0 < st.refcounts h.refcount
  allocate : ∀ {st next settled outputs allocated},
    Books st next settled outputs allocated → Books st (next + 1) settled outputs (next :: allocated)
  forget : ∀ {st next settled outputs allocated n},
    Books st next settled outputs (n :: allocated) → Books st next settled outputs allocated
  abandon : ∀ {st st' next settled outputs allocated n},
    Books st next settled outputs (n :: allocated) → Storage.Touches n st st' →
      Books st' next settled outputs allocated
  write : ∀ {st st' next settled outputs allocated n level entries h},
    Books st next settled outputs (n :: allocated) → SsTableWriter.Written n entries level st h st' →
      Books st' next settled (h :: outputs) allocated
  publish : ∀ {st next settled outputs allocated h},
    Books st next settled (h :: outputs) allocated → Books st next (h ::ₘ settled) outputs allocated
  cloneAll : ∀ {st next settled outputs allocated hs},
    Books st next settled outputs allocated → (∀ x ∈ hs, x ∈ settled) →
      Books (st.cloneAll hs) next (↑hs + settled) outputs allocated
  drop : ∀ {st next settled outputs allocated h},
    Books st next (h ::ₘ settled) outputs allocated → Books (st.dropHandle h) next settled outputs allocated
  elsewhere : ∀ {st st' next settled outputs allocated},
    Books st next settled outputs allocated → st'.active = st.active → st'.refcounts = st.refcounts →
      st'.nextRefcount = st.nextRefcount → Books st' next settled outputs allocated

theorem Ledger.bookkeeping : Bookkeeping Ledger where
  congr := Ledger.congr
  positive book member := book.owns.counts.positive (Multiset.mem_add.mpr (Or.inl member))
  allocate := Ledger.allocate
  forget := Ledger.forget
  abandon := Ledger.abandon
  write := Ledger.write
  publish := Ledger.publish
  cloneAll book := book.cloneAll
  drop := Ledger.drop
  elsewhere := Ledger.elsewhere

structure Tallied (st : Storage) (nextRunNumber : Nat) (settled : Multiset SsTableHandle)
    (outputs : List SsTableHandle) (allocated : List Nat) : Prop where
  tally : Counted.Tally SsTableHandle.refcount st.refcounts st.nextRefcount (settled + ↑outputs)
  inActive : ∀ h ∈ settled + ↑outputs, h.dir = .active

namespace Tallied
variable {st st' : Storage} {next n : Nat} {settled : Multiset SsTableHandle} {outputs : List SsTableHandle}
  {allocated : List Nat} {h : SsTableHandle}

theorem congr {next' : Nat} {settled' : Multiset SsTableHandle} {outputs' : List SsTableHandle} {allocated' : List Nat}
    (book : Tallied st next settled outputs allocated) (same : settled + ↑outputs = settled' + ↑outputs') :
    Tallied st next' settled' outputs' allocated' :=
  ⟨same ▸ book.tally, same ▸ book.inActive⟩

theorem restore (book : Tallied st next settled outputs allocated) (refcounts : st'.refcounts = st.refcounts)
    (nextRefcount : st'.nextRefcount = st.nextRefcount) : Tallied st' next settled outputs allocated := by
  refine ⟨?_, book.inActive⟩
  rw [refcounts, nextRefcount]
  exact book.tally

theorem cons {live : Multiset SsTableHandle} (place : h.dir = .active) (inActive : ∀ x ∈ live, x.dir = .active) :
    ∀ x ∈ h ::ₘ live, x.dir = .active := by
  intro x member
  rcases Multiset.mem_cons.mp member with rfl | member
  · exact place
  · exact inActive x member

theorem write {level : Nat} {entries : Entries} (book : Tallied st next settled outputs (n :: allocated))
    (written : SsTableWriter.Written n entries level st h st') : Tallied st' next settled (h :: outputs) allocated := by
  obtain ⟨dir, -, -, counter⟩ := written.handle
  have grown : settled + ↑(h :: outputs) = h ::ₘ (settled + ↑outputs) := by
    rw [← Multiset.cons_coe, Multiset.add_cons]
  refine ⟨?_, ?_⟩
  · rw [grown, written.refcounts, written.nextRefcount]
    exact book.tally.create counter
  · rw [grown]
    exact cons dir book.inActive

theorem cloneAll {hs : List SsTableHandle} (book : Tallied st next settled outputs allocated)
    (members : ∀ x ∈ hs, x ∈ settled) : Tallied (st.cloneAll hs) next (↑hs + settled) outputs allocated := by
  induction hs generalizing st settled with
  | nil => exact book.congr (by rw [Multiset.coe_nil, zero_add])
  | cons h rest ih =>
    have member : h ∈ settled + ↑outputs := Multiset.mem_add.mpr (Or.inl (members h List.mem_cons_self))
    have first : Tallied (st.cloneHandle h) next (h ::ₘ settled) outputs allocated := by
      refine ⟨?_, ?_⟩
      · rw [Multiset.cons_add]
        exact book.tally.clone member
      · rw [Multiset.cons_add]
        exact cons (book.inActive h member) book.inActive
    refine (ih first (fun x mem => Multiset.mem_cons_of_mem (members x (List.mem_cons_of_mem h mem)))).congr ?_
    simp only [Multiset.add_cons, ← Multiset.cons_coe, Multiset.cons_add]

theorem dropCounters (st : Storage) (h : SsTableHandle) :
    (st.dropHandle h).refcounts = Function.update st.refcounts h.refcount (st.refcounts h.refcount - 1) ∧
      (st.dropHandle h).nextRefcount = st.nextRefcount := by
  unfold Storage.dropHandle
  dsimp only
  split
  · cases h.dir <;> exact ⟨rfl, rfl⟩
  · exact ⟨rfl, rfl⟩

theorem drop (book : Tallied st next (h ::ₘ settled) outputs allocated) :
    Tallied (st.dropHandle h) next settled outputs allocated := by
  obtain ⟨refcounts, nextRefcount⟩ := dropCounters st h
  have tally := book.tally
  rw [Multiset.cons_add] at tally
  refine ⟨?_, fun x member => book.inActive x ?_⟩
  · rw [refcounts, nextRefcount]
    exact tally.drop
  · rw [Multiset.cons_add]
    exact Multiset.mem_cons_of_mem member

theorem dropAll {hs : List SsTableHandle} (book : Tallied st next (↑hs + settled) outputs allocated) :
    Tallied (hs.foldl Storage.dropHandle st) next settled outputs allocated := by
  induction hs generalizing st with
  | nil => exact book.congr (by rw [Multiset.coe_nil, zero_add])
  | cons h rest ih => exact ih (drop (book.congr (by rw [← Multiset.cons_coe, Multiset.cons_add])))

theorem bookkeeping : Bookkeeping Tallied where
  congr book same outputs _ := book.congr (by rw [same, Multiset.coe_eq_coe.mpr outputs])
  positive book member := book.tally.positive (Multiset.mem_add.mpr (Or.inl member))
  allocate book := book.congr rfl
  forget book := book.congr rfl
  abandon book touches := (book.congr rfl).restore touches.refcounts touches.nextRefcount
  write := write
  publish book := book.congr (by rw [← Multiset.cons_coe, Multiset.add_cons, Multiset.cons_add])
  cloneAll := cloneAll
  drop := drop
  elsewhere book _ refcounts nextRefcount := book.restore refcounts nextRefcount

end Tallied
end CardanoLsm
