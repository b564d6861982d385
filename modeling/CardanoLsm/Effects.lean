import CardanoLsm.Opening

/-! What a step of the session does to the files and the counters: clone handles, write a
run, drop a handle or save a snapshot. -/
namespace CardanoLsm
open Std Layered

inductive Effect (s : State) : Action → Storage → Prop where
  | clone (a : Action) (hs : List SsTableHandle) : Effect s a (s.storage.cloneAll hs)
  | write (a : Action) (faults : Nat → Bool) (i n : Nat) (entries : Entries) (level : Nat)
      (mine : n ∈ s.allocated) : Effect s a (SsTableWriter.write faults i n entries level s.storage).2
  | drop (i : Nat) (h : SsTableHandle) (found : s.garbage[i]? = some h) :
      Effect s (.collect i) (s.storage.dropHandle h)
  | create (faults : Nat → Bool) (name label : String) (seq : Nat) (all : List SsTableHandle)
      (here : s.foreground = .saveCloned name label seq all) :
      Effect s (.foreground faults)
        (PersistentSnapshot.create faults name label all seq s.tree.config s.storage).2

def Storage.Once (st : Storage) : Prop := (st.active.map Prod.fst).Nodup

theorem SsTableWriter.writeOnce (faults : Nat → Bool) (i n : Nat) (entries : Entries) (level : Nat)
    {st : Storage} (once : st.Once) : (write faults i n entries level st).2.Once := by
  have opened : (Script.run faults i (newOps n) st).2.Once := by
    refine Script.runKeeps (P := Storage.Once) (fun op member s enabled once => ?_) once
    simp only [newOps, List.mem_cons, List.not_mem_nil, or_false] at member
    rcases member with rfl | rfl
    · have absent : n ∉ s.active.map Prod.fst := by
        rw [← lookupUnlisted]
        exact Option.isNone_iff_eq_none.mp enabled
      simp only [Storage.Once, List.map_append, List.map_singleton]
      refine List.nodup_append.mpr ⟨once, by simp, fun a inA b inB same => absent ?_⟩
      rw [List.mem_singleton.mp inB] at same
      exact same ▸ inA
    · exact once
  unfold write
  split
  · rename_i st₁ stopped
    rwa [stopped] at opened
  · rename_i st₁ ready
    rw [ready] at opened
    split
    · exact opened
    · rename_i nonempty
      have finished : (Script.run faults (i + (newOps n).length) (finishOps n ⟨entries, nonempty⟩) st₁).2.Once := by
        refine Script.runKeeps (P := Storage.Once) (fun op member s _ once => ?_) opened
        simp only [finishOps, List.mem_append, List.mem_map, List.mem_singleton] at member
        rcases member with (⟨name, _, rfl⟩ | rfl) | ⟨name, _, rfl⟩
        · exact once
        · have same : (complete n ⟨entries, nonempty⟩ s).active.map Prod.fst = s.active.map Prod.fst := by
            simp only [complete, List.map_map]
            refine List.map_congr_left (fun f _ => ?_)
            simp only [Function.comp_apply]
            split
            · rename_i here
              exact here.symm
            · rfl
          exact (congrArg List.Nodup same).mpr once
        · exact once
      dsimp only
      split
      · rename_i st₂ stopped
        rwa [stopped] at finished
      · rename_i st₂ done
        rwa [done] at finished

theorem Storage.Once.dropHandle {st : Storage} (once : st.Once) (h : SsTableHandle) :
    (st.dropHandle h).Once := by
  unfold Storage.dropHandle
  dsimp only
  split
  · cases h.dir with
    | active => exact once.sublist (List.filter_sublist.map _)
    | snapshot name => exact once
  · exact once

theorem Storage.Once.dropAll {hs : List SsTableHandle} {st : Storage} (once : st.Once) :
    (hs.foldl Storage.dropHandle st).Once := by
  induction hs generalizing st with
  | nil => exact once
  | cons h rest ih => exact ih (once.dropHandle h)

theorem PersistentSnapshot.createActive (faults : Nat → Bool) (name label : String) (sstables : List SsTableHandle)
    (seq : Nat) (config : LsmConfig) (st : Storage) :
    (create faults name label sstables seq config st).2.active = st.active := by
  have kept : (Script.run faults 0 (createOps name label sstables seq config) st).2.active = st.active := by
    refine Script.runKeeps (P := fun s : Storage => s.active = st.active) (fun op member s _ same => ?_) rfl
    simp only [createOps, metadataOps, List.cons_append, List.mem_cons, List.mem_append, List.mem_map,
      List.not_mem_nil, or_false, List.mem_flatMap] at member
    rcases member with rfl | (⟨h, inside, link⟩ | ((⟨name, _, rfl⟩ | rfl) | ⟨name, _, rfl⟩))
    · exact same
    · simp only [linkOps, List.mem_cons, List.not_mem_nil, or_false] at link
      rcases link with rfl | rfl | rfl | rfl | rfl | rfl | rfl | rfl
      · exact same
      · exact same
      · exact same
      · exact same
      · exact same
      · exact same
      · exact same
      · dsimp only
        unfold Storage.dropHandle
        dsimp only
        split <;> exact same
    · exact same
    · exact same
    · exact same
  unfold create
  split
  · rfl
  · split <;> rename_i ran <;> rwa [ran] at kept

namespace Effect
variable {s : State} {a : Action}

theorem once {st : Storage} (effect : Effect s a st) (before : s.storage.Once) : st.Once := by
  cases effect with
  | clone _ hs => exact (congrArg (fun active => (active.map Prod.fst).Nodup)
      (Ledger.cloneActive hs s.storage).1).mpr before
  | write _ faults i n entries level mine => exact SsTableWriter.writeOnce faults i n entries level before
  | drop i h found => exact before.dropHandle h
  | create faults name label seq all here =>
    exact (congrArg (fun active => (active.map Prod.fst).Nodup)
      (PersistentSnapshot.createActive faults name label all seq s.tree.config s.storage)).mpr before

theorem snapshots {st : Storage} (effect : Effect s a st) (sound : Sound s)
    (other : ∀ faults name label seq all, a = .foreground faults →
      s.foreground ≠ .saveCloned name label seq all) : st.snapshots = s.storage.snapshots := by
  cases effect with
  | clone _ hs => exact (Ledger.cloneActive hs s.storage).2
  | write _ faults i n entries level mine => exact SsTableWriter.writeSnapshots faults i n entries level _
  | drop i h found =>
    have live : h ∈ s.settled + ↑s.outputs := by
      simp only [State.settled, State.settledBase, Multiset.mem_add, Multiset.mem_coe]
      exact Or.inl (Or.inl (Or.inl (Or.inl (Or.inr (List.mem_of_getElem? found)))))
    unfold Storage.dropHandle
    dsimp only
    rw [sound.ledger.owns.inActive h live]
    split <;> rfl
  | create faults name label seq all here => exact absurd here (other faults name label seq all rfl)

theorem nothing : Effect s a s.storage := .clone a []

theorem of {α : Type} {out : α × Storage} {r : α} {st : Storage} (left : out = (r, st))
    (effect : Effect s a out.2) : Effect s a st := by
  rw [left] at effect
  exact effect

theorem merge {faults : Nat → Bool} {inputs : List SsTableHandle} {merge : Storage → Except Error Entries}
    {indices : List Nat} {n level : Nat} (mine : n ∈ s.allocated) :
    Effect s a (Compactor.mergeAndWrite faults inputs merge indices n level s.storage).2 := by
  rcases Compactor.mergeAndWriteWrites faults inputs merge indices n level s.storage with
    kept | ⟨i, all, -, wrote⟩
  · rw [kept]
    exact nothing
  · rw [wrote]
    exact .write a faults i n all level mine

end Effect

theorem Cycle.Moves.returned {faults : Nat → Bool} {s t : State} {c : Cycle} {p : Progress}
    (moved : Cycle.Moves faults s c p t) : t.returned = s.returned := by
  cases moved <;> rfl

theorem Cycle.Moves.effect {faults : Nat → Bool} {s t : State} {c : Cycle} {p : Progress} {a : Action}
    (moved : Cycle.Moves faults s c p t) (mine : ∀ n ∈ c.allocated, n ∈ s.allocated) :
    Effect s a t.storage := by
  cases moved with
  | nothing g none => exact .clone _ _
  | select g job selected => exact .clone _ _
  | number g snap job => exact .clone _ _
  | failed g snap job n runs e st failed =>
    exact Effect.of failed (Effect.merge (mine n (by simp [Cycle.allocated])))
  | merge g snap job n runs result st done =>
    exact Effect.of done (Effect.merge (mine n (by simp [Cycle.allocated])))
  | stale g snap job runs result changed => exact .nothing
  | writeBack g snap job runs result current => exact .nothing

namespace State.Moves
variable {s t : State} {a : Action}

theorem effect (moved : Moves s a t) : Effect s a t.storage := by
  have mineFront : ∀ {f : Foreground} {n}, s.foreground = f → n ∈ f.allocated → n ∈ s.allocated :=
    fun here member => List.mem_append_left _ (here ▸ member)
  have mineBack : ∀ {c : Cycle} {n}, s.background = some c → n ∈ c.allocated → n ∈ s.allocated :=
    fun here member => List.mem_append_right _ (by rw [here]; exact member)
  cases moved with
  | snapshot idle => exact .clone _ _
  | cloneSnapshot i snap found => exact .clone _ _
  | compactAllClone idle some => exact .clone _ _
  | saveClone faults name label here => exact .clone _ _
  | flushFailed faults old n after e st here failed =>
    exact Effect.of failed (.write _ faults 0 n old.data 0 (mineFront here (by simp [Foreground.allocated])))
  | flushWrite faults old n after h st here done =>
    exact Effect.of done (.write _ faults 0 n old.data 0 (mineFront here (by simp [Foreground.allocated])))
  | compacting t faults c c' here moved => exact moved.effect (fun n member => mineFront here member)
  | compacted t faults c r here moved => exact moved.effect (fun n member => mineFront here member)
  | compactAllFailed faults all n e st here failed =>
    exact Effect.of failed (Effect.merge (mineFront here (by simp [Foreground.allocated])))
  | compactAllMerge faults all n result st here done =>
    exact Effect.of done (Effect.merge (mineFront here (by simp [Foreground.allocated])))
  | saveCreate faults name label seq all r st here created =>
    exact Effect.of created (.create faults name label seq all here)
  | background t faults c c' here moved => exact moved.effect (fun n member => mineBack here member)
  | backgroundEnd t faults c r here moved => exact moved.effect (fun n member => mineBack here member)
  | collect i h found => exact .drop i h found
  | _ => exact .nothing

end State.Moves
end CardanoLsm
