import Mathlib.Data.Set.Insert
import Mathlib.Data.List.Infix

/-! Files under a loss of power. A directory entry that changed since the last sync of its
directory may come back as it was at any point since then, and a file that changed since
its own last sync may hold anything. An operation on an open file names the file, not the
path it was opened by. -/
namespace PowerLoss

variable {D N ι β : Type}

structure Volume (D N ι β : Type) where
  entry : D × N → Option ι
  past : D × N → List (Option ι)
  content : ι → List β
  synced : ι → Bool

inductive Op (D N ι β : Type) where
  | createNew (p : D × N) (i : ι)
  /-- Opening for writing truncates: `i` is the file that was there, if there was one. -/
  | create (p : D × N) (i : ι)
  | append (i : ι) (bytes : List β)
  | sync (i : ι)
  | rename (a b : D × N)
  | link (a b : D × N)
  | remove (p : D × N)
  | syncDir (d : D)

namespace Op

def touches : Op D N ι β → List (D × N)
  | createNew p _ | create p _ | remove p | link _ p => [p]
  | rename a b => [a, b]
  | append _ _ | sync _ | syncDir _ => []

def writes : Op D N ι β → List ι
  | createNew _ i | create _ i | append i _ => [i]
  | sync _ | rename _ _ | link _ _ | remove _ | syncDir _ => []

def concerns [DecidableEq D] [DecidableEq N] [DecidableEq ι] (p : D × N) (i : ι) : Op D N ι β → Bool
  | createNew q j | create q j => decide (q = p ∨ j = i)
  | append j _ | sync j => decide (j = i)
  | rename a b => decide (a = p ∨ b = p)
  | link _ q | remove q => decide (q = p)
  | syncDir _ => false

end Op

namespace Volume

def mayFind (v : Volume D N ι β) (p : D × N) (e : Option ι) : Prop := e = v.entry p ∨ e ∈ v.past p

def Only (v : Volume D N ι β) (p : D × N) (A : Option ι → Prop) : Prop := ∀ e, v.mayFind p e → A e

def Sealed (v : Volume D N ι β) (i : ι) (bytes : List β) : Prop := v.content i = bytes ∧ v.synced i = true

def read (v : Volume D N ι β) (p : D × N) : Option (List β) := (v.entry p).map v.content

structure Survives (v found : Volume D N ι β) : Prop where
  entries : ∀ p, v.mayFind p (found.entry p)
  contents : ∀ i, v.synced i = true → found.content i = v.content i

/-- A change that leaves the paths `S` and the files `I` alone; other directories and
files may be changed, and anything may be synced. -/
structure Rely (S : Set (D × N)) (I : Set ι) (v v' : Volume D N ι β) : Prop where
  entries : ∀ p ∈ S, v'.entry p = v.entry p ∧ ∀ e ∈ v'.past p, e ∈ v.past p
  contents : ∀ i ∈ I, v'.content i = v.content i ∧ (v.synced i = true → v'.synced i = true)

def put [DecidableEq D] [DecidableEq N] (v : Volume D N ι β) (p : D × N) (e : Option ι) : Volume D N ι β :=
  { v with entry := Function.update v.entry p e, past := Function.update v.past p (v.entry p :: v.past p) }

def store [DecidableEq ι] (v : Volume D N ι β) (i : ι) (bytes : List β) (synced : Bool) : Volume D N ι β :=
  { v with content := Function.update v.content i bytes, synced := Function.update v.synced i synced }

end Volume

def Op.apply [DecidableEq D] [DecidableEq N] [DecidableEq ι] :
    Op D N ι β → Volume D N ι β → Option (Volume D N ι β)
  | .createNew p i, v => if v.entry p = none then some ((v.put p (some i)).store i [] false) else none
  | .create p i, v =>
    if v.entry p = none then some ((v.put p (some i)).store i [] false)
    else if v.entry p = some i then some (v.store i [] false) else none
  | .append i bytes, v => some (v.store i (v.content i ++ bytes) false)
  | .sync i, v => some (v.store i (v.content i) true)
  | .rename a b, v => (v.entry a).map (fun i => (v.put a none).put b (some i))
  | .link a b, v => if v.entry b = none then (v.entry a).map (fun i => v.put b (some i)) else none
  | .remove p, v => (v.entry p).map (fun _ => v.put p none)
  | .syncDir d, v => some { v with past := fun p => if p.1 = d then [] else v.past p }

namespace Volume
variable {S S' : Set (D × N)} {I I' : Set ι} {v v' found : Volume D N ι β} {p : D × N} {i : ι}
  {A B : Option ι → Prop} {bytes : List β}

theorem Rely.refl (S : Set (D × N)) (I : Set ι) (v : Volume D N ι β) : Rely S I v v :=
  ⟨fun _ _ => ⟨rfl, fun _ member => member⟩, fun _ _ => ⟨rfl, id⟩⟩

theorem Rely.narrow (rely : Rely S I v v') (paths : S' ⊆ S) (files : I' ⊆ I) : Rely S' I' v v' :=
  ⟨fun p member => rely.entries p (paths member), fun i member => rely.contents i (files member)⟩

theorem Only.rely (only : v.Only p A) (inside : p ∈ S) (rely : Rely S I v v') : v'.Only p A := by
  obtain ⟨entry, past⟩ := rely.entries p inside
  intro e may
  rcases may with current | before
  · exact only e (Or.inl (current.trans entry))
  · exact only e (Or.inr (past e before))

theorem Sealed.rely (sealed_ : v.Sealed i bytes) (inside : i ∈ I) (rely : Rely S I v v') : v'.Sealed i bytes := by
  obtain ⟨content, synced⟩ := rely.contents i inside
  exact ⟨content.trans sealed_.1, synced sealed_.2⟩

theorem Only.weaken (only : v.Only p A) (weaker : ∀ e, A e → B e) : v.Only p B :=
  fun e may => weaker e (only e may)

theorem Only.same (only : v.Only p A) (entries : v'.entry = v.entry) (pasts : v'.past = v.past) : v'.Only p A := by
  intro e may
  unfold mayFind at may
  rw [entries, pasts] at may
  exact only e may

theorem Survives.path (survives : Survives v found) (only : v.Only p A) : A (found.entry p) :=
  only _ (survives.entries p)

theorem Survives.file (survives : Survives v found) (sealed_ : v.Sealed i bytes) : found.content i = bytes :=
  (survives.contents i sealed_.2).trans sealed_.1

theorem Rely.trans {v'' : Volume D N ι β} (first : Rely S I v v') (second : Rely S I v' v'') : Rely S I v v'' := by
  refine ⟨fun p inside => ?_, fun i inside => ?_⟩
  · obtain ⟨entry, past⟩ := first.entries p inside
    obtain ⟨entry', past'⟩ := second.entries p inside
    exact ⟨entry'.trans entry, fun e member => past e (past' e member)⟩
  · obtain ⟨content, synced⟩ := first.contents i inside
    obtain ⟨content', synced'⟩ := second.contents i inside
    exact ⟨content'.trans content, fun set => synced' (synced set)⟩

def lose [DecidableEq D] [DecidableEq N] (v : Volume D N ι β) (p : D × N) (e : Option ι) : Volume D N ι β :=
  { v with entry := Function.update v.entry p e }

def garble [DecidableEq ι] (v : Volume D N ι β) (i : ι) (bytes : List β) : Volume D N ι β :=
  { v with content := Function.update v.content i bytes }

theorem loseEntry [DecidableEq D] [DecidableEq N] (v : Volume D N ι β) (p : D × N) (e : Option ι) :
    (v.lose p e).entry p = e :=
  Function.update_self _ _ _

theorem Survives.refl (v : Volume D N ι β) : Survives v v := ⟨fun _ => Or.inl rfl, fun _ _ => rfl⟩

theorem Survives.lose [DecidableEq D] [DecidableEq N] (survives : Survives v found) {e : Option ι}
    (may : v.mayFind p e) : Survives v (found.lose p e) := by
  refine ⟨fun q => ?_, survives.contents⟩
  by_cases here : q = p
  · subst here
    rwa [loseEntry]
  · have same : (found.lose p e).entry q = found.entry q := Function.update_of_ne here _ _
    rw [same]
    exact survives.entries q

theorem Survives.garble [DecidableEq ι] (survives : Survives v found) (unsynced : v.synced i = false) (bytes : List β) :
    Survives v (found.garble i bytes) := by
  refine ⟨survives.entries, fun j closed => ?_⟩
  have other : j ≠ i := by
    rintro rfl
    rw [unsynced] at closed
    cases closed
  have same : (found.garble i bytes).content j = found.content j := Function.update_of_ne other _ _
  rw [same]
  exact survives.contents j closed

section Paths
variable [DecidableEq D] [DecidableEq N]

theorem putSelf (v : Volume D N ι β) (p : D × N) (e : Option ι) :
    (v.put p e).entry p = e ∧ (v.put p e).past p = v.entry p :: v.past p :=
  ⟨Function.update_self _ _ _, Function.update_self _ _ _⟩

theorem putOther {q : D × N} (other : q ≠ p) (v : Volume D N ι β) (e : Option ι) :
    (v.put p e).entry q = v.entry q ∧ (v.put p e).past q = v.past q :=
  ⟨Function.update_of_ne other _ _, Function.update_of_ne other _ _⟩

theorem Only.put (only : v.Only p A) {e : Option ι} (fits : A e) : (v.put p e).Only p A := by
  obtain ⟨entry, past⟩ := putSelf v p e
  intro e' may
  rcases may with current | before
  · rw [current, entry]
    exact fits
  · rw [past] at before
    rcases List.mem_cons.mp before with last | older
    · exact only e' (Or.inl last)
    · exact only e' (Or.inr older)

theorem relyPut (outside : p ∉ S) (v : Volume D N ι β) (e : Option ι) : Rely S I v (v.put p e) := by
  refine ⟨fun q inside => ?_, fun _ _ => ⟨rfl, id⟩⟩
  obtain ⟨entry, past⟩ := putOther (fun same : q = p => outside (same ▸ inside)) v e
  exact ⟨entry, fun _ member => past ▸ member⟩

end Paths

section Files
variable [DecidableEq ι]

theorem storeSelf (v : Volume D N ι β) (i : ι) (bytes : List β) (s : Bool) :
    (v.store i bytes s).content i = bytes ∧ (v.store i bytes s).synced i = s :=
  ⟨Function.update_self _ _ _, Function.update_self _ _ _⟩

theorem storeOther {j : ι} (other : j ≠ i) (v : Volume D N ι β) (bytes : List β) (s : Bool) :
    (v.store i bytes s).content j = v.content j ∧ (v.store i bytes s).synced j = v.synced j :=
  ⟨Function.update_of_ne other _ _, Function.update_of_ne other _ _⟩

theorem relyStore (outside : i ∉ I) (v : Volume D N ι β) (bytes : List β) (s : Bool) :
    Rely S I v (v.store i bytes s) := by
  refine ⟨fun _ _ => ⟨rfl, fun _ member => member⟩, fun j inside => ?_⟩
  obtain ⟨content, synced⟩ := storeOther (fun same : j = i => outside (same ▸ inside)) v bytes s
  exact ⟨content, fun set => synced.trans set⟩

end Files

section Operations
variable [DecidableEq D] [DecidableEq N] [DecidableEq ι]

theorem applyRely {op : Op D N ι β} (applied : op.apply v = some v') (paths : ∀ q ∈ op.touches, q ∉ S)
    (files : ∀ j ∈ op.writes, j ∉ I) : Rely S I v v' := by
  cases op with
  | createNew q j =>
    simp only [Op.apply, Option.ite_none_right_eq_some, Option.some.injEq] at applied
    obtain ⟨-, rfl⟩ := applied
    exact (relyPut (paths q (List.mem_singleton_self q)) v _).trans
      (relyStore (files j (List.mem_singleton_self j)) _ _ _)
  | create q j =>
    have outside := files j (List.mem_singleton_self j)
    simp only [Op.apply] at applied
    split at applied
    · cases applied
      exact (relyPut (paths q (List.mem_singleton_self q)) v _).trans (relyStore outside _ _ _)
    · split at applied
      · cases applied
        exact relyStore outside v _ _
      · cases applied
  | append j bytes =>
    cases applied
    exact relyStore (files j (List.mem_singleton_self j)) v _ _
  | sync j =>
    cases applied
    refine ⟨fun _ _ => ⟨rfl, fun _ member => member⟩, fun k _ => ?_⟩
    by_cases same : k = j
    · subst same
      obtain ⟨content, synced⟩ := storeSelf v k (v.content k) true
      exact ⟨content, fun _ => synced⟩
    · obtain ⟨content, synced⟩ := storeOther same v (v.content j) true
      exact ⟨content, fun set => synced.trans set⟩
  | rename a b =>
    obtain ⟨j, -, rfl⟩ := Option.map_eq_some_iff.mp applied
    exact (relyPut (paths a List.mem_cons_self) v _).trans
      (relyPut (paths b (List.mem_cons_of_mem a (List.mem_singleton_self b))) _ _)
  | link a b =>
    simp only [Op.apply, Option.ite_none_right_eq_some] at applied
    obtain ⟨j, -, rfl⟩ := Option.map_eq_some_iff.mp applied.2
    exact relyPut (paths b (List.mem_singleton_self b)) v _
  | remove q =>
    obtain ⟨j, -, rfl⟩ := Option.map_eq_some_iff.mp applied
    exact relyPut (paths q (List.mem_singleton_self q)) v _
  | syncDir d =>
    cases applied
    refine ⟨fun q _ => ⟨rfl, fun e member => ?_⟩, fun _ _ => ⟨rfl, id⟩⟩
    dsimp only at member
    split at member
    · cases member
    · exact member

theorem applyCreate (applied : (Op.create p i).apply v = some v') :
    v'.entry p = some i ∧ v'.content i = [] ∧ ∀ A, v.Only p A → A (some i) → v'.Only p A := by
  simp only [Op.apply] at applied
  split at applied
  · cases applied
    exact ⟨(putSelf v p (some i)).1, (storeSelf _ i [] false).1, fun A only fits => only.put fits⟩
  · split at applied
    · rename_i present
      cases applied
      exact ⟨present, (storeSelf v i [] false).1, fun A only _ => only⟩
    · cases applied

theorem applyCreateNew (applied : (Op.createNew p i).apply v = some v') : (Op.create p i).apply v = some v' := by
  simp only [Op.apply, Option.ite_none_right_eq_some] at applied ⊢
  rw [if_pos applied.1, applied.2]

theorem applyAppend {more : List β} (applied : (Op.append i more).apply v = some v') (content : v.content i = bytes) :
    v'.content i = bytes ++ more ∧ v'.entry = v.entry ∧ v'.past = v.past := by
  cases applied
  rw [(storeSelf v i _ false).1, content]
  exact ⟨rfl, rfl, rfl⟩

theorem applySync (applied : (Op.sync i).apply v = some v') (content : v.content i = bytes) :
    v'.Sealed i bytes ∧ v'.entry = v.entry ∧ v'.past = v.past := by
  cases applied
  obtain ⟨same, synced⟩ := storeSelf v i (v.content i) true
  exact ⟨⟨same.trans content, synced⟩, rfl, rfl⟩

theorem applyRename {a b : D × N} (apart : a ≠ b) (applied : (Op.rename a b).apply v = some v')
    (entry : v.entry a = some i) : v'.entry b = some i ∧ v'.entry a = none ∧ (∀ A, v.Only b A → A (some i) → v'.Only b A) ∧
      v'.content = v.content ∧ v'.synced = v.synced := by
  simp only [Op.apply, entry, Option.map_some, Option.some.injEq] at applied
  subst applied
  refine ⟨(putSelf _ b _).1, ?_, fun A only fits => Only.put (fun e may => ?_) fits, rfl, rfl⟩
  · rw [(putOther apart _ _).1, (putSelf v a none).1]
  · obtain ⟨entry, past⟩ := putOther (fun same : b = a => apart same.symm) v (none : Option ι)
    rw [mayFind, entry, past] at may
    exact only e may

theorem applyLink {a b : D × N} (applied : (Op.link a b).apply v = some v') : v'.entry b = v.entry a := by
  simp only [Op.apply, Option.ite_none_right_eq_some] at applied
  obtain ⟨-, linked⟩ := applied
  obtain ⟨j, entry, rfl⟩ := Option.map_eq_some_iff.mp linked
  rw [(putSelf v b (some j)).1, entry]

theorem applySyncDir {d : D} (applied : (Op.syncDir d).apply v = some v') (inside : p.1 = d) :
    v'.entry = v.entry ∧ v'.Only p (fun e => e = v.entry p) := by
  cases applied
  refine ⟨rfl, fun e may => ?_⟩
  rcases may with current | before
  · exact current
  · simp only [inside, if_true, List.not_mem_nil] at before

end Operations
end Volume

section Scripts
variable [DecidableEq D] [DecidableEq N] [DecidableEq ι] {S S' : Set (D × N)} {I I' : Set ι}
  {ops first second : List (Op D N ι β)} {v w : Volume D N ι β}

inductive Runs (S : Set (D × N)) (I : Set ι) :
    List (Op D N ι β) → Volume D N ι β → Volume D N ι β → Prop where
  | done (v : Volume D N ι β) : Runs S I [] v v
  | own {op : Op D N ι β} {ops : List (Op D N ι β)} {v v' w : Volume D N ι β} (applied : op.apply v = some v')
      (later : Runs S I ops v' w) : Runs S I (op :: ops) v w
  | other {ops : List (Op D N ι β)} {v v' w : Volume D N ι β} (rely : v.Rely S I v')
      (later : Runs S I ops v' w) : Runs S I ops v w

def execute (ops : List (Op D N ι β)) (v : Volume D N ι β) : Option (Volume D N ι β) :=
  ops.foldlM (fun v op => op.apply v) v

namespace Runs

theorem executed (S : Set (D × N)) (I : Set ι) (ran : execute ops v = some w) : Runs S I ops v w := by
  induction ops generalizing v with
  | nil =>
    cases ran
    exact .done _
  | cons op rest ih =>
    obtain ⟨v', applied, later⟩ := Option.bind_eq_some_iff.mp ran
    exact .own applied (ih later)

theorem split (run : Runs S I (first ++ second) v w) : ∃ u, Runs S I first v u ∧ Runs S I second u w := by
  generalize whole : first ++ second = ops at run
  induction run generalizing first with
  | done v =>
    obtain ⟨rfl, rfl⟩ := List.append_eq_nil_iff.mp whole
    exact ⟨v, .done v, .done v⟩
  | @own op ops v v' w applied later ih =>
    cases first with
    | nil =>
      rw [List.nil_append] at whole
      exact ⟨v, .done v, whole ▸ .own applied later⟩
    | cons op' rest =>
      obtain ⟨rfl, tail⟩ := List.cons.inj whole
      obtain ⟨u, before, after⟩ := ih tail
      exact ⟨u, .own applied before, after⟩
  | other rely later ih =>
    obtain ⟨u, before, after⟩ := ih whole
    exact ⟨u, .other rely before, after⟩

theorem keeps {P : Volume D N ι β → Prop} (run : Runs S I ops v w)
    (others : ∀ u u', Volume.Rely S I u u' → P u → P u')
    (own : ∀ op ∈ ops, ∀ u u', op.apply u = some u' → P u → P u') (start : P v) : P w := by
  induction run with
  | done => exact start
  | own applied later ih =>
    exact ih (fun op member => own op (List.mem_cons_of_mem _ member)) (own _ List.mem_cons_self _ _ applied start)
  | other rely later ih => exact ih own (others _ _ rely start)

theorem narrow {τ : Type} {trace : List τ} {g : τ → Op D N ι β} (run : Runs S I (trace.map g) v w) (paths : S' ⊆ S)
    (files : I' ⊆ I) (keep : τ → Bool)
    (avoid : ∀ x ∈ trace, keep x = false → (∀ p ∈ (g x).touches, p ∉ S') ∧ ∀ i ∈ (g x).writes, i ∉ I') :
    Runs S' I' ((trace.filter keep).map g) v w := by
  generalize whole : trace.map g = ops at run
  induction run generalizing trace with
  | done v =>
    rw [List.map_eq_nil_iff.mp whole]
    exact .done v
  | @own op ops v v' w applied later ih =>
    obtain ⟨x, rest, rfl, rfl, rfl⟩ := List.map_eq_cons_iff.mp whole
    have narrowed := ih (fun x' member => avoid x' (List.mem_cons_of_mem x member)) rfl
    cases kept : keep x with
    | true =>
      rw [List.filter_cons_of_pos kept, List.map_cons]
      exact .own applied narrowed
    | false =>
      rw [List.filter_cons_of_neg (by rw [kept]; decide)]
      obtain ⟨others, foreign⟩ := avoid x List.mem_cons_self kept
      exact .other (Volume.applyRely applied others foreign) narrowed
  | other rely later ih => exact .other (rely.narrow paths files) (ih avoid whole)

theorem untouched {p : D × N} {A : Option ι → Prop} (run : Runs S I ops v w) (path : p ∈ S)
    (quiet : ∀ op ∈ ops, p ∉ op.touches) (only : v.Only p A) : w.Only p A := by
  refine run.keeps (P := fun u => u.Only p A) (fun u u' rely only => only.rely path rely) ?_ only
  intro op member u u' applied only
  have rely : Volume.Rely {p} ∅ u u' := Volume.applyRely applied
    (fun q touched same => quiet op member (Set.mem_singleton_iff.mp same ▸ touched)) (fun _ _ none => none)
  exact only.rely (Set.mem_singleton p) rely

theorem untouchedEntry {p : D × N} (run : Runs S I ops v w) (path : p ∈ S) (quiet : ∀ op ∈ ops, p ∉ op.touches) :
    w.entry p = v.entry p := by
  refine run.keeps (P := fun u => u.entry p = v.entry p)
    (fun u u' rely same => (rely.entries p path).1.trans same) ?_ rfl
  intro op member u u' applied same
  have rely : Volume.Rely {p} ∅ u u' := Volume.applyRely applied
    (fun q touched same => quiet op member (Set.mem_singleton_iff.mp same ▸ touched)) (fun _ _ none => none)
  exact (rely.entries p (Set.mem_singleton p)).1.trans same

theorem unwritten {i : ι} {bytes : List β} (run : Runs S I ops v w) (inside : i ∈ I)
    (quiet : ∀ op ∈ ops, i ∉ op.writes) (closed : v.Sealed i bytes) : w.Sealed i bytes := by
  refine run.keeps (P := fun u => u.Sealed i bytes) (fun u u' rely closed => closed.rely inside rely) ?_ closed
  intro op member u u' applied closed
  have rely : Volume.Rely ∅ {i} u u' := Volume.applyRely applied (fun _ _ none => none)
    (fun j written same => quiet op member (Set.mem_singleton_iff.mp same ▸ written))
  exact closed.rely (Set.mem_singleton i) rely

theorem idle (run : Runs S I [] v w) : v.Rely S I w := by
  generalize none : ([] : List (Op D N ι β)) = ops at run
  induction run with
  | done v => exact .refl S I v
  | own applied later ih => cases none
  | other rely later ih => exact rely.trans (ih none)

theorem head {op : Op D N ι β} (run : Runs S I (op :: ops) v w) :
    ∃ u u', v.Rely S I u ∧ op.apply u = some u' ∧ Runs S I ops u' w := by
  generalize whole : op :: ops = all at run
  induction run with
  | done => cases whole
  | @own op' rest v v' w applied later ih =>
    obtain ⟨rfl, rfl⟩ := List.cons.inj whole
    exact ⟨v, v', .refl S I v, applied, later⟩
  | other rely later ih =>
    obtain ⟨u, u', before, applied, after⟩ := ih whole
    exact ⟨u, u', rely.trans before, applied, after⟩

theorem file {p : D × N} {i : ι} (run : Runs S I ops v w) (path : p ∈ S) (inside : i ∈ I) :
    Runs {p} {i} (ops.filter (Op.concerns p i)) v w := by
  rw [← List.map_id ops] at run
  rw [← List.map_id (ops.filter _)]
  refine run.narrow (Set.singleton_subset_iff.mpr path) (Set.singleton_subset_iff.mpr inside) _ ?_
  intro op _ unconcerned
  cases op <;>
    simp only [Op.concerns, decide_eq_false_iff_not, not_or] at unconcerned <;>
    simp [Op.touches, Op.writes, unconcerned]

theorem appends {p : D × N} {i : ι} {chunks : List (List β)} {bytes : List β} {A : Option ι → Prop}
    (run : Runs S I (chunks.map (Op.append i)) v w) (path : p ∈ S) (inside : i ∈ I) (entry : v.entry p = some i)
    (content : v.content i = bytes) (only : v.Only p A) :
    w.entry p = some i ∧ w.content i = bytes ++ chunks.flatten ∧ w.Only p A := by
  induction chunks generalizing v bytes with
  | nil =>
    have idle := run.idle
    rw [List.flatten_nil, List.append_nil]
    exact ⟨(idle.entries p path).1.trans entry, (idle.contents i inside).1.trans content, only.rely path idle⟩
  | cons chunk rest ih =>
    obtain ⟨u, u', before, applied, later⟩ := run.head
    obtain ⟨appended, entries, pasts⟩ := Volume.applyAppend applied ((before.contents i inside).1.trans content)
    have kept : u'.Only p A := (only.rely path before).same entries pasts
    have present : u'.entry p = some i := by rw [entries, (before.entries p path).1, entry]
    rw [List.flatten_cons, ← List.append_assoc]
    exact ih later present appended kept

theorem written {p : D × N} {i : ι} {op : Op D N ι β} {chunks : List (List β)} {A : Option ι → Prop}
    (opening : ∀ u u', op.apply u = some u' → (Op.create p i).apply u = some u')
    (run : Runs S I (op :: (chunks.map (Op.append i) ++ [Op.sync i])) v w) (path : p ∈ S) (inside : i ∈ I)
    (only : v.Only p A) (fits : A (some i)) :
    w.entry p = some i ∧ w.Sealed i chunks.flatten ∧ w.Only p A := by
  obtain ⟨u, u', before, applied, later⟩ := run.head
  obtain ⟨entry, empty, stays⟩ := Volume.applyCreate (opening _ _ applied)
  obtain ⟨x, middle, last⟩ := later.split
  obtain ⟨entry, content, only⟩ := middle.appends path inside entry empty (stays A (only.rely path before) fits)
  obtain ⟨y, y', before, applied, idle⟩ := last.head
  obtain ⟨closed, entries, pasts⟩ := Volume.applySync applied ((before.contents i inside).1.trans content)
  have after := idle.idle
  have kept : y'.Only p A := (only.rely path before).same entries pasts
  rw [List.nil_append] at closed
  refine ⟨?_, closed.rely inside after, kept.rely path after⟩
  rw [(after.entries p path).1, entries, (before.entries p path).1, entry]

end Runs

theorem prefixCases {α : Type} {done first rest : List α} (reached : done <+: first ++ rest) :
    done <+: first ∨ ∃ more, more <+: rest ∧ done = first ++ more := by
  induction first generalizing done with
  | nil => exact Or.inr ⟨done, reached, rfl⟩
  | cons y first ih =>
    rcases List.prefix_cons_iff.mp reached with rfl | ⟨more, rfl, later⟩
    · exact Or.inl List.nil_prefix
    · rcases ih later with early | ⟨more', tail, rfl⟩
      · exact Or.inl ((List.prefix_cons_inj y).mpr early)
      · exact Or.inr ⟨more', tail, rfl⟩

theorem beforeOrAfter {α : Type} {done first rest : List α} {x : α} (reached : done <+: first ++ x :: rest) :
    done <+: first ∨ ∃ more, more <+: rest ∧ done = first ++ x :: more := by
  rcases prefixCases reached with early | ⟨more, later, rfl⟩
  · exact Or.inl early
  · rcases List.prefix_cons_iff.mp later with rfl | ⟨tail, rfl, inside⟩
    · exact Or.inl (by rw [List.append_nil])
    · exact Or.inr ⟨tail, inside, rfl⟩

end Scripts

end PowerLoss
