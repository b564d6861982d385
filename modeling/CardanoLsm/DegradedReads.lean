import CardanoLsm.Ranges

/-! Range queries of which some runs cannot be read (`lib.rs`): the loop reports a failing
run and goes on with the older ones. -/
namespace CardanoLsm
open Std Layered

def LsmTree.rangeFailing (t : LsmTree) (st : Storage) (failing : SsTableHandle → Bool) (lo hi : Key) :
    List (Key × Value) :=
  t.rangeFrom (fun h => if failing h then .error (.io (.read .keyops)) else st.rangeWithTombstones h lo hi) lo hi

/-- Of the runs, newest first, the first that holds the key cannot be read and holds something
else than the first one below that can be read, which holds a value. -/
structure Uncovered (st : Storage) (failing : SsTableHandle → Bool) (k : Key) (runs newer older : List SsTableHandle)
    (h : SsTableHandle) (v : Value) : Prop where
  order : runs = newer ++ h :: older
  newest : ∀ x ∈ newer, (st.contents x)[k]? = none
  failed : failing h = true
  held : ∃ e, (st.contents h)[k]? = some e ∧ e ≠ some v
  shown : (older.filter (fun x => !failing x)).findSome? (fun x => (st.contents x)[k]?) = some (some v)

section Reads
variable {st : Storage} {failing : SsTableHandle → Bool}

theorem readsFailing (st : Storage) (failing : SsTableHandle → Bool) (lo hi : Key) :
    ReadsAs (fun h => if failing h then .error (.io (.read .keyops)) else st.rangeWithTombstones h lo hi) lo hi
      (fun h => if failing h then ∅ else st.contents h) := by
  intro h
  by_cases failed : failing h = true
  · have nothing : (∅ : Entries).toList = [] := ExtTreeMap.toList_eq_nil_iff.mpr rfl
    simp only [failed, if_true, nothing, List.filter_nil]
    rfl
  · simpa [failed] using readsStorage st lo hi h

theorem skipFailing (runs : List SsTableHandle) (k : Key) :
    resolve (runs.map (fun h => if failing h then ∅ else st.contents h)) k =
      (runs.filter (fun h => !failing h)).findSome? (fun h => (st.contents h)[k]?) := by
  induction runs with
  | nil => rfl
  | cons h rest ih =>
    rw [resolve] at ih ⊢
    by_cases failed : failing h = true
    · rw [List.filter_cons_of_neg (by simp [failed]), ← ih]
      simp [failed]
    · rw [List.filter_cons_of_pos (by simp [failed]), List.map_cons, if_neg failed, List.findSome?_cons,
        List.findSome?_cons, ih]

theorem rangeFailingHolds {t : LsmTree} {lo hi k : Key} {v : Value} :
    (k, v) ∈ t.rangeFailing st failing lo hi ↔ inRange lo hi k = true ∧
      (resolve (memLayers t.memtable t.immutableMemtables) k).or
        (((rangeOrder t.levels).filter (fun h => !failing h)).findSome? (fun h => (st.contents h)[k]?)) =
          some (some v) := by
  rw [LsmTree.rangeFailing, t.rangeFromSources (readsFailing st failing lo hi), listingMem, stackUpGet,
    List.reverse_reverse, ExtTreeMap.getElem?_empty, Option.or_none, resolveAppend, skipFailing]
  by_cases inside : inRange lo hi k = true
  · simp [inside]
  · simp [inside]

theorem Uncovered.cons {k : Key} {runs newer older : List SsTableHandle} {h x : SsTableHandle} {v : Value}
    (absent : (st.contents x)[k]? = none) (found : Uncovered st failing k runs newer older h v) :
    Uncovered st failing k (x :: runs) (x :: newer) older h v where
  order := by rw [found.order, List.cons_append]
  newest y member := by
    rcases List.mem_cons.mp member with rfl | old
    · exact absent
    · exact found.newest y old
  failed := found.failed
  held := found.held
  shown := found.shown

theorem Uncovered.differs {k : Key} {runs newer older : List SsTableHandle} {h : SsTableHandle} {v : Value}
    (found : Uncovered st failing k runs newer older h v) :
    (runs.filter (fun x => !failing x)).findSome? (fun x => (st.contents x)[k]?) = some (some v) ∧
      runs.findSome? (fun x => (st.contents x)[k]?) ≠ some (some v) := by
  obtain ⟨e, held, other⟩ := found.held
  have before : newer.findSome? (fun x => (st.contents x)[k]?) = none :=
    List.findSome?_eq_none_iff.mpr found.newest
  have readable : (newer.filter (fun x => !failing x)).findSome? (fun x => (st.contents x)[k]?) = none :=
    List.findSome?_eq_none_iff.mpr (fun x member => found.newest x (List.mem_of_mem_filter member))
  constructor
  · rw [found.order, List.filter_append, List.findSome?_append, readable, Option.none_or,
      List.filter_cons_of_neg (by simp [found.failed]), found.shown]
  · rw [found.order, List.findSome?_append, before, Option.none_or, List.findSome?_cons, held]
    exact fun same => other (Option.some.inj same)

theorem uncoveredOf {runs : List SsTableHandle} {k : Key} {v : Value}
    (shown : (runs.filter (fun h => !failing h)).findSome? (fun h => (st.contents h)[k]?) = some (some v))
    (other : runs.findSome? (fun h => (st.contents h)[k]?) ≠ some (some v)) :
    ∃ newer h older, Uncovered st failing k runs newer older h v := by
  induction runs with
  | nil => cases shown
  | cons h rest ih =>
    rw [List.findSome?_cons] at other
    cases held : (st.contents h)[k]? with
    | none =>
      -- the run says nothing of the key, whether or not it can be read
      rw [held] at other
      have below : (rest.filter (fun h => !failing h)).findSome? (fun h => (st.contents h)[k]?) =
          some (some v) := by
        by_cases failed : failing h = true
        · rwa [List.filter_cons_of_neg (by simp [failed])] at shown
        · rwa [List.filter_cons_of_pos (by simp [failed]), List.findSome?_cons, held] at shown
      obtain ⟨newer, x, older, found⟩ := ih below other
      exact ⟨h :: newer, x, older, found.cons held⟩
    | some e =>
      rw [held] at other
      by_cases failed : failing h = true
      · rw [List.filter_cons_of_neg (by simp [failed])] at shown
        exact ⟨[], h, rest, rfl, fun _ member => absurd member List.not_mem_nil, failed,
          ⟨e, held, fun same => other (congrArg some same)⟩, shown⟩
      · rw [List.filter_cons_of_pos (by simp [failed]), List.findSome?_cons, held] at shown
        exact absurd shown other

end Reads

theorem degradedRange (t : LsmTree) (st : Storage) (failing : SsTableHandle → Bool) (lo hi : Key) :
    (∀ e ∈ t.rangeFailing st failing lo hi, e ∈ t.range st lo hi) ↔
      ∀ k v newer h older, inRange lo hi k = true →
        resolve (memLayers t.memtable t.immutableMemtables) k = none →
          ¬ Uncovered st failing k (rangeOrder t.levels) newer older h v := by
  have whole : ∀ k, resolve (t.sources st) k = (resolve (memLayers t.memtable t.immutableMemtables) k).or
      ((rangeOrder t.levels).findSome? (fun h => (st.contents h)[k]?)) := fun k => by
    rw [LsmTree.sources, resolveAppend, resolve, resolve, List.findSome?_map]
    rfl
  constructor
  · intro kept k v newer h older inside free found
    obtain ⟨shown, other⟩ := found.differs
    have listed : (k, v) ∈ t.rangeFailing st failing lo hi := by
      rw [rangeFailingHolds, free, Option.none_or]
      exact ⟨inside, shown⟩
    have full := (LsmTree.rangeHolds.mp (kept _ listed)).2
    rw [whole, free, Option.none_or] at full
    exact other full
  · rintro covered ⟨k, v⟩ listed
    obtain ⟨inside, shown⟩ := rangeFailingHolds.mp listed
    rw [LsmTree.rangeHolds, whole]
    refine ⟨inside, ?_⟩
    cases buffered : resolve (memLayers t.memtable t.immutableMemtables) k with
    | some e =>
      rw [buffered, Option.some_or] at shown
      rwa [Option.some_or]
    | none =>
      rw [buffered, Option.none_or] at shown
      rw [Option.none_or]
      by_contra other
      obtain ⟨newer, h, older, found⟩ := uncoveredOf shown other
      exact covered k v newer h older inside buffered found

theorem degradedResurrects : ∃ s failing,
    Trace.Run State.step (fun _ _ => True) (.fresh ⟨1, 4⟩) overwrittenScript s ∧
      s.tree.levels.flatten.map failing = [false, true] ∧
      s.tree.range s.storage [1] [1] = [([1], [20])] ∧
      s.tree.rangeFailing s.storage failing [1] [1] = [([1], [10])] ∧
      ¬ ∀ e ∈ s.tree.rangeFailing s.storage failing [1] [1], e ∈ s.tree.range s.storage [1] [1] := by
  have ended : (Trace.execWhile State.step (fun _ _ => true) (.fresh ⟨1, 4⟩) overwrittenScript).any
      (fun s => decide (s.tree.levels.flatten.map (fun h => decide (h.runNumber = 2)) = [false, true] ∧
        s.tree.range s.storage [1] [1] = [([1], [20])] ∧
        s.tree.rangeFailing s.storage (fun h => decide (h.runNumber = 2)) [1] [1] = [([1], [10])])) = true := by
    decide +kernel
  obtain ⟨s, ran, tested⟩ := Trace.runTo (fun _ _ _ _ => trivial) ended
  obtain ⟨failed, full, degraded⟩ := of_decide_eq_true tested
  refine ⟨s, fun h => decide (h.runNumber = 2), ran, failed, full, degraded, fun kept => ?_⟩
  rw [full, degraded] at kept
  exact absurd (kept ([1], [10]) List.mem_cons_self) (by decide)

end CardanoLsm
