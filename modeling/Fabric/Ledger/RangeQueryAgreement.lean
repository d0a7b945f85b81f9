import Fabric.Ledger.QueryExecutor
import Fabric.Ledger.HashValidation

/-
  Agreement of simulation and validation for a range query
  (`query_executor.go`: `resultsItr`, `addRangeQueryInfo`; `validator.validateRangeQuery`).

  The simulator pulls `k` results from a range scan of the committed state and records a
  `RangeQueryInfo`; validation re-reads the range through the combined iterator over the same
  state and no pending updates, including the recorded end key when the scan was not
  exhausted, and compares. Both sides see a result only through its read, the key and the
  version (`VersionedKV.kvRead`).

  Proved here: for every `k ≥ 1` the recorded info validates (`validateRangeQuery_after_next`),
  raw or hashed, whether the scan ran out or not, for a state without the empty key. For
  `k = 0` the info keeps the zero `EndKey` `""`, which validation reads as no upper bound
  together with the end key served: a range that holds any key from `StartKey` on then fails
  validation (`validateRangeQuery_unread_iterator`).
-/

namespace Fabric.Ledger

open MerkleTree

variable {κ : Type}

/-- The read a result stands for: its key and version (`rwsetutil.NewKVRead`). -/
def VersionedKV.kvRead (r : VersionedKV κ) : KVRead κ := newKVRead r.key r.vv.version

/-! ## What the results helper keeps of a result -/

section Helper

variable (hashFunc : Bytes → Bytes) (serializeKVReads : List (KVRead κ) → Bytes)

/-- The helper sees a result only through its read. -/
theorem addResults_congr (helper : RangeQueryResultsHelper κ) {R₁ R₂ : List (VersionedKV κ)}
    (h : R₁.map VersionedKV.kvRead = R₂.map VersionedKV.kvRead) :
    addResults hashFunc serializeKVReads helper R₁ = addResults hashFunc serializeKVReads helper R₂ := by
  induction R₁ generalizing R₂ helper with
  | nil =>
    rw [List.map_nil, eq_comm, List.map_eq_nil_iff] at h
    rw [h]
  | cons r R₁ ih =>
    cases R₂ with
    | nil => simp at h
    | cons r' R₂ =>
      rw [List.map_cons, List.map_cons, List.cons.injEq] at h
      have hr : newKVRead r.key r.vv.version = newKVRead r'.key r'.vv.version := h.1
      rw [addResults_cons, addResults_cons, hr]
      exact ih _ h.2

theorem addResult_eq {helper : RangeQueryResultsHelper κ} {mt : MerkleTree}
    (hmt : helper.mt = some mt) (r : KVRead κ) :
    helper.addResult hashFunc serializeKVReads r =
      if helper.pendingResults.length + 1 > helper.maxDegree then
        ⟨[], some (mt.update hashFunc (hashFunc (serializeKVReads (helper.pendingResults ++ [r])))),
          helper.maxDegree⟩
      else ⟨helper.pendingResults ++ [r], some mt, helper.maxDegree⟩ := by
  simp only [RangeQueryResultsHelper.addResult, hmt, List.length_append, List.length_singleton,
    RangeQueryResultsHelper.processPendingResults]

/-- While its tree is still empty, the helper has only queued the reads. -/
theorem addResults_of_isEmpty {helper : RangeQueryResultsHelper κ} {mt : MerkleTree}
    (hmt : helper.mt = some mt) (hwf : mt.WF) (R : List (VersionedKV κ)) {mt' : MerkleTree}
    (hmt' : (addResults hashFunc serializeKVReads helper R).mt = some mt')
    (hempty : mt'.isEmpty = true) :
    mt' = mt ∧ (addResults hashFunc serializeKVReads helper R).pendingResults =
      helper.pendingResults ++ R.map VersionedKV.kvRead := by
  induction R generalizing helper mt with
  | nil =>
    rw [addResults_nil, hmt, Option.some.injEq] at hmt'
    exact ⟨hmt'.symm, by simp⟩
  | cons r R ih =>
    rw [addResults_cons, addResult_eq hashFunc serializeKVReads hmt] at hmt' ⊢
    by_cases hc : helper.pendingResults.length + 1 > helper.maxDegree
    · -- a leaf was hashed: the tree is no longer empty, and stays so
      rw [if_pos hc] at hmt'
      have hwf' := wf_update hashFunc hwf (hashFunc (serializeKVReads
        (helper.pendingResults ++ [newKVRead r.key r.vv.version])))
      obtain ⟨rfl, -⟩ := ih rfl hwf' hmt'
      rw [update_isEmpty hashFunc hwf] at hempty
      cases hempty
    · rw [if_neg hc] at hmt' ⊢
      obtain ⟨rfl, hpend⟩ := ih rfl hwf hmt'
      refine ⟨rfl, ?_⟩
      rw [hpend]
      simp [VersionedKV.kvRead]

/-- The helper's tree stays well formed and keeps its degree. -/
theorem addResults_mt {helper : RangeQueryResultsHelper κ} {mt : MerkleTree}
    (hmt : helper.mt = some mt) (hwf : mt.WF) (R : List (VersionedKV κ)) :
    ∃ mt', (addResults hashFunc serializeKVReads helper R).mt = some mt' ∧ mt'.WF ∧
      mt'.maxDegree = mt.maxDegree := by
  induction R generalizing helper mt with
  | nil => exact ⟨mt, hmt, hwf, rfl⟩
  | cons r R ih =>
    obtain ⟨mt₁, hmt₁, hsteps⟩ := RangeQueryResultsHelper.addResult_mt hashFunc serializeKVReads
      hmt (newKVRead r.key r.vv.version)
    obtain ⟨mt', hmt', hwf', hdeg⟩ := ih hmt₁ (hsteps.wf hashFunc hwf)
    exact ⟨mt', hmt', hwf', hdeg.trans (hsteps.maxDegree hashFunc)⟩

/-- The summary a helper of degree `d` builds records the degree `d`. -/
theorem resultsSummary_maxDegree {d : Nat} {R : List (VersionedKV κ)}
    {s : QueryReadsMerkleSummary} (h : resultsSummary hashFunc serializeKVReads d R = some s) :
    s.maxDegree = d := by
  unfold resultsSummary at h
  by_cases hd : 2 ≤ d
  · rw [newRangeQueryResultsHelper_hashing hd] at h
    have hwf : (⟨[], 1, d, hd⟩ : MerkleTree).WF :=
      wf_newMerkleTree (d := d) (by simp [newMerkleTree, hd])
    have hmt : (⟨[], some ⟨[], 1, d, hd⟩, d⟩ : RangeQueryResultsHelper κ).mt =
        some ⟨[], 1, d, hd⟩ := rfl
    obtain ⟨mt', hmt', -, hdeg⟩ := addResults_mt hashFunc serializeKVReads hmt hwf R
    obtain ⟨mt'', hsteps, rfl⟩ := RangeQueryResultsHelper.done_summary hashFunc serializeKVReads
      hmt' h
    calc (mt''.done hashFunc).getSummery.maxDegree = mt''.maxDegree := done_maxDegree hashFunc mt''
      _ = mt'.maxDegree := hsteps.maxDegree hashFunc
      _ = d := hdeg
  · simp [newRangeQueryResultsHelper, newMerkleTree, hd, Except.map] at h

/-- `Done` returns no summary only for an empty tree, and then the queued reads. -/
theorem done_of_snd_eq_none {helper : RangeQueryResultsHelper κ} {mt : MerkleTree}
    (hmt : helper.mt = some mt) (h : (helper.done hashFunc serializeKVReads).2 = none) :
    mt.isEmpty = true ∧ (helper.done hashFunc serializeKVReads).1 = helper.pendingResults := by
  unfold RangeQueryResultsHelper.done at h ⊢
  simp only [hmt] at h ⊢
  by_cases hempty : mt.isEmpty = true
  · simp [hempty]
  · simp only [hempty, Bool.false_eq_true, if_false] at h
    split_ifs at h

theorem resultsSummary_congr {d : Nat} {R₁ R₂ : List (VersionedKV κ)}
    (h : R₁.map VersionedKV.kvRead = R₂.map VersionedKV.kvRead) :
    resultsSummary hashFunc serializeKVReads d R₁ = resultsSummary hashFunc serializeKVReads d R₂ := by
  unfold resultsSummary
  split
  · rw [addResults_congr hashFunc serializeKVReads _ h]
  · rfl

end Helper

/-! ## The raw validator on its own reads -/

/-- The raw validator accepts results against their own reads. -/
theorem rawValidateLoop_kvRead [DecidableEq κ] (R : List (VersionedKV κ)) :
    rawValidateLoop (R.map VersionedKV.kvRead) R.head? R.tail = .ok true := by
  induction R with
  | nil => rfl
  | cons r R ih =>
    simp [rawValidateLoop, VersionedKV.kvRead, newKVRead, convertToVersionHeight, newHeight, ih]

theorem rangeQueryResultsValidate_kvRead [DecidableEq κ] (R : List (VersionedKV κ)) :
    rangeQueryResultsValidate (R.map VersionedKV.kvRead) R = .ok true := by
  cases R with
  | nil => rfl
  | cons r R =>
    simp only [rangeQueryResultsValidate, List.map_cons, List.length_cons]
    exact rawValidateLoop_kvRead (r :: R)

/-! ## The simulator -/

section Simulation

variable (hashFunc : Bytes → Bytes) (serializeKVReads : List (KVRead κ) → Bytes)

/-- The simulator's iterator after `k` calls of `Next`. -/
def ResultsItr.nextN : Nat → ResultsItr κ → ResultsItr κ
  | 0, itr => itr
  | k + 1, itr => ResultsItr.nextN k (itr.next hashFunc serializeKVReads).2

theorem nextN_ns (k : Nat) (itr : ResultsItr κ) :
    (itr.nextN hashFunc serializeKVReads k).ns = itr.ns := by
  induction k generalizing itr with
  | zero => rfl
  | succ k ih =>
    rw [ResultsItr.nextN, ih]
    simp only [ResultsItr.next]
    cases itr.dbItr.head? <;> rfl

theorem nextN_helper (k : Nat) (itr : ResultsItr κ) :
    (itr.nextN hashFunc serializeKVReads k).rangeQueryResultsHelper =
      addResults hashFunc serializeKVReads itr.rangeQueryResultsHelper (itr.dbItr.take k) := by
  induction k generalizing itr with
  | zero => rfl
  | succ k ih =>
    rw [ResultsItr.nextN, ih]
    cases h : itr.dbItr with
    | nil => simp [ResultsItr.next, ResultsItr.updateRangeQueryInfo, h]
    | cons r rest => simp [ResultsItr.next, ResultsItr.updateRangeQueryInfo, h]

/-- What the range query info records after `k` calls: the key of the last result returned,
    or, once the scan ran out, the caller's end key with the iterator marked exhausted. -/
theorem nextN_rangeQueryInfo (k : Nat) (itr : ResultsItr κ) :
    (itr.nextN hashFunc serializeKVReads k).rangeQueryInfo =
      if itr.dbItr.length < k then
        { itr.rangeQueryInfo with itrExhausted := true, endKey := itr.endKey }
      else
        { itr.rangeQueryInfo with
          endKey := (((itr.dbItr.take k).getLast?).map (·.key)).getD itr.rangeQueryInfo.endKey } := by
  induction k generalizing itr with
  | zero => simp [ResultsItr.nextN]
  | succ k ih =>
    rw [ResultsItr.nextN, ih]
    cases h : itr.dbItr with
    | nil => simp [ResultsItr.next, ResultsItr.updateRangeQueryInfo, h]
    | cons r rest =>
      simp [ResultsItr.next, ResultsItr.updateRangeQueryInfo, h, List.getLast?_cons]

/-- What `addRangeQueryInfo` records for an iterator whose helper has seen `seen`: its range
    bookkeeping, and either the summary of `seen` or the reads of `seen` themselves. -/
theorem addRangeQueryInfo_single (itr : ResultsItr κ)
    (hnone : itr.rangeQueryInfo.readsInfo = .none) (seen : List (VersionedKV κ)) {d : Nat}
    (hd : 2 ≤ d) (hhelper : itr.rangeQueryResultsHelper =
      addResults hashFunc serializeKVReads ⟨[], some ⟨[], 1, d, hd⟩, d⟩ seen) :
    ∃ rqi, addRangeQueryInfo hashFunc serializeKVReads true [itr] = [(itr.ns, rqi)] ∧
      rqi.startKey = itr.rangeQueryInfo.startKey ∧ rqi.endKey = itr.rangeQueryInfo.endKey ∧
      rqi.itrExhausted = itr.rangeQueryInfo.itrExhausted ∧
      ((∃ s, rqi.readsMerkleHashes = some s ∧
          resultsSummary hashFunc serializeKVReads d seen = some s) ∨
        (rqi.readsMerkleHashes = none ∧ rqi.rawKvReads = seen.map VersionedKV.kvRead)) := by
  have hmt0 : (⟨[], some ⟨[], 1, d, hd⟩, d⟩ : RangeQueryResultsHelper κ).mt =
      some ⟨[], 1, d, hd⟩ := rfl
  have hwf0 : (⟨[], 1, d, hd⟩ : MerkleTree).WF :=
    wf_newMerkleTree (d := d) (by simp [newMerkleTree, hd])
  obtain ⟨mt, hmt, -, -⟩ := addResults_mt hashFunc serializeKVReads hmt0 hwf0 seen
  rw [← hhelper] at hmt
  have hsummary : resultsSummary hashFunc serializeKVReads d seen =
      (itr.rangeQueryResultsHelper.done hashFunc serializeKVReads).2 := by
    rw [hhelper, resultsSummary, newRangeQueryResultsHelper_hashing hd]
  simp only [addRangeQueryInfo, Bool.not_true, Bool.false_eq_true, if_false, List.map_cons,
    List.map_nil]
  refine ⟨_, rfl, ?_⟩
  cases hdone : itr.rangeQueryResultsHelper.done hashFunc serializeKVReads with
  | mk results hash =>
    rw [hdone] at hsummary
    dsimp only
    cases hash with
    | some s =>
      -- a summary replaces whatever raw reads were set
      refine ⟨?_, ?_, ?_, .inl ⟨s, rfl, hsummary⟩⟩ <;> dsimp only <;> split_ifs <;> rfl
    | none =>
      obtain ⟨hempty, hresults⟩ := done_of_snd_eq_none hashFunc serializeKVReads hmt
        (by rw [hdone])
      rw [hdone] at hresults
      dsimp only at hresults
      have hpend := (addResults_of_isEmpty hashFunc serializeKVReads hmt0 hwf0 seen
        (by rw [← hhelper]; exact hmt) hempty).2
      rw [← hhelper] at hpend
      have hraw : results = seen.map VersionedKV.kvRead := by
        rw [hresults, hpend, List.nil_append]
      by_cases hr : results = []
      · simp only [hr, ne_eq, not_true_eq_false, if_false]
        refine ⟨trivial, trivial, trivial, .inr ⟨?_, ?_⟩⟩
        · simp [RangeQueryInfo.readsMerkleHashes, hnone]
        · simp [RangeQueryInfo.rawKvReads, hnone, ← hraw, hr]
      · simp only [hr, ne_eq, not_false_eq_true, if_true]
        exact ⟨trivial, trivial, trivial, .inr ⟨rfl, hraw⟩⟩

end Simulation

/-! ## Agreement -/

section Agreement

variable (hashFunc : Bytes → Bytes) (serializeKVReads : List (KVRead κ) → Bytes)
variable [LinearOrder κ] [OrderBot κ]

theorem newResultsItr_hashing (ns : Ns) (startKey endKey : κ) (db : VersionedDB κ) {d : Nat}
    (hd : 2 ≤ d) :
    newResultsItr ns startKey endKey db true d =
      .ok ⟨ns, endKey, db.getStateRangeScanIterator ns startKey endKey,
        ⟨startKey, ⊥, false, .none⟩, ⟨[], some ⟨[], 1, d, hd⟩, d⟩⟩ := by
  simp [newResultsItr, newRangeQueryResultsHelper_hashing hd]

/-- The validator accepts a range query info whose reads are those of `seen`, raw or
    summarised, when the range re-read gives those reads again. -/
theorem validateRangeQuery_of_reads (db : VersionedDB κ) (ns : Ns) (rqi : RangeQueryInfo κ)
    (seen : List (VersionedKV κ)) {d : Nat}
    (hR : (newCombinedIterator db UpdateBatch.empty ns rqi.startKey rqi.endKey
      (!rqi.itrExhausted)).results.map VersionedKV.kvRead = seen.map VersionedKV.kvRead)
    (hinfo : (∃ s, rqi.readsMerkleHashes = some s ∧
        resultsSummary hashFunc serializeKVReads d seen = some s) ∨
      (rqi.readsMerkleHashes = none ∧ rqi.rawKvReads = seen.map VersionedKV.kvRead)) :
    validateRangeQuery hashFunc serializeKVReads db ns rqi UpdateBatch.empty = .ok true := by
  unfold validateRangeQuery
  rcases hinfo with ⟨s, hs, hsum⟩ | ⟨hn, hraw⟩
  · simp only [hs]
    rw [rangeQueryHashValidate_ok_true_iff, resultsSummary_maxDegree hashFunc serializeKVReads hsum,
      resultsSummary_congr hashFunc serializeKVReads hR, hsum]
  · simp only [hn, hraw, ← hR]
    exact rangeQueryResultsValidate_kvRead _

/-- Re-reading a range up to the key of its `i`-th result, that key included, gives the first
    `i + 1` reads of the range. -/
theorem results_up_to_getElem (db : VersionedDB κ) (ns : Ns) (startKey endKey : κ)
    (hkeys : ∀ e ∈ db.state ns, e.1 ≠ ⊥) (i : Nat)
    (hi : i < (db.getStateRangeScanIterator ns startKey endKey).length) :
    (newCombinedIterator db UpdateBatch.empty ns startKey
        (db.getStateRangeScanIterator ns startKey endKey)[i].key true).results.map
        VersionedKV.kvRead =
      ((db.getStateRangeScanIterator ns startKey endKey).take (i + 1)).map VersionedKV.kvRead := by
  have hmem := List.getElem_mem hi
  simp only [VersionedDB.getStateRangeScanIterator, List.mem_map, List.mem_filter] at hmem
  obtain ⟨e, ⟨he, -⟩, heq⟩ := hmem
  have hbot : (db.getStateRangeScanIterator ns startKey endKey)[i].key ≠ ⊥ := by
    simp only [VersionedDB.getStateRangeScanIterator] at heq ⊢
    rw [← heq]
    exact hkeys e he
  have hget : db.getState ns (db.getStateRangeScanIterator ns startKey endKey)[i].key =
      some e.2 := by
    simp only [VersionedDB.getStateRangeScanIterator] at heq ⊢
    rw [← heq]
    exact VersionedDB.getState_of_mem db he
  rw [results_newCombinedIterator_empty, if_pos rfl,
    VersionedDB.getStateRangeScanIterator_take db ns startKey endKey i hi hbot, hget,
    List.take_add_one, List.getElem?_eq_getElem hi]
  simp only [VersionedDB.getStateRangeScanIterator] at heq ⊢
  simp [VersionedKV.kvRead, ← heq]

/-- Once the simulator has pulled at least one result, validation against the same committed
    state and no updates accepts what it recorded, raw or hashed, whether or not the scan ran
    out (for a state without the empty key). -/
theorem validateRangeQuery_after_next (db : VersionedDB κ) (ns : Ns) (startKey endKey : κ)
    (hkeys : ∀ e ∈ db.state ns, e.1 ≠ ⊥) {itr : ResultsItr κ}
    (hnew : newResultsItr ns startKey endKey db queryReadsHashingEnabled
      maxDegreeQueryReadsHashing = .ok itr) (k : Nat) (hk : 0 < k) :
    ∃ rqi, addRangeQueryInfo hashFunc serializeKVReads true
        [itr.nextN hashFunc serializeKVReads k] = [(ns, rqi)] ∧
      validateRangeQuery hashFunc serializeKVReads db ns rqi UpdateBatch.empty = .ok true := by
  have hd : 2 ≤ maxDegreeQueryReadsHashing := by decide
  rw [queryReadsHashingEnabled, newResultsItr_hashing ns startKey endKey db hd,
    Except.ok.injEq] at hnew
  subst hnew
  set L := db.getStateRangeScanIterator ns startKey endKey with hL
  set itr0 : ResultsItr κ := ⟨ns, endKey, L, ⟨startKey, ⊥, false, .none⟩,
    ⟨[], some ⟨[], 1, maxDegreeQueryReadsHashing, hd⟩, maxDegreeQueryReadsHashing⟩⟩ with hitr0
  set itrK := ResultsItr.nextN hashFunc serializeKVReads k itr0 with hitrK
  have hinfoK := nextN_rangeQueryInfo hashFunc serializeKVReads k itr0
  rw [← hitrK] at hinfoK
  simp only [hitr0] at hinfoK
  have hnone : itrK.rangeQueryInfo.readsInfo = .none := by
    rw [hinfoK]
    split_ifs <;> rfl
  obtain ⟨rqi, hadd, hstart, hend, hexh, hreads⟩ := addRangeQueryInfo_single hashFunc
    serializeKVReads itrK hnone (L.take k) hd (nextN_helper hashFunc serializeKVReads k _)
  rw [hitrK, nextN_ns] at hadd
  refine ⟨rqi, hadd, validateRangeQuery_of_reads hashFunc serializeKVReads db ns rqi (L.take k)
    ?_ hreads⟩
  rw [hstart, hend, hexh, hinfoK]
  by_cases hlt : L.length < k
  · -- the scan ran out: the whole range is re-read, without its end key
    simp only [if_pos hlt, Bool.not_true]
    rw [results_newCombinedIterator_empty, if_neg Bool.false_ne_true, List.append_nil,
      List.take_of_length_le (Nat.le_of_lt hlt)]
  · -- the range is re-read up to the last key returned, that key included
    have hi : k - 1 < L.length := by omega
    have hlast : (L.take k).getLast? = some L[k - 1] := by
      rw [List.getLast?_take, if_neg (by omega), List.getElem?_eq_getElem hi]
      rfl
    simp only [if_neg hlt, hlast, Option.map_some, Option.getD_some, Bool.not_false]
    rw [results_up_to_getElem db ns startKey endKey hkeys (k - 1) hi, Nat.sub_add_cancel hk]

end Agreement

/-! ## A range query that is never iterated -/

/-- A committed state holding the single key `"a"` in namespace `"ns"`. -/
def stateWithA : VersionedDB String where
  state ns := if ns = "ns" then [("a", ⟨some [], [], ⟨1, 0⟩⟩)] else []
  sorted ns := by split <;> simp
  value_isSome ns e he := by
    split at he
    · simp only [List.mem_singleton] at he
      subst he
      rfl
    · simp at he

/-- A simulator that opens the range `["a", "b")` on a state holding `"a"` and never calls
    `Next` records `EndKey = ""` with `ItrExhausted = false` and no reads; validation then
    re-reads `["a", ∞)`, finds `"a"`, and rejects the transaction. -/
theorem validateRangeQuery_unread_iterator (hashFunc : Bytes → Bytes)
    (serializeKVReads : List (KVRead String) → Bytes) :
    ∃ itr, newResultsItr "ns" "a" "b" stateWithA queryReadsHashingEnabled
        maxDegreeQueryReadsHashing = .ok itr ∧
      ∃ rqi, addRangeQueryInfo hashFunc serializeKVReads true
          [itr.nextN hashFunc serializeKVReads 0] = [("ns", rqi)] ∧
        validateRangeQuery hashFunc serializeKVReads stateWithA "ns" rqi UpdateBatch.empty =
          .ok false := by
  refine ⟨_, rfl, ⟨"a", "", false, .none⟩, rfl, ?_⟩
  -- the combined iterator returns the stored `"a"`, where the raw validator expects nothing
  simp only [validateRangeQuery, results_newCombinedIterator_empty]
  rfl

end Fabric.Ledger
