import Fabric.Ledger.RangeQueryValidator

/-
  What the hash-based phantom-read validator decides.

  `resultsSummary d results` is the summary that a fresh results helper of degree `d`
  returns from `Done` after `AddResult` of every result: the summary the simulator would
  have recorded had it seen `results`. The validator is meant to return
  `merkleSummariesEqual inMerkle (resultsSummary inMerkle.maxDegree results)`.

  Proved here:
  * `hashValidateLoop_sound`: an `ok true` of the loop means the final summary is
    `inMerkle`;
  * `hashValidateLoop_complete`: from a matched comparison (`Matched`) on a well-formed
    tree, if the final summary is `inMerkle` the loop returns `ok true`. Its step
    (`hashValidateLoop_matched_step`) rests on the prefix stability of the tree
    (`final_summary_extends`, from `MerkleGrowth`);
  * `rangeQueryHashValidate_ok_true_iff` and `rangeQueryHashValidate_verdict`: whenever the
    validator returns a verdict, it is the right one.

  The early exits can still fail another way: when the tree under validation outgrows the
  recorded top level, at a point where the last matched index is not the last entry of the
  new top level, the validator indexes past the end of the new top level and the peer
  panics (`hashValidate_index_out_of_range`).
-/

namespace Fabric.Ledger

open MerkleTree

variable {κ : Type} (hashFunc : Bytes → Bytes) (serializeKVReads : List (KVRead κ) → Bytes)

/-! ## Running the results helper -/

/-- The results helper after `AddResult` of every result, in order. -/
def addResults (helper : RangeQueryResultsHelper κ) (results : List (VersionedKV κ)) :
    RangeQueryResultsHelper κ :=
  results.foldl (fun helper result =>
    helper.addResult hashFunc serializeKVReads (newKVRead result.key result.vv.version)) helper

/-- The summary `Done` returns after `AddResult` of every result on a fresh helper with
    hashing of degree `maxDegree`; none when there is no such helper. -/
def resultsSummary (maxDegree : Nat) (results : List (VersionedKV κ)) :
    Option QueryReadsMerkleSummary :=
  match newRangeQueryResultsHelper (κ := κ) true maxDegree with
  | .ok helper =>
    ((addResults hashFunc serializeKVReads helper results).done hashFunc serializeKVReads).2
  | .error _ => none

@[simp] theorem addResults_nil (helper : RangeQueryResultsHelper κ) :
    addResults hashFunc serializeKVReads helper [] = helper := rfl

@[simp] theorem addResults_cons (helper : RangeQueryResultsHelper κ) (result : VersionedKV κ)
    (rest : List (VersionedKV κ)) :
    addResults hashFunc serializeKVReads helper (result :: rest) =
      addResults hashFunc serializeKVReads
        (helper.addResult hashFunc serializeKVReads (newKVRead result.key result.vv.version))
        rest := rfl

theorem newRangeQueryResultsHelper_hashing {d : Nat} (hd : 2 ≤ d) :
    newRangeQueryResultsHelper (κ := κ) true d = .ok ⟨[], some ⟨[], 1, d, hd⟩, d⟩ := by
  simp [newRangeQueryResultsHelper, newMerkleTree, hd, Except.map]

/-- A helper made with hashing holds a well-formed tree with an empty top level. -/
theorem newRangeQueryResultsHelper_tree {d : Nat} {helper : RangeQueryResultsHelper κ}
    (h : newRangeQueryResultsHelper true d = .ok helper) :
    ∃ mt, helper.mt = some mt ∧ mt.WF ∧ mt.getLevel mt.maxLevel = [] := by
  by_cases hd : 2 ≤ d
  · rw [newRangeQueryResultsHelper_hashing hd, Except.ok.injEq] at h
    subst h
    exact ⟨_, rfl, wf_newMerkleTree (d := d) (by simp [newMerkleTree, hd]), by simp [getLevel]⟩
  · simp [newRangeQueryResultsHelper, newMerkleTree, hd, Except.map] at h

/-- The summary at the end of a run is that of a tree extending the tree of any helper on
    the way: the prefix stability the hash validator relies on. -/
theorem final_summary_extends {helper : RangeQueryResultsHelper κ} {mt : MerkleTree}
    (hmt : helper.mt = some mt) (hwf : mt.WF) (results : List (VersionedKV κ))
    {s : QueryReadsMerkleSummary}
    (hs : ((addResults hashFunc serializeKVReads helper results).done hashFunc
      serializeKVReads).2 = some s) :
    ∃ mf : MerkleTree, mt.Extends mf ∧ s = mf.getSummery := by
  induction results generalizing helper mt with
  | nil =>
    obtain ⟨mt', hsteps, rfl⟩ :=
      RangeQueryResultsHelper.done_summary hashFunc serializeKVReads hmt hs
    exact ⟨_, (hsteps.extends hashFunc hwf).trans (extends_done hashFunc mt'), rfl⟩
  | cons result rest ih =>
    obtain ⟨mt', hmt', hsteps⟩ := RangeQueryResultsHelper.addResult_mt hashFunc
      serializeKVReads hmt (newKVRead result.key result.vv.version)
    obtain ⟨mf, hext, rfl⟩ := ih hmt' (hsteps.wf hashFunc hwf) hs
    exact ⟨mf, (hsteps.extends hashFunc hwf).trans hext, rfl⟩

/-! ## The comparison invariant -/

/-- Where the hash validator's comparison stands on the tree `mt` it has built: below the
    recorded top level nothing is compared yet; at it, every hash of the top level built so
    far has been compared. -/
def Matched (inMerkle : QueryReadsMerkleSummary) (mt : MerkleTree) (lastMatchedIndex : Int) :
    Prop :=
  (mt.maxLevel < inMerkle.maxLevel ∧ lastMatchedIndex = -1) ∨
    (mt.maxLevel = inMerkle.maxLevel ∧
      lastMatchedIndex = (mt.getLevel mt.maxLevel).length - 1)

/-- A fresh tree, no higher than the recorded one, has matched nothing. -/
theorem matched_init {inMerkle : QueryReadsMerkleSummary} {mt : MerkleTree}
    (hempty : mt.getLevel mt.maxLevel = []) (hle : mt.maxLevel ≤ inMerkle.maxLevel) :
    Matched inMerkle mt (-1) := by
  by_cases hlt : mt.maxLevel < inMerkle.maxLevel
  · exact .inl ⟨hlt, rfl⟩
  · exact .inr ⟨by omega, by simp [hempty]⟩

theorem Matched.neg_one_le {inMerkle : QueryReadsMerkleSummary} {mt : MerkleTree}
    {lastMatchedIndex : Int} (hmatch : Matched inMerkle mt lastMatchedIndex) :
    -1 ≤ lastMatchedIndex := by
  rcases hmatch with ⟨-, hi⟩ | ⟨-, hi⟩ <;> omega

/-- One step of a tree at the recorded height, whose new top-level hash is not compared
    yet: that hash is the entry just after the last matched one. -/
theorem Matched.next {inMerkle : QueryReadsMerkleSummary} {mt mt' : MerkleTree}
    {lastMatchedIndex : Int} (hmatch : Matched inMerkle mt lastMatchedIndex)
    (hstep : OneStep mt mt') (hext : mt.Extends mt') (hL : mt'.maxLevel = inMerkle.maxLevel)
    (hne : lastMatchedIndex ≠ (mt'.getLevel mt'.maxLevel).length - 1) :
    lastMatchedIndex + 1 = (mt'.getLevel mt'.maxLevel).length - 1 := by
  rcases hmatch with ⟨hlt, hi⟩ | ⟨heq, hi⟩
  · -- the tree reaches the recorded height in this step, with a single hash
    rcases hstep with ⟨hsame, -⟩ | ⟨-, hone⟩
    · omega
    · rw [hi, hone]
      rfl
  · -- at the recorded height already: one hash more than matched
    have hpre := (hext.2 (by omega)).length_le
    rcases hstep with ⟨-, hlen⟩ | ⟨hup, -⟩
    · omega
    · omega

/-! ## The loop of the hash validator -/

/-- One iteration of the loop stops with `false` or an error, or goes on with the result
    added to the helper. -/
theorem hashValidateLoop_cons_cases (inMerkle : QueryReadsMerkleSummary)
    (helper : RangeQueryResultsHelper κ) (lastMatchedIndex : Int) (result : VersionedKV κ)
    (rest : List (VersionedKV κ)) :
    let run := hashValidateLoop hashFunc serializeKVReads inMerkle helper lastMatchedIndex
      (result :: rest)
    run = .ok false ∨ (∃ e, run = .error e) ∨
      ∃ j, run = hashValidateLoop hashFunc serializeKVReads inMerkle
        (helper.addResult hashFunc serializeKVReads (newKVRead result.key result.vv.version))
        j rest := by
  intro run
  simp only [run]
  rw [hashValidateLoop]
  split
  · exact .inr (.inl ⟨_, rfl⟩)
  · split_ifs
    · exact .inr (.inr ⟨_, rfl⟩)
    · exact .inr (.inr ⟨_, rfl⟩)
    · exact .inl rfl
    · dsimp only
      split
      · split_ifs
        · exact .inl rfl
        · exact .inr (.inr ⟨_, rfl⟩)
      · exact .inr (.inl ⟨_, rfl⟩)
      · exact .inr (.inl ⟨_, rfl⟩)

/-- One iteration of the loop on a tree `mt'` that the final tree `mf` extends: it goes on,
    with the comparison still matched. -/
theorem hashValidateLoop_matched_step {inMerkle : QueryReadsMerkleSummary}
    {helper : RangeQueryResultsHelper κ} {mt mt' mf : MerkleTree} {lastMatchedIndex : Int}
    (hwf : mt.WF) (hmatch : Matched inMerkle mt lastMatchedIndex) (result : VersionedKV κ)
    (rest : List (VersionedKV κ))
    (hmt' : (helper.addResult hashFunc serializeKVReads
      (newKVRead result.key result.vv.version)).mt = some mt')
    (hsteps : StepsTo hashFunc mt mt') (hfinal : mt'.Extends mf)
    (hs : inMerkle = mf.getSummery) :
    ∃ j, Matched inMerkle mt' j ∧
      hashValidateLoop hashFunc serializeKVReads inMerkle helper lastMatchedIndex
          (result :: rest) =
        hashValidateLoop hashFunc serializeKVReads inMerkle
          (helper.addResult hashFunc serializeKVReads (newKVRead result.key result.vv.version))
          j rest := by
  subst hs
  have hext := hsteps.extends hashFunc hwf
  rw [hashValidateLoop]
  simp only [RangeQueryResultsHelper.getMerkleSummary, hmt', Option.map_some]
  by_cases hlt : mt'.maxLevel < mf.maxLevel
  · -- still below the recorded height: nothing was compared before either
    refine ⟨lastMatchedIndex, .inl ⟨hlt, ?_⟩, if_pos hlt⟩
    rcases hmatch with ⟨-, hi⟩ | ⟨heq, -⟩
    · exact hi
    · have := hext.1
      rw [getSummery_maxLevel] at heq
      omega
  have hL : mt'.maxLevel = mf.maxLevel := by have := hfinal.1; omega
  rw [if_neg (show ¬ mt'.getSummery.maxLevel < mf.getSummery.maxLevel from hlt)]
  by_cases hi : lastMatchedIndex = (mt'.getLevel mt'.maxLevel).length - 1
  · -- the next hash of the top level is not built yet
    exact ⟨lastMatchedIndex, .inr ⟨hL, hi⟩, if_pos hi⟩
  have hpre : mt'.getLevel mt'.maxLevel <+: mf.getLevel mf.maxLevel := hfinal.2 hL.symm
  have hlen := hpre.length_le
  have hj := hmatch.next (hsteps.oneStep hashFunc hwf) hext hL hi
  -- the index compared is that of the last hash of the top level, in range on both sides
  have hneg := hmatch.neg_one_le
  have hk : (lastMatchedIndex + 1).toNat < (mt'.getLevel mt'.maxLevel).length := by omega
  have hk' : (lastMatchedIndex + 1).toNat < (mf.getLevel mf.maxLevel).length := by omega
  refine ⟨_, .inr ⟨hL, hj⟩, ?_⟩
  rw [if_neg (show ¬ lastMatchedIndex = (mt'.getSummery.maxLevelHashes.length : Int) - 1 from hi),
    if_neg (show ¬ mt'.getSummery.maxLevelHashes.length > mf.getSummery.maxLevelHashes.length
      from Nat.not_lt.2 hlen)]
  simp only [getSummery_maxLevelHashes, List.getElem?_eq_getElem hk,
    List.getElem?_eq_getElem hk', hpre.getElem hk, ne_eq, not_true_eq_false, if_false]

/-- The loop accepts only when the summary of all results is the recorded one. -/
theorem hashValidateLoop_sound {inMerkle : QueryReadsMerkleSummary}
    (helper : RangeQueryResultsHelper κ) (lastMatchedIndex : Int)
    (results : List (VersionedKV κ))
    (h : hashValidateLoop hashFunc serializeKVReads inMerkle helper lastMatchedIndex results =
      .ok true) :
    ((addResults hashFunc serializeKVReads helper results).done hashFunc
      serializeKVReads).2 = some inMerkle := by
  induction results generalizing helper lastMatchedIndex with
  | nil =>
    rw [hashValidateLoop, Except.ok.injEq, merkleSummariesEqual_iff] at h
    exact h
  | cons result rest ih =>
    rcases hashValidateLoop_cons_cases hashFunc serializeKVReads inMerkle helper
      lastMatchedIndex result rest with hstop | ⟨e, hstop⟩ | ⟨j, hgo⟩
    · rw [hstop] at h
      cases h
    · rw [hstop] at h
      cases h
    · rw [hgo] at h
      exact ih _ _ h

/-- From a matched comparison on a well-formed tree, the loop accepts every run whose final
    summary is the recorded one. -/
theorem hashValidateLoop_complete {inMerkle : QueryReadsMerkleSummary}
    {helper : RangeQueryResultsHelper κ} {mt : MerkleTree} {lastMatchedIndex : Int}
    (hmt : helper.mt = some mt) (hwf : mt.WF) (hmatch : Matched inMerkle mt lastMatchedIndex)
    (results : List (VersionedKV κ))
    (hfinal : ((addResults hashFunc serializeKVReads helper results).done hashFunc
      serializeKVReads).2 = some inMerkle) :
    hashValidateLoop hashFunc serializeKVReads inMerkle helper lastMatchedIndex results =
      .ok true := by
  induction results generalizing helper mt lastMatchedIndex with
  | nil =>
    rw [addResults_nil] at hfinal
    rw [hashValidateLoop, (merkleSummariesEqual_iff _ _).2 hfinal]
  | cons result rest ih =>
    obtain ⟨mt', hmt', hsteps⟩ := RangeQueryResultsHelper.addResult_mt hashFunc
      serializeKVReads hmt (newKVRead result.key result.vv.version)
    have hwf' := hsteps.wf hashFunc hwf
    -- the rest of the run ends on the recorded summary too, so it extends `mt'`
    obtain ⟨mf, hext, hs⟩ := final_summary_extends hashFunc serializeKVReads hmt' hwf' rest hfinal
    obtain ⟨j, hmatch', hgo⟩ := hashValidateLoop_matched_step hashFunc serializeKVReads hwf
      hmatch result rest hmt' hsteps hext hs
    rw [hgo]
    exact ih hmt' hwf' hmatch' hfinal

/-! ## The verdict of the hash validator -/

/-- The validator returns `ok true` exactly when the results rebuild the recorded summary. -/
theorem rangeQueryHashValidate_ok_true_iff (inMerkle : QueryReadsMerkleSummary)
    (results : List (VersionedKV κ)) :
    rangeQueryHashValidate hashFunc serializeKVReads inMerkle results = .ok true ↔
      resultsSummary hashFunc serializeKVReads inMerkle.maxDegree results = some inMerkle := by
  unfold rangeQueryHashValidate resultsSummary
  cases hnew : newRangeQueryResultsHelper (κ := κ) true inMerkle.maxDegree with
  | error e => simp
  | ok helper =>
    constructor
    · exact hashValidateLoop_sound hashFunc serializeKVReads helper (-1) results
    · intro hfinal
      obtain ⟨mt, hmt, hwf, hempty⟩ := newRangeQueryResultsHelper_tree hnew
      obtain ⟨mf, hext, hs⟩ := final_summary_extends hashFunc serializeKVReads hmt hwf results
        hfinal
      have hmatch : Matched inMerkle mt (-1) := matched_init hempty (by rw [hs]; exact hext.1)
      exact hashValidateLoop_complete hashFunc serializeKVReads hmt hwf hmatch results hfinal

/-- Whenever the validator returns a verdict rather than failing, it is the right one. -/
theorem rangeQueryHashValidate_verdict {inMerkle : QueryReadsMerkleSummary}
    {results : List (VersionedKV κ)} {b : Bool}
    (h : rangeQueryHashValidate hashFunc serializeKVReads inMerkle results = .ok b) :
    b = merkleSummariesEqual inMerkle
      (resultsSummary hashFunc serializeKVReads inMerkle.maxDegree results) := by
  have hiff := rangeQueryHashValidate_ok_true_iff hashFunc serializeKVReads inMerkle results
  cases b with
  | true => rw [eq_comm, merkleSummariesEqual_iff, ← hiff, h]
  | false =>
    rw [eq_comm, Bool.eq_false_iff]
    intro htrue
    rw [merkleSummariesEqual_iff, ← hiff, h] at htrue
    cases htrue

/-! ## A phantom that overflows the recorded top level -/

/-- Nine results of one namespace, all written at height (1, 0). -/
def nineResults : List (VersionedKV String) :=
  ["a", "b", "c", "d", "e", "f", "g", "h", "i"].map fun k => ⟨"ns", k, ⟨some [], [], ⟨1, 0⟩⟩⟩

/-- With `maxDegree = 2`, six reads recorded at simulation give a top level of exactly two
    hashes; nine results at validation complete a third leaf, which carries the top level
    up as a single hash while the last matched index is 1: the validator then reads index 2
    of a top level of length 1 and panics, for every hash function and serialisation. -/
theorem hashValidate_index_out_of_range (hashFunc : Bytes → Bytes)
    (serializeKVReads : List (KVRead String) → Bytes) :
    ∃ inMerkle, resultsSummary hashFunc serializeKVReads 2 (nineResults.take 6) = some inMerkle ∧
      rangeQueryHashValidate hashFunc serializeKVReads inMerkle nineResults =
        .error (indexOutOfRange 2 1) := by
  let read (k : String) : KVRead String := ⟨k, some ⟨1, 0⟩⟩
  refine ⟨⟨2, 1, [hashFunc (serializeKVReads [read "a", read "b", read "c"]),
    hashFunc (serializeKVReads [read "d", read "e", read "f"])]⟩, ?_, ?_⟩
  · -- the simulator's summary: two leaves, no carry
    simp only [resultsSummary, newRangeQueryResultsHelper_hashing (Nat.le_refl 2), nineResults,
      List.map_cons, List.map_nil, List.take_succ_cons, List.take_zero, addResults_cons,
      addResults_nil, newKVRead]
    simp [addResult_queue, addResult_process, MerkleTree.update, updateLoop_of_le, getLevel,
      RangeQueryResultsHelper.done, MerkleTree.isEmpty, MerkleTree.done, doneLoop_of_ge,
      getSummery, leafLevel, read]
  · -- the validator: two matches, then the carry to level 2 at the ninth result
    simp only [rangeQueryHashValidate, newRangeQueryResultsHelper_hashing (Nat.le_refl 2),
      nineResults, List.map_cons, List.map_nil]
    simp [hashValidateLoop, addResult_queue, addResult_process, MerkleTree.update,
      updateLoop_of_le, updateLoop_of_gt, getLevel, carry,
      RangeQueryResultsHelper.getMerkleSummary, getSummery, leafLevel, newKVRead, read]

end Fabric.Ledger
