import Fabric.Ledger.MerkleGrowth
import Fabric.Ledger.CombinedIterator

/-
  Phantom-read validation of one range query
  (`core/ledger/kvledger/txmgmt/validation/rangequery_validator.go` and
  `validator.validateRangeQuery`).

  The simulator records a `RangeQueryInfo`: the range, whether its iterator was exhausted,
  and either the raw `KVRead`s it saw or, past `maxDegree` results, a Merkle summary of
  them. At commit the range is re-read through the combined iterator: the raw validator
  compares the reads one by one; the hash validator rebuilds the tree and compares its
  top level with the recorded one as it goes, failing early on a mismatch.

  An iterator is the list of results its `Next` calls return before the first nil.
-/

namespace Fabric.Ledger

/-- The oneof `reads_info` of `kvrwset.RangeQueryInfo`. -/
inductive ReadsInfo (κ : Type) where
  | none
  | rawReads (kvReads : List (KVRead κ))
  | readsMerkleHashes (summary : QueryReadsMerkleSummary)
  deriving DecidableEq, Repr

/-- `kvrwset.RangeQueryInfo`. -/
structure RangeQueryInfo (κ : Type) where
  startKey : κ
  endKey : κ
  itrExhausted : Bool
  readsInfo : ReadsInfo κ
  deriving DecidableEq, Repr

variable {κ : Type}

/-- `GetRawReads().GetKvReads()`: nil unless the raw reads were recorded. -/
def RangeQueryInfo.rawKvReads (rqi : RangeQueryInfo κ) : List (KVRead κ) :=
  match rqi.readsInfo with
  | .rawReads kvReads => kvReads
  | _ => []

/-- `GetReadsMerkleHashes()`. -/
def RangeQueryInfo.readsMerkleHashes (rqi : RangeQueryInfo κ) :
    Option QueryReadsMerkleSummary :=
  match rqi.readsInfo with
  | .readsMerkleHashes summary => some summary
  | _ => none

/-- `rwsetutil.NewKVRead` for a result of the state database (whose version is never nil). -/
def newKVRead (key : κ) (version : Height) : KVRead κ := ⟨key, some version⟩

/-! ## Comparing summaries -/

/-- `merkleSummariesEqual`. -/
def merkleSummariesEqual (ms : QueryReadsMerkleSummary) :
    Option QueryReadsMerkleSummary → Bool
  | none => false
  | some anotherMS =>
    ms.maxDegree == anotherMS.maxDegree && ms.maxLevel == anotherMS.maxLevel &&
      ms.maxLevelHashes.length == anotherMS.maxLevelHashes.length &&
      (ms.maxLevelHashes.zip anotherMS.maxLevelHashes).all fun p => p.1 == p.2

theorem zip_all_eq_iff {α : Type} [BEq α] [LawfulBEq α] (l1 l2 : List α)
    (h : l1.length = l2.length) :
    ((l1.zip l2).all fun p => p.1 == p.2) = true ↔ l1 = l2 := by
  induction l1 generalizing l2 with
  | nil => cases l2 <;> simp_all
  | cons a l1 ih =>
    cases l2 with
    | nil => simp at h
    | cons b l2 =>
      simp only [List.length_cons, Nat.add_right_cancel_iff] at h
      simp only [List.zip_cons_cons, List.all_cons, Bool.and_eq_true, beq_iff_eq, ih l2 h,
        List.cons.injEq]

/-- Two summaries are equal for the validator exactly when they are the same summary. -/
theorem merkleSummariesEqual_iff (ms : QueryReadsMerkleSummary)
    (other : Option QueryReadsMerkleSummary) :
    merkleSummariesEqual ms other = true ↔ other = some ms := by
  cases other with
  | none => simp [merkleSummariesEqual]
  | some a =>
    obtain ⟨d, l, hs⟩ := ms
    obtain ⟨d', l', hs'⟩ := a
    simp only [merkleSummariesEqual, Bool.and_eq_true, beq_iff_eq, Option.some.injEq,
      QueryReadsMerkleSummary.mk.injEq]
    constructor
    · rintro ⟨⟨⟨hd, hl⟩, hlen⟩, hall⟩
      exact ⟨hd.symm, hl.symm, ((zip_all_eq_iff hs hs' hlen).1 hall).symm⟩
    · rintro ⟨rfl, rfl, rfl⟩
      exact ⟨⟨⟨rfl, rfl⟩, rfl⟩, (zip_all_eq_iff _ _ rfl).2 rfl⟩

/-! ## The validators -/

section Validators

variable (hashFunc : Bytes → Bytes) (serializeKVReads : List (KVRead κ) → Bytes)

/-- The runtime panic of indexing a slice of length `n` at `i`. -/
def indexOutOfRange (i n : Nat) : Failure :=
  .panic s!"index out of range [{i}] with length {n}"

/-- `convertToVersionHeight`: a nil version is dereferenced. -/
def convertToVersionHeight : Option Height → Except Failure Height
  | some v => .ok (newHeight v.blockNum v.txNum)
  | none => .error (.panic "invalid memory address or nil pointer dereference")

/-- The `for` loop of `rangeQueryResultsValidator.validate`: `result` is the last item the
    iterator returned (nil: none), `rest` what it has still to return. -/
def rawValidateLoop [DecidableEq κ] :
    List (KVRead κ) → Option (VersionedKV κ) → List (VersionedKV κ) → Except Failure Bool
  | [], result, _ => .ok result.isNone
  | _ :: _, none, _ => .ok false
  | kvRead :: rqResults, some result, rest =>
    if result.key ≠ kvRead.key then .ok false
    else
      match convertToVersionHeight kvRead.version with
      | .error e => .error e
      | .ok readVersion =>
        if !areSame (some result.vv.version) (some readVersion) then .ok false
        else rawValidateLoop rqResults rest.head? rest.tail

/-- `rangeQueryResultsValidator.validate` on the results of the iterator. -/
def rangeQueryResultsValidate [DecidableEq κ] (rqResults : List (KVRead κ))
    (itrResults : List (VersionedKV κ)) : Except Failure Bool :=
  let result := itrResults.head?
  if rqResults.length = 0 then .ok result.isNone
  else rawValidateLoop rqResults result itrResults.tail

/-- The `for` loop of `rangeQueryHashValidator.validate`, over the results the iterator has
    still to return: add each to the tree under construction and compare its top level with
    the recorded summary `inMerkle` as far as it is built. -/
def hashValidateLoop (inMerkle : QueryReadsMerkleSummary) :
    RangeQueryResultsHelper κ → Int → List (VersionedKV κ) → Except Failure Bool
  | helper, _, [] =>
    .ok (merkleSummariesEqual inMerkle (helper.done hashFunc serializeKVReads).2)
  | helper, lastMatchedIndex, result :: rest =>
    let helper := helper.addResult hashFunc serializeKVReads (newKVRead result.key result.vv.version)
    match helper.getMerkleSummary with
    | none => .error (.panic "invalid memory address or nil pointer dereference")
    | some merkle =>
      if merkle.maxLevel < inMerkle.maxLevel then
        -- hashes still under construction: nothing to compare yet
        hashValidateLoop inMerkle helper lastMatchedIndex rest
      else if lastMatchedIndex = merkle.maxLevelHashes.length - 1 then
        -- the next entry of the top level is not built yet
        hashValidateLoop inMerkle helper lastMatchedIndex rest
      else if merkle.maxLevelHashes.length > inMerkle.maxLevelHashes.length then .ok false
      else
        let lastMatchedIndex := lastMatchedIndex + 1
        let i := lastMatchedIndex.toNat
        -- `merkle.MaxLevelHashes[i]` is evaluated first, then `inMerkle.MaxLevelHashes[i]`
        match merkle.maxLevelHashes[i]?, inMerkle.maxLevelHashes[i]? with
        | some h, some h' =>
          if h ≠ h' then .ok false else hashValidateLoop inMerkle helper lastMatchedIndex rest
        | none, _ => .error (indexOutOfRange i merkle.maxLevelHashes.length)
        | some _, none => .error (indexOutOfRange i inMerkle.maxLevelHashes.length)

/-- `rangeQueryHashValidator`: `init` (a results helper with hashing, of the recorded
    degree), then `validate`. -/
def rangeQueryHashValidate (inMerkle : QueryReadsMerkleSummary)
    (itrResults : List (VersionedKV κ)) : Except Failure Bool :=
  match newRangeQueryResultsHelper (κ := κ) true inMerkle.maxDegree with
  | .error e => .error (.error e)
  | .ok helper => hashValidateLoop hashFunc serializeKVReads inMerkle helper (-1) itrResults

/-- `validator.validateRangeQuery`: re-run the range over the committed state and the
    updates of the preceding valid transactions, including the end key when the simulator
    stopped before the iterator was exhausted (its `EndKey` is then the last key it saw). -/
def validateRangeQuery [LinearOrder κ] [OrderBot κ] (db : VersionedDB κ) (ns : Ns)
    (rqi : RangeQueryInfo κ) (updates : UpdateBatch (Ns × κ)) : Except Failure Bool :=
  let includeEndKey := !rqi.itrExhausted
  let combinedItr := newCombinedIterator db updates ns rqi.startKey rqi.endKey includeEndKey
  match rqi.readsMerkleHashes with
  | some inMerkle => rangeQueryHashValidate hashFunc serializeKVReads inMerkle combinedItr.results
  | none => rangeQueryResultsValidate rqi.rawKvReads combinedItr.results

end Validators

end Fabric.Ledger
