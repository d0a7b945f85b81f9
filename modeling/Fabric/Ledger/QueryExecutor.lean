import Fabric.Ledger.RangeQueryValidator

/-
  The simulator's side of a range query (`core/ledger/kvledger/txmgmt/txmgr/query_executor.go`).

  A `resultsItr` of a simulation wraps the db range scan and records, as the caller pulls
  results, a `RangeQueryInfo`: `StartKey` when it is created, and after each `Next` the key
  just returned as `EndKey` (or, once the scan is exhausted, the caller's own `endKey` with
  `ItrExhausted` set). Each result also goes to a `RangeQueryResultsHelper`, whose `Done` in
  `addRangeQueryInfo` turns the reads into raw reads or a Merkle summary.

  Only the simulation path is modelled: the iterator has a read-write set builder, and the
  scan is not paginated (`pageSize = 0`).
-/

namespace Fabric.Ledger

/-- `queryresult.KV`: what the caller of `Next` gets. -/
structure QueryResultKV (κ : Type) where
  ns : Ns
  key : κ
  value : Option Bytes
  deriving DecidableEq, Repr

/-- `resultsItr` of a simulation: the db iterator as the results it has still to return, the
    caller's `endKey`, the range query info recorded so far and the results helper. -/
structure ResultsItr (κ : Type) where
  ns : Ns
  endKey : κ
  dbItr : List (VersionedKV κ)
  rangeQueryInfo : RangeQueryInfo κ
  rangeQueryResultsHelper : RangeQueryResultsHelper κ

/-- `queryReadsHashingEnabled`. -/
def queryReadsHashingEnabled : Bool := true

/-- `maxDegreeQueryReadsHashing`. -/
def maxDegreeQueryReadsHashing : Nat := 50

variable {κ : Type}

/-- `newResultsItr` with `pageSize = 0` and a read-write set builder. The range query info
    gets only its `StartKey`; its `EndKey` keeps the zero value `""` until `Next` sets it. -/
def newResultsItr [LinearOrder κ] [OrderBot κ] (ns : Ns) (startKey endKey : κ)
    (db : VersionedDB κ) (enableHashing : Bool) (maxDegree : Nat) :
    Except String (ResultsItr κ) :=
  let dbItr := db.getStateRangeScanIterator ns startKey endKey
  let rangeQueryInfo : RangeQueryInfo κ := ⟨startKey, ⊥, false, .none⟩
  match newRangeQueryResultsHelper enableHashing maxDegree with
  | .error e => .error e
  | .ok resultsHelper => .ok ⟨ns, endKey, dbItr, rangeQueryInfo, resultsHelper⟩

section Simulation

variable (hashFunc : Bytes → Bytes) (serializeKVReads : List (KVRead κ) → Bytes)

/-- `updateRangeQueryInfo`: on exhaustion record the caller's end key; otherwise add the
    read to the helper and record its key as the end key so far. -/
def ResultsItr.updateRangeQueryInfo (itr : ResultsItr κ) :
    Option (VersionedKV κ) → ResultsItr κ
  | none =>
    { itr with
      rangeQueryInfo := { itr.rangeQueryInfo with itrExhausted := true, endKey := itr.endKey } }
  | some queryResult =>
    { itr with
      rangeQueryResultsHelper := itr.rangeQueryResultsHelper.addResult hashFunc serializeKVReads
        (newKVRead queryResult.key queryResult.vv.version)
      rangeQueryInfo := { itr.rangeQueryInfo with endKey := queryResult.key } }

/-- `resultsItr.Next`. An exhausted db iterator keeps returning nil. -/
def ResultsItr.next (itr : ResultsItr κ) : Option (QueryResultKV κ) × ResultsItr κ :=
  let queryResult := itr.dbItr.head?
  let itr' := ({ itr with dbItr := itr.dbItr.tail } : ResultsItr κ).updateRangeQueryInfo
    hashFunc serializeKVReads queryResult
  (queryResult.map fun r => ⟨r.ns, r.key, r.vv.value⟩, itr')

/-- `queryExecutor.addRangeQueryInfo`: for each iterator, the namespace and range query info
    handed to `AddToRangeQuerySet`, with the raw reads `Done` returns if non-nil, replaced by
    the Merkle summary if there is one (both set the same oneof). -/
def addRangeQueryInfo (collectReadset : Bool) (itrs : List (ResultsItr κ)) :
    List (Ns × RangeQueryInfo κ) :=
  if !collectReadset then []
  else
    itrs.map fun itr =>
      let (results, hash) := itr.rangeQueryResultsHelper.done hashFunc serializeKVReads
      let rqi := itr.rangeQueryInfo
      let rqi := if results ≠ [] then { rqi with readsInfo := .rawReads results } else rqi
      let rqi := match hash with
        | some merkleSummary => { rqi with readsInfo := .readsMerkleHashes merkleSummary }
        | none => rqi
      (itr.ns, rqi)

end Simulation

end Fabric.Ledger
