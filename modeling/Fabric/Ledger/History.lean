import Fabric.Ledger.OrderPreserving
import Fabric.Ledger.LevelDBHelper
import Fabric.Ledger.RwSet
import Fabric.Protoutil.Messages
import Fabric.Protoutil.BlockUtils
import Fabric.Lib.FoldM

/-
  The history database of the ledger (`core/ledger/kvledger/history`).

  `DB.Commit` writes, for every write of every valid endorser transaction of a block, the key
  `namespace 0x00 len(key) key 0x00 blocknum trannum` (`constructDataKey`, the numbers
  order-preservingly encoded) with an empty value, and a save point. `GetHistoryForKey` scans
  the keys of one namespace and key (`constructRangeScan`) from the newest: it moves the
  iterator past the last key, and each `Next` of the scanner steps back one key, decodes the
  block and transaction numbers, fetches the transaction from the block store and reads the
  write of the key there (`getKeyModificationFromTran`).

  Proved, for namespaces without `0x00` and keys shorter than `2^64` bytes: a range scan holds
  the keys of its namespace and key only (`inRangeScan_iff`), and they sort by block and
  transaction number (`constructDataKey_lt_constructDataKey_iff`); every key decodes back to its
  numbers (`decodeBlockNumTranNum_constructDataKey`). After any run of commits from the empty
  database, the bound keys are the save point and the data keys of the valid endorser
  transactions (`mem_view_commitAll`). The scanner reads the range from its last key back
  (`results_getHistoryForKey`), so it returns the writes of a namespace and key newest first,
  each once and each with its transaction's id, timestamp and value
  (`getHistoryForKey_faithful`), when no valid transaction lists a namespace twice. A valid
  transaction that does, with its write in the second listing, is indexed and then reported as
  not found (`next_duplicate_namespace`).

  The envelope, payload, channel header and read-write set of a transaction are decoded by a
  parameter (`TxDecoder`) that the writer and the reader share; the block store is the list
  of the ledger's blocks.
-/

namespace Fabric.History

open LevelDB Fabric.Ledger Fabric.LevelDBHelper Fabric.Protoutil

/-- `compositeKeySep`. -/
def compositeKeySep : Bytes := [0x00]

/-- `savePointKey`, the byte of `'s'`. -/
def savePointKey : Bytes := [0x73]

/-- `emptyValue`. -/
def emptyValue : Bytes := []

/-- `constructDataKey`: `namespace~len(key)~key~blocknum~trannum`. -/
def constructDataKey (ns key : String) (blocknum trannum : UInt64) : Bytes :=
  goBytes ns ++ compositeKeySep ++ encodeOrderPreservingVarUint64 (goBytes key).length.toUInt64 ++
    goBytes key ++ compositeKeySep ++ encodeOrderPreservingVarUint64 blocknum ++
    encodeOrderPreservingVarUint64 trannum

/-- `rangeScan`. -/
structure RangeScan where
  startKey : Bytes
  endKey : Bytes

/-- `constructRangeScan`: the keys of a namespace and key, `namespace~len(key)~key~` and on. -/
def constructRangeScan (ns key : String) : RangeScan :=
  let k := goBytes ns ++ compositeKeySep ++
    encodeOrderPreservingVarUint64 (goBytes key).length.toUInt64 ++ goBytes key ++ compositeKeySep
  ⟨k, k ++ [0xff]⟩

/-- The errors of the history scanner. -/
inductive HistoryError
  /-- an error of `DecodeOrderPreservingVarUint64` -/
  | decode (err : Ledger.DecodeError)
  /-- "number of decoded bytes (%d) is not equal to the length of blockNumTranNumBytes (%d)" -/
  | numberOfDecodedBytes (decoded length : Nat)
  /-- the block store has no such transaction -/
  | noSuchTransaction (blockNum tranNum : UInt64)
  /-- the transaction's envelope does not decode -/
  | unmarshal
  /-- "no namespace or key is found for namespace %s and key %s with decoded blockNum %d and
      tranNum %d" -/
  | noNamespaceOrKey (nameSpace key : String) (blockNum tranNum : UInt64)
  /-- `Key` of a key without the separator: a runtime panic -/
  | slicePanic
  deriving DecidableEq, Repr

/-- `bytes.TrimPrefix`. -/
def trimPrefix (s p : Bytes) : Bytes := if p.isPrefixOf s then s.drop p.length else s

/-- `rangeScan.decodeBlockNumTranNum`. -/
def RangeScan.decodeBlockNumTranNum (r : RangeScan) (dataKey : Bytes) :
    Except HistoryError (UInt64 × UInt64) :=
  let blockNumTranNumBytes := trimPrefix dataKey r.startKey
  match decodeOrderPreservingVarUint64 blockNumTranNumBytes with
  | .error err => .error (.decode err)
  | .ok (blockNum, blockBytesConsumed) =>
    match decodeOrderPreservingVarUint64 (blockNumTranNumBytes.drop blockBytesConsumed) with
    | .error err => .error (.decode err)
    | .ok (tranNum, tranBytesConsumed) =>
      if blockBytesConsumed + tranBytesConsumed ≠ blockNumTranNumBytes.length then
        .error (.numberOfDecodedBytes (blockBytesConsumed + tranBytesConsumed)
          blockNumTranNumBytes.length)
      else .ok (blockNum, tranNum)

/-- How the envelope bytes of a transaction decode, as both the writer and the reader decode
    them: its channel header (`UnmarshalPayload`, `UnmarshalChannelHeader`) and the read-write
    set of its first action (`TxRwSet.FromProtoBytes` of the action's results); none where
    decoding fails. -/
structure TxDecoder where
  channelHeader : Bytes → Option ChannelHeader
  txRWSet : Bytes → Option TxRwSet

/-! ## Commit -/

/-- `common.HeaderType_ENDORSER_TRANSACTION`. -/
def headerTypeEndorserTransaction : Int32 := 3

/-- `peer.TxValidationCode_VALID` as a byte of the transaction filter. -/
def txValidationCodeValid : UInt8 := 0

/-- The failures of `DB.Commit`: its errors and its runtime panics. -/
inductive CommitError
  /-- a nil header, data or metadata: a nil dereference -/
  | nilField
  /-- the metadata has no transaction filter: index out of range -/
  | noTransactionsFilter
  /-- the filter has no flag for the transaction: index out of range -/
  | noFlag (tranNo : Nat)
  /-- the envelope of a valid transaction does not decode -/
  | decode (tranNo : Nat)
  deriving DecidableEq, Repr

/-- The keys of the history records of a transaction's writes, in order. -/
def txDataKeys (blockNo tranNo : UInt64) (txRWSet : TxRwSet) : List Bytes :=
  txRWSet.nsRwSets.flatMap fun nsRWSet =>
    nsRWSet.kvRwSet.writes.map fun kvWrite =>
      constructDataKey nsRWSet.nameSpace kvWrite.key blockNo tranNo

/-- The loop of `DB.Commit` over the transactions of a block, from transaction `tranNo` on:
    the number after the last and the batch. -/
def commitTxs (dec : TxDecoder) (blockNo : UInt64) (txsFilter : Bytes) :
    Nat → UpdateBatch → List Bytes → Except CommitError (Nat × UpdateBatch)
  | tranNo, dbBatch, [] => .ok (tranNo, dbBatch)
  | tranNo, dbBatch, envBytes :: rest =>
    match txsFilter[tranNo]? with
    | none => .error (.noFlag tranNo)
    | some flag =>
      -- If the tran is marked as invalid, skip it
      if flag ≠ txValidationCodeValid then commitTxs dec blockNo txsFilter (tranNo + 1) dbBatch rest
      else
        match dec.channelHeader envBytes with
        | none => .error (.decode tranNo)
        | some chdr =>
          if chdr.type = headerTypeEndorserTransaction then
            match dec.txRWSet envBytes with
            | none => .error (.decode tranNo)
            | some txRWSet =>
              -- No value is required, write an empty byte array (emptyValue)
              let dbBatch := (txDataKeys blockNo tranNo.toUInt64 txRWSet).foldl
                (fun b dataKey => b.put dataKey emptyValue) dbBatch
              commitTxs dec blockNo txsFilter (tranNo + 1) dbBatch rest
          else commitTxs dec blockNo txsFilter (tranNo + 1) dbBatch rest

/-- `common.BlockMetadataIndex_TRANSACTIONS_FILTER`. -/
def transactionsFilterIndex : Nat := 2

/-- `DB.Commit`: the history records of the block and the save point, in one batch. -/
def commit (dec : TxDecoder) (db : DB) (dbName : Bytes) (block : Protoutil.Block) : Except CommitError DB :=
  match block.header, block.data, block.metadata with
  | some header, some data, some metadata =>
    match metadata.metadata[transactionsFilterIndex]? with
    | none => .error .noTransactionsFilter
    | some txsFilter =>
      match commitTxs dec header.number txsFilter 0 (newUpdateBatch dbName) data.data with
      | .error err => .error err
      | .ok (tranNo, dbBatch) =>
        -- add savepoint for recovery purpose
        let height := newHeight header.number.toNat tranNo
        .ok (writeBatch db (dbBatch.put savePointKey height.toBytes))
  | _, _, _ => .error .nilField

/-- Blocks committed one after another. -/
def commitAll (dec : TxDecoder) (dbName : Bytes) : DB → List Protoutil.Block → Except CommitError DB
  | db, [] => .ok db
  | db, block :: blocks =>
    match commit dec db dbName block with
    | .error err => .error err
    | .ok db => commitAll dec dbName db blocks

/-! ## Queries -/

/-- `queryresult.KeyModification`. -/
structure KeyModification where
  txId : Bytes
  value : Bytes
  timestamp : Option Timestamp
  isDelete : Bool
  deriving DecidableEq, Repr

/-- `BlockStore.RetrieveTxByBlockNumTranNum` over the ledger's blocks: the envelope bytes of
    the transaction. -/
def retrieveTxByBlockNumTranNum (blocks : List Protoutil.Block) (blockNum tranNum : UInt64) :
    Option Bytes :=
  (blocks.find? fun block => block.header.map BlockHeader.number == some blockNum).bind
    fun block => block.data.bind fun data => data.data[tranNum.toNat]?

/-- `getKeyModificationFromTran`: the write of the key in the first read-write set of the
    namespace, nil when there is none. -/
def getKeyModificationFromTran (dec : TxDecoder) (tranEnvelope : Bytes) (nameSpace key : String) :
    Except HistoryError (Option KeyModification) :=
  match dec.txRWSet tranEnvelope, dec.channelHeader tranEnvelope with
  | some txRWSet, some chdr =>
    -- look for the namespace and key by looping through the transaction's ReadWriteSets
    match txRWSet.nsRwSets.find? (·.nameSpace = nameSpace) with
    | none => .ok none
    | some nsRWSet =>
      match nsRWSet.kvRwSet.writes.find? (·.key = key) with
      | none => .ok none
      | some kvWrite =>
        .ok (some ⟨chdr.txId, kvWrite.value, chdr.timestamp, isKVWriteDelete kvWrite⟩)
  | _, _ => .error .unmarshal

/-- `historyScanner`. -/
structure HistoryScanner where
  rangeScan : RangeScan
  nameSpace : String
  key : String
  dbItr : Iterator

/-- `QueryExecutor.GetHistoryForKey`: the iterator is moved past the last key of the range. -/
def getHistoryForKey (db : DB) (dbName : Bytes) (nameSpace key : String) : HistoryScanner :=
  let rangeScan := constructRangeScan nameSpace key
  let dbItr := getIterator db dbName rangeScan.startKey (some rangeScan.endKey)
  let (isLast, dbItr) := dbItr.last
  let dbItr := if isLast then dbItr.next.2 else dbItr
  ⟨rangeScan, nameSpace, key, dbItr⟩

/-- What `historyScanner.Next` reads at a history key: the block and transaction numbers in the
    key, the transaction in the block store, and the write of the key there. -/
def HistoryScanner.keyModification (dec : TxDecoder) (blocks : List Protoutil.Block)
    (scanner : HistoryScanner) (historyKey : Bytes) : Except HistoryError KeyModification :=
  match scanner.rangeScan.decodeBlockNumTranNum historyKey with
  | .error err => .error err
  | .ok (blockNum, tranNum) =>
    match retrieveTxByBlockNumTranNum blocks blockNum tranNum with
    | none => .error (.noSuchTransaction blockNum tranNum)
    | some tranEnvelope =>
      match getKeyModificationFromTran dec tranEnvelope scanner.nameSpace scanner.key with
      | .error err => .error err
      | .ok none => .error (.noNamespaceOrKey scanner.nameSpace scanner.key blockNum tranNum)
      | .ok (some queryResult) => .ok queryResult

/-- `historyScanner.Next`: the key before the cursor, newest first; nil when none is left. -/
def HistoryScanner.next (dec : TxDecoder) (blocks : List Protoutil.Block) (scanner : HistoryScanner) :
    Except HistoryError (Option KeyModification × HistoryScanner) :=
  -- call Prev because history query result is returned from newest to oldest
  let (moved, dbItr) := scanner.dbItr.prev
  let scanner := { scanner with dbItr }
  if !moved then .ok (none, scanner)
  else
    match dbItr.key with
    | none => .error .slicePanic
    | some historyKey =>
      (scanner.keyModification dec blocks historyKey).map fun queryResult =>
        (some queryResult, scanner)

/-- A client's loop over the scanner: `Next` until it returns nil, at most `fuel` times. -/
def HistoryScanner.results (dec : TxDecoder) (blocks : List Protoutil.Block) :
    Nat → HistoryScanner → Except HistoryError (List KeyModification)
  | 0, _ => .ok []
  | fuel + 1, scanner =>
    match scanner.next dec blocks with
    | .error err => .error err
    | .ok (none, _) => .ok []
    | .ok (some queryResult, scanner) =>
      (HistoryScanner.results dec blocks fuel scanner).map (queryResult :: ·)

/-! ## Keys -/

section Keys

variable {ns key ns' key' : String}

/-- A data key is the range scan's start key, then the two numbers. -/
theorem constructDataKey_eq (ns key : String) (blocknum trannum : UInt64) :
    constructDataKey ns key blocknum trannum = (constructRangeScan ns key).startKey ++
      (encodeOrderPreservingVarUint64 blocknum ++ encodeOrderPreservingVarUint64 trannum) := by
  simp [constructDataKey, constructRangeScan]

/-- Data keys of one namespace and key compare as their block and transaction numbers. -/
theorem constructDataKey_lt_constructDataKey_iff (ns key : String) (b n b' n' : UInt64) :
    constructDataKey ns key b n < constructDataKey ns key b' n' ↔ Prod.lexLt (b, n) (b', n') := by
  rw [constructDataKey_eq, constructDataKey_eq, List.append_left_lt_iff,
    encode_pair_lt_iff]

/-- The range scan of a namespace and a key holds their data keys, and no other. -/
theorem inRangeScan_iff (hns : 0x00 ∉ goBytes ns) (hns' : 0x00 ∉ goBytes ns')
    (hkey : (goBytes key).length < 2 ^ 64) (hkey' : (goBytes key').length < 2 ^ 64)
    (b n : UInt64) :
    (constructRangeScan ns key).startKey ≤ constructDataKey ns' key' b n ∧
      constructDataKey ns' key' b n < (constructRangeScan ns key).endKey ↔
        ns' = ns ∧ key' = key := by
  rw [show (constructRangeScan ns key).endKey = (constructRangeScan ns key).startKey ++ [0xff]
    from rfl, ByteOrder.le_and_lt_append_ff_iff]
  constructor
  · rintro ⟨r, hr, -⟩
    simp only [constructDataKey, constructRangeScan, compositeKeySep, List.append_assoc,
      List.cons_append, List.nil_append] at hr
    -- the namespaces end at the first `0x00`
    obtain ⟨hn, hr⟩ := List.append_cons_inj_of_not_mem hns' hns hr
    -- then the key lengths are read back, and the keys are heads of one length
    obtain ⟨hlen, htail⟩ := encode_append_inj.mp hr
    have hl : (goBytes key').length = (goBytes key).length := by
      rw [← toNat_length_toUInt64 hkey', ← toNat_length_toUInt64 hkey, hlen]
    exact ⟨goBytes_inj hn, goBytes_inj (List.append_inj htail hl).1⟩
  · rintro ⟨rfl, rfl⟩
    exact ⟨_, constructDataKey_eq ns' key' b n, head_encode_ne_ff b _⟩

/-- Every data key decodes back to its numbers. -/
theorem decodeBlockNumTranNum_constructDataKey (ns key : String) (b n : UInt64) :
    (constructRangeScan ns key).decodeBlockNumTranNum (constructDataKey ns key b n) =
      .ok (b, n) := by
  have htrim : trimPrefix (constructDataKey ns key b n) (constructRangeScan ns key).startKey =
      encodeOrderPreservingVarUint64 b ++ encodeOrderPreservingVarUint64 n := by
    rw [trimPrefix, constructDataKey_eq, if_pos (List.isPrefixOf_iff_prefix.mpr
      (List.prefix_append _ _)), List.drop_left]
  have hn := decode_encode_append n []
  rw [List.append_nil] at hn
  simp only [RangeScan.decodeBlockNumTranNum, htrim, decode_encode_append, List.drop_left, hn,
    List.length_append, ne_eq, not_true_eq_false, if_false]

/-- A data key holds one namespace, key and pair of numbers, whatever the key's length. -/
theorem constructDataKey_inj (hns : 0x00 ∉ goBytes ns) (hns' : 0x00 ∉ goBytes ns')
    {b n b' n' : UInt64} (h : constructDataKey ns key b n = constructDataKey ns' key' b' n') :
    ns = ns' ∧ key = key' ∧ b = b' ∧ n = n' := by
  simp only [constructDataKey, compositeKeySep, List.append_assoc, List.cons_append,
    List.nil_append] at h
  obtain ⟨hnames, h⟩ := List.append_cons_inj_of_not_mem hns hns' h
  obtain ⟨hlen, htail⟩ := encode_append_inj.mp h
  -- the key lengths agree modulo `2^64`, and the numbers after the keys take at most 18 bytes
  have hmod : (goBytes key).length % 2 ^ 64 = (goBytes key').length % 2 ^ 64 := by
    simpa using congrArg UInt64.toNat hlen
  have hsum := congrArg List.length htail
  simp only [List.length_append, List.length_cons, length_encode] at hsum
  have hb := byteLength_toNat_le b
  have hn := byteLength_toNat_le n
  have hb' := byteLength_toNat_le b'
  have hn' := byteLength_toNat_le n'
  obtain ⟨hk, hnums⟩ := List.append_inj htail (by omega)
  obtain ⟨rfl, hrest⟩ := encode_append_inj.mp (List.cons.inj hnums).2
  have hrest' : encodeOrderPreservingVarUint64 n ++ [] = encodeOrderPreservingVarUint64 n' ++ [] := by
    simpa using hrest
  exact ⟨goBytes_inj hnames, goBytes_inj hk, rfl, (encode_append_inj.mp hrest').1⟩

end Keys

/-! ## What a commit writes -/

section Commit

variable (dec : TxDecoder) (txsFilter : Bytes)

/-- The transaction `tranNo + i`, the `i`-th of the envelopes, is valid in the filter and an
    endorser transaction with this read-write set. -/
def ValidEndorserTxAt (envs : List Bytes) (tranNo i : Nat) (txRWSet : TxRwSet) : Prop :=
  txsFilter[tranNo + i]? = some txValidationCodeValid ∧
    ∃ envBytes chdr, envs[i]? = some envBytes ∧ dec.channelHeader envBytes = some chdr ∧
      chdr.type = headerTypeEndorserTransaction ∧ dec.txRWSet envBytes = some txRWSet

variable {dec txsFilter} {blockNo : UInt64} {envBytes : Bytes} {rest : List Bytes} {tranNo : Nat}

theorem mem_txDataKeys {tranNum : UInt64} {txRWSet : TxRwSet} {k : Bytes} :
    k ∈ txDataKeys blockNo tranNum txRWSet ↔ ∃ nsRWSet ∈ txRWSet.nsRwSets,
      ∃ kvWrite ∈ nsRWSet.kvRwSet.writes,
        k = constructDataKey nsRWSet.nameSpace kvWrite.key blockNo tranNum := by
  simp [txDataKeys, eq_comm]

/-- The transaction is one of the envelopes. -/
theorem ValidEndorserTxAt.lt_length {envs : List Bytes} {i : Nat} {txRWSet : TxRwSet}
    (h : ValidEndorserTxAt dec txsFilter envs tranNo i txRWSet) : i < envs.length := by
  obtain ⟨-, envBytes, -, henv, -⟩ := h
  exact (List.getElem?_eq_some_iff.mp henv).1

theorem validEndorserTxAt_succ {i : Nat} {txRWSet : TxRwSet} :
    ValidEndorserTxAt dec txsFilter (envBytes :: rest) tranNo (i + 1) txRWSet ↔
      ValidEndorserTxAt dec txsFilter rest (tranNo + 1) i txRWSet := by
  simp only [ValidEndorserTxAt, List.getElem?_cons_succ, Nat.add_assoc, Nat.add_comm 1 i]

/-- One transaction of the loop: it is skipped, or its writes are put; the loop goes on with
    the next. -/
theorem commitTxs_cons {dbBatch : UpdateBatch} {r : Nat × UpdateBatch}
    (h : commitTxs dec blockNo txsFilter tranNo dbBatch (envBytes :: rest) = .ok r) :
    ∃ keys : List Bytes,
      (∀ k, k ∈ keys ↔ ∃ txRWSet, ValidEndorserTxAt dec txsFilter (envBytes :: rest) tranNo 0
        txRWSet ∧ k ∈ txDataKeys blockNo tranNo.toUInt64 txRWSet) ∧
      commitTxs dec blockNo txsFilter (tranNo + 1)
        (keys.foldl (fun b k => b.put k emptyValue) dbBatch) rest = .ok r := by
  simp only [ValidEndorserTxAt, Nat.add_zero, List.getElem?_cons_zero, Option.some.injEq]
  unfold commitTxs at h
  cases hflag : txsFilter[tranNo]? with
  | none => simp [hflag] at h
  | some flag =>
    simp only [hflag, ne_eq] at h
    by_cases hvalid : flag = txValidationCodeValid
    · rw [if_neg (not_not.mpr hvalid)] at h
      subst hvalid
      cases hchdr : dec.channelHeader envBytes with
      | none => simp [hchdr] at h
      | some chdr =>
        simp only [hchdr] at h
        by_cases htype : chdr.type = headerTypeEndorserTransaction
        · -- a valid endorser transaction: its writes are put
          rw [if_pos htype] at h
          cases hrw : dec.txRWSet envBytes with
          | none => simp [hrw] at h
          | some txRWSet =>
            simp only [hrw] at h
            refine ⟨txDataKeys blockNo tranNo.toUInt64 txRWSet, fun k => ?_, h⟩
            simp [hchdr, htype, hrw]
        · rw [if_neg htype] at h
          refine ⟨[], fun k => ?_, h⟩
          simp [hchdr, htype]
    · -- an invalid transaction is skipped
      rw [if_pos hvalid] at h
      refine ⟨[], fun k => ?_, h⟩
      simp [hvalid]

/-- The loop of a commit puts, after what the batch held, the data keys of the valid endorser
    transactions. -/
theorem commitTxs_ok : ∀ {envs : List Bytes} {tranNo tranNo' : Nat} {dbBatch dbBatch' : UpdateBatch},
    commitTxs dec blockNo txsFilter tranNo dbBatch envs = .ok (tranNo', dbBatch') →
      tranNo' = tranNo + envs.length ∧ ∃ keys : List Bytes,
        dbBatch' = { dbBatch with leveldbBatch := dbBatch.leveldbBatch ++
          (keys.map fun k => .put (constructLevelKey dbBatch.dbName k) emptyValue) } ∧
        ∀ k, k ∈ keys ↔ ∃ i txRWSet, ValidEndorserTxAt dec txsFilter envs tranNo i txRWSet ∧
          k ∈ txDataKeys blockNo (tranNo + i).toUInt64 txRWSet
  | [], tranNo, tranNo', dbBatch, dbBatch', h => by
    obtain ⟨rfl, rfl⟩ := Prod.mk.inj (Except.ok.inj h)
    exact ⟨rfl, [], by simp, fun k => by simp [ValidEndorserTxAt]⟩
  | envBytes :: rest, tranNo, tranNo', dbBatch, dbBatch', h => by
    obtain ⟨keys, hkeys, h⟩ := commitTxs_cons h
    obtain ⟨hnum, keys', rfl, hkeys'⟩ := commitTxs_ok h
    refine ⟨by simp [hnum]; omega, keys ++ keys', by simp [foldl_put], fun k => ?_⟩
    -- the first transaction, then the others from `tranNo + 1` on
    rw [List.mem_append, hkeys, hkeys']
    constructor
    · rintro (⟨txRWSet, hv, hk⟩ | ⟨i, txRWSet, hv, hk⟩)
      · exact ⟨0, txRWSet, hv, by simpa using hk⟩
      · refine ⟨i + 1, txRWSet, validEndorserTxAt_succ.mpr hv, ?_⟩
        rwa [show tranNo + (i + 1) = tranNo + 1 + i by omega]
    · rintro ⟨i, txRWSet, hv, hk⟩
      cases i with
      | zero => exact .inl ⟨txRWSet, hv, by simpa using hk⟩
      | succ i =>
        refine .inr ⟨i, txRWSet, validEndorserTxAt_succ.mp hv, ?_⟩
        rwa [show tranNo + 1 + i = tranNo + (i + 1) by omega]

/-- The parts of a block that `DB.Commit` reads: its number, its envelopes and its
    transaction filter. -/
def blockParts (block : Protoutil.Block) : Option (UInt64 × List Bytes × Bytes) :=
  match block.header, block.data, block.metadata with
  | some header, some data, some metadata =>
    metadata.metadata[transactionsFilterIndex]?.map fun txsFilter =>
      (header.number, data.data, txsFilter)
  | _, _, _ => none

theorem blockParts_eq_some {block : Protoutil.Block} {envs : List Bytes}
    (h : blockParts block = some (blockNo, envs, txsFilter)) :
    block.header.map BlockHeader.number = some blockNo ∧ block.data.map BlockData.data = some envs := by
  unfold blockParts at h
  split at h
  · rename_i header data metadata hheader hdata _
    obtain ⟨_, -, h⟩ := Option.map_eq_some_iff.mp h
    simp only [Prod.mk.injEq] at h
    obtain ⟨rfl, rfl, -⟩ := h
    simp [hheader, hdata]
  · cases h

variable (dec) in
/-- A valid endorser transaction of the block writes the data key. -/
def BlockWritesKey (block : Protoutil.Block) (k : Bytes) : Prop :=
  ∃ blockNo envs txsFilter, blockParts block = some (blockNo, envs, txsFilter) ∧
    ∃ i txRWSet, ValidEndorserTxAt dec txsFilter envs 0 i txRWSet ∧
      k ∈ txDataKeys blockNo i.toUInt64 txRWSet

/-- A commit binds the save point and the data keys of the block, and keeps what was bound. -/
theorem commit_ok {db db' : DB} {dbName : Bytes} {block : Protoutil.Block}
    (h : commit dec db dbName block = .ok db') (k : Bytes) :
    (DBHandle.get db' dbName k).isSome ↔
      (DBHandle.get db dbName k).isSome ∨ k = savePointKey ∨ BlockWritesKey dec block k := by
  unfold commit at h
  split at h
  · rename_i header data metadata hheader hdata hmetadata
    cases hfilter : metadata.metadata[transactionsFilterIndex]? with
    | none => simp [hfilter] at h
    | some txsFilter =>
      simp only [hfilter] at h
      cases hloop : commitTxs dec header.number txsFilter 0 (newUpdateBatch dbName) data.data with
      | error err => simp [hloop] at h
      | ok r =>
        obtain ⟨tranNo, dbBatch⟩ := r
        simp only [hloop, Except.ok.injEq] at h
        subst h
        obtain ⟨-, keys, rfl, hkeys⟩ := commitTxs_ok hloop
        have hparts : blockParts block = some (header.number, data.data, txsFilter) := by
          simp [blockParts, hheader, hdata, hmetadata, hfilter]
        -- the batch: the data keys, then the save point, all under the handle's name
        have hputs : ∀ op ∈ (newUpdateBatch dbName).leveldbBatch ++
            (keys.map fun k => .put (constructLevelKey dbName k) emptyValue) ++
            [.put (constructLevelKey dbName savePointKey) (newHeight header.number.toNat tranNo).toBytes],
            ∃ key value, op = .put key value := by
          intro op hop
          simp only [newUpdateBatch, List.nil_append, List.mem_append, List.mem_map,
            List.mem_singleton] at hop
          rcases hop with ⟨k, -, rfl⟩ | rfl <;> exact ⟨_, _, rfl⟩
        rw [DBHandle.get, DBHandle.get, writeBatch_eq_write]
        simp only [UpdateBatch.put, newUpdateBatch] at hputs ⊢
        rw [DB.isSome_get?_write_of_puts hputs]
        simp only [List.nil_append, List.mem_append, List.mem_map, List.mem_singleton,
          Op.put.injEq, constructLevelKey, List.append_cancel_left_eq]
        constructor
        · rintro (h | ⟨v, ⟨k', hk', rfl, rfl⟩ | ⟨rfl, rfl⟩⟩)
          · exact .inl h
          · exact .inr (.inr ⟨_, _, _, hparts, (hkeys k').mp hk' |>.imp fun i => by simp⟩)
          · exact .inr (.inl rfl)
        · rintro (h | rfl | ⟨blockNo, envs, txsFilter', hparts', hw⟩)
          · exact .inl h
          · exact .inr ⟨_, .inr ⟨rfl, rfl⟩⟩
          · rw [hparts] at hparts'
            obtain ⟨rfl, rfl, rfl⟩ := hparts'
            exact .inr ⟨_, .inl ⟨k, (hkeys k).mpr (hw.imp fun i => by simp), rfl, rfl⟩⟩
  · simp at h

/-- After a run of commits, a key is bound when it was, or it is the save point, or a block of
    the run writes it. -/
theorem commitAll_ok {dbName : Bytes} : ∀ {blocks : List Protoutil.Block} {db db' : DB},
    commitAll dec dbName db blocks = .ok db' → ∀ k,
      ((DBHandle.get db' dbName k).isSome ↔ (DBHandle.get db dbName k).isSome ∨
        (k = savePointKey ∧ blocks ≠ []) ∨ ∃ block ∈ blocks, BlockWritesKey dec block k)
  | [], db, db', h, k => by
    obtain rfl : db = db' := Except.ok.inj h
    simp
  | block :: blocks, db, db', h, k => by
    unfold commitAll at h
    cases hc : commit dec db dbName block with
    | error err => simp [hc] at h
    | ok db₁ =>
      simp only [hc] at h
      rw [commitAll_ok h k, commit_ok hc k]
      simp only [List.mem_cons, exists_eq_or_imp, ne_eq, reduceCtorEq, not_false_eq_true,
        and_true]
      tauto

end Commit

/-! ## The scanner -/

section Scanner

variable {dec : TxDecoder} {blocks : List Protoutil.Block}

/-- What `historyScanner.Next` returns at a binding of the shared database under the cursor. -/
def HistoryScanner.readItem (dec : TxDecoder) (blocks : List Protoutil.Block) (scanner : HistoryScanner)
    (e : Bytes × Bytes) : Except HistoryError KeyModification :=
  match retrieveAppKey e.1 with
  | none => .error .slicePanic
  | some historyKey => scanner.keyModification dec blocks historyKey

/-- From past the `m`-th binding, `Next` reads it and stops at it. -/
theorem HistoryScanner.next_of_succ {scanner : HistoryScanner} {m : Nat} (h1 : 1 ≤ m)
    (h2 : m ≤ scanner.dbItr.iterator.items.length) (hpos : scanner.dbItr.iterator.pos = m + 1) :
    scanner.next dec blocks =
      (scanner.readItem dec blocks scanner.dbItr.iterator.items[m - 1]).map
        fun r => (some r, { scanner with
          dbItr := { scanner.dbItr with iterator := { scanner.dbItr.iterator with pos := m } } }) := by
  have hprev := Iter.prev_of_succ h1 h2 hpos
  have hitem : ({ items := scanner.dbItr.iterator.items, pos := m } : Iter).item? =
      some scanner.dbItr.iterator.items[m - 1] :=
    Iter.item?_of_pos (by simp; omega) (by simp; omega)
  unfold HistoryScanner.next HistoryScanner.readItem
  simp only [Iterator.prev, hprev, Bool.not_true, Bool.false_eq_true, if_false, Iterator.key,
    hitem, Option.bind_eq_bind, Option.bind_some]
  cases retrieveAppKey scanner.dbItr.iterator.items[m - 1].1 <;> rfl

/-- Before the second binding, `Next` returns nil. -/
theorem HistoryScanner.next_of_le_one {scanner : HistoryScanner}
    (h : scanner.dbItr.iterator.pos ≤ 1) :
    ∃ scanner', scanner.next dec blocks = .ok (none, scanner') := by
  have hprev := Iter.prev_fst_of_le_one h
  unfold HistoryScanner.next
  simp only [Iterator.prev, hprev, Bool.not_false, if_true]
  exact ⟨_, rfl⟩

/-- From past the `m`-th binding, the scanner reads the first `m` bindings from the last, and
    stops at the first failure. -/
theorem HistoryScanner.results_of_pos : ∀ (m fuel : Nat) (scanner : HistoryScanner), m < fuel →
    m ≤ scanner.dbItr.iterator.items.length → scanner.dbItr.iterator.pos = m + 1 →
      scanner.results dec blocks fuel =
        ((scanner.dbItr.iterator.items.take m).reverse).mapM (scanner.readItem dec blocks)
  | 0, fuel + 1, scanner, _, _, hpos => by
    obtain ⟨scanner', h⟩ :=
      @HistoryScanner.next_of_le_one dec blocks scanner (show scanner.dbItr.iterator.pos ≤ 1 by omega)
    simp only [HistoryScanner.results, h]
    rfl
  | m + 1, fuel + 1, scanner, hfuel, hm, hpos => by
    let scanner' := { scanner with
      dbItr := { scanner.dbItr with iterator := { scanner.dbItr.iterator with pos := m + 1 } } }
    -- reading a binding does not look at the cursor
    have hread : scanner'.readItem dec blocks = scanner.readItem dec blocks := rfl
    have ih := HistoryScanner.results_of_pos m fuel scanner' (by omega) (by simp [scanner']; omega) rfl
    rw [hread] at ih
    rw [HistoryScanner.results, HistoryScanner.next_of_succ (by omega) hm hpos,
      List.take_succ_eq_append_getElem (by omega), List.reverse_append, List.reverse_singleton,
      List.singleton_append, List.mapM_cons]
    simp only [Nat.add_sub_cancel]
    -- the binding under the cursor, then the ones before it
    cases scanner.readItem dec blocks scanner.dbItr.iterator.items[m] with
    | error err => rfl
    | ok r =>
      simp only [Except.map]
      rw [ih]
      cases (List.take m scanner.dbItr.iterator.items).reverse.mapM
        (scanner.readItem dec blocks) <;> rfl

/-- `GetHistoryForKey` leaves the cursor past the last binding of the range, or before the
    first of none. -/
theorem iterator_getHistoryForKey (db : DB) (dbName : Bytes) (nameSpace key : String) :
    (getHistoryForKey db dbName nameSpace key).dbItr.iterator =
      let it := (getIterator db dbName (constructRangeScan nameSpace key).startKey
        (some (constructRangeScan nameSpace key).endKey)).iterator
      if it.items = [] then { it with pos := 0 } else { it with pos := it.items.length + 1 } := by
  rw [← Iter.last_next]
  unfold getHistoryForKey Iterator.last Iterator.next
  dsimp only
  -- `Last`, then `Next` when `Last` found a binding
  rcases (getIterator db dbName (constructRangeScan nameSpace key).startKey
    (some (constructRangeScan nameSpace key).endKey)).iterator.last with ⟨isLast, it⟩
  cases isLast <;> rfl

/-- The scanner of `GetHistoryForKey` reads the bindings of its range from the last back, and
    stops at the first failure. -/
theorem results_getHistoryForKey (db : DB) (dbName : Bytes) (nameSpace key : String)
    {fuel : Nat} (hfuel : (getHistoryForKey db dbName nameSpace key).dbItr.iterator.items.length < fuel) :
    (getHistoryForKey db dbName nameSpace key).results dec blocks fuel =
      (getHistoryForKey db dbName nameSpace key).dbItr.iterator.items.reverse.mapM
        ((getHistoryForKey db dbName nameSpace key).readItem dec blocks) := by
  set scanner := getHistoryForKey db dbName nameSpace key
  set it := (getIterator db dbName (constructRangeScan nameSpace key).startKey
    (some (constructRangeScan nameSpace key).endKey)).iterator
  have hit : scanner.dbItr.iterator =
      if it.items = [] then { it with pos := 0 } else { it with pos := it.items.length + 1 } :=
    iterator_getHistoryForKey db dbName nameSpace key
  have hitems : scanner.dbItr.iterator.items = it.items := by
    rw [hit]
    split <;> rfl
  by_cases hnil : it.items = []
  · -- no binding: the cursor stays before the first
    have hpos : scanner.dbItr.iterator.pos = 0 := by rw [hit, if_pos hnil]
    obtain ⟨fuel, rfl⟩ := Nat.exists_eq_add_one_of_ne_zero (show fuel ≠ 0 by omega)
    obtain ⟨scanner', h⟩ :=
      @HistoryScanner.next_of_le_one dec blocks scanner (show scanner.dbItr.iterator.pos ≤ 1 by omega)
    rw [HistoryScanner.results, h, hitems, hnil]
    rfl
  · have hpos : scanner.dbItr.iterator.pos = scanner.dbItr.iterator.items.length + 1 := by
      rw [hitems, hit, if_neg hnil]
    rw [HistoryScanner.results_of_pos _ fuel scanner hfuel le_rfl hpos, List.take_length]

theorem items_getHistoryForKey (db : DB) (dbName : Bytes) (nameSpace key : String) :
    (getHistoryForKey db dbName nameSpace key).dbItr.iterator.items =
      ((view db dbName).filter fun e => decide (InRange (constructRangeScan nameSpace key).startKey
        (some (constructRangeScan nameSpace key).endKey) e.1)).map
          fun e => (constructLevelKey dbName e.1, e.2) := by
  rw [iterator_getHistoryForKey, ← items_getIterator]
  dsimp only
  split <;> rfl

end Scanner

/-! ## The history of a key -/

section Faithful

/-- A read-write set as the validator lets it through and as Go's strings are: each namespace
    listed once (a set that lists one twice is marked `ILLEGAL_WRITESET`), namespaces without
    `0x00`, and keys shorter than `2^64` bytes. -/
def WellFormedRwSet (txRWSet : TxRwSet) : Prop :=
  (txRWSet.nsRwSets.map (·.nameSpace)).Nodup ∧ ∀ nsRWSet ∈ txRWSet.nsRwSets,
    0x00 ∉ goBytes nsRWSet.nameSpace ∧
      ∀ kvWrite ∈ nsRWSet.kvRwSet.writes, (goBytes kvWrite.key).length < 2 ^ 64

/-- The blocks of a ledger, as the block store holds them: no two of one number, fewer than
    `2^64` transactions a block, and a well-formed read-write set in every valid endorser
    transaction. -/
structure LedgerBlocks (dec : TxDecoder) (blocks : List Protoutil.Block) : Prop where
  numbers_nodup : (blocks.map fun block => block.header.map BlockHeader.number).Nodup
  length_lt : ∀ block ∈ blocks, ∀ blockNo envs txsFilter,
    blockParts block = some (blockNo, envs, txsFilter) → envs.length < 2 ^ 64
  wellFormed : ∀ block ∈ blocks, ∀ blockNo envs txsFilter,
    blockParts block = some (blockNo, envs, txsFilter) →
      ∀ i txRWSet, ValidEndorserTxAt dec txsFilter envs 0 i txRWSet → WellFormedRwSet txRWSet

variable (dec : TxDecoder) (blocks : List Protoutil.Block)

/-- Transaction `tranNum` of block `blockNum` is a valid endorser transaction whose read-write
    set writes, or deletes, the key in the namespace. -/
def WritesKey (nameSpace key : String) (blockNum tranNum : UInt64) : Prop :=
  ∃ block ∈ blocks, ∃ envs txsFilter, blockParts block = some (blockNum, envs, txsFilter) ∧
    ∃ txRWSet, ValidEndorserTxAt dec txsFilter envs 0 tranNum.toNat txRWSet ∧
      ∃ nsRWSet ∈ txRWSet.nsRwSets, nsRWSet.nameSpace = nameSpace ∧
        ∃ kvWrite ∈ nsRWSet.kvRwSet.writes, kvWrite.key = key

/-- The key modification carries the id and the timestamp of transaction `tranNum` of block
    `blockNum`, and the value and the delete mark of a write of the key in the namespace
    there. -/
def ReportsWrite (nameSpace key : String) (blockNum tranNum : UInt64) (km : KeyModification) :
    Prop :=
  ∃ block ∈ blocks, ∃ envs txsFilter, blockParts block = some (blockNum, envs, txsFilter) ∧
    ∃ envBytes chdr txRWSet, envs[tranNum.toNat]? = some envBytes ∧
      dec.channelHeader envBytes = some chdr ∧ dec.txRWSet envBytes = some txRWSet ∧
      ∃ nsRWSet ∈ txRWSet.nsRwSets, nsRWSet.nameSpace = nameSpace ∧
        ∃ kvWrite ∈ nsRWSet.kvRwSet.writes, kvWrite.key = key ∧
          km = ⟨chdr.txId, kvWrite.value, chdr.timestamp, isKVWriteDelete kvWrite⟩

variable {dec blocks} {dbName : Bytes} {db : DB} {nameSpace key : String}

/-- The block store finds a transaction of a block by the block's number, when no other block
    has it. -/
theorem retrieveTxByBlockNumTranNum_of_mem
    (hnodup : (blocks.map fun block => block.header.map BlockHeader.number).Nodup)
    {block : Protoutil.Block} (hmem : block ∈ blocks) {blockNum : UInt64} {envs : List Bytes}
    {txsFilter : Bytes} (hparts : blockParts block = some (blockNum, envs, txsFilter))
    {tranNum : UInt64} {envBytes : Bytes} (henv : envs[tranNum.toNat]? = some envBytes) :
    retrieveTxByBlockNumTranNum blocks blockNum tranNum = some envBytes := by
  obtain ⟨hheader, hdata⟩ := blockParts_eq_some hparts
  have hfind : blocks.find? (fun block => block.header.map BlockHeader.number == some blockNum) =
      some block := by
    apply FoldM.find?_eq_some_of_unique hmem (by simp [hheader])
    intro block' hmem' hnum
    exact List.inj_on_of_nodup_map hnodup hmem' hmem (by simpa [hheader] using hnum)
  obtain ⟨data, hdata', rfl⟩ := Option.map_eq_some_iff.mp hdata
  simp [retrieveTxByBlockNumTranNum, hfind, hdata', henv]

/-- In a read-write set that lists each namespace once, the reader finds a write of the key in
    the namespace. -/
theorem getKeyModificationFromTran_of_write {envBytes : Bytes} {chdr : ChannelHeader}
    {txRWSet : TxRwSet} (hchdr : dec.channelHeader envBytes = some chdr)
    (hrw : dec.txRWSet envBytes = some txRWSet)
    (hnodup : (txRWSet.nsRwSets.map (·.nameSpace)).Nodup) {nsRWSet : NsRwSet}
    (hmem : nsRWSet ∈ txRWSet.nsRwSets) (hname : nsRWSet.nameSpace = nameSpace)
    {kvWrite : KVWrite} (hw : kvWrite ∈ nsRWSet.kvRwSet.writes) (hkey : kvWrite.key = key) :
    ∃ kvWrite' ∈ nsRWSet.kvRwSet.writes, kvWrite'.key = key ∧
      getKeyModificationFromTran dec envBytes nameSpace key =
        .ok (some ⟨chdr.txId, kvWrite'.value, chdr.timestamp, isKVWriteDelete kvWrite'⟩) := by
  -- the namespace is listed once: its first listing is this one
  have hfind : txRWSet.nsRwSets.find? (·.nameSpace = nameSpace) = some nsRWSet := by
    apply FoldM.find?_eq_some_of_unique hmem (by simpa using hname)
    intro nsRWSet' hmem' hname'
    exact List.inj_on_of_nodup_map hnodup hmem' hmem (by simpa [hname] using hname')
  obtain ⟨kvWrite', hfound⟩ := Option.isSome_iff_exists.mp
    ((List.find?_isSome (p := fun x : KVWrite => decide (x.key = key))).mpr
      ⟨kvWrite, hw, by simpa using hkey⟩)
  refine ⟨kvWrite', List.mem_of_find?_eq_some hfound, by simpa using List.find?_some hfound, ?_⟩
  simp [getKeyModificationFromTran, hrw, hchdr, hfind, hfound]

/-- At the data key of a valid write, the scanner reads the write. -/
theorem keyModification_of_writesKey (hblocks : LedgerBlocks dec blocks)
    {scanner : HistoryScanner}
    (hrange : scanner.rangeScan = constructRangeScan scanner.nameSpace scanner.key) {b n : UInt64}
    (hw : WritesKey dec blocks scanner.nameSpace scanner.key b n) :
    ∃ km, scanner.keyModification dec blocks (constructDataKey scanner.nameSpace scanner.key b n) =
      .ok km ∧ ReportsWrite dec blocks scanner.nameSpace scanner.key b n km := by
  obtain ⟨block, hmem, envs, txsFilter, hparts, txRWSet, hvalid, nsRWSet, hns, hname, kvWrite,
    hkw, hkey⟩ := hw
  obtain ⟨hnodup, -⟩ := hblocks.wellFormed block hmem _ _ _ hparts _ _ hvalid
  obtain ⟨-, envBytes, chdr, henv, hchdr, -, hrw⟩ := hvalid
  obtain ⟨kvWrite', hkw', hkey', hget⟩ :=
    getKeyModificationFromTran_of_write hchdr hrw hnodup hns hname hkw hkey
  refine ⟨_, ?_, block, hmem, envs, txsFilter, hparts, envBytes, chdr, txRWSet, henv, hchdr, hrw,
    nsRWSet, hns, hname, kvWrite', hkw', hkey', rfl⟩
  rw [HistoryScanner.keyModification, hrange, decodeBlockNumTranNum_constructDataKey]
  simp only [retrieveTxByBlockNumTranNum_of_mem hblocks.numbers_nodup hmem hparts henv, hget]

/-- After a run of commits from the empty database, the bound keys are the save point and the
    data keys of the blocks. -/
theorem mem_view_commitAll (hdb : commitAll dec dbName DB.empty blocks = .ok db) (k : Bytes) :
    (∃ value, (k, value) ∈ view db dbName) ↔
      (k = savePointKey ∧ blocks ≠ []) ∨ ∃ block ∈ blocks, BlockWritesKey dec block k := by
  have hempty : DBHandle.get DB.empty dbName k = none := rfl
  have h := commitAll_ok hdb k
  simp only [hempty, Option.isSome_none, Bool.false_eq_true, false_or] at h
  rw [← h, Option.isSome_iff_exists]
  simp only [get_eq_some_iff]

/-- A binding in the range scan of a namespace and a key is a data key of theirs, written by a
    valid transaction. -/
theorem writesKey_of_mem_range (hblocks : LedgerBlocks dec blocks)
    (hdb : commitAll dec dbName DB.empty blocks = .ok db) (hns : 0x00 ∉ goBytes nameSpace)
    (hkey : (goBytes key).length < 2 ^ 64) {e : Bytes × Bytes} (he : e ∈ view db dbName)
    (hin : InRange (constructRangeScan nameSpace key).startKey
      (some (constructRangeScan nameSpace key).endKey) e.1) :
    ∃ b n, e.1 = constructDataKey nameSpace key b n ∧ WritesKey dec blocks nameSpace key b n := by
  rw [inRange_some_iff] at hin
  rcases (mem_view_commitAll hdb e.1).mp ⟨e.2, he⟩ with ⟨hsave, -⟩ | ⟨block, hmem, hwrites⟩
  · -- the save point is shorter than the start key
    obtain ⟨r, hr, -⟩ := ByteOrder.le_and_lt_append_ff_iff.mp hin
    have hlen := congrArg List.length hr
    simp [hsave, savePointKey, constructRangeScan, compositeKeySep] at hlen
    omega
  · obtain ⟨blockNo, envs, txsFilter, hparts, i, txRWSet, hvalid, hk⟩ := hwrites
    obtain ⟨nsRWSet, hnsmem, kvWrite, hkw, hk⟩ := mem_txDataKeys.mp hk
    obtain ⟨-, hwf⟩ := hblocks.wellFormed block hmem _ _ _ hparts _ _ hvalid
    obtain ⟨hns', hkeys⟩ := hwf nsRWSet hnsmem
    rw [hk] at hin
    obtain ⟨rfl, rfl⟩ := (inRangeScan_iff hns hns' hkey (hkeys kvWrite hkw) _ _).mp hin
    -- the transaction's index is below `2^64`, so its `uint64` gives it back
    have hi : i.toUInt64.toNat = i := by
      have := hblocks.length_lt block hmem _ _ _ hparts
      simpa using Nat.mod_eq_of_lt (show i < 2 ^ 64 by have := hvalid.lt_length; omega)
    refine ⟨blockNo, i.toUInt64, hk, block, hmem, envs, txsFilter, hparts, txRWSet, ?_, nsRWSet,
      hnsmem, rfl, kvWrite, hkw, rfl⟩
    rwa [hi]

/-- The data key of a valid write is bound, in the range scan of its namespace and key. -/
theorem mem_range_of_writesKey (hdb : commitAll dec dbName DB.empty blocks = .ok db)
    (hns : 0x00 ∉ goBytes nameSpace) (hkey : (goBytes key).length < 2 ^ 64) {b n : UInt64}
    (hw : WritesKey dec blocks nameSpace key b n) :
    ∃ value, (constructDataKey nameSpace key b n, value) ∈ (view db dbName).filter
      fun e => decide (InRange (constructRangeScan nameSpace key).startKey
        (some (constructRangeScan nameSpace key).endKey) e.1) := by
  obtain ⟨block, hmem, envs, txsFilter, hparts, txRWSet, hvalid, nsRWSet, hnsmem, hname, kvWrite,
    hkw, hk⟩ := hw
  have hwrites : BlockWritesKey dec block (constructDataKey nameSpace key b n) := by
    refine ⟨b, envs, txsFilter, hparts, n.toNat, txRWSet, hvalid, mem_txDataKeys.mpr
      ⟨nsRWSet, hnsmem, kvWrite, hkw, ?_⟩⟩
    rw [hname, hk]
    simp
  obtain ⟨value, hv⟩ := (mem_view_commitAll hdb _).mpr (.inr ⟨block, hmem, hwrites⟩)
  refine ⟨value, List.mem_filter.mpr ⟨hv, ?_⟩⟩
  rw [decide_eq_true_eq, inRange_some_iff]
  exact (inRangeScan_iff hns hns hkey hkey b n).mpr ⟨rfl, rfl⟩

/-- The history of a key, after a run of commits of ledger blocks from the empty database: the
    scanner of `GetHistoryForKey` visits the data keys of the valid transactions that write the
    key in the namespace, and no other, each once and newest first, and reads the write of each
    transaction. -/
theorem getHistoryForKey_faithful (hblocks : LedgerBlocks dec blocks) (hname : 0x00 ∉ dbName)
    (hdb : commitAll dec dbName DB.empty blocks = .ok db) (hns : 0x00 ∉ goBytes nameSpace)
    (hkey : (goBytes key).length < 2 ^ 64) :
    ∃ hs : List (UInt64 × UInt64),
      (∀ b n, (b, n) ∈ hs ↔ WritesKey dec blocks nameSpace key b n) ∧
      hs.Pairwise (fun p q => Prod.lexLt q p) ∧
      (getHistoryForKey db dbName nameSpace key).dbItr.iterator.items.map Prod.fst =
        hs.reverse.map (fun p => constructLevelKey dbName (constructDataKey nameSpace key p.1 p.2)) ∧
      ∀ fuel, hs.length < fuel → ∃ kms,
        (getHistoryForKey db dbName nameSpace key).results dec blocks fuel = .ok kms ∧
          List.Forall₂ (fun p km => ReportsWrite dec blocks nameSpace key p.1 p.2 km) hs kms := by
  set scanner := getHistoryForKey db dbName nameSpace key
  set R := (view db dbName).filter fun e => decide (InRange (constructRangeScan nameSpace key).startKey
    (some (constructRangeScan nameSpace key).endKey) e.1)
  set dataKey := fun p : UInt64 × UInt64 => constructDataKey nameSpace key p.1 p.2
  -- every binding of the range decodes to the numbers of its data key
  obtain ⟨bs, -, hbs⟩ := FoldM.mapM_eq_ok_forall₂
    (f := fun e => (constructRangeScan nameSpace key).decodeBlockNumTranNum e.1)
    (P := fun e p => e.1 = dataKey p) (l := R) fun e he => by
      obtain ⟨he, hin⟩ := List.mem_filter.mp he
      obtain ⟨b, n, hk, -⟩ := writesKey_of_mem_range hblocks hdb hns hkey he (of_decide_eq_true hin)
      exact ⟨(b, n), by rw [hk, decodeBlockNumTranNum_constructDataKey], hk⟩
  have hkeys : R.map Prod.fst = bs.map dataKey := by
    rw [← List.forall₂_eq_eq_eq, List.forall₂_map_left_iff, List.forall₂_map_right_iff]
    exact hbs
  have hinj : Function.Injective dataKey := by
    intro p q h
    obtain ⟨-, -, h1, h2⟩ := constructDataKey_inj hns hns h
    exact Prod.ext h1 h2
  have hmem : ∀ b n, (b, n) ∈ bs ↔ WritesKey dec blocks nameSpace key b n := by
    intro b n
    rw [← List.mem_map_of_injective hinj, ← hkeys, List.mem_map]
    constructor
    · rintro ⟨e, he, hk⟩
      obtain ⟨he, hin⟩ := List.mem_filter.mp he
      obtain ⟨b', n', hk', hw⟩ :=
        writesKey_of_mem_range hblocks hdb hns hkey he (of_decide_eq_true hin)
      obtain ⟨-, -, rfl, rfl⟩ := constructDataKey_inj hns hns (hk'.symm.trans hk)
      exact hw
    · intro hw
      obtain ⟨value, hv⟩ := mem_range_of_writesKey hdb hns hkey hw
      exact ⟨_, hv, rfl⟩
  -- the range is sorted by key, and data keys sort by their numbers
  have hsorted : bs.Pairwise Prod.lexLt := by
    have h : (R.map Prod.fst).Pairwise (· < ·) :=
      List.pairwise_map.mpr ((sorted_view db dbName).filter _)
    rw [hkeys, List.pairwise_map] at h
    exact h.imp fun hlt => (constructDataKey_lt_constructDataKey_iff _ _ _ _ _ _).mp hlt
  have hitems : scanner.dbItr.iterator.items.map Prod.fst =
      bs.map fun p => constructLevelKey dbName (dataKey p) := by
    have h := congrArg (List.map (constructLevelKey dbName)) hkeys
    simpa [scanner, items_getHistoryForKey, List.map_map, Function.comp_def] using h
  refine ⟨bs.reverse, fun b n => by rw [List.mem_reverse, hmem], List.pairwise_reverse.mpr hsorted,
    by rw [List.reverse_reverse]; exact hitems, fun fuel hfuel => ?_⟩
  have hlen : scanner.dbItr.iterator.items.length = bs.length := by
    rw [← List.length_map (f := Prod.fst), hitems, List.length_map]
  rw [results_getHistoryForKey db dbName nameSpace key (by simp only [scanner] at hlen ⊢; simpa [hlen] using hfuel)]
  -- reading a binding looks at its key only
  have hread : scanner.readItem dec blocks =
      (fun k => scanner.readItem dec blocks (k, [])) ∘ Prod.fst := rfl
  rw [hread, ← List.mapM_map, List.map_reverse, hitems, ← List.map_reverse, List.mapM_map]
  apply FoldM.mapM_eq_ok_forall₂
  intro p hp
  rw [List.mem_reverse] at hp
  obtain ⟨km, hkm, hreport⟩ :=
    keyModification_of_writesKey hblocks
      (show scanner.rangeScan = constructRangeScan scanner.nameSpace scanner.key from rfl)
      ((hmem p.1 p.2).mp hp)
  refine ⟨km, ?_, hreport⟩
  simp only [Function.comp_apply, HistoryScanner.readItem, retrieveAppKey_constructLevelKey hname]
  exact hkm

/-- One block of one valid transaction, which writes one key. -/
theorem getHistoryForKey_faithful_single :
    let dec : TxDecoder := ⟨fun _ => some { type := headerTypeEndorserTransaction, txId := [1] },
      fun _ => some ⟨[⟨"ns", ⟨[], [], [⟨"k", false, [7]⟩], []⟩, []⟩]⟩⟩
    let block : Protoutil.Block :=
      ⟨some ⟨0, [], []⟩, some ⟨[[0x0a]]⟩, some ⟨[[], [], [txValidationCodeValid]]⟩⟩
    let db := DB.empty.write [.put (constructLevelKey [0x68] (constructDataKey "ns" "k" 0 0)) [],
      .put (constructLevelKey [0x68] savePointKey) (newHeight 0 1).toBytes]
    LedgerBlocks dec [block] ∧ (0x00 : UInt8) ∉ [0x68] ∧
      commitAll dec [0x68] DB.empty [block] = .ok db ∧ (0x00 : UInt8) ∉ goBytes "ns" ∧
      (goBytes "k").length < 2 ^ 64 ∧
      ∃ hs : List (UInt64 × UInt64),
        (∀ b n, (b, n) ∈ hs ↔ WritesKey dec [block] "ns" "k" b n) ∧
        hs.Pairwise (fun p q => Prod.lexLt q p) ∧
        (getHistoryForKey db [0x68] "ns" "k").dbItr.iterator.items.map Prod.fst =
          hs.reverse.map (fun p => constructLevelKey [0x68] (constructDataKey "ns" "k" p.1 p.2)) ∧
        ∀ fuel, hs.length < fuel → ∃ kms,
          (getHistoryForKey db [0x68] "ns" "k").results dec [block] fuel = .ok kms ∧
            List.Forall₂ (fun p km => ReportsWrite dec [block] "ns" "k" p.1 p.2 km) hs kms := by
  intro dec block db
  -- the one block's parts
  have hparts : ∀ blockNo envs txsFilter, blockParts block = some (blockNo, envs, txsFilter) →
      envs = [[0x0a]] := by
    intro blockNo envs txsFilter h
    simp only [blockParts, block, transactionsFilterIndex, Option.map_eq_some_iff] at h
    obtain ⟨_, -, h⟩ := h
    exact (Prod.mk.inj (Prod.mk.inj h).2).1.symm
  have hblocks : LedgerBlocks dec [block] := by
    refine ⟨List.nodup_singleton _, ?_, ?_⟩
    · intro block' hmem blockNo envs txsFilter h
      obtain rfl := List.mem_singleton.mp hmem
      rw [hparts _ _ _ h]
      decide
    · intro block' hmem blockNo envs txsFilter _ i txRWSet hvalid
      obtain ⟨-, envBytes, -, -, -, -, hrw⟩ := hvalid
      obtain rfl := Option.some.inj hrw.symm
      unfold WellFormedRwSet
      decide
  have hname : (0x00 : UInt8) ∉ [0x68] := by decide
  have hdb : commitAll dec [0x68] DB.empty [block] = .ok db := rfl
  have hns : (0x00 : UInt8) ∉ goBytes "ns" := by decide
  have hkey : (goBytes "k").length < 2 ^ 64 := by decide
  exact ⟨hblocks, hname, hdb, hns, hkey, getHistoryForKey_faithful hblocks hname hdb hns hkey⟩

/-- A valid transaction that lists the namespace twice, and writes the key in its second
    listing: the write is indexed, and `Next` reports that no write is found. -/
theorem next_duplicate_namespace :
    let dec : TxDecoder := ⟨fun _ => some { type := headerTypeEndorserTransaction, txId := [1] },
      fun _ => some ⟨[⟨"ns", ⟨[], [], [], []⟩, []⟩, ⟨"ns", ⟨[], [], [⟨"k", false, [7]⟩], []⟩, []⟩]⟩⟩
    let block : Protoutil.Block :=
      ⟨some ⟨0, [], []⟩, some ⟨[[0x0a]]⟩, some ⟨[[], [], [txValidationCodeValid]]⟩⟩
    ∃ db, commitAll dec [0x68] DB.empty [block] = .ok db ∧ WritesKey dec [block] "ns" "k" 0 0 ∧
      (getHistoryForKey db [0x68] "ns" "k").next dec [block] =
        .error (.noNamespaceOrKey "ns" "k" 0 0) := by
  intro dec block
  refine ⟨_, rfl, ?_, ?_⟩
  · -- the write is in the second listing of the namespace
    exact ⟨block, List.mem_singleton_self _, _, _, rfl, _, ⟨rfl, _, _, rfl, rfl, rfl, rfl⟩, _,
      List.mem_cons_of_mem _ List.mem_cons_self, rfl, _, List.mem_singleton_self _, rfl⟩
  · -- the reader stops at the first listing, which writes nothing
    rfl

end Faithful


end Fabric.History
