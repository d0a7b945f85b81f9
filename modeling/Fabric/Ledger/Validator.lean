import Fabric.Ledger.TxOps

/-
  MVCC validation of a block (`core/ledger/kvledger/txmgmt/validation/validator.go`).

  Transactions are validated in block order against the committed database and the updates
  of the valid transactions before them. A public read is valid when no preceding valid
  transaction of the block wrote its key and its version is the committed one; a hashed read
  likewise against the hash updates and the committed key-hash version; a range query when
  its results are the same over the committed state and the public updates. A valid
  transaction's write set is then applied at height (block number, index in block), and its
  purging writes are recorded.

  A `validator` holds the database and the hash function of range-query summaries; here they
  are parameters, with the serializations of reads and metadata (`proto.Marshal`). The
  database's errors are left out (its reads cannot fail here); the errors that remain are
  those of the range-query validators and the panics of `applyWriteSet`. The bulk preloading
  of committed versions into a cache (`preLoadCommittedVersionOfRSet`, CouchDB only) does not
  change what is read, and is left out.
-/

namespace Fabric.Ledger

/-- `transaction`. -/
structure Transaction where
  indexInBlock : Nat
  id : String
  rwset : TxRwSet
  validationCode : TxValidationCode
  containsPostOrderWrites : Bool
  deriving DecidableEq, Repr

/-- `block`. -/
structure Block where
  num : Nat
  txs : List Transaction
  deriving DecidableEq, Repr

/-- `privacyenabledstate.HashedCompositeKey`. -/
structure HashedCompositeKey where
  «namespace» : Ns
  collectionName : Ns
  keyHash : String
  deriving DecidableEq, Repr

/-- `AppInitiatedPurgeUpdate`. -/
structure AppInitiatedPurgeUpdate where
  compositeKey : HashedCompositeKey
  version : Height
  deriving DecidableEq, Repr

/-- `pvtdataPurgeTracker`. -/
abbrev PvtdataPurgeTracker := GoMap HashedCompositeKey AppInitiatedPurgeUpdate

/-- `newPvtdataPurgeTracker`. -/
def newPvtdataPurgeTracker : PvtdataPurgeTracker := GoMap.empty

/-- `pvtdataPurgeTracker.update`: the last purging write of each key hash wins. -/
def PvtdataPurgeTracker.update (p : PvtdataPurgeTracker) (rwset : TxRwSet) (version : Height) :
    PvtdataPurgeTracker :=
  rwset.nsRwSets.foldl (fun p nsRwSets =>
    nsRwSets.collHashedRwSets.foldl (fun p collHashedRwSet =>
      collHashedRwSet.hashedRwSet.hashedWrites.foldl (fun p hashedWrite =>
        let ck : HashedCompositeKey :=
          ⟨nsRwSets.nameSpace, collHashedRwSet.collectionName, hashedWrite.keyHash⟩
        if hashedWrite.isPurge then p.insert ck ⟨ck, version⟩ else p) p) p) p

/-- `pvtdataPurgeTracker.getUpdates`. -/
def PvtdataPurgeTracker.getUpdates (p : PvtdataPurgeTracker) : List AppInitiatedPurgeUpdate :=
  p.entries.map Prod.snd

section Validator

variable (db : VersionedDB String) (hashFunc : Bytes → Bytes)
  (serializeKVReads : List (KVRead String) → Bytes)
  (serializeMetadata : List KVMetadataEntry → Bytes)

/-! ## Public reads and range queries -/

/-- `validateKVRead`. -/
def validateKVRead (ns : Ns) (kvRead : KVRead String) (updates : PubUpdateBatch) : Bool :=
  if updates.exists ns kvRead.key then false
  else areSame (db.getVersion ns kvRead.key) kvRead.version

/-- `validateReadSet`: valid until the first invalid read. -/
def validateReadSet (ns : Ns) (kvReads : List (KVRead String)) (updates : PubUpdateBatch) :
    Bool :=
  kvReads.all fun kvRead => validateKVRead db ns kvRead updates

/-- `validateRangeQueries`: valid until the first invalid range query or error. -/
def validateRangeQueries (ns : Ns) (updates : PubUpdateBatch) :
    List (RangeQueryInfo String) → Except Failure Bool
  | [] => .ok true
  | rqi :: rangeQueriesInfo => do
    let valid ← validateRangeQuery hashFunc serializeKVReads db ns rqi updates.updateBatch
    if !valid then return false
    validateRangeQueries ns updates rangeQueriesInfo

/-! ## Hashed reads -/

/-- `validateKVReadHash`. -/
def validateKVReadHash (ns coll : Ns) (kvReadHash : KVReadHash) (updates : HashedUpdateBatch) :
    Bool :=
  if updates.contains ns coll kvReadHash.keyHash then false
  else areSame (db.getKeyHashVersion ns coll kvReadHash.keyHash) kvReadHash.version

/-- `validateCollHashedReadSet`. -/
def validateCollHashedReadSet (ns coll : Ns) (kvReadHashes : List KVReadHash)
    (updates : HashedUpdateBatch) : Bool :=
  kvReadHashes.all fun kvReadHash => validateKVReadHash db ns coll kvReadHash updates

/-- `validateNsHashedReadSets`. -/
def validateNsHashedReadSets (ns : Ns) (collHashedRWSets : List CollHashedRwSet)
    (updates : HashedUpdateBatch) : Bool :=
  collHashedRWSets.all fun collHashedRWSet =>
    validateCollHashedReadSet db ns collHashedRWSet.collectionName
      collHashedRWSet.hashedRwSet.hashedReads updates

/-! ## Transactions -/

/-- The loop of `validateTx` over the namespaces of a transaction: per namespace, the
    public reads, then the range queries, then the hashed reads. -/
def validateNsRwSets (updates : PublicAndHashUpdates) :
    List NsRwSet → Except Failure TxValidationCode
  | [] => .ok .valid
  | nsRWSet :: nsRwSets =>
    let ns := nsRWSet.nameSpace
    if !validateReadSet db ns nsRWSet.kvRwSet.reads updates.publicUpdates then
      .ok .mvccReadConflict
    else do
      let valid ← validateRangeQueries db hashFunc serializeKVReads ns updates.publicUpdates
        nsRWSet.kvRwSet.rangeQueriesInfo
      if !valid then return .phantomReadConflict
      if !validateNsHashedReadSets db ns nsRWSet.collHashedRwSets updates.hashUpdates then
        return .mvccReadConflict
      validateNsRwSets updates nsRwSets

/-- `validateTx`. -/
def validateTx (txRWSet : TxRwSet) (updates : PublicAndHashUpdates) :
    Except Failure TxValidationCode :=
  validateNsRwSets db hashFunc serializeKVReads updates txRWSet.nsRwSets

/-- `validateEndorserTX`. -/
def validateEndorserTX (txRWSet : TxRwSet) (doMVCCValidation : Bool)
    (updates : PublicAndHashUpdates) : Except Failure TxValidationCode :=
  if doMVCCValidation then validateTx db hashFunc serializeKVReads txRWSet updates
  else .ok .valid

/-! ## Blocks -/

/-- The loop of `validateAndPrepareBatch` over the transactions of block `blkNum`: each gets
    its validation code, and a valid one's writes go into the updates. -/
def validateAndPrepareTxs (blkNum : Nat) (doMVCCValidation : Bool) :
    List Transaction → PublicAndHashUpdates → PvtdataPurgeTracker →
      Except Failure (List Transaction × PublicAndHashUpdates × PvtdataPurgeTracker)
  | [], updates, purgeTracker => .ok ([], updates, purgeTracker)
  | tx :: txs, updates, purgeTracker => do
    let validationCode ←
      validateEndorserTX db hashFunc serializeKVReads tx.rwset doMVCCValidation updates
    let tx := { tx with validationCode }
    if validationCode = .valid then
      let committingTxHeight := newHeight blkNum tx.indexInBlock
      let updates ← updates.applyWriteSet db serializeMetadata tx.rwset committingTxHeight
        tx.containsPostOrderWrites
      let purgeTracker := purgeTracker.update tx.rwset committingTxHeight
      let (txs, updates, purgeTracker) ←
        validateAndPrepareTxs blkNum doMVCCValidation txs updates purgeTracker
      return (tx :: txs, updates, purgeTracker)
    else
      let (txs, updates, purgeTracker) ←
        validateAndPrepareTxs blkNum doMVCCValidation txs updates purgeTracker
      return (tx :: txs, updates, purgeTracker)

/-- `validateAndPrepareBatch`: the block with the validation codes set, the updates of its
    valid transactions, and their purges. -/
def validateAndPrepareBatch (blk : Block) (doMVCCValidation : Bool) :
    Except Failure (Block × PublicAndHashUpdates × List AppInitiatedPurgeUpdate) := do
  let (txs, updates, purgeTracker) ← validateAndPrepareTxs db hashFunc serializeKVReads
    serializeMetadata blk.num doMVCCValidation blk.txs newPubAndHashUpdates
    newPvtdataPurgeTracker
  return ({ blk with txs }, updates, purgeTracker.getUpdates)

/-! ## What a valid transaction read -/

/-- Every read of the transaction is of a key that no preceding valid transaction of the block
    wrote, at its committed version: public reads against the public updates and `GetVersion`,
    hashed reads against the hash updates and `GetKeyHashVersion`. -/
def ReadsCurrent (updates : PublicAndHashUpdates) (rwset : TxRwSet) : Prop :=
  (∀ nsRWSet ∈ rwset.nsRwSets, ∀ kvRead ∈ nsRWSet.kvRwSet.reads,
    updates.publicUpdates.exists nsRWSet.nameSpace kvRead.key = false ∧
      db.getVersion nsRWSet.nameSpace kvRead.key = kvRead.version) ∧
  (∀ nsRWSet ∈ rwset.nsRwSets, ∀ collHashedRWSet ∈ nsRWSet.collHashedRwSets,
    ∀ kvReadHash ∈ collHashedRWSet.hashedRwSet.hashedReads,
      updates.hashUpdates.contains nsRWSet.nameSpace collHashedRWSet.collectionName
          kvReadHash.keyHash = false ∧
        db.getKeyHashVersion nsRWSet.nameSpace collHashedRWSet.collectionName
          kvReadHash.keyHash = kvReadHash.version)

theorem validateKVRead_iff (ns : Ns) (kvRead : KVRead String) (updates : PubUpdateBatch) :
    validateKVRead db ns kvRead updates = true ↔
      updates.exists ns kvRead.key = false ∧ db.getVersion ns kvRead.key = kvRead.version := by
  unfold validateKVRead
  cases updates.exists ns kvRead.key <;> simp

theorem validateKVReadHash_iff (ns coll : Ns) (kvReadHash : KVReadHash)
    (updates : HashedUpdateBatch) :
    validateKVReadHash db ns coll kvReadHash updates = true ↔
      updates.contains ns coll kvReadHash.keyHash = false ∧
        db.getKeyHashVersion ns coll kvReadHash.keyHash = kvReadHash.version := by
  unfold validateKVReadHash
  cases updates.contains ns coll kvReadHash.keyHash <;> simp

/-- A transaction found valid read only current keys; the induction is on its namespaces, each
    checked for public reads, range queries and hashed reads before the next. -/
theorem readsCurrent_of_validateNsRwSets (updates : PublicAndHashUpdates) (nsRwSets : List NsRwSet)
    (h : validateNsRwSets db hashFunc serializeKVReads updates nsRwSets = .ok .valid) :
    ReadsCurrent db updates ⟨nsRwSets⟩ := by
  induction nsRwSets with
  | nil => exact ⟨by simp, by simp⟩
  | cons nsRWSet nsRwSets ih =>
    simp only [validateNsRwSets] at h
    by_cases hr : validateReadSet db nsRWSet.nameSpace nsRWSet.kvRwSet.reads
      updates.publicUpdates = true
    · rw [if_neg (by simp [hr])] at h
      cases hq : validateRangeQueries db hashFunc serializeKVReads nsRWSet.nameSpace
          updates.publicUpdates nsRWSet.kvRwSet.rangeQueriesInfo with
      | error err =>
        rw [hq] at h
        cases h
      | ok valid =>
        rw [hq] at h
        simp only [bind, Except.bind] at h
        -- a phantom or a hashed-read conflict returns another code
        cases valid
        · cases h
        · by_cases hh : validateNsHashedReadSets db nsRWSet.nameSpace nsRWSet.collHashedRwSets
              updates.hashUpdates = true
          · simp only [hh, Bool.not_true, Bool.false_eq_true, if_false] at h
            obtain ⟨ihp, ihh⟩ := ih h
            have hpub := List.all_eq_true.1 hr
            have hhash := List.all_eq_true.1 hh
            constructor
            · intro n hn kvRead hread
              rcases List.mem_cons.1 hn with rfl | hn
              · exact (validateKVRead_iff db _ _ _).1 (hpub kvRead hread)
              · exact ihp n hn kvRead hread
            · intro n hn c hc kvReadHash hread
              rcases List.mem_cons.1 hn with rfl | hn
              · exact (validateKVReadHash_iff db _ _ _ _).1
                  (List.all_eq_true.1 (hhash c hc) kvReadHash hread)
              · exact ihh n hn c hc kvReadHash hread
          · simp only [Bool.not_eq_true] at hh
            simp only [hh, Bool.not_false, if_true] at h
            cases h
    · simp only [Bool.not_eq_true] at hr
      simp [hr] at h

/-- `validateTx` finds a transaction valid only if it read current keys. -/
theorem readsCurrent_of_validateTx (updates : PublicAndHashUpdates) (rwset : TxRwSet)
    (h : validateTx db hashFunc serializeKVReads rwset updates = .ok .valid) :
    ReadsCurrent db updates rwset :=
  readsCurrent_of_validateNsRwSets db hashFunc serializeKVReads updates rwset.nsRwSets h

end Validator

end Fabric.Ledger
