import Fabric.Ledger.RangeQueryValidator

/-
  The read-write set of a transaction as the validator reads it
  (`rwsetutil.TxRwSet` over the `kvrwset` messages), and the validation code it assigns
  (`peer.TxValidationCode`).

  Per namespace, a transaction carries its public reads, range queries, writes and
  metadata writes, and per private collection the hashes of its private reads, writes and
  metadata writes. Keys and key hashes are Go strings (`string(keyHash)`). A value write
  with an empty value, and a hashed write with an empty value hash or the hash of the empty
  byte string, is a delete (`IsKVWriteDelete`, `IsKVWriteHashDelete`). A metadata write
  with no entries deletes the metadata: decoding the protobuf message leaves an empty
  repeated field nil, so `Entries == nil` is `entries = []` here.
-/

namespace Fabric.Ledger

/-- `peer.TxValidationCode`. -/
inductive TxValidationCode where
  | valid
  | nilEnvelope
  | badPayload
  | badCommonHeader
  | badCreatorSignature
  | invalidEndorserTransaction
  | invalidConfigTransaction
  | unsupportedTxPayload
  | badProposalTxid
  | duplicateTxid
  | endorsementPolicyFailure
  | mvccReadConflict
  | phantomReadConflict
  | unknownTxType
  | targetChainNotFound
  | marshalTxError
  | nilTxaction
  | expiredChaincode
  | chaincodeVersionConflict
  | badHeaderExtension
  | badChannelHeader
  | badResponsePayload
  | badRwset
  | illegalWriteset
  | invalidWriteset
  | invalidChaincode
  | notValidated
  | invalidOtherReason
  deriving DecidableEq, Repr

/-! ## The `kvrwset` messages -/

/-- `kvrwset.KVWrite`. -/
structure KVWrite where
  key : String
  isDelete : Bool
  value : Bytes
  deriving DecidableEq, Repr

/-- `kvrwset.KVMetadataEntry`. -/
structure KVMetadataEntry where
  name : String
  value : Bytes
  deriving DecidableEq, Repr

/-- `kvrwset.KVMetadataWrite`. -/
structure KVMetadataWrite where
  key : String
  entries : List KVMetadataEntry
  deriving DecidableEq, Repr

/-- `kvrwset.KVReadHash`. -/
structure KVReadHash where
  keyHash : String
  version : Option Height
  deriving DecidableEq, Repr

/-- `kvrwset.KVWriteHash`. -/
structure KVWriteHash where
  keyHash : String
  isDelete : Bool
  valueHash : Bytes
  isPurge : Bool
  deriving DecidableEq, Repr

/-- `kvrwset.KVMetadataWriteHash`. -/
structure KVMetadataWriteHash where
  keyHash : String
  entries : List KVMetadataEntry
  deriving DecidableEq, Repr

/-- `kvrwset.KVRWSet`: the public part of a namespace's read-write set. -/
structure KVRWSet where
  reads : List (KVRead String)
  rangeQueriesInfo : List (RangeQueryInfo String)
  writes : List KVWrite
  metadataWrites : List KVMetadataWrite
  deriving DecidableEq, Repr

/-- `kvrwset.HashedRWSet`: the hashes of a collection's private read-write set. -/
structure HashedRWSet where
  hashedReads : List KVReadHash
  hashedWrites : List KVWriteHash
  metadataWrites : List KVMetadataWriteHash
  deriving DecidableEq, Repr

/-- `rwsetutil.CollHashedRwSet`. -/
structure CollHashedRwSet where
  collectionName : Ns
  hashedRwSet : HashedRWSet
  deriving DecidableEq, Repr

/-- `rwsetutil.NsRwSet`. -/
structure NsRwSet where
  nameSpace : Ns
  kvRwSet : KVRWSet
  collHashedRwSets : List CollHashedRwSet
  deriving DecidableEq, Repr

/-- `rwsetutil.TxRwSet`. -/
structure TxRwSet where
  nsRwSets : List NsRwSet
  deriving DecidableEq, Repr

/-! ## Deletes -/

/-- `IsKVWriteDelete`. -/
def isKVWriteDelete (kvWrite : KVWrite) : Bool :=
  kvWrite.isDelete || kvWrite.value.length == 0

/-- `hashOfZeroLengthByteArray = util.ComputeHash([]byte{})`: the SHA-256 digest of the empty
    byte string. -/
def hashOfZeroLengthByteArray : Bytes :=
  [0xe3, 0xb0, 0xc4, 0x42, 0x98, 0xfc, 0x1c, 0x14, 0x9a, 0xfb, 0xf4, 0xc8, 0x99, 0x6f, 0xb9, 0x24,
   0x27, 0xae, 0x41, 0xe4, 0x64, 0x9b, 0x93, 0x4c, 0xa4, 0x95, 0x99, 0x1b, 0x78, 0x52, 0xb8, 0x55]

/-- `IsKVWriteHashDelete`. -/
def isKVWriteHashDelete (kvWriteHash : KVWriteHash) : Bool :=
  kvWriteHash.isDelete || kvWriteHash.valueHash.length == 0 ||
    hashOfZeroLengthByteArray == kvWriteHash.valueHash

/-- A hashed write recorded as a `KVWrite` (as `applyTxRwset` does) is a delete exactly when
    the hashed write is one. -/
theorem isKVWriteDelete_hashed (keyHash : String) (hashedWrite : KVWriteHash) :
    isKVWriteDelete ⟨keyHash, isKVWriteHashDelete hashedWrite, hashedWrite.valueHash⟩ =
      isKVWriteHashDelete hashedWrite := by
  unfold isKVWriteDelete isKVWriteHashDelete
  cases hashedWrite.isDelete <;> cases hashedWrite.valueHash.length == 0 <;> simp

end Fabric.Ledger
