import Fabric.Ledger.StateDB

/-
  The privacy-enabled state (`core/ledger/kvledger/txmgmt/privacyenabledstate`).

  The hashes of private data live in the same versioned database as public data, under
  the namespace `deriveHashedDataNs ns coll` and keyed by the key hash. The validator
  reads them through `GetValueHash`, `GetKeyHashVersion` and
  `GetPrivateDataMetadataByHash`, and keeps the pending writes of a block in two batches:
  public updates keyed by (namespace, key), hash updates keyed by (namespace, collection,
  key hash).

  `StateKey` names a key of either kind; `committedState` is what the database holds for
  it. The metadata hint of `GetStateMetadata` (a per-namespace flag that skips the read
  when the namespace never stored metadata) only saves a read, so the getters read the
  database. Key hashes are stored as `string(keyHash)`, the LevelDB encoding.
-/

namespace Fabric.Ledger

/-- `nsJoiner`. -/
def nsJoiner : String := "$$"

/-- `hashDataPrefix`. -/
def hashDataPrefix : String := "h"

/-- `deriveHashedDataNs`: the namespace that holds the hashes of a collection. -/
def deriveHashedDataNs (ns collection : Ns) : Ns :=
  ns ++ nsJoiner ++ hashDataPrefix ++ collection

namespace VersionedDB

variable (db : VersionedDB String)

/-- `DB.GetValueHash`. -/
def getValueHash (ns collection : Ns) (keyHash : String) : Option VersionedValue :=
  db.getState (deriveHashedDataNs ns collection) keyHash

/-- `DB.GetKeyHashVersion`. -/
def getKeyHashVersion (ns collection : Ns) (keyHash : String) : Option Height :=
  db.getVersion (deriveHashedDataNs ns collection) keyHash

/-- `DB.GetStateMetadata`: the stored metadata, nil for a missing key. -/
def getStateMetadata (ns key : String) : Bytes :=
  match db.getState ns key with
  | none => []
  | some vv => vv.metadata

/-- `DB.GetPrivateDataMetadataByHash`. -/
def getPrivateDataMetadataByHash (ns collection : Ns) (keyHash : String) : Bytes :=
  match db.getValueHash ns collection keyHash with
  | none => []
  | some vv => vv.metadata

end VersionedDB

/-! ## The update batches of the validator -/

/-- `PubUpdateBatch`: a `statedb.UpdateBatch` with its `ContainsPostOrderWrites` flag. -/
structure PubUpdateBatch where
  updateBatch : UpdateBatch (Ns × String)
  containsPostOrderWrites : Bool

/-- `NewPubUpdateBatch`. -/
def newPubUpdateBatch : PubUpdateBatch := ⟨.empty, false⟩

namespace PubUpdateBatch

variable (b : PubUpdateBatch)

/-- `Get`. -/
def get (ns key : String) : Option VersionedValue := b.updateBatch.get (ns, key)

/-- `Exists`. -/
def «exists» (ns key : String) : Bool := b.updateBatch.exists (ns, key)

/-- `PutValAndMetadata`. -/
def putValAndMetadata (ns key : String) (value : Option Bytes) (metadata : Bytes)
    (version : Height) : Except Failure PubUpdateBatch := do
  let updateBatch ← b.updateBatch.putValAndMetadata (ns, key) value metadata version
  return { b with updateBatch }

/-- `Delete`. -/
def delete (ns key : String) (version : Height) : PubUpdateBatch :=
  { b with updateBatch := b.updateBatch.delete (ns, key) version }

end PubUpdateBatch

/-- `HashedUpdateBatch`: an `UpdateMap` from namespace and collection to the key hashes
    written, flattened to one map over the three. -/
structure HashedUpdateBatch where
  updateMap : UpdateBatch (Ns × Ns × String)

/-- `NewHashedUpdateBatch`. -/
def newHashedUpdateBatch : HashedUpdateBatch := ⟨.empty⟩

namespace HashedUpdateBatch

variable (h : HashedUpdateBatch)

/-- `UpdateMap.Get`. -/
def get (ns coll key : String) : Option VersionedValue := h.updateMap.get (ns, coll, key)

/-- `Contains`. -/
def contains (ns coll : Ns) (keyHash : String) : Bool := h.updateMap.exists (ns, coll, keyHash)

/-- `PutValHashAndMetadata`. -/
def putValHashAndMetadata (ns coll : Ns) (key : String) (value : Option Bytes)
    (metadata : Bytes) (version : Height) : Except Failure HashedUpdateBatch := do
  let updateMap ← h.updateMap.putValAndMetadata (ns, coll, key) value metadata version
  return ⟨updateMap⟩

/-- `Delete`. -/
def delete (ns coll : Ns) (key : String) (version : Height) : HashedUpdateBatch :=
  ⟨h.updateMap.delete (ns, coll, key) version⟩

end HashedUpdateBatch

/-! ## Keys of the state -/

/-- A key of the world state: a public key of a namespace, or the hash of a private key of
    a collection. -/
inductive StateKey where
  | pub (ns : Ns) (key : String)
  | hashed (ns coll : Ns) (keyHash : String)
  deriving DecidableEq, Repr

/-- What the committed database holds for a key. -/
def committedState (db : VersionedDB String) : StateKey → Option VersionedValue
  | .pub ns key => db.getState ns key
  | .hashed ns coll keyHash => db.getValueHash ns coll keyHash

/-- The committed metadata of a key: `GetStateMetadata` or `GetPrivateDataMetadataByHash`. -/
theorem committedState_metadata (db : VersionedDB String) :
    (∀ ns key, ((committedState db (.pub ns key)).map VersionedValue.metadata).getD [] =
      db.getStateMetadata ns key) ∧
    (∀ ns coll keyHash,
      ((committedState db (.hashed ns coll keyHash)).map VersionedValue.metadata).getD [] =
        db.getPrivateDataMetadataByHash ns coll keyHash) := by
  constructor
  · intro ns key
    simp only [committedState, VersionedDB.getStateMetadata]
    cases db.getState ns key <;> rfl
  · intro ns coll keyHash
    simp only [committedState, VersionedDB.getPrivateDataMetadataByHash]
    cases db.getValueHash ns coll keyHash <;> rfl

/-- A stored value is never a delete, public or hashed. -/
theorem committedState_value_isSome {db : VersionedDB String} {k : StateKey} {vv : VersionedValue}
    (h : committedState db k = some vv) : vv.value.isSome :=
  match k, h with
  | .pub _ _, h => VersionedDB.getState_value_isSome h
  | .hashed _ _ _, h => VersionedDB.getState_value_isSome h

end Fabric.Ledger
