import Fabric.Ledger.PrivacyState
import Fabric.Ledger.RwSet
import Fabric.Lib.FoldM

/-
  From a valid transaction's write set to the writes of the block
  (`core/ledger/kvledger/txmgmt/validation/tx_ops.go` and `types.go`).

  `applyTxRwset` records, per composite key (namespace, collection, key), which operations
  the transaction performs on it in a `keyOps`: its flag adds `upsertVal`, `keyDelete`,
  `metadataUpdate` or `metadataDelete` once per write (`+=` on a `uint8`), with the value
  and metadata written. A public key has the collection `""`; a private key is its hash.
  `prepareTxOps` then completes each key from the latest state (the preceding updates of
  the block, else the committed database): a value-only write keeps the latest metadata, a
  metadata-only write keeps the latest value, or is dropped when the key does not exist.
  `applyWriteSet` writes the result into the public or the hash updates, by whether the
  collection is `""`.

  `getOrCreateKeyEntry` returns a pointer into the map in Go; here it returns the entry, and
  each caller stores the changed entry back. The loops over the map visit its entries in
  list order: every step reads and writes the entry it visits only.

  Proved here, per key: the entry `applyTxRwset` records when the key has at most one value
  write and one metadata write (`foldl_step_none`, with the flag bits adding without carry:
  `isDelete_keyOpsOf` and its siblings), the completed entry of `prepareTxOps`
  (`get?_prepareTxOps`), and what `applyWriteSet` leaves in the public and hash updates
  (`get_of_applyWriteSet`), routing a collection `""` to the public updates.
-/

namespace Fabric.Ledger

/-- `publicAndHashUpdates`. -/
structure PublicAndHashUpdates where
  publicUpdates : PubUpdateBatch
  hashUpdates : HashedUpdateBatch

/-- `newPubAndHashUpdates`. -/
def newPubAndHashUpdates : PublicAndHashUpdates := ⟨newPubUpdateBatch, newHashedUpdateBatch⟩

/-- The pending write of a key: in the public updates for a public key, in the hash
    updates for a key hash. -/
def PublicAndHashUpdates.get (u : PublicAndHashUpdates) : StateKey → Option VersionedValue
  | .pub ns key => u.publicUpdates.get ns key
  | .hashed ns coll keyHash => u.hashUpdates.get ns coll keyHash

/-! ## Operations per key -/

/-- `keyOpsFlag`. -/
abbrev KeyOpsFlag := UInt8

namespace KeyOpsFlag

/-- `upsertVal`. -/
def upsertVal : KeyOpsFlag := 1

/-- `metadataUpdate`. -/
def metadataUpdate : KeyOpsFlag := 2

/-- `metadataDelete`. -/
def metadataDelete : KeyOpsFlag := 4

/-- `keyDelete`. -/
def keyDelete : KeyOpsFlag := 8

end KeyOpsFlag

/-- `compositeKey`. -/
structure CompositeKey where
  ns : Ns
  coll : Ns
  key : String
  deriving DecidableEq, Repr

/-- `keyOps`; a nil `value` is `none`. -/
structure KeyOps where
  flag : KeyOpsFlag := 0
  value : Option Bytes := none
  metadata : Bytes := []
  deriving DecidableEq, Repr

/-- `txOps`. -/
abbrev TxOps := GoMap CompositeKey KeyOps

namespace KeyOps

variable (keyops : KeyOps)

/-- `isDelete`. -/
def isDelete : Bool := keyops.flag &&& KeyOpsFlag.keyDelete == KeyOpsFlag.keyDelete

/-- `isUpsertAndMetadataUpdate`. -/
def isUpsertAndMetadataUpdate : Bool :=
  if keyops.flag &&& KeyOpsFlag.upsertVal == KeyOpsFlag.upsertVal then
    keyops.flag &&& KeyOpsFlag.metadataUpdate == KeyOpsFlag.metadataUpdate ||
      keyops.flag &&& KeyOpsFlag.metadataDelete == KeyOpsFlag.metadataDelete
  else false

/-- `isOnlyUpsert`. -/
def isOnlyUpsert : Bool := keyops.flag ||| KeyOpsFlag.upsertVal == KeyOpsFlag.upsertVal

end KeyOps

namespace TxOps

variable (txops : TxOps)

/-- `getOrCreateKeyEntry`: the entry of `k`, a fresh one if there is none. -/
def getOrCreateKeyEntry (k : CompositeKey) : KeyOps := (txops.get? k).getD {}

/-- `upsert`. -/
def upsert (k : CompositeKey) (val : Bytes) : TxOps :=
  let keyops := txops.getOrCreateKeyEntry k
  txops.insert k { keyops with flag := keyops.flag + KeyOpsFlag.upsertVal, value := some val }

/-- `delete`. -/
def delete (k : CompositeKey) : TxOps :=
  let keyops := txops.getOrCreateKeyEntry k
  txops.insert k { keyops with flag := keyops.flag + KeyOpsFlag.keyDelete }

/-- `metadataUpdate`. -/
def metadataUpdate (k : CompositeKey) (metadata : Bytes) : TxOps :=
  let keyops := txops.getOrCreateKeyEntry k
  txops.insert k { keyops with flag := keyops.flag + KeyOpsFlag.metadataUpdate, metadata }

/-- `metadataDelete`. -/
def metadataDelete (k : CompositeKey) : TxOps :=
  let keyops := txops.getOrCreateKeyEntry k
  txops.insert k { keyops with flag := keyops.flag + KeyOpsFlag.metadataDelete }

/-- `applyKVWrite`. -/
def applyKVWrite (ns coll : Ns) (kvWrite : KVWrite) : TxOps :=
  if isKVWriteDelete kvWrite then txops.delete ⟨ns, coll, kvWrite.key⟩
  else txops.upsert ⟨ns, coll, kvWrite.key⟩ kvWrite.value

variable (serializeMetadata : List KVMetadataEntry → Bytes)

/-- `applyMetadata`; `statemetadata.Serialize` is `serializeMetadata`. -/
def applyMetadata (ns coll : Ns) (metadataWrite : KVMetadataWrite) : TxOps :=
  if metadataWrite.entries.isEmpty then txops.metadataDelete ⟨ns, coll, metadataWrite.key⟩
  else txops.metadataUpdate ⟨ns, coll, metadataWrite.key⟩ (serializeMetadata metadataWrite.entries)

/-- `applyTxRwset`: the public writes and metadata writes of each namespace, then the hashed
    writes and metadata writes of each of its collections. -/
def applyTxRwset (rwset : TxRwSet) : TxOps :=
  rwset.nsRwSets.foldl (fun txops nsRWSet =>
    let ns := nsRWSet.nameSpace
    let txops := nsRWSet.kvRwSet.writes.foldl (fun txops kvWrite =>
      txops.applyKVWrite ns "" kvWrite) txops
    let txops := nsRWSet.kvRwSet.metadataWrites.foldl (fun txops kvMetadataWrite =>
      txops.applyMetadata serializeMetadata ns "" kvMetadataWrite) txops
    nsRWSet.collHashedRwSets.foldl (fun txops collHashRWset =>
      let coll := collHashRWset.collectionName
      let txops := collHashRWset.hashedRwSet.hashedWrites.foldl (fun txops hashedWrite =>
        txops.applyKVWrite ns coll
          ⟨hashedWrite.keyHash, isKVWriteHashDelete hashedWrite, hashedWrite.valueHash⟩) txops
      collHashRWset.hashedRwSet.metadataWrites.foldl (fun txops metadataWrite =>
        txops.applyMetadata serializeMetadata ns coll
          ⟨metadataWrite.keyHash, metadataWrite.entries⟩) txops) txops) txops

end TxOps

/-! ## Completing the operations from the latest state -/

section Prepare

variable (db : VersionedDB String)

/-- `retrieveLatestState`. -/
def retrieveLatestState (ns coll key : String) (precedingUpdates : PublicAndHashUpdates) :
    Option VersionedValue :=
  if coll = "" then
    match precedingUpdates.publicUpdates.get ns key with
    | none => db.getState ns key
    | some vv => some vv
  else
    match precedingUpdates.hashUpdates.get ns coll key with
    | none => db.getValueHash ns coll key
    | some vv => some vv

/-- `retrieveLatestMetadata`. -/
def retrieveLatestMetadata (ns coll key : String) (precedingUpdates : PublicAndHashUpdates) :
    Bytes :=
  if coll = "" then
    match precedingUpdates.publicUpdates.get ns key with
    | some vv => vv.metadata
    | none => db.getStateMetadata ns key
  else
    match precedingUpdates.hashUpdates.get ns coll key with
    | some vv => vv.metadata
    | none => db.getPrivateDataMetadataByHash ns coll key

variable (serializeMetadata : List KVMetadataEntry → Bytes)

/-- The step of `prepareTxOps` at the entry of `ck`. -/
def prepareKeyOps (precedingUpdates : PublicAndHashUpdates) (txops : TxOps) (ck : CompositeKey)
    (keyop : KeyOps) : TxOps :=
  if keyop.isDelete || keyop.isUpsertAndMetadataUpdate then txops
  else if keyop.isOnlyUpsert then
    txops.insert ck
      { keyop with metadata := retrieveLatestMetadata db ck.ns ck.coll ck.key precedingUpdates }
  else
    match retrieveLatestState db ck.ns ck.coll ck.key precedingUpdates with
    | some latestVal => txops.insert ck { keyop with value := latestVal.value }
    | none => txops.erase ck

/-- `prepareTxOps`. -/
def prepareTxOps (rwset : TxRwSet) (precedingUpdates : PublicAndHashUpdates) : TxOps :=
  let txops := TxOps.applyTxRwset GoMap.empty serializeMetadata rwset
  txops.entries.foldl (fun txops e => prepareKeyOps db precedingUpdates txops e.1 e.2) txops

/-- The step of `applyWriteSet` at the entry of `compositeKey`. -/
def applyKeyOps (txHeight : Height) (u : PublicAndHashUpdates) (compositeKey : CompositeKey)
    (keyops : KeyOps) : Except Failure PublicAndHashUpdates :=
  if compositeKey.coll = "" then
    let ns := compositeKey.ns
    let key := compositeKey.key
    if keyops.isDelete then
      .ok { u with publicUpdates := u.publicUpdates.delete ns key txHeight }
    else do
      let publicUpdates ←
        u.publicUpdates.putValAndMetadata ns key keyops.value keyops.metadata txHeight
      return { u with publicUpdates }
  else
    let ns := compositeKey.ns
    let coll := compositeKey.coll
    let keyHash := compositeKey.key
    if keyops.isDelete then
      .ok { u with hashUpdates := u.hashUpdates.delete ns coll keyHash txHeight }
    else do
      let hashUpdates ←
        u.hashUpdates.putValHashAndMetadata ns coll keyHash keyops.value keyops.metadata txHeight
      return { u with hashUpdates }

/-- `applyWriteSet`. -/
def PublicAndHashUpdates.applyWriteSet (u : PublicAndHashUpdates) (txRWSet : TxRwSet)
    (txHeight : Height) (containsPostOrderWrites : Bool) :
    Except Failure PublicAndHashUpdates :=
  let u := { u with publicUpdates := { u.publicUpdates with
    containsPostOrderWrites := u.publicUpdates.containsPostOrderWrites || containsPostOrderWrites } }
  let txops := prepareTxOps db serializeMetadata txRWSet u
  txops.entries.foldlM (fun u e => applyKeyOps txHeight u e.1 e.2) u

end Prepare

/-! ## The writes of a transaction as one list -/

/-- One call of `applyTxRwset`'s loops: `applyKVWrite` or `applyMetadata`. -/
inductive TxOp where
  | kvWrite (ns coll : Ns) (kvWrite : KVWrite)
  | metadataWrite (ns coll : Ns) (metadataWrite : KVMetadataWrite)
  deriving DecidableEq, Repr

namespace TxOp

/-- The composite key an operation touches. -/
def key : TxOp → CompositeKey
  | .kvWrite ns coll w => ⟨ns, coll, w.key⟩
  | .metadataWrite ns coll w => ⟨ns, coll, w.key⟩

/-- What an operation does to the value of its key: `some none` deletes it,
    `some (some v)` writes `v`. -/
def valueWrite? : TxOp → Option (Option Bytes)
  | .kvWrite _ _ w => some (if isKVWriteDelete w then none else some w.value)
  | .metadataWrite .. => none

variable (serializeMetadata : List KVMetadataEntry → Bytes)

/-- What an operation does to the metadata of its key: `some none` deletes it,
    `some (some m)` writes `m`. -/
def metadataWrite? : TxOp → Option (Option Bytes)
  | .kvWrite .. => none
  | .metadataWrite _ _ w =>
    some (if w.entries.isEmpty then none else some (serializeMetadata w.entries))

/-- The operation's call on a map. -/
def apply (txops : TxOps) : TxOp → TxOps
  | .kvWrite ns coll w => txops.applyKVWrite ns coll w
  | .metadataWrite ns coll w => txops.applyMetadata serializeMetadata ns coll w

/-- The entry an operation leaves for its key, from the one it finds. -/
def step (op : TxOp) (o : Option KeyOps) : KeyOps :=
  let keyops := o.getD {}
  match op with
  | .kvWrite _ _ w =>
    if isKVWriteDelete w then { keyops with flag := keyops.flag + KeyOpsFlag.keyDelete }
    else { keyops with flag := keyops.flag + KeyOpsFlag.upsertVal, value := some w.value }
  | .metadataWrite _ _ w =>
    if w.entries.isEmpty then { keyops with flag := keyops.flag + KeyOpsFlag.metadataDelete }
    else { keyops with flag := keyops.flag + KeyOpsFlag.metadataUpdate,
                       metadata := serializeMetadata w.entries }

/-- Each call rewrites the entry of its own key only. -/
theorem apply_eq_insert (txops : TxOps) (op : TxOp) :
    op.apply serializeMetadata txops =
      txops.insert op.key (op.step serializeMetadata (txops.get? op.key)) := by
  cases op with
  | kvWrite ns coll w =>
    by_cases h : isKVWriteDelete w = true <;>
      simp [apply, step, key, TxOps.applyKVWrite, TxOps.delete, TxOps.upsert,
        TxOps.getOrCreateKeyEntry, h]
  | metadataWrite ns coll w =>
    by_cases h : w.entries.isEmpty = true <;>
      simp [apply, step, key, TxOps.applyMetadata, TxOps.metadataDelete, TxOps.metadataUpdate,
        TxOps.getOrCreateKeyEntry, h]

end TxOp

/-- The calls of `applyTxRwset`, in the order its loops make them. -/
def TxRwSet.txOpList (rwset : TxRwSet) : List TxOp :=
  rwset.nsRwSets.flatMap fun nsRWSet =>
    let ns := nsRWSet.nameSpace
    nsRWSet.kvRwSet.writes.map (.kvWrite ns "") ++
      nsRWSet.kvRwSet.metadataWrites.map (.metadataWrite ns "") ++
      nsRWSet.collHashedRwSets.flatMap fun collHashRWset =>
        let coll := collHashRWset.collectionName
        collHashRWset.hashedRwSet.hashedWrites.map (fun hashedWrite =>
          .kvWrite ns coll
            ⟨hashedWrite.keyHash, isKVWriteHashDelete hashedWrite, hashedWrite.valueHash⟩) ++
        collHashRWset.hashedRwSet.metadataWrites.map (fun metadataWrite =>
          .metadataWrite ns coll ⟨metadataWrite.keyHash, metadataWrite.entries⟩)

variable (serializeMetadata : List KVMetadataEntry → Bytes)

/-- `applyTxRwset` makes the calls of `txOpList` one after another. -/
theorem applyTxRwset_eq_foldl (txops : TxOps) (rwset : TxRwSet) :
    txops.applyTxRwset serializeMetadata rwset =
      rwset.txOpList.foldl (TxOp.apply serializeMetadata) txops := by
  simp only [TxOps.applyTxRwset, TxRwSet.txOpList, List.foldl_flatMap, List.foldl_append,
    List.foldl_map]
  rfl

/-- The entry `applyTxRwset` leaves for a key: the operations on that key, one after another,
    from nothing. -/
theorem get?_applyTxRwset (rwset : TxRwSet) (q : CompositeKey) :
    (TxOps.applyTxRwset GoMap.empty serializeMetadata rwset).get? q =
      (rwset.txOpList.filter fun op => op.key = q).foldl
        (fun o op => some (op.step serializeMetadata o)) none := by
  have happly : TxOp.apply serializeMetadata =
      fun (txops : TxOps) op => txops.insert op.key (op.step serializeMetadata (txops.get? op.key)) := by
    funext txops op
    exact TxOp.apply_eq_insert serializeMetadata txops op
  rw [applyTxRwset_eq_foldl, happly]
  exact GoMap.get?_foldl_modify TxOp.key (fun o op => op.step serializeMetadata o) _ _ q

/-! ## The flags -/

/-- The flag bit of a value write: `keyDelete` or `upsertVal`. -/
def valueFlag : Option (Option Bytes) → KeyOpsFlag
  | none => 0
  | some none => KeyOpsFlag.keyDelete
  | some (some _) => KeyOpsFlag.upsertVal

/-- The flag bit of a metadata write: `metadataDelete` or `metadataUpdate`. -/
def metadataFlag : Option (Option Bytes) → KeyOpsFlag
  | none => 0
  | some none => KeyOpsFlag.metadataDelete
  | some (some _) => KeyOpsFlag.metadataUpdate

/-- The entry of a key written by at most one value write `vw` and one metadata write `mw`. -/
def keyOpsOf (vw mw : Option (Option Bytes)) : KeyOps :=
  ⟨valueFlag vw + metadataFlag mw, vw.join, mw.join.getD []⟩

theorem isDelete_keyOpsOf (vw mw : Option (Option Bytes)) :
    (keyOpsOf vw mw).isDelete = (vw == some none) := by
  rcases vw with _ | _ | v <;> rcases mw with _ | _ | m <;>
    simp [keyOpsOf, valueFlag, metadataFlag, KeyOps.isDelete] <;> decide

theorem isUpsertAndMetadataUpdate_keyOpsOf (vw mw : Option (Option Bytes)) :
    (keyOpsOf vw mw).isUpsertAndMetadataUpdate = (vw.join.isSome && mw.isSome) := by
  rcases vw with _ | _ | v <;> rcases mw with _ | _ | m <;>
    simp [keyOpsOf, valueFlag, metadataFlag, KeyOps.isUpsertAndMetadataUpdate] <;> decide

theorem isOnlyUpsert_keyOpsOf (vw mw : Option (Option Bytes)) :
    (keyOpsOf vw mw).isOnlyUpsert = ((vw.join.isSome || vw.isNone) && mw.isNone) := by
  rcases vw with _ | _ | v <;> rcases mw with _ | _ | m <;>
    simp [keyOpsOf, valueFlag, metadataFlag, KeyOps.isOnlyUpsert] <;> decide

/-! ## The entry of one key -/

/-- A value write on a key without one adds its bit and its value. -/
theorem step_keyOpsOf_value {op : TxOp} {x : Option Bytes} (hx : op.valueWrite? = some x)
    (mw : Option (Option Bytes)) :
    op.step serializeMetadata (some (keyOpsOf none mw)) = keyOpsOf (some x) mw := by
  cases op with
  | kvWrite ns coll w =>
    simp only [TxOp.valueWrite?, Option.some.injEq] at hx
    subst hx
    by_cases h : isKVWriteDelete w = true <;>
      simp [TxOp.step, keyOpsOf, valueFlag, h, UInt8.add_comm]
  | metadataWrite ns coll w => cases hx

/-- A metadata write on a key without one adds its bit and its metadata. -/
theorem step_keyOpsOf_metadata {op : TxOp} {y : Option Bytes}
    (hy : op.metadataWrite? serializeMetadata = some y) (vw : Option (Option Bytes)) :
    op.step serializeMetadata (some (keyOpsOf vw none)) = keyOpsOf vw (some y) := by
  cases op with
  | kvWrite ns coll w => cases hy
  | metadataWrite ns coll w =>
    simp only [TxOp.metadataWrite?, Option.some.injEq] at hy
    subst hy
    by_cases h : w.entries.isEmpty = true <;>
      simp [TxOp.step, keyOpsOf, metadataFlag, h]

/-- Operations on one key with at most one value write and one metadata write, after a
    value write `vw` and a metadata write `mw` that they do not repeat, leave the entry of the
    writes taken together: the flag bits add up without carrying. -/
theorem foldl_step_keyOpsOf (L : List TxOp) (vw mw : Option (Option Bytes))
    (hv : (L.filterMap TxOp.valueWrite?).length ≤ 1)
    (hm : (L.filterMap (TxOp.metadataWrite? serializeMetadata)).length ≤ 1)
    (hvw : vw.isSome → L.filterMap TxOp.valueWrite? = [])
    (hmw : mw.isSome → L.filterMap (TxOp.metadataWrite? serializeMetadata) = []) :
    L.foldl (fun o op => some (op.step serializeMetadata o)) (some (keyOpsOf vw mw)) =
      some (keyOpsOf (vw.or (L.filterMap TxOp.valueWrite?).head?)
        (mw.or (L.filterMap (TxOp.metadataWrite? serializeMetadata)).head?)) := by
  induction L generalizing vw mw with
  | nil => simp
  | cons op L ih =>
    cases op with
    | kvWrite ns coll w =>
      -- the value write of the key: none before it, none after it
      set x := if isKVWriteDelete w then none else some w.value with hxdef
      have hx : (TxOp.kvWrite ns coll w).valueWrite? = some x := rfl
      have hrest : L.filterMap TxOp.valueWrite? = [] := by
        simpa [List.filterMap_cons, hx] using hv
      have hvw' : vw = none := by
        cases vw with
        | none => rfl
        | some _ => simp [hx] at hvw
      subst hvw'
      have hnone : (TxOp.kvWrite ns coll w).metadataWrite? serializeMetadata = none := rfl
      rw [List.filterMap_cons_none hnone] at hm hmw ⊢
      rw [List.foldl_cons, step_keyOpsOf_value serializeMetadata hx,
        ih (some x) mw (by simp [hrest]) hm (fun _ => hrest) hmw]
      simp [hx, hrest]
    | metadataWrite ns coll w =>
      set y := if w.entries.isEmpty then none else some (serializeMetadata w.entries) with hydef
      have hy : (TxOp.metadataWrite ns coll w).metadataWrite? serializeMetadata = some y := rfl
      have hrest : L.filterMap (TxOp.metadataWrite? serializeMetadata) = [] := by
        simpa [List.filterMap_cons, hy] using hm
      have hmw' : mw = none := by
        cases mw with
        | none => rfl
        | some _ => simp [hy] at hmw
      subst hmw'
      have hnone : (TxOp.metadataWrite ns coll w).valueWrite? = none := rfl
      rw [List.filterMap_cons_none hnone] at hv hvw ⊢
      rw [List.foldl_cons, step_keyOpsOf_metadata serializeMetadata hy,
        ih vw (some y) hv (by simp [hrest]) hvw (fun _ => hrest)]
      simp [hy, hrest]

/-- The entry of a key that a transaction writes with value write `vw` and metadata write
    `mw`, if it writes it at all. -/
def keyOps? (vw mw : Option (Option Bytes)) : Option KeyOps :=
  if vw.isNone && mw.isNone then none else some (keyOpsOf vw mw)

/-- From no entry, operations on one key with at most one value write and one metadata write
    leave the entry of those writes. -/
theorem foldl_step_none (L : List TxOp) (hv : (L.filterMap TxOp.valueWrite?).length ≤ 1)
    (hm : (L.filterMap (TxOp.metadataWrite? serializeMetadata)).length ≤ 1) :
    L.foldl (fun o op => some (op.step serializeMetadata o)) none =
      keyOps? (L.filterMap TxOp.valueWrite?).head?
        (L.filterMap (TxOp.metadataWrite? serializeMetadata)).head? := by
  cases L with
  | nil => rfl
  | cons op L =>
    -- the first operation finds no entry, as if it found the empty one
    have hfirst : (op :: L).foldl (fun o op => some (op.step serializeMetadata o)) none =
        (op :: L).foldl (fun o op => some (op.step serializeMetadata o))
          (some (keyOpsOf none none)) := rfl
    have hne : ¬ (((op :: L).filterMap TxOp.valueWrite?).head?.isNone &&
        ((op :: L).filterMap (TxOp.metadataWrite? serializeMetadata)).head?.isNone) = true := by
      cases op <;> simp [TxOp.valueWrite?, TxOp.metadataWrite?]
    rw [hfirst, foldl_step_keyOpsOf serializeMetadata _ none none hv hm (by simp) (by simp), keyOps?,
      if_neg hne]
    rfl

/-! ## Completing the entries -/

section Prepared

variable (db : VersionedDB String)

/-- The entry `prepareKeyOps` leaves for the key it visits, from the one there (`old`). -/
def preparedKeyOps (u : PublicAndHashUpdates) (ck : CompositeKey) (keyop : KeyOps)
    (old : Option KeyOps) : Option KeyOps :=
  if keyop.isDelete || keyop.isUpsertAndMetadataUpdate then old
  else if keyop.isOnlyUpsert then
    some { keyop with metadata := retrieveLatestMetadata db ck.ns ck.coll ck.key u }
  else
    (retrieveLatestState db ck.ns ck.coll ck.key u).map fun latestVal =>
      { keyop with value := latestVal.value }

/-- `prepareKeyOps` rewrites the entry it visits only. -/
theorem get?_prepareKeyOps (u : PublicAndHashUpdates) (txops : TxOps) (ck : CompositeKey)
    (keyop : KeyOps) (q : CompositeKey) :
    (prepareKeyOps db u txops ck keyop).get? q =
      if ck = q then preparedKeyOps db u ck keyop (txops.get? q) else txops.get? q := by
  by_cases hq : ck = q
  · subst hq
    rw [if_pos rfl]
    unfold prepareKeyOps preparedKeyOps
    split_ifs with h1 h2
    · rfl
    · simp
    · cases retrieveLatestState db ck.ns ck.coll ck.key u <;> simp
  · -- another key's step leaves this entry alone
    have hq' : q ≠ ck := Ne.symm hq
    rw [if_neg hq]
    unfold prepareKeyOps
    split_ifs with h1 h2
    · rfl
    · simp [hq']
    · cases retrieveLatestState db ck.ns ck.coll ck.key u <;> simp [hq']

/-- The entry `prepareTxOps` leaves for a key: the one `applyTxRwset` recorded, completed. -/
theorem get?_prepareTxOps (rwset : TxRwSet) (u : PublicAndHashUpdates) (q : CompositeKey) :
    (prepareTxOps db serializeMetadata rwset u).get? q =
      ((TxOps.applyTxRwset GoMap.empty serializeMetadata rwset).get? q).bind
        fun keyop => preparedKeyOps db u q keyop (some keyop) := by
  set txops := TxOps.applyTxRwset GoMap.empty serializeMetadata rwset
  have h := GoMap.read_foldl_entries GoMap.get? (fun txops e => prepareKeyOps db u txops e.1 e.2)
    (preparedKeyOps db u) (fun acc k v q => get?_prepareKeyOps db u acc k v q) txops txops q
  simp only [prepareTxOps]
  rw [h]
  cases hq : txops.get? q <;> rfl

end Prepared

/-! ## Writing the entries -/

/-- The key of the state an entry of `txOps` is written to: a public key for the collection
    `""`, a key hash otherwise. -/
def CompositeKey.route (ck : CompositeKey) : StateKey :=
  if ck.coll = "" then .pub ck.ns ck.key else .hashed ck.ns ck.coll ck.key

/-- The composite key `applyTxRwset` records a key of the state under. -/
def StateKey.toCompositeKey : StateKey → CompositeKey
  | .pub ns key => ⟨ns, "", key⟩
  | .hashed ns coll keyHash => ⟨ns, coll, keyHash⟩

theorem route_injective {ck ck' : CompositeKey} (h : ck.route = ck'.route) : ck = ck' := by
  obtain ⟨ns, coll, key⟩ := ck
  obtain ⟨ns', coll', key'⟩ := ck'
  unfold CompositeKey.route at h
  by_cases hc : coll = "" <;> by_cases hc' : coll' = "" <;> simp_all

/-- A composite key is routed to `p` exactly when it is `p`'s own and `p`'s own is routed
    back to `p`: a key hash of the collection `""` has no composite key routed to it. -/
theorem route_eq_iff (ck : CompositeKey) (p : StateKey) :
    ck.route = p ↔ ck = p.toCompositeKey ∧ p.toCompositeKey.route = p := by
  constructor
  · rintro rfl
    obtain ⟨ns, coll, key⟩ := ck
    by_cases hc : coll = "" <;> simp [CompositeKey.route, StateKey.toCompositeKey, hc]
  · rintro ⟨rfl, h⟩
    exact h

/-- The entry `applyKeyOps` writes for a composite key. -/
def writtenValue (txHeight : Height) (keyops : KeyOps) : VersionedValue :=
  if keyops.isDelete then ⟨none, [], txHeight⟩ else ⟨keyops.value, keyops.metadata, txHeight⟩

theorem get_of_applyKeyOps {txHeight : Height} {u u' : PublicAndHashUpdates}
    {ck : CompositeKey} {keyops : KeyOps} (h : applyKeyOps txHeight u ck keyops = .ok u')
    (p : StateKey) :
    u'.get p = if ck.route = p then some (writtenValue txHeight keyops) else u.get p := by
  obtain ⟨ns, coll, key⟩ := ck
  by_cases hc : coll = ""
  · -- a public key: the public updates change at `(ns, key)`
    subst hc
    by_cases hd : keyops.isDelete = true
    · simp only [applyKeyOps, if_true, hd, Except.ok.injEq] at h
      subst h
      cases p <;> simp [PublicAndHashUpdates.get, PubUpdateBatch.get, PubUpdateBatch.delete,
        CompositeKey.route, writtenValue, hd, eq_comm]
    · cases hv : keyops.value with
      | none =>
        simp [applyKeyOps, hd, hv, PubUpdateBatch.putValAndMetadata,
          UpdateBatch.putValAndMetadata] at h
      | some v =>
        simp only [applyKeyOps, if_true, hd, hv, PubUpdateBatch.putValAndMetadata,
          UpdateBatch.putValAndMetadata] at h
        cases h
        cases p <;> simp [PublicAndHashUpdates.get, PubUpdateBatch.get, CompositeKey.route,
          writtenValue, hd, hv, eq_comm]
  · -- a key hash: the hash updates change at `(ns, coll, key)`
    by_cases hd : keyops.isDelete = true
    · simp only [applyKeyOps, hc, if_false, hd, if_true, Except.ok.injEq] at h
      subst h
      cases p <;> simp [PublicAndHashUpdates.get, HashedUpdateBatch.get, HashedUpdateBatch.delete,
        CompositeKey.route, writtenValue, hc, hd, eq_comm]
    · cases hv : keyops.value with
      | none =>
        simp [applyKeyOps, hc, hd, hv, HashedUpdateBatch.putValHashAndMetadata,
          UpdateBatch.putValAndMetadata] at h
      | some v =>
        simp only [applyKeyOps, hc, if_false, hd, hv, HashedUpdateBatch.putValHashAndMetadata,
          UpdateBatch.putValAndMetadata] at h
        cases h
        cases p <;> simp [PublicAndHashUpdates.get, HashedUpdateBatch.get, CompositeKey.route,
          writtenValue, hc, hd, hv, eq_comm]

/-- A step of `applyWriteSet` that returns wrote a delete or a non-nil value. -/
theorem isDelete_or_isSome_of_applyKeyOps {txHeight : Height} {u u' : PublicAndHashUpdates}
    {ck : CompositeKey} {keyops : KeyOps} (h : applyKeyOps txHeight u ck keyops = .ok u') :
    keyops.isDelete = true ∨ keyops.value.isSome = true := by
  cases hv : keyops.value with
  | some v => simp
  | none =>
    -- a nil value that is not a delete panics in `PutValAndMetadata`
    left
    by_contra hd
    by_cases hc : ck.coll = "" <;>
      simp [applyKeyOps, hc, hd, hv, PubUpdateBatch.putValAndMetadata,
        HashedUpdateBatch.putValHashAndMetadata, UpdateBatch.putValAndMetadata] at h

theorem prepareTxOps_containsPostOrderWrites (db : VersionedDB String) (rwset : TxRwSet)
    (u : PublicAndHashUpdates) (c : Bool) :
    prepareTxOps db serializeMetadata rwset
        { u with publicUpdates := { u.publicUpdates with containsPostOrderWrites := c } } =
      prepareTxOps db serializeMetadata rwset u := rfl

/-- The pending write of a key after `applyWriteSet`: the completed entry of its composite key,
    if the transaction writes it and the key is where that entry is routed. -/
theorem get_of_applyWriteSet (db : VersionedDB String) {u u' : PublicAndHashUpdates}
    {rwset : TxRwSet} {txHeight : Height} {c : Bool}
    (h : u.applyWriteSet db serializeMetadata rwset txHeight c = .ok u') (p : StateKey) :
    u'.get p =
      if p.toCompositeKey.route = p then
        match (prepareTxOps db serializeMetadata rwset u).get? p.toCompositeKey with
        | some keyops => some (writtenValue txHeight keyops)
        | none => u.get p
      else u.get p := by
  simp only [PublicAndHashUpdates.applyWriteSet, prepareTxOps_containsPostOrderWrites] at h
  set txops := prepareTxOps db serializeMetadata rwset u
  set u₀ : PublicAndHashUpdates := { u with publicUpdates := { u.publicUpdates with
    containsPostOrderWrites := u.publicUpdates.containsPostOrderWrites || c } }
  have hu₀ : u₀.get p = u.get p := by cases p <;> rfl
  have hrun := GoMap.read_foldlM_image PublicAndHashUpdates.get (fun ck => some ck.route)
    (fun k k' p hk hk' => route_injective (Option.some.inj (hk.trans hk'.symm)))
    (fun u e => applyKeyOps txHeight u e.1 e.2) (fun _ keyops _ => some (writtenValue txHeight keyops))
    (fun acc k v acc' hstep p => by simpa using get_of_applyKeyOps hstep p)
    txops.entries txops.nodup u₀ u' h p
  rw [hrun, hu₀]
  by_cases hp : p.toCompositeKey.route = p
  · -- the entries routed to `p` are the entry of `p`'s composite key
    have hfind : txops.entries.find? (fun e => decide (some e.1.route = some p)) =
        (txops.get? p.toCompositeKey).map (p.toCompositeKey, ·) := by
      rw [GoMap.get?, ← GoMap.find?_some_fst]
      congr 1
      funext e
      simp [route_eq_iff, hp]
    rw [hfind, if_pos hp]
    cases txops.get? p.toCompositeKey <;> rfl
  · -- no composite key is routed to `p`
    have hfind : txops.entries.find? (fun e => decide (some e.1.route = some p)) = none := by
      rw [List.find?_eq_none]
      intro e _
      simp [route_eq_iff, hp]
    rw [hfind, if_neg hp]

/-- On a run of `applyWriteSet` that returns, every completed entry is a delete or carries a
    value. -/
theorem isDelete_or_isSome_of_applyWriteSet (db : VersionedDB String)
    {u u' : PublicAndHashUpdates} {rwset : TxRwSet} {txHeight : Height} {c : Bool}
    (h : u.applyWriteSet db serializeMetadata rwset txHeight c = .ok u') {q : CompositeKey}
    {keyops : KeyOps} (hq : (prepareTxOps db serializeMetadata rwset u).get? q = some keyops) :
    keyops.isDelete = true ∨ keyops.value.isSome = true := by
  simp only [PublicAndHashUpdates.applyWriteSet, prepareTxOps_containsPostOrderWrites] at h
  exact FoldM.forall_mem_of_except_ok _ (fun e => e.2.isDelete = true ∨ e.2.value.isSome = true)
    (fun _ e _ he => isDelete_or_isSome_of_applyKeyOps he) _ _ _ h (q, keyops)
    (GoMap.mem_entries_of_get? hq)

/-! ## The latest state of a key -/

section Latest

variable (db : VersionedDB String)

/-- `retrieveLatestState` of a routed key: its pending write, else its committed entry. -/
theorem retrieveLatestState_toCompositeKey (u : PublicAndHashUpdates) {p : StateKey}
    (hp : p.toCompositeKey.route = p) :
    retrieveLatestState db p.toCompositeKey.ns p.toCompositeKey.coll p.toCompositeKey.key u =
      (u.get p).or (committedState db p) := by
  cases p with
  | pub ns key =>
    simp only [retrieveLatestState, StateKey.toCompositeKey, if_true, PublicAndHashUpdates.get]
    cases u.publicUpdates.get ns key <;> rfl
  | hashed ns coll keyHash =>
    have hc : coll ≠ "" := by
      intro hc
      simp [CompositeKey.route, StateKey.toCompositeKey, hc] at hp
    simp only [retrieveLatestState, StateKey.toCompositeKey, hc, if_false,
      PublicAndHashUpdates.get]
    cases u.hashUpdates.get ns coll keyHash <;> rfl

/-- `retrieveLatestMetadata` of a routed key: the metadata of its latest entry, nil if none. -/
theorem retrieveLatestMetadata_toCompositeKey (u : PublicAndHashUpdates) {p : StateKey}
    (hp : p.toCompositeKey.route = p) :
    retrieveLatestMetadata db p.toCompositeKey.ns p.toCompositeKey.coll p.toCompositeKey.key u =
      (((u.get p).or (committedState db p)).map VersionedValue.metadata).getD [] := by
  cases p with
  | pub ns key =>
    simp only [retrieveLatestMetadata, StateKey.toCompositeKey, if_true, PublicAndHashUpdates.get]
    cases u.publicUpdates.get ns key with
    | none => exact ((committedState_metadata db).1 ns key).symm
    | some vv => rfl
  | hashed ns coll keyHash =>
    have hc : coll ≠ "" := by
      intro hc
      simp [CompositeKey.route, StateKey.toCompositeKey, hc] at hp
    simp only [retrieveLatestMetadata, StateKey.toCompositeKey, hc, if_false,
      PublicAndHashUpdates.get]
    cases u.hashUpdates.get ns coll keyHash with
    | none => exact ((committedState_metadata db).2 ns coll keyHash).symm
    | some vv => rfl

end Latest

/-! ## Repeated operations -/

/-- The flag an operation adds to the entry of its key. -/
def TxOp.flag : TxOp → KeyOpsFlag
  | .kvWrite _ _ w => if isKVWriteDelete w then KeyOpsFlag.keyDelete else KeyOpsFlag.upsertVal
  | .metadataWrite _ _ w =>
    if w.entries.isEmpty then KeyOpsFlag.metadataDelete else KeyOpsFlag.metadataUpdate

section Repeated

variable (serializeMetadata : List KVMetadataEntry → Bytes)

theorem flag_step (op : TxOp) (o : Option KeyOps) :
    (op.step serializeMetadata o).flag = (o.getD {}).flag + op.flag := by
  cases op with
  | kvWrite ns coll w => by_cases h : isKVWriteDelete w = true <;> simp [TxOp.step, TxOp.flag, h]
  | metadataWrite ns coll w =>
    by_cases h : w.entries.isEmpty = true <;> simp [TxOp.step, TxOp.flag, h]

/-- Operations one after another add up their flags, in `uint8` arithmetic. -/
theorem flag_foldl_step (L : List TxOp) (o : Option KeyOps) (hL : L ≠ []) :
    ((L.foldl (fun o op => some (op.step serializeMetadata o)) o).map KeyOps.flag) =
      some ((o.getD {}).flag + (L.map TxOp.flag).sum) := by
  induction L generalizing o with
  | nil => exact absurd rfl hL
  | cons op rest ih =>
    rw [List.foldl_cons]
    by_cases hr : rest = []
    · subst hr
      simp [flag_step]
    · rw [ih _ hr, Option.getD_some, flag_step, List.map_cons, List.sum_cons, UInt8.add_assoc]

/-- The flag `applyTxRwset` records for a key is the sum, in `uint8` arithmetic, of the flags of
    the operations on it, however often each occurs. -/
theorem flag_applyTxRwset (rwset : TxRwSet) (q : CompositeKey)
    (hq : rwset.txOpList.filter (fun op => op.key = q) ≠ []) :
    ((TxOps.applyTxRwset GoMap.empty serializeMetadata rwset).get? q).map KeyOps.flag =
      some (((rwset.txOpList.filter fun op => op.key = q).map TxOp.flag).sum) := by
  rw [get?_applyTxRwset, flag_foldl_step serializeMetadata _ none hq]
  simp

end Repeated

/-- A committed state holding `[0]` at key `k` of namespace `ns`. -/
def committedK : VersionedDB String where
  state ns := if ns = "ns" then [("k", ⟨some [0], [], newHeight 0 0⟩)] else []
  sorted ns := by split <;> simp
  value_isSome ns e he := by split at he <;> simp_all

/-- A transaction making the same write to key `k` of namespace `ns`, `n` times. -/
def repeatedWrite (n : Nat) (w : KVWrite) : TxRwSet :=
  ⟨[⟨"ns", ⟨[], [], List.replicate n w, []⟩, []⟩]⟩

/-- The write of `[1]` to `k`, listed twice. -/
theorem flag_applyTxRwset_twice :
    (repeatedWrite 2 ⟨"k", false, [1]⟩).txOpList.filter (fun op => op.key = ⟨"ns", "", "k"⟩) ≠
        [] ∧
      ((TxOps.applyTxRwset GoMap.empty (fun _ => []) (repeatedWrite 2 ⟨"k", false, [1]⟩)).get?
          ⟨"ns", "", "k"⟩).map KeyOps.flag =
        some ((((repeatedWrite 2 ⟨"k", false, [1]⟩).txOpList.filter
          fun op => op.key = ⟨"ns", "", "k"⟩).map TxOp.flag).sum) :=
  ⟨by decide, flag_applyTxRwset (fun _ => []) _ _ (by decide)⟩

/-- What `applyWriteSet` leaves at key `k` of namespace `ns`, over `committedK`, for a
    transaction making the same write `n` times. -/
def repeatedWriteUpdate (n : Nat) (w : KVWrite) : Except Failure (Option VersionedValue) :=
  (newPubAndHashUpdates.applyWriteSet committedK (fun _ => []) (repeatedWrite n w)
    (newHeight 1 0) false).map (·.get (.pub "ns" "k"))

/-- Writing `[1]` to `k` once puts `[1]` in the public updates, but writing it twice adds
    `upsertVal` twice, which reads as `metadataUpdate`: the key takes the metadata-only path and
    the committed `[0]` is written back. Deleting `k` once puts a delete, deleting it twice
    (flag `16`) writes `[0]` back too. -/
theorem applyWriteSet_repeated_write :
    repeatedWriteUpdate 1 ⟨"k", false, [1]⟩ = .ok (some ⟨some [1], [], newHeight 1 0⟩) ∧
      repeatedWriteUpdate 2 ⟨"k", false, [1]⟩ = .ok (some ⟨some [0], [], newHeight 1 0⟩) ∧
      repeatedWriteUpdate 1 ⟨"k", true, []⟩ = .ok (some ⟨none, [], newHeight 1 0⟩) ∧
      repeatedWriteUpdate 2 ⟨"k", true, []⟩ = .ok (some ⟨some [0], [], newHeight 1 0⟩) ∧
      ((TxOps.applyTxRwset GoMap.empty (fun _ => []) (repeatedWrite 2 ⟨"k", false, [1]⟩)).get?
          ⟨"ns", "", "k"⟩).map KeyOps.flag = some KeyOpsFlag.metadataUpdate ∧
      KeyOpsFlag.upsertVal ||| KeyOpsFlag.upsertVal = KeyOpsFlag.upsertVal := by
  refine ⟨rfl, rfl, rfl, rfl, rfl, rfl⟩

/-- The updates of a block in which an earlier transaction deleted key `k` of namespace `ns`. -/
def deletedK : PublicAndHashUpdates :=
  { newPubAndHashUpdates with publicUpdates := newPubUpdateBatch.delete "ns" "k" (newHeight 1 0) }

/-- A transaction writing only metadata to key `k` of namespace `ns`. -/
def metadataOnlyWrite : TxRwSet := ⟨[⟨"ns", ⟨[], [], [], [⟨"k", [⟨"e", [1]⟩]⟩]⟩, []⟩]⟩

/-- After a delete of `k` earlier in the block, a transaction that writes only metadata to `k`
    finds the delete as the latest state of `k` and copies its nil value, and `applyWriteSet`
    panics in `PutValAndMetadata`. Over a state without `k` the same write leaves no update. -/
theorem applyWriteSet_metadata_after_delete :
    deletedK.get (.pub "ns" "k") = some ⟨none, [], newHeight 1 0⟩ ∧
      deletedK.applyWriteSet committedK (fun _ => [1]) metadataOnlyWrite (newHeight 1 1) false =
        .error (.panic "Nil value not allowed. Instead call \x27Delete\x27 function") ∧
      (newPubAndHashUpdates.applyWriteSet ⟨fun _ => [], fun _ => .nil, fun _ _ h => by cases h⟩
          (fun _ => [1]) metadataOnlyWrite (newHeight 1 1) false).map (·.get (.pub "ns" "k")) =
        .ok none := by
  refine ⟨rfl, rfl, rfl⟩

end Fabric.Ledger
