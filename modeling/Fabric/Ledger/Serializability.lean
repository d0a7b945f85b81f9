import Fabric.Ledger.Validator

/-
  Serializability of a validated block: what `validateAndPrepareBatch` is for.

  In the abstract, a block is a sequence of transactions applied one after the other: a
  valid transaction wrote its write set at its height (block number, index in block) on top
  of the committed state and the writes of the valid transactions before it. Its reads must
  be of the versions that state gives their keys. The pending writes of the block are then
  the latest entry of every key written, a delete being a nil value.

  A transaction's write set is read here as its last value write and its last metadata write
  per key (`TxRwSet.valueWrite`, `TxRwSet.metadataWrite`), public keys and key hashes of
  collections kept apart (`StateKey`). `applyTxSpec` gives their meaning, `specRun` runs a
  block, `specVersion` is the version of a key in the state.

  The code refines this on well-formed write sets (`TxRwSet.WellFormed`: every collection is
  named, and no key is written twice in value or twice in metadata):
  `get_applyWriteSet_eq_applyTxSpec` for one transaction, `validateAndPrepareTxs_spec` for the
  run, `validateAndPrepareBatch_serializable` for the block. Outside them it does not: a key
  hash of the collection `""` is written into the public updates, and a key written twice
  in one transaction adds `upsertVal` twice to its flag, which reads as `metadataUpdate`
  (`validateAndPrepareBatch_not_serializable`).
-/

namespace Fabric.Ledger

/-! ## The writes of a transaction -/

/-- The value writes of a transaction, in its order: per namespace its public writes, then the
    hashed writes of each collection; `none` deletes the key. -/
def TxRwSet.valueWrites (rwset : TxRwSet) : List (StateKey × Option Bytes) :=
  rwset.nsRwSets.flatMap fun nsRWSet =>
    nsRWSet.kvRwSet.writes.map (fun kvWrite =>
      (.pub nsRWSet.nameSpace kvWrite.key,
        if isKVWriteDelete kvWrite then none else some kvWrite.value)) ++
    nsRWSet.collHashedRwSets.flatMap fun collHashedRWSet =>
      collHashedRWSet.hashedRwSet.hashedWrites.map fun hashedWrite =>
        (.hashed nsRWSet.nameSpace collHashedRWSet.collectionName hashedWrite.keyHash,
          if isKVWriteHashDelete hashedWrite then none else some hashedWrite.valueHash)

/-- The metadata writes of a transaction, with their entries. -/
def TxRwSet.metadataWrites (rwset : TxRwSet) : List (StateKey × List KVMetadataEntry) :=
  rwset.nsRwSets.flatMap fun nsRWSet =>
    nsRWSet.kvRwSet.metadataWrites.map (fun metadataWrite =>
      (.pub nsRWSet.nameSpace metadataWrite.key, metadataWrite.entries)) ++
    nsRWSet.collHashedRwSets.flatMap fun collHashedRWSet =>
      collHashedRWSet.hashedRwSet.metadataWrites.map fun metadataWrite =>
        (.hashed nsRWSet.nameSpace collHashedRWSet.collectionName metadataWrite.keyHash,
          metadataWrite.entries)

/-- The last value write of a key: `some none` deletes it, `some (some v)` writes `v`. -/
def TxRwSet.valueWrite (rwset : TxRwSet) (k : StateKey) : Option (Option Bytes) :=
  ((rwset.valueWrites.filter fun e => e.1 = k).map Prod.snd).getLast?

variable (serializeMetadata : List KVMetadataEntry → Bytes)

/-- The last metadata write of a key: `some none` deletes its metadata, `some (some m)` sets
    it to the serialized entries `m`. -/
def TxRwSet.metadataWrite (rwset : TxRwSet) (k : StateKey) : Option (Option Bytes) :=
  ((rwset.metadataWrites.filter fun e => e.1 = k).map fun e =>
    if e.2.isEmpty then none else some (serializeMetadata e.2)).getLast?

/-- A write set as the simulator builds it: collections have names, and a key is written at
    most once in value and at most once in metadata. -/
def TxRwSet.WellFormed (rwset : TxRwSet) : Prop :=
  (∀ nsRWSet ∈ rwset.nsRwSets, ∀ collHashedRWSet ∈ nsRWSet.collHashedRwSets,
    collHashedRWSet.collectionName ≠ "") ∧
  (rwset.valueWrites.map Prod.fst).Nodup ∧ (rwset.metadataWrites.map Prod.fst).Nodup

instance (rwset : TxRwSet) : Decidable rwset.WellFormed := by
  unfold TxRwSet.WellFormed
  infer_instance

/-! ## The code's operations and the writes -/

/-- The value operations of `txOpList` are the value writes, under their composite keys. -/
theorem txOpList_valueWrites (rwset : TxRwSet) :
    rwset.txOpList.filterMap (fun op => op.valueWrite?.map (op.key, ·)) =
      rwset.valueWrites.map fun e => (e.1.toCompositeKey, e.2) := by
  simp [TxRwSet.txOpList, TxRwSet.valueWrites, List.filterMap_flatMap, List.map_flatMap,
    List.filterMap_append, List.filterMap_map, Function.comp_def, TxOp.valueWrite?, TxOp.key,
    StateKey.toCompositeKey, isKVWriteDelete_hashed]

/-- The metadata operations of `txOpList` are the metadata writes, under their composite
    keys. -/
theorem txOpList_metadataWrites (rwset : TxRwSet) :
    rwset.txOpList.filterMap (fun op => (op.metadataWrite? serializeMetadata).map (op.key, ·)) =
      rwset.metadataWrites.map fun e =>
        (e.1.toCompositeKey, if e.2.isEmpty then none else some (serializeMetadata e.2)) := by
  simp [TxRwSet.txOpList, TxRwSet.metadataWrites, List.filterMap_flatMap, List.map_flatMap,
    List.filterMap_append, List.filterMap_map, Function.comp_def, TxOp.metadataWrite?, TxOp.key,
    StateKey.toCompositeKey]

/-- The operations of a list at one key, read off the list keyed by composite key. -/
theorem filterMap_filter_key {β : Type} (f : TxOp → Option β) (L : List TxOp)
    (q : CompositeKey) :
    (L.filter fun op => op.key = q).filterMap f =
      ((L.filterMap fun op => (f op).map (op.key, ·)).filter fun e => e.1 = q).map Prod.snd := by
  induction L with
  | nil => rfl
  | cons op L ih =>
    by_cases hq : op.key = q <;> cases hf : f op <;> simp [hq, hf, ih]

section WellFormed

variable {rwset : TxRwSet}

/-- With named collections, every key a transaction writes is routed back to itself. -/
theorem route_of_mem_valueWrites (hwf : rwset.WellFormed) {e : StateKey × Option Bytes}
    (he : e ∈ rwset.valueWrites) : e.1.toCompositeKey.route = e.1 := by
  simp only [TxRwSet.valueWrites, List.mem_flatMap, List.mem_append, List.mem_map] at he
  obtain ⟨nsRWSet, hn, ⟨kvWrite, -, rfl⟩ | ⟨c, hc, hashedWrite, -, rfl⟩⟩ := he
  · simp [StateKey.toCompositeKey, CompositeKey.route]
  · simp [StateKey.toCompositeKey, CompositeKey.route, hwf.1 nsRWSet hn c hc]

theorem route_of_mem_metadataWrites (hwf : rwset.WellFormed)
    {e : StateKey × List KVMetadataEntry} (he : e ∈ rwset.metadataWrites) :
    e.1.toCompositeKey.route = e.1 := by
  simp only [TxRwSet.metadataWrites, List.mem_flatMap, List.mem_append, List.mem_map] at he
  obtain ⟨nsRWSet, hn, ⟨metadataWrite, -, rfl⟩ | ⟨c, hc, metadataWrite, -, rfl⟩⟩ := he
  · simp [StateKey.toCompositeKey, CompositeKey.route]
  · simp [StateKey.toCompositeKey, CompositeKey.route, hwf.1 nsRWSet hn c hc]

/-- Keys routed back to themselves have different composite keys. -/
theorem toCompositeKey_inj {k p : StateKey} (hk : k.toCompositeKey.route = k)
    (hp : p.toCompositeKey.route = p) (h : k.toCompositeKey = p.toCompositeKey) : k = p := by
  rw [← hk, ← hp, h]

/-- The value operations of a routed key are its value writes. -/
theorem filterMap_valueWrite? (hwf : rwset.WellFormed) {p : StateKey}
    (hp : p.toCompositeKey.route = p) :
    (rwset.txOpList.filter fun op => op.key = p.toCompositeKey).filterMap TxOp.valueWrite? =
      (rwset.valueWrites.filter fun e => e.1 = p).map Prod.snd := by
  rw [filterMap_filter_key, txOpList_valueWrites, List.filter_map, List.map_map]
  congr 1
  apply List.filter_congr
  intro e he
  have hiff : e.1.toCompositeKey = p.toCompositeKey ↔ e.1 = p :=
    ⟨toCompositeKey_inj (route_of_mem_valueWrites hwf he) hp, fun h => h ▸ rfl⟩
  simp [hiff]

/-- The metadata operations of a routed key are its metadata writes. -/
theorem filterMap_metadataWrite? (hwf : rwset.WellFormed) {p : StateKey}
    (hp : p.toCompositeKey.route = p) :
    (rwset.txOpList.filter fun op => op.key = p.toCompositeKey).filterMap
        (TxOp.metadataWrite? serializeMetadata) =
      (rwset.metadataWrites.filter fun e => e.1 = p).map fun e =>
        if e.2.isEmpty then none else some (serializeMetadata e.2) := by
  rw [filterMap_filter_key, txOpList_metadataWrites, List.filter_map, List.map_map]
  congr 1
  apply List.filter_congr
  intro e he
  have hiff : e.1.toCompositeKey = p.toCompositeKey ↔ e.1 = p :=
    ⟨toCompositeKey_inj (route_of_mem_metadataWrites hwf he) hp, fun h => h ▸ rfl⟩
  simp [hiff]

/-- The entry `applyTxRwset` records for a routed key: that of its value write and metadata
    write. -/
theorem get?_applyTxRwset_toCompositeKey (hwf : rwset.WellFormed) {p : StateKey}
    (hp : p.toCompositeKey.route = p) :
    (TxOps.applyTxRwset GoMap.empty serializeMetadata rwset).get? p.toCompositeKey =
      keyOps? (rwset.valueWrite p) (rwset.metadataWrite serializeMetadata p) := by
  have hv := GoMap.length_filter_fst_le_one _ hwf.2.1 p
  have hm := GoMap.length_filter_fst_le_one _ hwf.2.2 p
  rw [get?_applyTxRwset, foldl_step_none serializeMetadata _
    (by simpa [filterMap_valueWrite? hwf hp] using hv)
    (by simpa [filterMap_metadataWrite? serializeMetadata hwf hp] using hm),
    filterMap_valueWrite? hwf hp, filterMap_metadataWrite? serializeMetadata hwf hp,
    GoMap.head?_eq_getLast?_of_length_le_one _ (by simpa using hv),
    GoMap.head?_eq_getLast?_of_length_le_one _ (by simpa using hm)]
  rfl

/-- A key hash of the collection `""` is written by no well-formed transaction. -/
theorem valueWrite_of_route_ne (hwf : rwset.WellFormed) {p : StateKey}
    (hp : p.toCompositeKey.route ≠ p) : rwset.valueWrite p = none := by
  have hnil : (rwset.valueWrites.filter fun e => e.1 = p) = [] := by
    rw [List.filter_eq_nil_iff]
    intro e he hep
    exact hp ((of_decide_eq_true hep) ▸ route_of_mem_valueWrites hwf he)
  simp [TxRwSet.valueWrite, hnil]

theorem metadataWrite_of_route_ne (hwf : rwset.WellFormed) {p : StateKey}
    (hp : p.toCompositeKey.route ≠ p) : rwset.metadataWrite serializeMetadata p = none := by
  have hnil : (rwset.metadataWrites.filter fun e => e.1 = p) = [] := by
    rw [List.filter_eq_nil_iff]
    intro e he hep
    exact hp ((of_decide_eq_true hep) ▸ route_of_mem_metadataWrites hwf he)
  simp [TxRwSet.metadataWrite, hnil]

end WellFormed

/-! ## Applying write sets in sequence -/

/-- The pending writes of a block in the abstract: the latest entry of each key written, a
    nil value marking a delete. -/
abbrev SpecBatch := StateKey → Option VersionedValue

variable (db : VersionedDB String)

/-- The latest entry of a key: its pending write, else what the database holds. -/
def latestEntry (B : SpecBatch) (k : StateKey) : Option VersionedValue :=
  (B k).or (committedState db k)

/-- What a transaction at height `h` leaves for a key with value write `vw` and metadata write
    `mw`, given its latest entry; `none` when it leaves the key alone. A delete clears value
    and metadata; a value write keeps the latest metadata unless the metadata is written too;
    a metadata write keeps the latest value, and does nothing to a key without one. -/
def writeEffect (h : Height) (latest : Option VersionedValue) :
    Option (Option Bytes) → Option (Option Bytes) → Option VersionedValue
  | some none, _ => some ⟨none, [], h⟩
  | some (some v), some m => some ⟨some v, m.getD [], h⟩
  | some (some v), none => some ⟨some v, (latest.map VersionedValue.metadata).getD [], h⟩
  | none, some m =>
    match latest with
    | some ⟨some v, _, _⟩ => some ⟨some v, m.getD [], h⟩
    | _ => none
  | none, none => none

/-- The pending writes after a transaction at height `h` wrote its write set. -/
def applyTxSpec (h : Height) (rwset : TxRwSet) (B : SpecBatch) : SpecBatch := fun k =>
  (writeEffect h (latestEntry db B k) (rwset.valueWrite k)
    (rwset.metadataWrite serializeMetadata k)).or (B k)

/-- The version a key has in the state: that of its latest entry, nil if it has none or was
    deleted. -/
def specVersion (B : SpecBatch) (k : StateKey) : Option Height :=
  match latestEntry db B k with
  | some ⟨some _, _, version⟩ => some version
  | _ => none

/-- `applyWriteSet` on a well-formed write set writes what the write set means: its updates
    are the abstract pending writes after the transaction, if they were before. -/
theorem get_applyWriteSet_eq_applyTxSpec {u u' : PublicAndHashUpdates} {B : SpecBatch}
    {rwset : TxRwSet} {txHeight : Height} {c : Bool} (hwf : rwset.WellFormed)
    (hB : ∀ k, u.get k = B k) (h : u.applyWriteSet db serializeMetadata rwset txHeight c = .ok u')
    (p : StateKey) : u'.get p = applyTxSpec serializeMetadata db txHeight rwset B p := by
  rw [get_of_applyWriteSet serializeMetadata db h p]
  unfold applyTxSpec latestEntry
  rw [← hB p]
  by_cases hp : p.toCompositeKey.route = p
  · rw [if_pos hp]
    have hprep := get?_prepareTxOps serializeMetadata db rwset u p.toCompositeKey
    rw [get?_applyTxRwset_toCompositeKey serializeMetadata hwf hp] at hprep
    have hok := fun keyops (hk : (prepareTxOps db serializeMetadata rwset u).get?
        p.toCompositeKey = some keyops) =>
      isDelete_or_isSome_of_applyWriteSet serializeMetadata db h hk
    rw [hprep] at hok ⊢
    simp only [preparedKeyOps, retrieveLatestMetadata_toCompositeKey db u hp,
      retrieveLatestState_toCompositeKey db u hp] at hok ⊢
    generalize rwset.valueWrite p = vw at hok ⊢
    generalize rwset.metadataWrite serializeMetadata p = mw at hok ⊢
    generalize (u.get p).or (committedState db p) = latest at hok ⊢
    rcases vw with _ | _ | v <;> rcases mw with _ | _ | m <;>
      simp +decide [keyOps?, keyOpsOf, valueFlag, metadataFlag, KeyOps.isDelete,
        KeyOps.isUpsertAndMetadataUpdate, KeyOps.isOnlyUpsert, KeyOpsFlag.upsertVal,
        KeyOpsFlag.metadataUpdate, KeyOpsFlag.metadataDelete, KeyOpsFlag.keyDelete, writtenValue,
        writeEffect] at hok ⊢
    -- left: a metadata write alone, which keeps the latest value; the write returned, so the
    -- latest entry is not a delete
    all_goals
      rcases latest with _ | ⟨_ | v', md, ver⟩
      · rfl
      · exact absurd (hok _ rfl) (by simp)
      · simp +decide
  · rw [if_neg hp, valueWrite_of_route_ne hwf hp, metadataWrite_of_route_ne serializeMetadata hwf hp]
    rfl

/-- The reads of a transaction are at the versions `V` gives their keys. -/
def ReadsMatch (V : StateKey → Option Height) (rwset : TxRwSet) : Prop :=
  (∀ nsRWSet ∈ rwset.nsRwSets, ∀ kvRead ∈ nsRWSet.kvRwSet.reads,
    kvRead.version = V (.pub nsRWSet.nameSpace kvRead.key)) ∧
  (∀ nsRWSet ∈ rwset.nsRwSets, ∀ collHashedRWSet ∈ nsRWSet.collHashedRwSets,
    ∀ kvReadHash ∈ collHashedRWSet.hashedRwSet.hashedReads,
      kvReadHash.version =
        V (.hashed nsRWSet.nameSpace collHashedRWSet.collectionName kvReadHash.keyHash))

/-- A key without pending writes has its committed version. -/
theorem specVersion_of_none {B : SpecBatch} {k : StateKey} (hk : B k = none) :
    specVersion db B k = (committedState db k).map VersionedValue.version := by
  unfold specVersion latestEntry
  rw [hk, Option.none_or]
  cases hc : committedState db k with
  | none => rfl
  | some vv =>
    obtain ⟨value, metadata, version⟩ := vv
    obtain ⟨v, rfl⟩ := Option.isSome_iff_exists.1 (committedState_value_isSome hc)
    rfl

/-- Reads that are current against updates equal to `B` are at the versions of the state. -/
theorem readsMatch_of_readsCurrent {u : PublicAndHashUpdates} {B : SpecBatch}
    (hB : ∀ k, u.get k = B k) {rwset : TxRwSet} (h : ReadsCurrent db u rwset) :
    ReadsMatch (specVersion db B) rwset := by
  obtain ⟨hpub, hhash⟩ := h
  constructor
  · intro nsRWSet hn kvRead hr
    obtain ⟨hex, hver⟩ := hpub nsRWSet hn kvRead hr
    have hnone : B (.pub nsRWSet.nameSpace kvRead.key) = none := by
      rw [← hB]
      simpa [PublicAndHashUpdates.get, PubUpdateBatch.exists, PubUpdateBatch.get,
        UpdateBatch.exists] using hex
    rw [specVersion_of_none db hnone, ← hver]
    rfl
  · intro nsRWSet hn c hc kvReadHash hr
    obtain ⟨hcont, hver⟩ := hhash nsRWSet hn c hc kvReadHash hr
    have hnone : B (.hashed nsRWSet.nameSpace c.collectionName kvReadHash.keyHash) = none := by
      rw [← hB]
      simpa [PublicAndHashUpdates.get, HashedUpdateBatch.contains, HashedUpdateBatch.get,
        UpdateBatch.exists] using hcont
    rw [specVersion_of_none db hnone, ← hver]
    rfl

/-- One transaction of the abstract run: a valid one writes its write set at its height. -/
def specStep (blkNum : Nat) (B : SpecBatch) (tx : Transaction) : SpecBatch :=
  if tx.validationCode = .valid then
    applyTxSpec serializeMetadata db (newHeight blkNum tx.indexInBlock) tx.rwset B
  else B

/-- The pending writes after the transactions `txs` of block `blkNum`, in order. -/
def specRun (blkNum : Nat) (txs : List Transaction) (B : SpecBatch) : SpecBatch :=
  txs.foldl (specStep serializeMetadata db blkNum) B

@[simp] theorem specRun_nil (blkNum : Nat) (B : SpecBatch) :
    specRun serializeMetadata db blkNum [] B = B := rfl

@[simp] theorem specRun_cons (blkNum : Nat) (tx : Transaction) (txs : List Transaction)
    (B : SpecBatch) :
    specRun serializeMetadata db blkNum (tx :: txs) B =
      specRun serializeMetadata db blkNum txs (specStep serializeMetadata db blkNum B tx) := rfl

/-- The validated transactions are the given ones with their codes set. -/
def CodesSet (txs' txs : List Transaction) : Prop :=
  List.Forall₂ (fun tx' tx => tx' = { tx with validationCode := tx'.validationCode }) txs' txs

variable (hashFunc : Bytes → Bytes) (serializeKVReads : List (KVRead String) → Bytes)

/-- The run of `validateAndPrepareBatch`'s loop, from updates equal to the abstract pending
    writes `B`: each valid transaction read the state left by the valid ones before it, and the
    updates end equal to the abstract run. The induction is on the transactions; the updates
    equal the abstract pending writes before every step. -/
theorem validateAndPrepareTxs_spec (blkNum : Nat) (txs : List Transaction)
    (hwf : ∀ tx ∈ txs, tx.rwset.WellFormed) (u : PublicAndHashUpdates)
    (purgeTracker : PvtdataPurgeTracker) (B : SpecBatch) (hB : ∀ k, u.get k = B k)
    {txs' : List Transaction} {u' : PublicAndHashUpdates} {purgeTracker' : PvtdataPurgeTracker}
    (h : validateAndPrepareTxs db hashFunc serializeKVReads serializeMetadata blkNum true txs u
      purgeTracker = .ok (txs', u', purgeTracker')) :
    CodesSet txs' txs ∧
    (∀ i (hi : i < txs'.length), txs'[i].validationCode = .valid →
      ReadsMatch (specVersion db (specRun serializeMetadata db blkNum (txs'.take i) B))
        txs'[i].rwset) ∧
    ∀ k, u'.get k = specRun serializeMetadata db blkNum txs' B k := by
  induction txs generalizing u purgeTracker B txs' u' purgeTracker' with
  | nil =>
    simp only [validateAndPrepareTxs, Except.ok.injEq, Prod.mk.injEq] at h
    obtain ⟨rfl, rfl, rfl⟩ := h
    exact ⟨List.Forall₂.nil, fun i hi => absurd hi (by simp), hB⟩
  | cons tx txs ih =>
    have hwf' : ∀ tx ∈ txs, tx.rwset.WellFormed := fun t ht => hwf t (List.mem_cons_of_mem _ ht)
    simp only [validateAndPrepareTxs, validateEndorserTX, if_true] at h
    cases hv : validateTx db hashFunc serializeKVReads tx.rwset u with
    | error err =>
      rw [hv] at h
      cases h
    | ok validationCode =>
      rw [hv] at h
      simp only [bind, Except.bind] at h
      by_cases hc : validationCode = .valid
      · -- a valid transaction: its write set goes into the updates
        subst hc
        simp only [if_true] at h
        cases ha : u.applyWriteSet db serializeMetadata tx.rwset (newHeight blkNum tx.indexInBlock)
            tx.containsPostOrderWrites with
        | error err =>
          rw [ha] at h
          cases h
        | ok u₁ =>
          rw [ha] at h
          dsimp only at h
          cases hr : validateAndPrepareTxs db hashFunc serializeKVReads serializeMetadata blkNum true
              txs u₁ (purgeTracker.update tx.rwset (newHeight blkNum tx.indexInBlock)) with
          | error err =>
            rw [hr] at h
            cases h
          | ok r =>
            obtain ⟨txs'', u'', purgeTracker''⟩ := r
            rw [hr] at h
            simp only [pure, Except.pure, Except.ok.injEq, Prod.mk.injEq] at h
            obtain ⟨rfl, rfl, rfl⟩ := h
            have hB₁ := get_applyWriteSet_eq_applyTxSpec serializeMetadata db
              (hwf tx List.mem_cons_self) hB ha
            obtain ⟨hcodes, hreads, hupd⟩ := ih hwf' u₁ _ _ hB₁ hr
            refine ⟨List.Forall₂.cons rfl hcodes, ?_, ?_⟩
            · intro i hi hvalid
              cases i with
              | zero =>
                exact readsMatch_of_readsCurrent db hB
                  (readsCurrent_of_validateTx db hashFunc serializeKVReads u tx.rwset hv)
              | succ i =>
                simpa [specStep] using hreads i (by simpa using hi) hvalid
            · intro k
              simpa [specStep] using hupd k
      · -- an invalid transaction leaves the updates alone
        rw [if_neg hc] at h
        cases hr : validateAndPrepareTxs db hashFunc serializeKVReads serializeMetadata blkNum true
            txs u purgeTracker with
        | error err =>
          rw [hr] at h
          cases h
        | ok r =>
          obtain ⟨txs'', u'', purgeTracker''⟩ := r
          rw [hr] at h
          simp only [pure, Except.pure, Except.ok.injEq, Prod.mk.injEq] at h
          obtain ⟨rfl, rfl, rfl⟩ := h
          obtain ⟨hcodes, hreads, hupd⟩ := ih hwf' u _ _ hB hr
          refine ⟨List.Forall₂.cons rfl hcodes, ?_, ?_⟩
          · intro i hi hvalid
            cases i with
            | zero => exact absurd hvalid hc
            | succ i =>
              simpa [specStep, hc] using hreads i (by simpa using hi) hvalid
          · intro k
            simpa [specStep, hc] using hupd k

theorem get_newPubAndHashUpdates (k : StateKey) : newPubAndHashUpdates.get k = none := by
  cases k <;> rfl

theorem validateAndPrepareBatch_serializable (blk : Block)
    (hwf : ∀ tx ∈ blk.txs, tx.rwset.WellFormed) {blk' : Block} {updates : PublicAndHashUpdates}
    {purgeUpdates : List AppInitiatedPurgeUpdate}
    (h : validateAndPrepareBatch db hashFunc serializeKVReads serializeMetadata blk true =
      .ok (blk', updates, purgeUpdates)) :
    blk'.num = blk.num ∧ CodesSet blk'.txs blk.txs ∧
    (∀ i (hi : i < blk'.txs.length), blk'.txs[i].validationCode = .valid →
      ReadsMatch (specVersion db (specRun serializeMetadata db blk.num (blk'.txs.take i)
        fun _ => none)) blk'.txs[i].rwset) ∧
    ∀ k, updates.get k = specRun serializeMetadata db blk.num blk'.txs (fun _ => none) k := by
  simp only [validateAndPrepareBatch, bind, Except.bind] at h
  cases hr : validateAndPrepareTxs db hashFunc serializeKVReads serializeMetadata blk.num true
      blk.txs newPubAndHashUpdates newPvtdataPurgeTracker with
  | error err =>
    rw [hr] at h
    cases h
  | ok r =>
    obtain ⟨txs, u, purgeTracker⟩ := r
    rw [hr] at h
    simp only [pure, Except.pure, Except.ok.injEq, Prod.mk.injEq] at h
    obtain ⟨rfl, rfl, -⟩ := h
    obtain ⟨hcodes, hreads, hupd⟩ := validateAndPrepareTxs_spec serializeMetadata db hashFunc
      serializeKVReads blk.num blk.txs hwf _ _ (fun _ => none) get_newPubAndHashUpdates hr
    exact ⟨rfl, hcodes, hreads, hupd⟩

/-- The empty committed database. -/
def emptyDB : VersionedDB String :=
  ⟨fun _ => [], fun _ => List.Pairwise.nil, fun _ _ h => absurd h List.not_mem_nil⟩

/-- A block in which a valid write and a read conflict on key `k`. -/
def validatedBlock : Block :=
  ⟨1, [⟨0, "tx0", ⟨[⟨"ns", ⟨[], [], [⟨"k", false, [1]⟩], []⟩,
          [⟨"coll", ⟨[], [⟨"h", false, [2], false⟩], []⟩⟩]⟩]⟩, .notValidated, false⟩,
       ⟨1, "tx1", ⟨[⟨"ns", ⟨[⟨"k", none⟩], [], [⟨"j", false, [3]⟩], []⟩, []⟩]⟩,
          .notValidated, false⟩]⟩

theorem validatedBlock_serializable :
    (∀ tx ∈ validatedBlock.txs, tx.rwset.WellFormed) ∧
    ∃ blk' updates purgeUpdates,
      validateAndPrepareBatch emptyDB id (fun _ => []) (fun _ => []) validatedBlock true =
        .ok (blk', updates, purgeUpdates) ∧
      blk'.txs.map Transaction.validationCode = [.valid, .mvccReadConflict] ∧
      ∀ k, updates.get k =
        specRun (fun _ => []) emptyDB validatedBlock.num blk'.txs (fun _ => none) k :=
  have hwf : ∀ tx ∈ validatedBlock.txs, tx.rwset.WellFormed := by decide
  ⟨hwf, _, _, _, rfl, rfl,
    (validateAndPrepareBatch_serializable (fun _ => []) emptyDB id (fun _ => []) validatedBlock hwf
      rfl).2.2.2⟩

/-- A block whose first transaction writes the hash of key `k` of a collection named `""`, and
    whose second reads that hash at no version. -/
def unnamedCollectionBlock : Block :=
  ⟨1, [⟨0, "tx0", ⟨[⟨"ns", ⟨[], [], [], []⟩, [⟨"", ⟨[], [⟨"k", false, [1], false⟩], []⟩⟩]⟩]⟩,
          .notValidated, false⟩,
       ⟨1, "tx1", ⟨[⟨"ns", ⟨[], [], [], []⟩, [⟨"", ⟨[⟨"k", none⟩], [], []⟩⟩]⟩]⟩,
          .notValidated, false⟩]⟩

/-- A block whose first transaction writes key `k` twice, and whose second reads it at no
    version. -/
def doubleWriteBlock : Block :=
  ⟨1, [⟨0, "tx0", ⟨[⟨"ns", ⟨[], [], [⟨"k", false, [1]⟩, ⟨"k", false, [2]⟩], []⟩, []⟩]⟩,
          .notValidated, false⟩,
       ⟨1, "tx1", ⟨[⟨"ns", ⟨[⟨"k", none⟩], [], [], []⟩, []⟩]⟩, .notValidated, false⟩]⟩

theorem validateAndPrepareBatch_not_serializable :
    (∃ blk' updates purgeUpdates,
      validateAndPrepareBatch emptyDB id (fun _ => []) (fun _ => []) unnamedCollectionBlock true =
        .ok (blk', updates, purgeUpdates) ∧
      blk'.txs.map Transaction.validationCode = [.valid, .valid] ∧
      specVersion emptyDB (specRun (fun _ => []) emptyDB 1 (blk'.txs.take 1) fun _ => none)
        (.hashed "ns" "" "k") = some (newHeight 1 0) ∧
      updates.get (.hashed "ns" "" "k") = none ∧
      specRun (fun _ => []) emptyDB 1 blk'.txs (fun _ => none) (.hashed "ns" "" "k") =
        some ⟨some [1], [], newHeight 1 0⟩) ∧
    (∃ blk' updates purgeUpdates,
      validateAndPrepareBatch emptyDB id (fun _ => []) (fun _ => []) doubleWriteBlock true =
        .ok (blk', updates, purgeUpdates) ∧
      blk'.txs.map Transaction.validationCode = [.valid, .valid] ∧
      specVersion emptyDB (specRun (fun _ => []) emptyDB 1 (blk'.txs.take 1) fun _ => none)
        (.pub "ns" "k") = some (newHeight 1 0) ∧
      updates.get (.pub "ns" "k") = none ∧
      specRun (fun _ => []) emptyDB 1 blk'.txs (fun _ => none) (.pub "ns" "k") =
        some ⟨some [2], [], newHeight 1 0⟩) := by
  constructor
  · -- the hashed write of tx0 went to the public updates, under ("ns", "k")
    refine ⟨_, _, _, rfl, ?_⟩
    exact ⟨rfl, rfl, rfl, rfl⟩
  · -- tx0's flag is `upsertVal + upsertVal = metadataUpdate`: its write was dropped
    refine ⟨_, _, _, rfl, ?_⟩
    exact ⟨rfl, rfl, rfl, rfl⟩

end Fabric.Ledger
