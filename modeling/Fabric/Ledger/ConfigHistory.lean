import Fabric.Ledger.OrderPreserving
import Fabric.Ledger.LevelDBHelper
import Fabric.Lib.GoMap
import Fabric.Lib.FoldM

/-
  The collection-config history (`core/ledger/confighistory`).

  `HandleStateUpdates` stores, at the committing block, the collection config package of each
  updated chaincode under `encodeCompositeKey("lscc", name + "~collection", blockNum)`: `'s'`,
  the namespace, `0x00`, the key, and the eight big-endian bytes of `MaxUint64 - blockNum`, so
  that later blocks sort first. `MostRecentCollectionConfigBelow(b, name)` scans from the key
  of block `b - 1` up to the key of block `0` followed by `0x00`, and takes the first entry;
  `entryAt` reads one key.

  Proved: after any run of `HandleStateUpdates` at increasing blocks, from an empty database,
  the database holds exactly the packages stored (`get_handleAll`). The chaincode names are
  those `ChaincodeNameRegExp` of the lifecycle matches: letters, digits, `-` and `_`, so no
  `'~'` and no `0x00` (`not_mem_of_chaincodeNameRegExp`). The suffix `"~collection"` has its
  only tilde first, so the range of a chaincode and a block holds the entries of that chaincode
  below the block and no other (`inRange_mostRecent_iff`), whatever the name asked for; its
  first entry is the one of the greatest block (`mostRecentEntryBelow_eq`). A stored key has
  no `0x00` but its separator, so the key of any namespace and key that equals it is of
  namespace `"lscc"` (`encodeCompositeKey_eq_of_not_mem`). So `MostRecentCollectionConfigBelow`
  returns the package stored at the greatest block below `b`, or nil, and `entryAt` returns
  the entry stored at its namespace, key and block, or nil (`configHistory_queries`).

  The chaincode information provider is left out: `HandleStateUpdates` takes what
  `ChaincodeInfo` returned for the updated chaincodes. `proto.Marshal` and `proto.Unmarshal`
  are a parameter (`PackageCodec`). Go strings are byte strings here.
-/

namespace Fabric.ConfigHistory

open LevelDB Fabric.Ledger Fabric.LevelDBHelper BigEndian

/-! ## Keys -/

/-- `keyPrefix`. -/
def keyPrefix : Bytes := goBytes "s"

/-- `separatorByte`. -/
def separatorByte : UInt8 := 0

/-- `collectionConfigNamespace`. -/
def collectionConfigNamespace : Bytes := goBytes "lscc"

/-- `math.MaxUint64`. -/
def maxUint64 : UInt64 := 0xFFFFFFFFFFFFFFFF

/-- `encodeBlockNum`: `math.MaxUint64 - blockNum`, big-endian. -/
def encodeBlockNum (blockNum : UInt64) : Bytes := putUint64 (maxUint64 - blockNum)

/-- `decodeBlockNum`. -/
def decodeBlockNum (blockNumBytes : Bytes) : UInt64 := maxUint64 - uint64 blockNumBytes

/-- `encodeCompositeKey`. -/
def encodeCompositeKey (ns key : Bytes) (blockNum : UInt64) : Bytes :=
  keyPrefix ++ ns ++ [separatorByte] ++ key ++ encodeBlockNum blockNum

/-- `compositeKey`. -/
structure CompositeKey where
  ns : Bytes
  key : Bytes
  blockNum : UInt64
  deriving DecidableEq, Repr

/-- `decodeCompositeKey`; none where a slice is out of range, a runtime panic: a key shorter
    than nine bytes, or one without the separator. -/
def decodeCompositeKey (b : Bytes) : Option CompositeKey :=
  if b.length < 9 then none
  else
    let blockNumStartIndex := b.length - 8
    let nsKeyBytes := (b.take blockNumStartIndex).drop 1
    let blockNumBytes := b.drop blockNumStartIndex
    match nsKeyBytes.findIdx? (· == separatorByte) with
    | none => none
    | some separatorIndex =>
      some ⟨nsKeyBytes.take separatorIndex, nsKeyBytes.drop (separatorIndex + 1),
        decodeBlockNum blockNumBytes⟩

/-- `constructCollectionConfigKey`. -/
def constructCollectionConfigKey (chaincodeName : Bytes) : Bytes :=
  chaincodeName ++ goBytes "~collection"

/-! ## The lifecycle name alphabet -/

/-- `[a-zA-Z0-9]`. -/
def isAlnum (c : UInt8) : Bool :=
  (0x30 ≤ c && c ≤ 0x39) || (0x41 ≤ c && c ≤ 0x5a) || (0x61 ≤ c && c ≤ 0x7a)

/-- `^[a-zA-Z0-9]+([-_][a-zA-Z0-9]+)*$` over the rest of a name, `inRun` after a letter or a
    digit: a `-` or an `_` stands between two of them. -/
def matchChaincodeName (inRun : Bool) : Bytes → Bool
  | [] => inRun
  | c :: cs =>
    if isAlnum c then matchChaincodeName true cs
    else inRun && (c == 0x2d || c == 0x5f) && matchChaincodeName false cs

/-- `ChaincodeNameRegExp.MatchString` of `lscc` and of the lifecycle: the names a chaincode
    may have. -/
def chaincodeNameRegExp (name : Bytes) : Bool := matchChaincodeName false name

/-! ### The layout of a key -/

section Keys

theorem keyPrefix_eq : keyPrefix = [0x73] := by decide

theorem not_mem_collectionConfigNamespace : (0x00 : UInt8) ∉ collectionConfigNamespace := by
  decide

/-- `"~collection"`: a tilde, then ten bytes without one. -/
theorem collectionSuffix_eq : goBytes "~collection" = 0x7e :: goBytes "collection" := by decide

theorem not_mem_collection : (0x7e : UInt8) ∉ goBytes "collection" := by decide

theorem length_collection : (goBytes "collection").length = 10 := by decide

theorem toNat_maxUint64_sub (b : UInt64) : (maxUint64 - b).toNat = 2 ^ 64 - 1 - b.toNat := by
  have := b.toNat_lt
  rw [UInt64.toNat_sub_of_le _ _ (UInt64.le_iff_toNat_le.mpr (by simp [maxUint64]; omega))]
  simp [maxUint64]

@[simp] theorem length_encodeBlockNum (b : UInt64) : (encodeBlockNum b).length = 8 :=
  length_putUint64 _

/-- Later blocks sort first. -/
theorem encodeBlockNum_lt_encodeBlockNum_iff (b b' : UInt64) :
    encodeBlockNum b < encodeBlockNum b' ↔ b' < b := by
  have := b.toNat_lt
  have := b'.toNat_lt
  rw [encodeBlockNum, encodeBlockNum, putUint64_lt_putUint64_iff, UInt64.lt_iff_toNat_lt,
    UInt64.lt_iff_toNat_lt, toNat_maxUint64_sub, toNat_maxUint64_sub]
  omega

theorem decodeBlockNum_encodeBlockNum (b : UInt64) : decodeBlockNum (encodeBlockNum b) = b := by
  rw [decodeBlockNum, encodeBlockNum, uint64_putUint64]
  grind

/-- Every block's suffix lies below that of block `0` followed by `0x00`. -/
theorem encodeBlockNum_lt_append_zero (b : UInt64) : encodeBlockNum b < encodeBlockNum 0 ++ [0] := by
  have h := List.append_lt_append_iff (a := encodeBlockNum b) (b := encodeBlockNum 0) [] [0]
    (by simp)
  rw [List.append_nil] at h
  apply h.mpr
  by_cases hb : b = 0
  · exact .inr ⟨by rw [hb], List.nil_lt_cons _ _⟩
  · refine .inl ((encodeBlockNum_lt_encodeBlockNum_iff _ _).mpr ?_)
    rw [UInt64.lt_iff_toNat_lt]
    have : b.toNat ≠ 0 := fun h => hb (UInt64.toNat_inj.mp (by simpa using h))
    simp
    omega

theorem encodeCompositeKey_eq (ns key : Bytes) (b : UInt64) :
    encodeCompositeKey ns key b = 0x73 :: (ns ++ 0x00 :: (key ++ encodeBlockNum b)) := by
  simp [encodeCompositeKey, keyPrefix_eq, separatorByte]

/-- A key of a namespace without `0x00` decodes back to its namespace, key and block. -/
theorem decodeCompositeKey_encodeCompositeKey {ns : Bytes} (hns : 0x00 ∉ ns) (key : Bytes)
    (b : UInt64) : decodeCompositeKey (encodeCompositeKey ns key b) = some ⟨ns, key, b⟩ := by
  have hlen : (encodeCompositeKey ns key b).length - 8 = ns.length + key.length + 2 := by
    simp [encodeCompositeKey_eq]
    omega
  -- the slice before the block number, and the block number
  have hsplit : encodeCompositeKey ns key b = (0x73 :: (ns ++ 0x00 :: key)) ++ encodeBlockNum b := by
    simp [encodeCompositeKey_eq]
  have hnsKey : ((encodeCompositeKey ns key b).take (ns.length + key.length + 2)).drop 1 =
      ns ++ 0x00 :: key := by
    rw [hsplit, List.take_left' (by simp; omega)]
    rfl
  have hblock : (encodeCompositeKey ns key b).drop (ns.length + key.length + 2) =
      encodeBlockNum b := by
    rw [hsplit, List.drop_left' (by simp; omega)]
  have hfind : (ns ++ 0x00 :: key).findIdx? (· == separatorByte) = some ns.length :=
    List.findIdx?_append_cons_of_not_mem hns key
  rw [decodeCompositeKey, if_neg (by omega), hlen]
  simp only [hnsKey, hblock, hfind, decodeBlockNum_encodeBlockNum, List.take_left']
  simp [List.drop_append]

/-- Keys of namespaces without `0x00` are equal only for one namespace, key and block. -/
theorem encodeCompositeKey_inj {ns ns' key key' : Bytes} {b b' : UInt64} (hns : 0x00 ∉ ns)
    (hns' : 0x00 ∉ ns') (h : encodeCompositeKey ns key b = encodeCompositeKey ns' key' b') :
    ns = ns' ∧ key = key' ∧ b = b' := by
  have hdec := decodeCompositeKey_encodeCompositeKey hns key b
  rw [h, decodeCompositeKey_encodeCompositeKey hns' key' b'] at hdec
  obtain ⟨rfl, rfl, rfl⟩ := CompositeKey.mk.inj (Option.some.inj hdec)
  exact ⟨rfl, rfl, rfl⟩

/-- A key equal to that of a namespace and a key without `0x00` is of that namespace, key and
    block, whatever bytes the other namespace holds. -/
theorem encodeCompositeKey_eq_of_not_mem {ns ns' key key' : Bytes} {b b' : UInt64}
    (hns' : 0x00 ∉ ns') (hkey' : 0x00 ∉ key')
    (h : encodeCompositeKey ns key b = encodeCompositeKey ns' key' b') :
    ns = ns' ∧ key = key' ∧ b = b' := by
  -- the block number is the last eight bytes
  obtain ⟨hnk, hb⟩ := List.append_inj' h (by simp)
  have hb' : b = b' := by
    rw [← decodeBlockNum_encodeBlockNum b, hb, decodeBlockNum_encodeBlockNum]
  simp only [List.append_assoc, List.singleton_append, List.append_cancel_left_eq,
    separatorByte] at hnk
  -- the first `0x00` after the prefix is the separator of both keys
  rcases List.append_eq_append_iff.mp hnk with ⟨a', rfl, h'⟩ | ⟨c', rfl, h'⟩
  · cases a' with
    | nil =>
      simp only [List.nil_append, List.cons.injEq, true_and] at h'
      exact ⟨by simp, h', hb'⟩
    | cons x a' =>
      obtain ⟨rfl, -⟩ := List.cons.inj h'
      exact absurd (List.mem_append_right _ List.mem_cons_self) hns'
  · cases c' with
    | nil =>
      simp only [List.nil_append, List.cons.injEq, true_and] at h'
      exact ⟨by simp, h'.symm, hb'⟩
    | cons x c' =>
      obtain ⟨-, hkey⟩ := List.cons.inj h'
      exact absurd (hkey ▸ List.mem_append_right _ List.mem_cons_self) hkey'

/-- A name `ChaincodeNameRegExp` matches holds only letters, digits, `-` and `_`. -/
theorem mem_of_matchChaincodeName {inRun : Bool} {name : Bytes}
    (h : matchChaincodeName inRun name = true) {c : UInt8} (hc : c ∈ name) :
    isAlnum c = true ∨ c = 0x2d ∨ c = 0x5f := by
  induction name generalizing inRun with
  | nil => cases hc
  | cons d ds ih =>
    rw [matchChaincodeName] at h
    by_cases hd : isAlnum d = true
    · rw [if_pos hd] at h
      rcases List.mem_cons.mp hc with rfl | hc
      · exact .inl hd
      · exact ih h hc
    · -- a separator, after a letter or a digit
      rw [if_neg hd] at h
      simp only [Bool.and_eq_true, Bool.or_eq_true, beq_iff_eq] at h
      obtain ⟨⟨-, hsep⟩, hrest⟩ := h
      rcases List.mem_cons.mp hc with rfl | hc
      · exact .inr hsep
      · exact ih hrest hc

/-- The lifecycle's names hold neither `0x00` nor `'~'`. -/
theorem not_mem_of_chaincodeNameRegExp {name : Bytes} (h : chaincodeNameRegExp name = true) :
    0x00 ∉ name ∧ 0x7e ∉ name := by
  constructor
  all_goals
    intro hc
    rcases mem_of_matchChaincodeName h hc with h | h | h <;> revert h <;> decide

theorem not_mem_constructCollectionConfigKey {n : Bytes} (hn : 0x00 ∉ n) :
    0x00 ∉ constructCollectionConfigKey n :=
  fun h => (List.mem_append.mp h).elim hn (by decide)

/-- The key of a name without `'~'`, then eight bytes: the key of any name, followed by
    anything, that equals it is of the same name and followed by the same bytes. The suffix
    `"~collection"` has its only tilde first and is longer than the eight bytes. -/
theorem constructCollectionConfigKey_append_inj {n n' t e' : Bytes} (hn' : 0x7e ∉ n')
    (he' : e'.length = 8)
    (h : constructCollectionConfigKey n ++ t = constructCollectionConfigKey n' ++ e') :
    n = n' ∧ t = e' := by
  simp only [constructCollectionConfigKey, collectionSuffix_eq, List.append_assoc,
    List.cons_append] at h
  rcases List.append_eq_append_iff.mp h with ⟨a', rfl, h'⟩ | ⟨c', rfl, h'⟩
  · cases a' with
    | nil =>
      simp only [List.nil_append, List.cons.injEq, List.append_cancel_left_eq, true_and] at h'
      exact ⟨by simp, h'⟩
    | cons x a' =>
      -- the other name would hold the tilde
      obtain ⟨rfl, -⟩ := List.cons.inj h'
      exact absurd (List.mem_append_right _ List.mem_cons_self) hn'
  · cases c' with
    | nil =>
      simp only [List.nil_append, List.cons.injEq, List.append_cancel_left_eq, true_and] at h'
      exact ⟨by simp, h'.symm⟩
    | cons x c' =>
      -- the tilde after `c'` would fall inside `"collection"`
      rw [List.cons_append] at h'
      obtain ⟨-, h'⟩ := List.cons.inj h'
      have hlen := congrArg List.length h'
      simp only [List.length_append, List.length_cons, length_collection, he'] at hlen
      exfalso
      rcases List.append_eq_append_iff.mp h' with ⟨a'', hc, -⟩ | ⟨c'', hR, h''⟩
      · have := congrArg List.length hc
        simp only [List.length_append, length_collection] at this
        omega
      · cases c'' with
        | nil =>
          have := congrArg List.length hR
          simp only [List.append_nil, length_collection] at this
          omega
        | cons y c'' =>
          obtain ⟨rfl, -⟩ := List.cons.inj h''
          exact not_mem_collection (hR ▸ List.mem_append_right _ List.mem_cons_self)

/-- For a block `b ≥ 1`, the range `mostRecentEntryBelow` scans for a chaincode holds its
    entries below `b`, and no entry of another chaincode whose name has no `'~'`. -/
theorem inRange_mostRecent_iff (ns : Bytes) {b : UInt64} (hb : b ≠ 0) (n : Bytes) {n' : Bytes}
    (hn' : 0x7e ∉ n') (bj : UInt64) :
    InRange (encodeCompositeKey ns (constructCollectionConfigKey n) (b - 1))
      (some (encodeCompositeKey ns (constructCollectionConfigKey n) 0 ++ [0]))
      (encodeCompositeKey ns (constructCollectionConfigKey n') bj) ↔ n' = n ∧ bj < b := by
  have henc : ∀ k x, encodeCompositeKey ns k x =
      (keyPrefix ++ ns ++ [separatorByte]) ++ (k ++ encodeBlockNum x) := by
    simp [encodeCompositeKey]
  have hpred : ∀ x : UInt64, b - 1 < x ↔ ¬ x < b := by
    intro x
    have : b.toNat ≠ 0 := fun h => hb (UInt64.toNat_inj.mp (by simpa using h))
    rw [UInt64.lt_iff_toNat_lt, UInt64.lt_iff_toNat_lt, UInt64.toNat_sub_of_le _ _
      (UInt64.le_iff_toNat_le.mpr (by simp; omega))]
    simp
    omega
  rw [inRange_some_iff, henc, henc, henc, List.append_assoc _ _ [0],
    List.append_assoc (constructCollectionConfigKey n), List.append_left_le_iff,
    List.append_left_lt_iff]
  constructor
  · rintro ⟨hle, hlt⟩
    -- the entry extends the chaincode's key, so it is of the same chaincode
    obtain ⟨t, ht⟩ := List.prefix_of_le_of_lt hle hlt
    obtain ⟨rfl, rfl⟩ := constructCollectionConfigKey_append_inj hn' (length_encodeBlockNum bj) ht
    rw [List.append_left_le_iff, ← List.not_lt, encodeBlockNum_lt_encodeBlockNum_iff, hpred,
      not_not] at hle
    exact ⟨rfl, hle⟩
  · rintro ⟨rfl, hlt⟩
    rw [List.append_left_le_iff, ← List.not_lt, encodeBlockNum_lt_encodeBlockNum_iff, hpred,
      not_not, List.append_left_lt_iff]
    exact ⟨hlt, encodeBlockNum_lt_append_zero bj⟩

end Keys

/-! ## Storing -/

/-- `peer.CollectionConfigPackage`, over collection configs of a type left open. -/
structure CollectionConfigPackage (C : Type) where
  config : List C

/-- `ledger.DeployedChaincodeInfo`: the fields `HandleStateUpdates` reads. -/
structure DeployedChaincodeInfo (C : Type) where
  name : Bytes
  explicitCollectionConfigPkg : Option (CollectionConfigPackage C)

/-- `proto.Marshal` and `proto.Unmarshal` of collection config packages; none where they
    fail. -/
structure PackageCodec (C : Type) where
  marshal : CollectionConfigPackage C → Option Bytes
  unmarshal : Bytes → Option (CollectionConfigPackage C)

/-- The failures of the config history. -/
inductive ConfigHistoryError
  /-- "blockNum should be greater than 0" -/
  | blockNumZero
  /-- a slice out of range in `decodeCompositeKey`: a runtime panic -/
  | slicePanic
  /-- `proto.Marshal` of a package failed -/
  | marshal
  /-- "error unmarshalling compositeKV to collection config" -/
  | unmarshal
  deriving DecidableEq, Repr

variable {C : Type}

/-- `batch.add`. -/
def add (b : UpdateBatch) (ns key : Bytes) (blockNum : UInt64) (value : Bytes) : UpdateBatch :=
  b.put (encodeCompositeKey ns key blockNum) value

/-- `prepareDBBatch`: one entry for each chaincode of the map. -/
def prepareDBBatch (codec : PackageCodec C) (batch : UpdateBatch)
    (chaincodeCollConfigs : GoMap Bytes (CollectionConfigPackage C)) (committingBlockNum : UInt64) :
    Except ConfigHistoryError UpdateBatch :=
  chaincodeCollConfigs.entries.foldlM (fun batch (ccName, collConfig) =>
    let key := constructCollectionConfigKey ccName
    match codec.marshal collConfig with
    | none => .error .marshal
    | some configBytes => .ok (add batch collectionConfigNamespace key committingBlockNum configBytes))
    batch

/-- One pass of the loop of `HandleStateUpdates` over the updated chaincodes: a package that is
    present and not empty is kept under the chaincode's name. -/
def addCollConfig (updated : GoMap Bytes (CollectionConfigPackage C))
    (ccInfo : DeployedChaincodeInfo C) : GoMap Bytes (CollectionConfigPackage C) :=
  match ccInfo.explicitCollectionConfigPkg with
  | none => updated
  | some pkg => if pkg.config.isEmpty then updated else updated.insert ccInfo.name pkg

/-- The loop of `HandleStateUpdates` over the updated chaincodes: `updatedCollConfigs`. -/
def updatedCollConfigs (ccInfos : List (DeployedChaincodeInfo C)) :
    GoMap Bytes (CollectionConfigPackage C) :=
  ccInfos.foldl addCollConfig GoMap.empty

/-- `Mgr.HandleStateUpdates`, given what `ChaincodeInfo` returned for the updated chaincodes. -/
def handleStateUpdates (codec : PackageCodec C) (db : DB) (dbName : Bytes)
    (committingBlockNum : UInt64) (ccInfos : List (DeployedChaincodeInfo C)) :
    Except ConfigHistoryError DB :=
  if ccInfos.isEmpty then .ok db
  else
    let updated := updatedCollConfigs ccInfos
    if updated.size = 0 then .ok db
    else
      match prepareDBBatch codec (newUpdateBatch dbName) updated committingBlockNum with
      | .error err => .error err
      | .ok batch => .ok (writeBatch db batch)

/-- Calls of `HandleStateUpdates` one after another, each at its committing block. -/
def handleAll (codec : PackageCodec C) (dbName : Bytes) :
    DB → List (UInt64 × List (DeployedChaincodeInfo C)) → Except ConfigHistoryError DB
  | db, [] => .ok db
  | db, (committingBlockNum, ccInfos) :: runs =>
    match handleStateUpdates codec db dbName committingBlockNum ccInfos with
    | .error err => .error err
    | .ok db => handleAll codec dbName db runs

/-! ### What a run stores -/

section Store

variable {codec : PackageCodec C}

/-- A run stored the value under the key: at the block of one of its calls, the marshalled
    package of a chaincode of that call's map, under the chaincode's key. -/
def Stores (codec : PackageCodec C) (runs : List (UInt64 × List (DeployedChaincodeInfo C)))
    (k v : Bytes) : Prop :=
  ∃ r ∈ runs, ∃ n pkg, (updatedCollConfigs r.2).get? n = some pkg ∧
    k = encodeCompositeKey collectionConfigNamespace (constructCollectionConfigKey n) r.1 ∧
      codec.marshal pkg = some v

/-- A chaincode in the map of a call is one of its updated chaincodes, with that package. -/
theorem get?_foldl_addCollConfig {n : Bytes} {pkg : CollectionConfigPackage C} :
    ∀ (ccInfos : List (DeployedChaincodeInfo C)) (updated : GoMap Bytes (CollectionConfigPackage C)),
      (ccInfos.foldl addCollConfig updated).get? n = some pkg →
        updated.get? n = some pkg ∨
          ∃ ccInfo ∈ ccInfos, ccInfo.name = n ∧ ccInfo.explicitCollectionConfigPkg = some pkg
  | [], _, h => .inl h
  | ccInfo :: ccInfos, updated, h => by
    rcases get?_foldl_addCollConfig ccInfos _ h with h | ⟨c, hc, hname, hpkg⟩
    · -- the pass at `ccInfo` kept its package, or left the map as it was
      unfold addCollConfig at h
      split at h
      · exact .inl h
      · rename_i p hp
        split at h
        · exact .inl h
        · rw [GoMap.get?_insert] at h
          split at h
          · rename_i hn
            exact .inr ⟨ccInfo, List.mem_cons_self, hn.symm, by rw [hp, Option.some.inj h]⟩
          · exact .inl h
    · exact .inr ⟨c, List.mem_cons_of_mem _ hc, hname, hpkg⟩

theorem mem_updatedCollConfigs {ccInfos : List (DeployedChaincodeInfo C)} {n : Bytes}
    {pkg : CollectionConfigPackage C} (h : (updatedCollConfigs ccInfos).get? n = some pkg) :
    ∃ ccInfo ∈ ccInfos, ccInfo.name = n ∧ ccInfo.explicitCollectionConfigPkg = some pkg :=
  (get?_foldl_addCollConfig ccInfos GoMap.empty h).resolve_left (by simp)

@[simp] theorem stores_nil (k v : Bytes) : ¬ Stores codec [] k v := by
  simp [Stores]

@[simp] theorem stores_append {runs runs' : List (UInt64 × List (DeployedChaincodeInfo C))}
    {k v : Bytes} : Stores codec (runs ++ runs') k v ↔ Stores codec runs k v ∨ Stores codec runs' k v := by
  simp only [Stores, List.mem_append, or_and_right, exists_or]

/-- Different chaincodes, or blocks, have different keys. -/
theorem collectionKey_inj {n n' : Bytes} {b b' : UInt64}
    (h : encodeCompositeKey collectionConfigNamespace (constructCollectionConfigKey n) b =
      encodeCompositeKey collectionConfigNamespace (constructCollectionConfigKey n') b') :
    n = n' ∧ b = b' := by
  obtain ⟨-, hkey, hb⟩ :=
    encodeCompositeKey_inj not_mem_collectionConfigNamespace not_mem_collectionConfigNamespace h
  exact ⟨List.append_cancel_right hkey, hb⟩

/-- A batch that `prepareDBBatch` returns: every package marshalled, and one put of each after
    what the batch held. -/
theorem prepareDBBatch_ok {batch batch' : UpdateBatch} {m : GoMap Bytes (CollectionConfigPackage C)}
    {b : UInt64} (h : prepareDBBatch codec batch m b = .ok batch') :
    (∀ e ∈ m.entries, ∃ v, codec.marshal e.2 = some v) ∧
      batch' = { batch with leveldbBatch := batch.leveldbBatch ++ (m.entries.map fun e =>
        .put (constructLevelKey batch.dbName (encodeCompositeKey collectionConfigNamespace
          (constructCollectionConfigKey e.1) b)) ((codec.marshal e.2).getD [])) } := by
  have hall : ∀ e ∈ m.entries, ∃ v, codec.marshal e.2 = some v := by
    refine FoldM.forall_mem_of_except_ok _ _ (fun acc e r hr => ?_) _ _ _ h
    obtain ⟨n, pkg⟩ := e
    cases hm : codec.marshal pkg with
    | none => simp [hm] at hr
    | some v => exact ⟨v, rfl⟩
  refine ⟨hall, ?_⟩
  -- every step returns, so the loop is the loop of puts
  unfold prepareDBBatch at h
  rw [FoldM.foldlM_eq_ok_foldl (g := fun batch e => batch.put (encodeCompositeKey
    collectionConfigNamespace (constructCollectionConfigKey e.1) b) ((codec.marshal e.2).getD []))
    _ _ ?step, foldl_put_map] at h
  case step =>
    intro s e he
    obtain ⟨v, hv⟩ := hall e he
    obtain ⟨n, pkg⟩ := e
    simp [hv, add]
  exact (Except.ok.inj h).symm

/-- One call stores the packages of its map, marshalled, under their keys at its block; a key
    it does not store keeps what it held. -/
theorem handleStateUpdates_ok {db db' : DB} {dbName : Bytes} {b : UInt64}
    {ccInfos : List (DeployedChaincodeInfo C)}
    (h : handleStateUpdates codec db dbName b ccInfos = .ok db') :
    (∀ n pkg, (updatedCollConfigs ccInfos).get? n = some pkg → ∃ v, codec.marshal pkg = some v) ∧
      ∀ k v, DBHandle.get db' dbName k = some v ↔ Stores codec [(b, ccInfos)] k v ∨
        (DBHandle.get db dbName k = some v ∧ ∀ n, (updatedCollConfigs ccInfos).get? n ≠ none →
          k ≠ encodeCompositeKey collectionConfigNamespace (constructCollectionConfigKey n) b) := by
  set m := updatedCollConfigs ccInfos with hm
  -- a call whose map is empty writes nothing
  have hempty : m.entries = [] → db' = db →
      (∀ n pkg, m.get? n = some pkg → ∃ v, codec.marshal pkg = some v) ∧
        ∀ k v, DBHandle.get db' dbName k = some v ↔ Stores codec [(b, ccInfos)] k v ∨
          (DBHandle.get db dbName k = some v ∧ ∀ n, m.get? n ≠ none →
            k ≠ encodeCompositeKey collectionConfigNamespace (constructCollectionConfigKey n) b) := by
    intro hnil hdb
    have hnone : ∀ n, m.get? n = none := fun n => by simp [GoMap.get?, hnil]
    subst hdb
    refine ⟨fun n pkg h => by simp [hnone] at h, fun k v => ?_⟩
    simp [Stores, ← hm, hnone]
  unfold handleStateUpdates at h
  split at h
  · rename_i hnil
    rw [List.isEmpty_iff.mp hnil] at hm
    exact hempty (by rw [hm]; rfl) (Except.ok.inj h).symm
  · simp only [← hm] at h
    split at h
    · rename_i hsize
      exact hempty (List.length_eq_zero_iff.mp hsize) (Except.ok.inj h).symm
    · split at h
      · cases h
      · rename_i batch hbatch
        obtain ⟨hall, rfl⟩ := prepareDBBatch_ok hbatch
        obtain rfl := (Except.ok.inj h).symm
        have hmarshal : ∀ n pkg, m.get? n = some pkg → ∃ v, codec.marshal pkg = some v :=
          fun n pkg h => hall (n, pkg) (GoMap.mem_entries_of_get? h)
        refine ⟨hmarshal, fun k v => ?_⟩
        -- the batch's keys and values
        let entries := m.entries.map fun e => (encodeCompositeKey collectionConfigNamespace
          (constructCollectionConfigKey e.1) b, (codec.marshal e.2).getD [])
        have hnodup : (entries.map Prod.fst).Nodup := by
          have := m.nodup.map_on (f := fun n => encodeCompositeKey collectionConfigNamespace
            (constructCollectionConfigKey n) b) fun n _ n' _ hn => (collectionKey_inj hn).1
          simpa [entries, List.map_map, Function.comp_def] using this
        have hwrite : writeBatch db { newUpdateBatch dbName with leveldbBatch :=
            (newUpdateBatch dbName).leveldbBatch ++ (m.entries.map fun e => .put (constructLevelKey
              (newUpdateBatch dbName).dbName (encodeCompositeKey collectionConfigNamespace
                (constructCollectionConfigKey e.1) b)) ((codec.marshal e.2).getD [])) } =
            db.write (entries.map fun e => .put (constructLevelKey dbName e.1) e.2) := by
          simp [writeBatch_eq_write, newUpdateBatch, entries, List.map_map, Function.comp_def]
        have hmem : (k, v) ∈ entries ↔ Stores codec [(b, ccInfos)] k v := by
          simp only [entries, List.mem_map, Prod.mk.injEq, Stores, List.mem_singleton,
            exists_eq_left, ← hm]
          constructor
          · rintro ⟨⟨n, pkg⟩, he, rfl, rfl⟩
            obtain ⟨v, hv⟩ := hall _ he
            exact ⟨n, pkg, GoMap.get?_of_mem m he, rfl, by simp [hv]⟩
          · rintro ⟨n, pkg, hget, rfl, hv⟩
            exact ⟨(n, pkg), GoMap.mem_entries_of_get? hget, rfl, by simp [hv]⟩
        have hkeys : k ∉ entries.map Prod.fst ↔ ∀ n, m.get? n ≠ none →
            k ≠ encodeCompositeKey collectionConfigNamespace (constructCollectionConfigKey n) b := by
          simp only [entries, List.map_map, List.mem_map, Function.comp_def, not_exists, not_and]
          constructor
          · intro h n hn hk
            obtain ⟨pkg, hpkg⟩ := Option.ne_none_iff_exists'.mp hn
            exact h (n, pkg) (GoMap.mem_entries_of_get? hpkg) hk.symm
          · rintro h ⟨n, pkg⟩ he hk
            exact h n (by simp [GoMap.get?_of_mem m he]) hk.symm
        rw [hwrite, get_write_puts_eq_some_iff hnodup, hmem, hkeys, and_comm]

/-- Calls at increasing blocks, after calls that stored `pre`: the database holds what `pre`
    and the calls stored, each call's keys being new. -/
theorem get_handleAll_append {dbName : Bytes} :
    ∀ {runs pre : List (UInt64 × List (DeployedChaincodeInfo C))} {db db' : DB},
      ((pre ++ runs).map Prod.fst).Pairwise (· < ·) →
      (∀ k v, DBHandle.get db dbName k = some v ↔ Stores codec pre k v) →
      handleAll codec dbName db runs = .ok db' →
        (∀ r ∈ runs, ∀ n pkg, (updatedCollConfigs r.2).get? n = some pkg →
          ∃ v, codec.marshal pkg = some v) ∧
        ∀ k v, DBHandle.get db' dbName k = some v ↔ Stores codec (pre ++ runs) k v
  | [], pre, db, db', _, hdb, h => by
    obtain rfl : db = db' := Except.ok.inj h
    simpa using hdb
  | (b, ccInfos) :: runs, pre, db, db', hsorted, hdb, h => by
    unfold handleAll at h
    cases hstep : handleStateUpdates codec db dbName b ccInfos with
    | error err => simp [hstep] at h
    | ok db₁ =>
      simp only [hstep] at h
      obtain ⟨hmarshal, hget⟩ := handleStateUpdates_ok hstep
      -- the blocks before are below `b`, so the call's keys are new
      have hbefore : ∀ r ∈ pre, r.1 < b := by
        rw [List.map_append, List.pairwise_append] at hsorted
        exact fun r hr => hsorted.2.2 r.1 (List.mem_map_of_mem hr) b (by simp)
      have hdb₁ : ∀ k v, DBHandle.get db₁ dbName k = some v ↔
          Stores codec (pre ++ [(b, ccInfos)]) k v := by
        intro k v
        rw [hget, hdb, stores_append]
        constructor
        · rintro (hnew | ⟨hold, -⟩)
          · exact .inr hnew
          · exact .inl hold
        · rintro (hold | hnew)
          · refine .inr ⟨hold, fun n _ hk => ?_⟩
            obtain ⟨r, hr, n', pkg, -, rfl, -⟩ := hold
            exact UInt64.ne_of_lt (hbefore r hr) (collectionKey_inj hk).2
          · exact .inl hnew
      obtain ⟨hm, hrest⟩ := get_handleAll_append (by simpa using hsorted) hdb₁ h
      rw [List.append_assoc, List.singleton_append] at hrest
      refine ⟨fun r hr => ?_, hrest⟩
      rcases List.mem_cons.mp hr with rfl | hr
      · exact hmarshal
      · exact hm r hr

/-- After calls at increasing blocks from the empty database, the database holds exactly what
    they stored, every package of their maps marshalled. -/
theorem get_handleAll {dbName : Bytes} {runs : List (UInt64 × List (DeployedChaincodeInfo C))}
    {db : DB} (hsorted : (runs.map Prod.fst).Pairwise (· < ·))
    (h : handleAll codec dbName DB.empty runs = .ok db) :
    (∀ r ∈ runs, ∀ n pkg, (updatedCollConfigs r.2).get? n = some pkg →
      ∃ v, codec.marshal pkg = some v) ∧
    ∀ k v, DBHandle.get db dbName k = some v ↔ Stores codec runs k v := by
  have hempty : ∀ k v, DBHandle.get DB.empty dbName k = some v ↔
      Stores codec ([] : List (UInt64 × List (DeployedChaincodeInfo C))) k v := by
    simp [DBHandle.get]
  simpa using get_handleAll_append (by simpa using hsorted) hempty h

end Store

/-! ## Queries -/

/-- `compositeKV`. -/
structure CompositeKV where
  compositeKey : CompositeKey
  value : Bytes
  deriving DecidableEq, Repr

/-- `db.mostRecentEntryBelow`: the first entry from the key of `blockNum - 1` on, below the key
    of block `0` followed by `0x00`. -/
def mostRecentEntryBelow (db : DB) (dbName : Bytes) (blockNum : UInt64) (ns key : Bytes) :
    Except ConfigHistoryError (Option CompositeKV) :=
  if blockNum = 0 then .error .blockNumZero
  else
    let startKey := encodeCompositeKey ns key (blockNum - 1)
    let stopKey := encodeCompositeKey ns key 0 ++ [0]
    let itr := getIterator db dbName startKey (some stopKey)
    let (found, itr) := itr.next
    if !found then .ok none
    else
      match itr.key.bind decodeCompositeKey with
      | none => .error .slicePanic
      | some k => .ok (some ⟨k, itr.value.getD []⟩)

/-- `db.entryAt`. -/
def entryAt (db : DB) (dbName : Bytes) (blockNum : UInt64) (ns key : Bytes) :
    Except ConfigHistoryError (Option CompositeKV) :=
  let keyBytes := encodeCompositeKey ns key blockNum
  match DBHandle.get db dbName keyBytes with
  | none => .ok none
  | some valBytes =>
    match decodeCompositeKey keyBytes with
    | none => .error .slicePanic
    | some k => .ok (some ⟨k, valBytes⟩)

/-- `ledger.CollectionConfigInfo`. -/
structure CollectionConfigInfo (C : Type) where
  collectionConfig : CollectionConfigPackage C
  committingBlockNum : UInt64

/-- `compositeKVToCollectionConfig`. -/
def compositeKVToCollectionConfig (codec : PackageCodec C) (compositeKV : CompositeKV) :
    Except ConfigHistoryError (CollectionConfigInfo C) :=
  match codec.unmarshal compositeKV.value with
  | none => .error .unmarshal
  | some conf => .ok ⟨conf, compositeKV.compositeKey.blockNum⟩

/-- `Retriever.MostRecentCollectionConfigBelow`. -/
def mostRecentCollectionConfigBelow (codec : PackageCodec C) (db : DB) (dbName : Bytes)
    (blockNum : UInt64) (chaincodeName : Bytes) :
    Except ConfigHistoryError (Option (CollectionConfigInfo C)) :=
  match mostRecentEntryBelow db dbName blockNum collectionConfigNamespace
      (constructCollectionConfigKey chaincodeName) with
  | .error err => .error err
  | .ok none => .ok none
  | .ok (some compositeKV) => (compositeKVToCollectionConfig codec compositeKV).map some

/-! ## What the queries return -/

section Spec

variable (codec : PackageCodec C) (runs : List (UInt64 × List (DeployedChaincodeInfo C)))

/-- A call of the run, at the block, stored the package for the chaincode. -/
def StoredAt (chaincodeName : Bytes) (blockNum : UInt64) (pkg : CollectionConfigPackage C) :
    Prop :=
  ∃ r ∈ runs, r.1 = blockNum ∧ (updatedCollConfigs r.2).get? chaincodeName = some pkg

/-- What `MostRecentCollectionConfigBelow(b, name)` is for: the package stored for the chaincode
    at the greatest block below `b`, with that block; nil when none is stored below `b`. -/
def IsMostRecentBelow (blockNum : UInt64) (chaincodeName : Bytes) :
    Option (CollectionConfigInfo C) → Prop
  | none => ∀ bj pkg, StoredAt runs chaincodeName bj pkg → blockNum ≤ bj
  | some info => info.committingBlockNum < blockNum ∧
      StoredAt runs chaincodeName info.committingBlockNum info.collectionConfig ∧
      ∀ bj pkg, StoredAt runs chaincodeName bj pkg → bj < blockNum → bj ≤ info.committingBlockNum

/-- The entry stored at a namespace, key and block: the collection-config namespace, the key of
    a chaincode, and the package stored for it at the block, marshalled. -/
def StoredEntry (compositeKey : CompositeKey) (value : Bytes) : Prop :=
  compositeKey.ns = collectionConfigNamespace ∧ ∃ n pkg,
    compositeKey.key = constructCollectionConfigKey n ∧ StoredAt runs n compositeKey.blockNum pkg ∧
      codec.marshal pkg = some value

/-- What `entryAt(blockNum, ns, key)` is for: the entry stored at that namespace, key and block,
    nil when there is none. -/
def IsEntryAt (blockNum : UInt64) (ns key : Bytes) : Option CompositeKV → Prop
  | none => ∀ value, ¬ StoredEntry codec runs ⟨ns, key, blockNum⟩ value
  | some kv => kv.compositeKey = ⟨ns, key, blockNum⟩ ∧ StoredEntry codec runs kv.compositeKey kv.value

end Spec

section Queries

variable {codec : PackageCodec C} {runs : List (UInt64 × List (DeployedChaincodeInfo C))}
  {dbName : Bytes} {db : DB}

theorem stores_iff {k v : Bytes} : Stores codec runs k v ↔ ∃ n bj pkg,
    k = encodeCompositeKey collectionConfigNamespace (constructCollectionConfigKey n) bj ∧
      StoredAt runs n bj pkg ∧ codec.marshal pkg = some v := by
  constructor
  · rintro ⟨r, hr, n, pkg, hget, rfl, hv⟩
    exact ⟨n, r.1, pkg, rfl, ⟨r, hr, rfl, hget⟩, hv⟩
  · rintro ⟨n, bj, pkg, rfl, ⟨r, hr, rfl, hget⟩, hv⟩
    exact ⟨r, hr, n, pkg, hget, rfl, hv⟩

/-- A chaincode stored is one of the updated chaincodes, so its name has no byte that none of
    their names has. -/
theorem not_mem_of_storedAt {c : UInt8} (hnames : ∀ r ∈ runs, ∀ ccInfo ∈ r.2, c ∉ ccInfo.name)
    {n : Bytes} {bj : UInt64} {pkg : CollectionConfigPackage C} (h : StoredAt runs n bj pkg) :
    c ∉ n := by
  obtain ⟨r, hr, -, hget⟩ := h
  obtain ⟨ccInfo, hc, rfl, -⟩ := mem_updatedCollConfigs hget
  exact hnames r hr ccInfo hc

/-- Keys of one namespace and key sort later blocks first. -/
theorem encodeCompositeKey_lt_encodeCompositeKey_iff (ns key : Bytes) (b b' : UInt64) :
    encodeCompositeKey ns key b < encodeCompositeKey ns key b' ↔ b' < b := by
  rw [encodeCompositeKey, encodeCompositeKey, List.append_left_lt_iff,
    encodeBlockNum_lt_encodeBlockNum_iff]

/-- `mostRecentEntryBelow` of a chaincode, on the database of a run from the empty one: the
    entry stored at the greatest block below `b`, or nil when there is none. -/
theorem mostRecentEntryBelow_eq (hname : 0x00 ∉ dbName)
    (hsorted : (runs.map Prod.fst).Pairwise (· < ·))
    (htilde : ∀ r ∈ runs, ∀ ccInfo ∈ r.2, 0x7e ∉ ccInfo.name)
    (hdb : handleAll codec dbName DB.empty runs = .ok db) {b : UInt64} (hb : b ≠ 0) (n : Bytes) :
    (mostRecentEntryBelow db dbName b collectionConfigNamespace (constructCollectionConfigKey n) =
        .ok none ∧ ∀ bj pkg, StoredAt runs n bj pkg → b ≤ bj) ∨
      ∃ bj pkg v, mostRecentEntryBelow db dbName b collectionConfigNamespace
          (constructCollectionConfigKey n) =
          .ok (some ⟨⟨collectionConfigNamespace, constructCollectionConfigKey n, bj⟩, v⟩) ∧
        bj < b ∧ StoredAt runs n bj pkg ∧ codec.marshal pkg = some v ∧
        ∀ bj' pkg', StoredAt runs n bj' pkg' → bj' < b → bj' ≤ bj := by
  obtain ⟨hmarshal, hget⟩ := get_handleAll hsorted hdb
  set start := encodeCompositeKey collectionConfigNamespace (constructCollectionConfigKey n) (b - 1)
    with hstart
  set stop := encodeCompositeKey collectionConfigNamespace (constructCollectionConfigKey n) 0 ++ [0]
    with hstop
  set R := (view db dbName).filter fun e => decide (InRange start (some stop) e.1) with hR
  -- the range holds the entries of `n` below `b`
  have hmemR : ∀ e ∈ R, ∃ bj pkg, e.1 = encodeCompositeKey collectionConfigNamespace
      (constructCollectionConfigKey n) bj ∧ bj < b ∧ StoredAt runs n bj pkg ∧
        codec.marshal pkg = some e.2 := by
    intro e he
    obtain ⟨he, hin⟩ := List.mem_filter.mp he
    obtain ⟨n', bj, pkg, hk, hst, hv⟩ := stores_iff.mp ((hget e.1 e.2).mp (get_eq_some_iff.mpr he))
    rw [hk] at hin
    obtain ⟨rfl, hlt⟩ := (inRange_mostRecent_iff _ hb n (not_mem_of_storedAt htilde hst) bj).mp
      (of_decide_eq_true hin)
    exact ⟨bj, pkg, hk, hlt, hst, hv⟩
  have hinR : ∀ bj pkg, StoredAt runs n bj pkg → bj < b → ∃ v, (encodeCompositeKey
      collectionConfigNamespace (constructCollectionConfigKey n) bj, v) ∈ R := by
    intro bj pkg hst hlt
    have hn := not_mem_of_storedAt htilde hst
    obtain ⟨r, hr, rfl, hgetm⟩ := hst
    obtain ⟨v, hv⟩ := hmarshal r hr n pkg hgetm
    refine ⟨v, List.mem_filter.mpr ⟨get_eq_some_iff.mp ((hget _ _).mpr ⟨r, hr, n, pkg, hgetm, rfl, hv⟩),
      decide_eq_true ((inRange_mostRecent_iff _ hb n hn _).mpr ⟨rfl, hlt⟩)⟩⟩
  rcases hRc : R with _ | ⟨e, rest⟩
  · -- nothing is stored below `b`
    left
    refine ⟨?_, fun bj pkg hst => ?_⟩
    · have hnext := next_getIterator_of_nil hRc
      simp [mostRecentEntryBelow, hb, ← hstart, ← hstop, hnext]
    · refine UInt64.not_lt.mp fun hlt => ?_
      obtain ⟨v, hmem⟩ := hinR bj pkg hst hlt
      rw [hRc] at hmem
      exact List.not_mem_nil hmem
  · right
    obtain ⟨bj, pkg, hk, hlt, hst, hv⟩ := hmemR e (by rw [hRc]; exact List.mem_cons_self)
    obtain ⟨itr, hnext, hkey, hvalue⟩ := next_getIterator hname hRc
    refine ⟨bj, pkg, e.2, ?_, hlt, hst, hv, fun bj' pkg' hst' hlt' => ?_⟩
    · simp [mostRecentEntryBelow, hb, ← hstart, ← hstop, hnext, hkey, hvalue, hk,
        decodeCompositeKey_encodeCompositeKey not_mem_collectionConfigNamespace]
    · -- the range is sorted by key, and the first entry holds the greatest block
      obtain ⟨v', hmem⟩ := hinR bj' pkg' hst' hlt'
      rw [hRc] at hmem
      rcases List.mem_cons.mp hmem with heq | hmem
      · rw [(collectionKey_inj ((congrArg Prod.fst heq).trans hk)).2]
        exact UInt64.le_refl _
      · have hsortedR : (e :: rest).Pairwise fun a c => a.1 < c.1 :=
          hRc ▸ (sorted_view db dbName).filter _
        have hfirst := List.rel_of_pairwise_cons hsortedR hmem
        rw [hk, encodeCompositeKey_lt_encodeCompositeKey_iff] at hfirst
        exact UInt64.le_of_lt hfirst

/-- `entryAt` on the database of a run from the empty one, over chaincode names without `0x00`:
    the entry stored at its namespace, key and block, for every namespace. -/
theorem entryAt_eq (hsorted : (runs.map Prod.fst).Pairwise (· < ·))
    (hnul : ∀ r ∈ runs, ∀ ccInfo ∈ r.2, 0x00 ∉ ccInfo.name)
    (hdb : handleAll codec dbName DB.empty runs = .ok db) (bn : UInt64) (ns key : Bytes) :
    ∃ result, entryAt db dbName bn ns key = .ok result ∧ IsEntryAt codec runs bn ns key result := by
  obtain ⟨-, hget⟩ := get_handleAll hsorted hdb
  -- the key holds a value exactly when the run stored an entry there
  have hstored : ∀ v, DBHandle.get db dbName (encodeCompositeKey ns key bn) = some v ↔
      StoredEntry codec runs ⟨ns, key, bn⟩ v := by
    intro v
    rw [hget, stores_iff]
    constructor
    · rintro ⟨n, bj, pkg, hk, hst, hv⟩
      obtain ⟨rfl, rfl, rfl⟩ := encodeCompositeKey_eq_of_not_mem not_mem_collectionConfigNamespace
        (not_mem_constructCollectionConfigKey (not_mem_of_storedAt hnul hst)) hk
      exact ⟨rfl, n, pkg, rfl, hst, hv⟩
    · rintro ⟨hns', n, pkg, hkey, hst, hv⟩
      refine ⟨n, bn, pkg, ?_, hst, hv⟩
      rw [show ns = collectionConfigNamespace from hns',
        show key = constructCollectionConfigKey n from hkey]
  cases hv : DBHandle.get db dbName (encodeCompositeKey ns key bn) with
  | none =>
    refine ⟨none, by simp [entryAt, hv], fun v hst => ?_⟩
    rw [← hstored, hv] at hst
    cases hst
  | some v =>
    -- an entry is stored, so the namespace is `"lscc"` and the key decodes back
    have hentry := (hstored v).mp hv
    have hns : 0x00 ∉ ns := by
      rw [show ns = collectionConfigNamespace from hentry.1]
      exact not_mem_collectionConfigNamespace
    refine ⟨some ⟨⟨ns, key, bn⟩, v⟩, ?_, rfl, hentry⟩
    simp [entryAt, hv, decodeCompositeKey_encodeCompositeKey hns]

/-- The collection-config history after a run of `HandleStateUpdates` at increasing blocks from
    the empty database, over the chaincode names `ChaincodeNameRegExp` matches:
    `MostRecentCollectionConfigBelow` returns the package stored for the chaincode at the
    greatest block below `b`, or nil, and `entryAt` returns the entry stored at its namespace,
    key and block, or nil. -/
theorem configHistory_queries
    (hcodec : ∀ pkg v, codec.marshal pkg = some v → codec.unmarshal v = some pkg)
    (hname : 0x00 ∉ dbName) (hsorted : (runs.map Prod.fst).Pairwise (· < ·))
    (hnames : ∀ r ∈ runs, ∀ ccInfo ∈ r.2, chaincodeNameRegExp ccInfo.name = true)
    (hdb : handleAll codec dbName DB.empty runs = .ok db) :
    (∀ (b : UInt64) (n : Bytes), 1 ≤ b → ∃ result,
      mostRecentCollectionConfigBelow codec db dbName b n = .ok result ∧
        IsMostRecentBelow runs b n result) ∧
    ∀ (bn : UInt64) (ns key : Bytes), ∃ result,
      entryAt db dbName bn ns key = .ok result ∧ IsEntryAt codec runs bn ns key result := by
  have htilde : ∀ r ∈ runs, ∀ ccInfo ∈ r.2, 0x7e ∉ ccInfo.name :=
    fun r hr ccInfo hc => (not_mem_of_chaincodeNameRegExp (hnames r hr ccInfo hc)).2
  have hnul : ∀ r ∈ runs, ∀ ccInfo ∈ r.2, 0x00 ∉ ccInfo.name :=
    fun r hr ccInfo hc => (not_mem_of_chaincodeNameRegExp (hnames r hr ccInfo hc)).1
  refine ⟨fun b n hb => ?_, fun bn ns key => entryAt_eq hsorted hnul hdb bn ns key⟩
  have hb0 : b ≠ 0 := by
    rintro rfl
    exact absurd hb (by decide)
  rcases mostRecentEntryBelow_eq hname hsorted htilde hdb hb0 n with
    ⟨hnone, hbelow⟩ | ⟨bj, pkg, v, hentry, hlt, hst, hv, hmax⟩
  · exact ⟨none, by simp [mostRecentCollectionConfigBelow, hnone], hbelow⟩
  · -- the entry's value unmarshals back to the package stored
    refine ⟨some ⟨pkg, bj⟩, ?_, hlt, hst, hmax⟩
    simp [mostRecentCollectionConfigBelow, hentry, compositeKVToCollectionConfig, hcodec pkg v hv,
      Except.map]

/-- One call at block `1` that stores one chaincode's package. -/
theorem configHistory_queries_single :
    let codec : PackageCodec Unit :=
      ⟨fun pkg => some (pkg.config.map fun _ => 1), fun v => some ⟨v.map fun _ => ()⟩⟩
    let runs : List (UInt64 × List (DeployedChaincodeInfo Unit)) :=
      [(1, [⟨goBytes "mycc", some ⟨[()]⟩⟩])]
    let db := DB.empty.write [.put (constructLevelKey [0x63] (encodeCompositeKey
      collectionConfigNamespace (constructCollectionConfigKey (goBytes "mycc")) 1)) [1]]
    (∀ pkg v, codec.marshal pkg = some v → codec.unmarshal v = some pkg) ∧ (0x00 : UInt8) ∉ [0x63] ∧
      (runs.map Prod.fst).Pairwise (· < ·) ∧
      (∀ r ∈ runs, ∀ ccInfo ∈ r.2, chaincodeNameRegExp ccInfo.name = true) ∧
      handleAll codec [0x63] DB.empty runs = .ok db ∧
      (∀ (b : UInt64) (n : Bytes), 1 ≤ b → ∃ result,
        mostRecentCollectionConfigBelow codec db [0x63] b n = .ok result ∧
          IsMostRecentBelow runs b n result) ∧
      ∀ (bn : UInt64) (ns key : Bytes), ∃ result,
        entryAt db [0x63] bn ns key = .ok result ∧ IsEntryAt codec runs bn ns key result := by
  intro codec runs db
  have hcodec : ∀ pkg v, codec.marshal pkg = some v → codec.unmarshal v = some pkg := by
    rintro ⟨config⟩ v h
    obtain rfl := (Option.some.inj h).symm
    simp only [codec, List.map_const', Option.some.injEq, CollectionConfigPackage.mk.injEq,
      List.length_replicate]
    exact (List.eq_replicate_iff.mpr ⟨rfl, fun u _ => Subsingleton.elim u ()⟩).symm
  have hname : (0x00 : UInt8) ∉ [0x63] := by decide
  have hsorted : (runs.map Prod.fst).Pairwise (· < ·) := by simp [runs]
  have hnames : ∀ r ∈ runs, ∀ ccInfo ∈ r.2, chaincodeNameRegExp ccInfo.name = true := by
    simp only [runs, List.mem_singleton, forall_eq]
    decide
  have hdb : handleAll codec [0x63] DB.empty runs = .ok db := rfl
  exact ⟨hcodec, hname, hsorted, hnames, hdb,
    configHistory_queries hcodec hname hsorted hnames hdb⟩

end Queries

end Fabric.ConfigHistory
