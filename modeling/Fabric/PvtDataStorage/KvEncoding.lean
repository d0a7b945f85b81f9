import Fabric.Ledger.OrderPreserving
import Fabric.Ledger.LevelDBHelper

/-
  The keys of the private data store (`core/ledger/pvtdatastorage/kv_encoding.go`).

  `encodeReverseOrderVarUint64` writes `MaxUint64 - n` big-endian without its leading `0xff`
  bytes, behind one byte that counts them; `decodeReverseOrderVarUint64` puts them back. As the
  bytes of `MaxUint64 - n` are those of `n` taken from `0xff`, an encoding is the count of
  `n`'s leading zero bytes and then `n`'s significant bytes, each taken from `0xff`
  (`encodeReverseOrderVarUint64_eq`). Proved: decoding reads back the number and the length of
  its encoding, whatever follows; no encoding is a proper prefix of another; and the order is
  reversed (`reverseOrderVarUint64_spec`).

  The store keeps fifteen kinds of keys in one key space, each kind behind its own first byte
  (`StoreKey`, `StoreKey.encode`): heights, names separated by a nil byte, key hashes and
  block numbers in reverse order. For names without nil bytes and key hashes of 32 bytes,
  proved: each decoder reads its key back, a hashed index key gives the data key of its height,
  and each range scan selects, among all the keys of the store, the keys of its kind it is for
  (`pvtDataKeys_spec`): among them the purge markers, and for each purge marker the hashed
  index keys of its namespace, collection and key hash up to the marker's height, the purge's
  own transaction included (`driveHashedIndexKeyRangeFromPurgeMarker`). Four ranges end one
  past a `uint64` bound and lose keys there: the data keys of block `MaxUint64`, the expiry
  keys of block `MaxUint64` in a range up to it, the hashed index key at height
  `(MaxUint64, MaxUint64)`, and, for a purge marker at transaction number `MaxUint64`, the
  hashed index keys of its own block (`pvtDataKeys_range_largest`).

  A slice `b[i:j]` of the source panics here when `j` is past the end of `b`, which Go allows
  up to the slice's capacity; the decoders of the source are only given slices of whole keys.
  The values of the store (protobuf messages, bitmaps) are left out.
-/

namespace Fabric.PvtDataStorage

open Fabric.Ledger Fabric.LevelDBHelper Protowire BigEndian ByteOrder

/-- `math.MaxUint64`. -/
def maxUint64 : UInt64 := 0xffffffffffffffff

/-! ## The reverse-order encoding -/

/-- `encodeReverseOrderVarUint64`. -/
def encodeReverseOrderVarUint64 (number : UInt64) : Bytes :=
  let bytes := putUint64 (maxUint64 - number)
  let numFFBytes := (bytes.takeWhile (· == 0xff)).length
  let size := 8 - numFFBytes
  -- `numFFBytes` is at most `8`, so its varint is one byte
  (appendVarint numFFBytes).take 1 ++ (bytes.drop numFFBytes).take size

/-- `decodeReverseOrderVarUint64`: the number and the number of bytes consumed, `none` where
    the source panics (a count above `8`, or too few bytes behind it). -/
def decodeReverseOrderVarUint64 (bytes : Bytes) : Option (UInt64 × Nat) :=
  -- a failed `ConsumeVarint` counts as zero
  let s := match consumeVarint bytes with
    | .ok (s, _) => s
    | .error _ => 0
  let numFFBytes := s
  if numFFBytes > 8 then none
  else
    let realBytesNum := 8 - numFFBytes
    if bytes.length < realBytesNum + 1 then none
    else
      let decodedBytes := List.replicate numFFBytes 0xff ++ (bytes.drop 1).take realBytesNum
      some (maxUint64 - uint64 decodedBytes, realBytesNum + 1)

theorem toNat_maxUint64_sub (n : UInt64) : (maxUint64 - n).toNat = 2 ^ 64 - 1 - n.toNat := by
  have hn := n.toNat_lt
  rw [UInt64.toNat_sub_of_le _ _ (UInt64.le_iff_toNat_le.mpr (by simp [maxUint64]; omega))]
  rfl

/-- The eight bytes of `MaxUint64 - n`: `0xff` for each leading zero byte of `n`, then `n`'s
    significant bytes taken from `0xff`. -/
theorem putUint64_maxUint64_sub (n : UInt64) :
    putUint64 (maxUint64 - n) =
      List.replicate (8 - byteLength n.toNat) 0xff ++
        (split (byteLength n.toNat) n.toNat).map (255 - ·) := by
  have hn : n.toNat < 256 ^ 8 := by simpa using n.toNat_lt
  have hsub := split_sub hn
  rw [putUint64, toNat_maxUint64_sub, show (2 : Nat) ^ 64 = 256 ^ 8 by norm_num, hsub,
    ← putUint64, putUint64_eq, List.map_append, List.map_replicate]
  rfl

theorem encodeReverseOrderVarUint64_eq (n : UInt64) :
    encodeReverseOrderVarUint64 n =
      (8 - byteLength n.toNat).toUInt8 :: (split (byteLength n.toNat) n.toNat).map (255 - ·) := by
  have hle := byteLength_toNat_le n
  -- the significant bytes, taken from `0xff`, do not start with `0xff`
  have hff : ((split (byteLength n.toNat) n.toNat).map (255 - ·)).takeWhile (· == 0xff) = [] := by
    rcases Nat.eq_zero_or_pos n.toNat with h0 | hpos
    · simp [h0, byteLength, split]
    · obtain ⟨d, rest, hsplit, hd⟩ := head_split_byteLength_ne_zero hpos
      have hd256 := d.toNat_lt
      have hd' : (255 - d == 0xff) = false := by
        simp only [beq_eq_false_iff_ne]
        intro h
        apply hd
        have := congrArg UInt8.toNat h
        rw [UInt8.toNat_sub_of_le _ _ (UInt8.le_iff_toNat_le.mpr (by simp; omega))] at this
        exact UInt8.toNat_inj.mp (by simp at this ⊢; omega)
      rw [hsplit, List.map_cons, List.takeWhile_cons, hd']
      rfl
  have hcount : ((putUint64 (maxUint64 - n)).takeWhile (· == 0xff)).length =
      8 - byteLength n.toNat := by
    rw [putUint64_maxUint64_sub, List.takeWhile_append_of_pos (by simp), hff]
    simp
  simp only [encodeReverseOrderVarUint64, hcount]
  rw [appendVarint_of_lt (by omega), putUint64_maxUint64_sub,
    List.drop_left' (List.length_replicate ..)]
  -- the copy takes the whole of both: one varint byte, then the rest
  rw [List.take_of_length_le (by simp), List.take_of_length_le (by simp; omega)]
  rfl

/-- Decoding an encoding reads back the number and its length, whatever follows. -/
theorem decodeReverseOrderVarUint64_encode_append (n : UInt64) (rest : Bytes) :
    decodeReverseOrderVarUint64 (encodeReverseOrderVarUint64 n ++ rest) =
      some (n, (encodeReverseOrderVarUint64 n).length) := by
  have hle := byteLength_toNat_le n
  have hcount : (8 - byteLength n.toNat).toUInt8.toNat = 8 - byteLength n.toNat := by
    simp [Nat.toUInt8_eq]
    omega
  have hvarint : ∀ t : Bytes,
      consumeVarint ((8 - byteLength n.toNat).toUInt8 :: t) = .ok (8 - byteLength n.toNat, 1) := by
    intro t
    have hlt : (8 - byteLength n.toNat).toUInt8 < 0x80 := by
      rw [UInt8.lt_iff_toNat_lt, hcount]
      simp
      omega
    simp [consumeVarint, consumeVarintN, hlt, hcount]
  -- the copy behind the `0xff` bytes puts back the eight bytes of `MaxUint64 - n`
  have hbytes : List.replicate (8 - byteLength n.toNat) 0xff ++
      ((split (byteLength n.toNat) n.toNat).map (255 - ·) ++ rest).take
        (8 - (8 - byteLength n.toNat)) = putUint64 (maxUint64 - n) := by
    rw [Nat.sub_sub_self hle, List.take_left' (by simp), putUint64_maxUint64_sub]
  simp only [decodeReverseOrderVarUint64, encodeReverseOrderVarUint64_eq, List.cons_append,
    hvarint, List.drop_one, List.tail_cons, hbytes, uint64_putUint64]
  rw [if_neg (by omega), if_neg (by simp; omega)]
  simp only [List.length_cons, List.length_map, length_split, Option.some.injEq, Prod.mk.injEq]
  exact ⟨by grind, by omega⟩

theorem encodeReverseOrderVarUint64_inj {x y : UInt64} :
    encodeReverseOrderVarUint64 x = encodeReverseOrderVarUint64 y ↔ x = y := by
  constructor
  · intro h
    have hdec := decodeReverseOrderVarUint64_encode_append x []
    rw [h, decodeReverseOrderVarUint64_encode_append y []] at hdec
    exact (Prod.mk.inj (Option.some.inj hdec)).1.symm
  · rintro rfl
    rfl

/-- No encoding is a proper prefix of another. -/
theorem encodeReverseOrderVarUint64_prefix {x y : UInt64}
    (h : encodeReverseOrderVarUint64 x <+: encodeReverseOrderVarUint64 y) : x = y := by
  obtain ⟨t, ht⟩ := h
  have hdec := decodeReverseOrderVarUint64_encode_append x t
  have hdec' := decodeReverseOrderVarUint64_encode_append y []
  rw [ht] at hdec
  rw [List.append_nil, hdec] at hdec'
  exact (Prod.mk.inj (Option.some.inj hdec')).1

/-- Followed by anything, two encodings compare as the numbers the other way round, then as
    what follows. -/
theorem encodeReverseOrderVarUint64_append_lt_iff (x y : UInt64) (r r' : Bytes) :
    encodeReverseOrderVarUint64 x ++ r < encodeReverseOrderVarUint64 y ++ r' ↔
      y < x ∨ x = y ∧ r < r' := by
  have hx := byteLength_toNat_le x
  have hy := byteLength_toNat_le y
  have hcount : (8 - byteLength x.toNat).toUInt8 < (8 - byteLength y.toNat).toUInt8 ↔
      byteLength y.toNat < byteLength x.toNat := by
    rw [UInt8.lt_iff_toNat_lt]
    simp [Nat.toUInt8_eq]
    omega
  have hcounteq : (8 - byteLength x.toNat).toUInt8 = (8 - byteLength y.toNat).toUInt8 ↔
      byteLength x.toNat = byteLength y.toNat := by
    rw [← UInt8.toNat_inj]
    simp [Nat.toUInt8_eq]
    omega
  rw [encodeReverseOrderVarUint64_eq, encodeReverseOrderVarUint64_eq, List.cons_append,
    List.cons_append, List.cons_lt_cons_iff, hcount, hcounteq, UInt64.lt_iff_toNat_lt,
    ← UInt64.toNat_inj]
  rcases Nat.lt_trichotomy (byteLength x.toNat) (byteLength y.toNat) with hlt | heq | hgt
  · -- fewer significant bytes: a smaller number, a larger count of `0xff` bytes
    have := lt_of_byteLength_lt hlt
    simp only [Nat.not_lt_of_gt hlt, hlt.ne, false_and, false_or, false_iff, not_or, not_and]
    exact ⟨by omega, fun h => by omega⟩
  · -- as many: the significant bytes taken from `0xff` decide, the other way round
    have hxlt : x.toNat < 256 ^ byteLength y.toNat := heq ▸ lt_pow_byteLength x.toNat
    have hylt := lt_pow_byteLength y.toNat
    have hsubx : x.toNat ≤ 256 ^ byteLength y.toNat - 1 := by omega
    have hsuby : y.toNat ≤ 256 ^ byteLength y.toNat - 1 := by omega
    rw [heq, ← split_sub hxlt, ← split_sub hylt, List.append_lt_append_iff r r' (by simp),
      split_lt_split_iff (by omega) (by omega)]
    have hinj : split (byteLength y.toNat) (256 ^ byteLength y.toNat - 1 - x.toNat) =
        split (byteLength y.toNat) (256 ^ byteLength y.toNat - 1 - y.toNat) ↔
          x.toNat = y.toNat := by
      constructor
      · intro h
        have := congrArg combine h
        rw [combine_split (by omega), combine_split (by omega)] at this
        omega
      · intro h
        rw [h]
    rw [hinj]
    simp only [lt_irrefl, false_or, true_and]
    constructor
    · rintro (h | h)
      · exact .inl (by omega)
      · exact .inr h
    · rintro (h | h)
      · exact .inl (by omega)
      · exact .inr h
  · -- more significant bytes: a larger number
    simp [hgt, lt_of_byteLength_lt hgt]

theorem encodeReverseOrderVarUint64_lt_iff (x y : UInt64) :
    encodeReverseOrderVarUint64 x < encodeReverseOrderVarUint64 y ↔ y < x := by
  have h := encodeReverseOrderVarUint64_append_lt_iff x y [] []
  simp only [List.append_nil] at h
  rw [h]
  simp [List.lt_irrefl]

/-- The reverse-order encoding of `uint64` numbers: decoding reads back the number and the
    length of its encoding whatever follows, no encoding is a proper prefix of another, and a
    smaller number has the larger encoding. -/
theorem reverseOrderVarUint64_spec :
    (∀ (a : UInt64) (rest : Bytes),
        decodeReverseOrderVarUint64 (encodeReverseOrderVarUint64 a ++ rest) =
          some (a, (encodeReverseOrderVarUint64 a).length)) ∧
      (∀ a b : UInt64, encodeReverseOrderVarUint64 a <+: encodeReverseOrderVarUint64 b → a = b) ∧
      ∀ a b : UInt64, a < b →
        0 < threeWay (encodeReverseOrderVarUint64 a) (encodeReverseOrderVarUint64 b) := by
  refine ⟨decodeReverseOrderVarUint64_encode_append,
    fun _ _ h => encodeReverseOrderVarUint64_prefix h, fun a b hab => ?_⟩
  have hnlt : ¬ encodeReverseOrderVarUint64 a < encodeReverseOrderVarUint64 b := by
    rw [encodeReverseOrderVarUint64_lt_iff]
    exact UInt64.not_lt.mpr (UInt64.le_of_lt hab)
  have hne : encodeReverseOrderVarUint64 a ≠ encodeReverseOrderVarUint64 b := by
    rw [Ne, encodeReverseOrderVarUint64_inj]
    exact UInt64.ne_of_lt hab
  simp [threeWay, hnlt, hne]

/-! ## The key layouts -/

def pendingCommitKey : Bytes := [0]
def lastCommittedBlkkey : Bytes := [1]
def pvtDataKeyPrefix : Bytes := [2]
def expiryKeyPrefix : Bytes := [3]
def elgPrioritizedMissingDataGroup : Bytes := [4]
def inelgMissingDataGroup : Bytes := [5]
def collElgKeyPrefix : Bytes := [6]
def lastUpdatedOldBlocksKey : Bytes := [7]
def elgDeprioritizedMissingDataGroup : Bytes := [8]
def bootKVHashesKeyPrefix : Bytes := [9]
def lastBlockInBootSnapshotKey : Bytes := [0x61]
def hashedIndexKeyPrefix : Bytes := [0x62]
def purgeMarkerKeyPrefix : Bytes := [0x63]
def purgeMarkerCollKeyPrefix : Bytes := [0x64]
def purgeMarkerForReconKeyPrefix : Bytes := [0x65]

def nilByte : UInt8 := 0

/-- `nsCollBlk`. -/
structure NsCollBlk where
  ns : Bytes
  coll : Bytes
  blkNum : UInt64
  deriving DecidableEq, Repr

/-- `dataKey`. -/
structure DataKey extends NsCollBlk where
  txNum : UInt64
  deriving DecidableEq, Repr

/-- `expiryKey`. -/
structure ExpiryKey where
  expiringBlk : UInt64
  committingBlk : UInt64
  deriving DecidableEq, Repr

/-- `missingDataKey`. -/
structure MissingDataKey extends NsCollBlk
  deriving DecidableEq, Repr

/-- `bootKVHashesKey`. -/
structure BootKVHashesKey where
  blkNum : UInt64
  txNum : UInt64
  ns : Bytes
  coll : Bytes
  deriving DecidableEq, Repr

/-- `hashedIndexKey`. -/
structure HashedIndexKey where
  ns : Bytes
  coll : Bytes
  pvtkeyHash : Bytes
  blkNum : UInt64
  txNum : UInt64
  deriving DecidableEq, Repr

/-- `purgeMarkerKey`. -/
structure PurgeMarkerKey where
  ns : Bytes
  coll : Bytes
  pvtkeyHash : Bytes
  deriving DecidableEq, Repr

/-- `purgeMarkerCollKey`. -/
structure PurgeMarkerCollKey where
  ns : Bytes
  coll : Bytes
  deriving DecidableEq, Repr

/-- `version.NewHeight(blockNum, txNum).ToBytes()`. -/
def heightBytes (blockNum txNum : UInt64) : Bytes := (newHeight blockNum.toNat txNum.toNat).toBytes

/-- The layout of data keys and boot KV hashes keys: a prefix, a height, the namespace, a nil
    byte and the collection. -/
def heightNsCollKey (keyPrefix : Bytes) (blkNum txNum : UInt64) (ns coll : Bytes) : Bytes :=
  keyPrefix ++ heightBytes blkNum txNum ++ ns ++ [nilByte] ++ coll

def encodeDataKey (key : DataKey) : Bytes :=
  heightNsCollKey pvtDataKeyPrefix key.blkNum key.txNum key.ns key.coll

def encodeExpiryKey (expiryKey : ExpiryKey) : Bytes :=
  expiryKeyPrefix ++ heightBytes expiryKey.expiringBlk expiryKey.committingBlk

/-- The layout of the eligible missing data keys of a group: the group, the block number in
    reverse order, the namespace, a nil byte and the collection. -/
def elgMissingDataKey (group : Bytes) (key : MissingDataKey) : Bytes :=
  group ++ encodeReverseOrderVarUint64 key.blkNum ++ key.ns ++ [nilByte] ++ key.coll

def encodeElgPrioMissingDataKey (key : MissingDataKey) : Bytes :=
  elgMissingDataKey elgPrioritizedMissingDataGroup key

def encodeElgDeprioMissingDataKey (key : MissingDataKey) : Bytes :=
  elgMissingDataKey elgDeprioritizedMissingDataGroup key

def encodeInelgMissingDataKey (key : MissingDataKey) : Bytes :=
  inelgMissingDataGroup ++ key.ns ++ [nilByte] ++ key.coll ++ [nilByte] ++
    encodeReverseOrderVarUint64 key.blkNum

def encodeCollElgKey (blkNum : UInt64) : Bytes :=
  collElgKeyPrefix ++ encodeReverseOrderVarUint64 blkNum

def encodeBootKVHashesKey (key : BootKVHashesKey) : Bytes :=
  heightNsCollKey bootKVHashesKeyPrefix key.blkNum key.txNum key.ns key.coll

def encodeHashedIndexKey (k : HashedIndexKey) : Bytes :=
  hashedIndexKeyPrefix ++ k.ns ++ [nilByte] ++ k.coll ++ [nilByte] ++ k.pvtkeyHash ++
    heightBytes k.blkNum k.txNum

def encodePurgeMarkerCollKey (k : PurgeMarkerCollKey) : Bytes :=
  purgeMarkerCollKeyPrefix ++ k.ns ++ [nilByte] ++ k.coll

/-- The layout of purge marker keys: a prefix, the namespace, a nil byte, the collection, a
    nil byte and the key hash. -/
def purgeMarkerLayout (keyPrefix : Bytes) (k : PurgeMarkerKey) : Bytes :=
  keyPrefix ++ k.ns ++ [nilByte] ++ k.coll ++ [nilByte] ++ k.pvtkeyHash

def encodePurgeMarkerKey (k : PurgeMarkerKey) : Bytes :=
  purgeMarkerLayout purgeMarkerKeyPrefix k

def encodePurgeMarkerForReconKey (k : PurgeMarkerKey) : Bytes :=
  purgeMarkerLayout purgeMarkerForReconKeyPrefix k

/-- How a key decoder fails: the error of `NewHeightFromBytes`, the error for a hashed index
    key without two nil bytes, or a panic on a slice out of range. -/
inductive KeyDecodeError
  | height (e : DecodeError)
  | unexpectedBytes (key : Bytes)
  | panic
  deriving DecidableEq, Repr

def decodeExpiryKey (expiryKeyBytes : Bytes) : Except KeyDecodeError ExpiryKey :=
  match expiryKeyBytes with
  | [] => .error .panic
  | _ :: rest =>
    match newHeightFromBytes rest with
    | .error e => .error (.height e)
    | .ok (height, _) =>
      .ok { expiringBlk := height.blockNum.toUInt64, committingBlk := height.txNum.toUInt64 }

def decodeDatakey (datakeyBytes : Bytes) : Except KeyDecodeError DataKey :=
  match datakeyBytes with
  | [] => .error .panic
  | _ :: rest =>
    match newHeightFromBytes rest with
    | .error e => .error (.height e)
    | .ok (v, n) =>
      -- `n` is within `rest`, so `datakeyBytes[n+1:]` does not panic
      let remainingBytes := rest.drop n
      match remainingBytes.findIdx? (· == nilByte) with
      -- `remainingBytes[:-1]`
      | none => .error .panic
      | some nilByteIndex =>
        let ns := remainingBytes.take nilByteIndex
        let coll := remainingBytes.drop (nilByteIndex + 1)
        .ok { ns, coll, blkNum := v.blockNum.toUInt64, txNum := v.txNum.toUInt64 }

def decodeElgMissingDataKey (keyBytes : Bytes) : Option MissingDataKey :=
  match keyBytes with
  | [] => none
  | _ :: rest =>
    match decodeReverseOrderVarUint64 rest with
    | none => none
    | some (blkNum, numBytesConsumed) =>
      match (rest.drop numBytesConsumed).splitOn nilByte with
      | ns :: coll :: _ => some { ns, coll, blkNum }
      -- `splittedKey[1]` of a key without a nil byte
      | _ => none

/-- `bytes.SplitN` around one byte, for `n > 0`: at most `n` pieces, the last one the rest. -/
def splitN (sep : UInt8) : Nat → Bytes → List Bytes
  | 0, _ => []
  | 1, s => [s]
  | n + 2, s =>
    match s.findIdx? (· == sep) with
    | none => [s]
    | some i => s.take i :: splitN sep (n + 1) (s.drop (i + 1))

def decodeInelgMissingDataKey (keyBytes : Bytes) : Option MissingDataKey :=
  match keyBytes with
  | [] => none
  | _ :: rest =>
    -- the encoded block number may contain nil bytes
    match splitN nilByte 3 rest with
    | ns :: coll :: encBlkNum :: _ =>
      (decodeReverseOrderVarUint64 encBlkNum).map fun (blkNum, _) => { ns, coll, blkNum }
    -- `splittedKey[1]` or `splittedKey[2]` of a key with fewer nil bytes
    | _ => none

def decodeCollElgKey (b : Bytes) : Option UInt64 :=
  match b with
  | [] => none
  | _ :: rest => (decodeReverseOrderVarUint64 rest).map Prod.fst

/-- The loop of `deriveDataKeyFromEncodedHashedIndexKey` from index `i` on, with the index of
    the first nil byte once found: the indices of the first two nil bytes, `0` for one not
    found. -/
def nilByteIndices (i : Nat) (firstNilByteIndex : Option Nat) : Bytes → Nat × Nat
  | [] => (firstNilByteIndex.getD 0, 0)
  | b :: bs =>
    if b == nilByte then
      match firstNilByteIndex with
      | none => nilByteIndices (i + 1) (some i) bs
      | some first => (first, i)
    else nilByteIndices (i + 1) firstNilByteIndex bs

def deriveDataKeyFromEncodedHashedIndexKey (encHashedIndexKey : Bytes) :
    Except KeyDecodeError Bytes :=
  let lengthHashedPvtKey := 32
  let (firstNilByteIndex, secondNilByteIndex) := nilByteIndices 0 none encHashedIndexKey
  if secondNilByteIndex = 0 then .error (.unexpectedBytes encHashedIndexKey)
  -- `encHashedIndexKey[1:firstNilByteIndex]` with a nil first byte, or the height's slice of a
  -- key that ends within the hash
  else if firstNilByteIndex < 1 ∨
      encHashedIndexKey.length < secondNilByteIndex + lengthHashedPvtKey + 1 then .error .panic
  else
    let ns := (encHashedIndexKey.take firstNilByteIndex).drop 1
    let coll := (encHashedIndexKey.take secondNilByteIndex).drop (firstNilByteIndex + 1)
    let blkNumTxNumBytes := encHashedIndexKey.drop (secondNilByteIndex + lengthHashedPvtKey + 1)
    .ok (pvtDataKeyPrefix ++ blkNumTxNumBytes ++ ns ++ [nilByte] ++ coll)

/-! ## The range scans -/

def getDataKeysForRangeScanByBlockNum (blockNum : UInt64) : Bytes × Bytes :=
  (pvtDataKeyPrefix ++ heightBytes blockNum 0, pvtDataKeyPrefix ++ heightBytes (blockNum + 1) 0)

def getExpiryKeysForRangeScan (minBlkNum maxBlkNum : UInt64) : Bytes × Bytes :=
  (expiryKeyPrefix ++ heightBytes minBlkNum 0, expiryKeyPrefix ++ heightBytes (maxBlkNum + 1) 0)

def createRangeScanKeysForElgMissingData (blkNum : UInt64) (group : Bytes) : Bytes × Bytes :=
  (group ++ encodeReverseOrderVarUint64 blkNum, group ++ encodeReverseOrderVarUint64 0)

def rangeScanKeysForHashedIndexKey (ns coll keyHash : Bytes) : Bytes × Bytes :=
  (encodeHashedIndexKey ⟨ns, coll, keyHash, 0, 0⟩,
    encodeHashedIndexKey ⟨ns, coll, keyHash, maxUint64, maxUint64⟩)

def rangeScanKeysForPurgeMarkers : Bytes × Bytes :=
  (purgeMarkerKeyPrefix, [purgeMarkerKeyPrefix.get ⟨0, by decide⟩ + 1])

/-- `purgeMarkerVal`: the height of the purge. -/
structure PurgeMarkerVal where
  blkNum : UInt64
  txNum : UInt64
  deriving DecidableEq, Repr

def encodePurgeMarkerVal (v : PurgeMarkerVal) : Bytes := heightBytes v.blkNum v.txNum

def decodePurgeMarkerVal (b : Bytes) : Except KeyDecodeError Height :=
  match newHeightFromBytes b with
  | .error e => .error (.height e)
  | .ok (v, _) => .ok v

/-- `driveHashedIndexKeyRangeFromPurgeMarker`: from the purge marker's names and key hash, behind
    the prefix of the hashed index keys, up to the height of its value with the transaction
    number one higher. -/
def driveHashedIndexKeyRangeFromPurgeMarker (purgeMarkerKey purgeMarkerVal : Bytes) :
    Except KeyDecodeError (Bytes × Bytes) :=
  match purgeMarkerKey with
  -- `purgeMarkerKey[1:]` of an empty key
  | [] => .error .panic
  | _ :: rest =>
    let startKey := hashedIndexKeyPrefix ++ rest
    match decodePurgeMarkerVal purgeMarkerVal with
    | .error e => .error e
    | .ok version =>
      -- `TxNum += 1` on a `uint64`: `ToBytes` keeps it modulo `2^64`
      let version := { version with txNum := version.txNum + 1 }
      .ok (startKey, startKey ++ version.toBytes)

/-! ## The keys of the store -/

/-- A key of the store, by its kind. -/
inductive StoreKey
  | pendingCommit
  | lastCommittedBlk
  | lastUpdatedOldBlocks
  | lastBlockInBootSnapshot
  | data (key : DataKey)
  | expiry (key : ExpiryKey)
  | elgPrioMissingData (key : MissingDataKey)
  | elgDeprioMissingData (key : MissingDataKey)
  | inelgMissingData (key : MissingDataKey)
  | collElg (blkNum : UInt64)
  | bootKVHashes (key : BootKVHashesKey)
  | hashedIndex (key : HashedIndexKey)
  | purgeMarker (key : PurgeMarkerKey)
  | purgeMarkerColl (key : PurgeMarkerCollKey)
  | purgeMarkerForRecon (key : PurgeMarkerKey)
  deriving DecidableEq, Repr

/-- The bytes a key is stored under. -/
def StoreKey.encode : StoreKey → Bytes
  | .pendingCommit => pendingCommitKey
  | .lastCommittedBlk => lastCommittedBlkkey
  | .lastUpdatedOldBlocks => lastUpdatedOldBlocksKey
  | .lastBlockInBootSnapshot => lastBlockInBootSnapshotKey
  | .data key => encodeDataKey key
  | .expiry key => encodeExpiryKey key
  | .elgPrioMissingData key => encodeElgPrioMissingDataKey key
  | .elgDeprioMissingData key => encodeElgDeprioMissingDataKey key
  | .inelgMissingData key => encodeInelgMissingDataKey key
  | .collElg blkNum => encodeCollElgKey blkNum
  | .bootKVHashes key => encodeBootKVHashesKey key
  | .hashedIndex key => encodeHashedIndexKey key
  | .purgeMarker key => encodePurgeMarkerKey key
  | .purgeMarkerColl key => encodePurgeMarkerCollKey key
  | .purgeMarkerForRecon key => encodePurgeMarkerForReconKey key

/-- The names in a key have no nil byte and its key hash is 32 bytes, as SHA-256 makes it. -/
def StoreKey.WellFormed : StoreKey → Prop
  | .data key => nilByte ∉ key.ns ∧ nilByte ∉ key.coll
  | .elgPrioMissingData key | .elgDeprioMissingData key | .inelgMissingData key =>
    nilByte ∉ key.ns ∧ nilByte ∉ key.coll
  | .bootKVHashes key => nilByte ∉ key.ns ∧ nilByte ∉ key.coll
  | .hashedIndex key => nilByte ∉ key.ns ∧ nilByte ∉ key.coll ∧ key.pvtkeyHash.length = 32
  | .purgeMarker key | .purgeMarkerForRecon key =>
    nilByte ∉ key.ns ∧ nilByte ∉ key.coll ∧ key.pvtkeyHash.length = 32
  | .purgeMarkerColl key => nilByte ∉ key.ns ∧ nilByte ∉ key.coll
  | _ => True

/-! ## Reading the keys back -/

theorem heightBytes_eq (blockNum txNum : UInt64) :
    heightBytes blockNum txNum =
      encodeOrderPreservingVarUint64 blockNum ++ encodeOrderPreservingVarUint64 txNum := by
  simp [heightBytes, Height.toBytes, newHeight]

theorem newHeightFromBytes_heightBytes_append (blockNum txNum : UInt64) (rest : Bytes) :
    newHeightFromBytes (heightBytes blockNum txNum ++ rest) =
      .ok (newHeight blockNum.toNat txNum.toNat, (heightBytes blockNum txNum).length) :=
  newHeightFromBytes_toBytes_append blockNum.toNat_lt txNum.toNat_lt rest

/-- A name without a nil byte, a nil byte and the rest: the name is before the first nil
    byte, the rest after it. -/
theorem split_at_nilByte {ns : Bytes} (hns : nilByte ∉ ns) (rest : Bytes) :
    (ns ++ nilByte :: rest).findIdx? (· == nilByte) = some ns.length ∧
      (ns ++ nilByte :: rest).take ns.length = ns ∧
      (ns ++ nilByte :: rest).drop (ns.length + 1) = rest := by
  refine ⟨List.findIdx?_append_cons_of_not_mem hns rest, List.take_left, ?_⟩
  rw [← List.drop_drop, List.drop_left]
  rfl

theorem decodeDatakey_encodeDataKey {key : DataKey} (hns : nilByte ∉ key.ns) :
    decodeDatakey (encodeDataKey key) = .ok key := by
  obtain ⟨hfind, htake, hdrop⟩ := split_at_nilByte hns key.coll
  simp only [encodeDataKey, heightNsCollKey, pvtDataKeyPrefix, List.append_assoc,
    List.cons_append, List.nil_append, decodeDatakey]
  rw [newHeightFromBytes_heightBytes_append]
  simp only [List.drop_left, hfind, htake, hdrop, newHeight, UInt64.ofNat_toNat]

theorem decodeExpiryKey_encodeExpiryKey (expiryKey : ExpiryKey) :
    decodeExpiryKey (encodeExpiryKey expiryKey) = .ok expiryKey := by
  have h := newHeightFromBytes_heightBytes_append expiryKey.expiringBlk expiryKey.committingBlk []
  rw [List.append_nil] at h
  simp only [encodeExpiryKey, expiryKeyPrefix, List.singleton_append, decodeExpiryKey, h]
  simp [newHeight]

/-- Names without a nil byte, split at the one between them. -/
theorem splitOn_nilByte {ns coll : Bytes} (hns : nilByte ∉ ns) (hcoll : nilByte ∉ coll) :
    (ns ++ nilByte :: coll).splitOn nilByte = [ns, coll] := by
  have hnot : ∀ {l : Bytes}, nilByte ∉ l → ∀ x ∈ l, (x == nilByte) = false := by
    intro l hl x hx
    simp only [beq_eq_false_iff_ne, ne_eq]
    rintro rfl
    exact hl hx
  rw [List.splitOn, List.splitOnP_append_cons_of_forall_mem (hnot hns) _ (by simp),
    List.splitOnP_eq_singleton (hnot hcoll)]

/-- A group byte, a block number that decodes, and names without nil bytes around one. -/
theorem decodeElgMissingDataKey_of_decode {g : UInt8} {p ns coll : Bytes} {blkNum : UInt64}
    (hns : nilByte ∉ ns) (hcoll : nilByte ∉ coll)
    (h : decodeReverseOrderVarUint64 (p ++ (ns ++ nilByte :: coll)) = some (blkNum, p.length)) :
    decodeElgMissingDataKey (g :: (p ++ (ns ++ nilByte :: coll))) = some ⟨⟨ns, coll, blkNum⟩⟩ := by
  rw [decodeElgMissingDataKey, h]
  dsimp only
  rw [List.drop_left, splitOn_nilByte hns hcoll]

theorem decodeElgMissingDataKey_elgMissingDataKey (group : Bytes) (hgroup : group.length = 1)
    {key : MissingDataKey} (hns : nilByte ∉ key.ns) (hcoll : nilByte ∉ key.coll) :
    decodeElgMissingDataKey (elgMissingDataKey group key) = some key := by
  obtain ⟨g, rfl⟩ : ∃ g, group = [g] := List.length_eq_one_iff.mp hgroup
  rw [elgMissingDataKey, List.append_assoc, List.append_assoc, List.append_assoc,
    List.singleton_append, List.singleton_append]
  exact decodeElgMissingDataKey_of_decode hns hcoll
    (decodeReverseOrderVarUint64_encode_append key.blkNum _)

/-- `bytes.SplitN` into three around the two nil bytes after the names. -/
theorem splitN_three {ns coll : Bytes} (hns : nilByte ∉ ns) (hcoll : nilByte ∉ coll)
    (rest : Bytes) :
    splitN nilByte 3 (ns ++ nilByte :: (coll ++ nilByte :: rest)) = [ns, coll, rest] := by
  obtain ⟨hfind, htake, hdrop⟩ := split_at_nilByte hns (coll ++ nilByte :: rest)
  obtain ⟨hfind', htake', hdrop'⟩ := split_at_nilByte hcoll rest
  simp only [splitN, hfind, htake, hdrop, hfind', htake', hdrop']

theorem decodeInelgMissingDataKey_of_decode {g : UInt8} {ns coll p : Bytes} {blkNum : UInt64}
    {n : Nat} (hns : nilByte ∉ ns) (hcoll : nilByte ∉ coll)
    (h : decodeReverseOrderVarUint64 p = some (blkNum, n)) :
    decodeInelgMissingDataKey (g :: (ns ++ nilByte :: (coll ++ nilByte :: p))) =
      some ⟨⟨ns, coll, blkNum⟩⟩ := by
  rw [decodeInelgMissingDataKey, splitN_three hns hcoll]
  dsimp only
  rw [h]
  rfl

theorem decodeInelgMissingDataKey_encodeInelgMissingDataKey {key : MissingDataKey}
    (hns : nilByte ∉ key.ns) (hcoll : nilByte ∉ key.coll) :
    decodeInelgMissingDataKey (encodeInelgMissingDataKey key) = some key := by
  have hdec := decodeReverseOrderVarUint64_encode_append key.blkNum []
  rw [List.append_nil] at hdec
  rw [encodeInelgMissingDataKey, inelgMissingDataGroup, List.append_assoc, List.append_assoc,
    List.append_assoc, List.append_assoc, List.singleton_append, List.singleton_append,
    List.singleton_append]
  exact decodeInelgMissingDataKey_of_decode hns hcoll hdec

theorem decodeCollElgKey_encodeCollElgKey (blkNum : UInt64) :
    decodeCollElgKey (encodeCollElgKey blkNum) = some blkNum := by
  have hdec := decodeReverseOrderVarUint64_encode_append blkNum []
  rw [List.append_nil] at hdec
  rw [encodeCollElgKey, collElgKeyPrefix, List.singleton_append, decodeCollElgKey, hdec]
  rfl

/-- Over bytes that are not nil, the loop only counts. -/
theorem nilByteIndices_append {a : Bytes} (ha : nilByte ∉ a) (i : Nat) (first : Option Nat)
    (rest : Bytes) :
    nilByteIndices i first (a ++ rest) = nilByteIndices (i + a.length) first rest := by
  induction a generalizing i with
  | nil => rfl
  | cons b a ih =>
    have hb : b ≠ nilByte := fun h => ha (h ▸ List.mem_cons_self)
    simp only [List.cons_append, nilByteIndices, beq_iff_eq, hb, if_false,
      ih (fun h => ha (List.mem_cons_of_mem _ h)), List.length_cons]
    congr 1
    omega

/-- A hashed index key's layout, with names without nil bytes and a hash of 32 bytes: the data
    key is the height after the hash, then the names. -/
theorem deriveDataKeyFromEncodedHashedIndexKey_layout {ns coll keyHash height : Bytes}
    (hns : nilByte ∉ ns) (hcoll : nilByte ∉ coll) (hhash : keyHash.length = 32) :
    deriveDataKeyFromEncodedHashedIndexKey
        (0x62 :: (ns ++ nilByte :: (coll ++ nilByte :: (keyHash ++ height)))) =
      .ok (pvtDataKeyPrefix ++ height ++ ns ++ [nilByte] ++ coll) := by
  have h62 : nilByte ∉ 0x62 :: ns := by simpa [nilByte] using hns
  have hidx : nilByteIndices 0 none
      (0x62 :: (ns ++ nilByte :: (coll ++ nilByte :: (keyHash ++ height)))) =
        (1 + ns.length, 1 + ns.length + 1 + coll.length) := by
    rw [← List.cons_append, nilByteIndices_append h62]
    simp only [nilByteIndices, beq_self_eq_true, if_true]
    rw [nilByteIndices_append hcoll]
    simp only [nilByteIndices, beq_self_eq_true, if_true, List.length_cons, Prod.mk.injEq]
    omega
  -- the three slices: the namespace, the collection and the height
  have hns' : ((0x62 :: (ns ++ nilByte :: (coll ++ nilByte :: (keyHash ++ height)))).take
      (1 + ns.length)).drop 1 = ns := by
    rw [← List.cons_append, List.take_left' (by simp; omega)]
    rfl
  have hcoll' : ((0x62 :: (ns ++ nilByte :: (coll ++ nilByte :: (keyHash ++ height)))).take
      (1 + ns.length + 1 + coll.length)).drop (1 + ns.length + 1) = coll := by
    rw [show 0x62 :: (ns ++ nilByte :: (coll ++ nilByte :: (keyHash ++ height))) =
        ((0x62 :: ns ++ [nilByte]) ++ coll) ++ nilByte :: (keyHash ++ height) by simp,
      List.take_left' (by simp; omega), List.drop_left' (by simp; omega)]
  have hheight : (0x62 :: (ns ++ nilByte :: (coll ++ nilByte :: (keyHash ++ height)))).drop
      (1 + ns.length + 1 + coll.length + 32 + 1) = height := by
    rw [show 0x62 :: (ns ++ nilByte :: (coll ++ nilByte :: (keyHash ++ height))) =
        (0x62 :: ns ++ nilByte :: coll ++ nilByte :: keyHash) ++ height by simp,
      List.drop_left' (by simp; omega)]
  simp only [deriveDataKeyFromEncodedHashedIndexKey, hidx]
  rw [if_neg (by omega), if_neg (by simp; omega), hns', hcoll', hheight]

theorem deriveDataKeyFromEncodedHashedIndexKey_encodeHashedIndexKey {k : HashedIndexKey}
    (hns : nilByte ∉ k.ns) (hcoll : nilByte ∉ k.coll) (hhash : k.pvtkeyHash.length = 32) :
    deriveDataKeyFromEncodedHashedIndexKey (encodeHashedIndexKey k) =
      .ok (encodeDataKey ⟨⟨k.ns, k.coll, k.blkNum⟩, k.txNum⟩) := by
  have h := @deriveDataKeyFromEncodedHashedIndexKey_layout _ _ _ (heightBytes k.blkNum k.txNum)
    hns hcoll hhash
  rw [encodeHashedIndexKey, hashedIndexKeyPrefix, encodeDataKey, heightNsCollKey]
  simpa only [List.append_assoc, List.singleton_append, List.cons_append, List.nil_append] using h

/-! ## What the range scans select -/

/-- The byte a key of each kind starts with. -/
def StoreKey.kindByte : StoreKey → UInt8
  | .pendingCommit => 0
  | .lastCommittedBlk => 1
  | .lastUpdatedOldBlocks => 7
  | .lastBlockInBootSnapshot => 0x61
  | .data _ => 2
  | .expiry _ => 3
  | .elgPrioMissingData _ => 4
  | .elgDeprioMissingData _ => 8
  | .inelgMissingData _ => 5
  | .collElg _ => 6
  | .bootKVHashes _ => 9
  | .hashedIndex _ => 0x62
  | .purgeMarker _ => 0x63
  | .purgeMarkerColl _ => 0x64
  | .purgeMarkerForRecon _ => 0x65

theorem StoreKey.head?_encode (key : StoreKey) : key.encode.head? = some key.kindByte := by
  cases key <;>
    simp only [StoreKey.encode, StoreKey.kindByte, pendingCommitKey, lastCommittedBlkkey,
      lastUpdatedOldBlocksKey, lastBlockInBootSnapshotKey, encodeDataKey, encodeExpiryKey,
      encodeElgPrioMissingDataKey, encodeElgDeprioMissingDataKey, elgMissingDataKey,
      encodeInelgMissingDataKey, encodeCollElgKey, encodeBootKVHashesKey, heightNsCollKey,
      encodeHashedIndexKey, encodePurgeMarkerKey, encodePurgeMarkerCollKey,
      encodePurgeMarkerForReconKey, purgeMarkerLayout, pvtDataKeyPrefix, expiryKeyPrefix,
      elgPrioritizedMissingDataGroup, elgDeprioritizedMissingDataGroup, inelgMissingDataGroup,
      collElgKeyPrefix, bootKVHashesKeyPrefix, hashedIndexKeyPrefix, purgeMarkerKeyPrefix,
      purgeMarkerCollKeyPrefix, purgeMarkerForReconKeyPrefix, List.head?_append,
      List.head?_cons, Option.some_or]

theorem StoreKey.encode_eq_cons (key : StoreKey) : ∃ t, key.encode = key.kindByte :: t := by
  have h := key.head?_encode
  cases hk : key.encode with
  | nil => simp [hk] at h
  | cons c t =>
    rw [hk, List.head?_cons, Option.some.injEq] at h
    exact ⟨t, h ▸ rfl⟩

theorem not_inRange_of_kindByte_ne {key : StoreKey} {c : UInt8} {x y : Bytes}
    (h : key.kindByte ≠ c) : ¬ InRange (c :: x) (some (c :: y)) key.encode := by
  obtain ⟨t, ht⟩ := key.encode_eq_cons
  rw [inRange_some_iff, ht, cons_le_and_lt_cons_iff]
  exact fun h' => h h'.1

/-- Followed by anything, a height is below the height `(b', 0)` when its block is. -/
theorem heightBytes_append_lt_heightBytes_iff (b t b' : UInt64) (rest : Bytes) :
    heightBytes b t ++ rest < heightBytes b' 0 ↔ b < b' := by
  rw [heightBytes_eq, heightBytes_eq, List.append_assoc,
    ← List.append_nil (encodeOrderPreservingVarUint64 0), encode_append_lt_iff,
    encode_append_lt_iff]
  simp [UInt64.not_lt_zero, List.not_lt_nil]

theorem heightBytes_le_heightBytes_append_iff (b' b t : UInt64) (rest : Bytes) :
    heightBytes b' 0 ≤ heightBytes b t ++ rest ↔ b' ≤ b := by
  rw [← List.not_lt, heightBytes_append_lt_heightBytes_iff, UInt64.not_lt]

theorem lt_add_one_iff_le {a b : UInt64} (hb : b ≠ maxUint64) : a < b + 1 ↔ a ≤ b := by
  have hb' : b.toNat ≠ 2 ^ 64 - 1 := fun h => hb (UInt64.toNat_inj.mp (by rw [h]; rfl))
  have := b.toNat_lt
  rw [UInt64.lt_iff_toNat_lt, UInt64.le_iff_toNat_le, UInt64.toNat_add]
  simp
  omega

/-- The data keys of block `blockNum`, below the largest block number. -/
theorem inRange_getDataKeysForRangeScanByBlockNum {blockNum : UInt64} (hb : blockNum ≠ maxUint64)
    (key : StoreKey) :
    InRange (getDataKeysForRangeScanByBlockNum blockNum).1
        (some (getDataKeysForRangeScanByBlockNum blockNum).2) key.encode ↔
      ∃ k, key = .data k ∧ k.blkNum = blockNum := by
  simp only [getDataKeysForRangeScanByBlockNum, pvtDataKeyPrefix, List.singleton_append]
  by_cases hkind : key.kindByte = 2
  · obtain ⟨k, rfl⟩ : ∃ k, key = .data k := by
      cases key <;> first | exact ⟨_, rfl⟩ | simp [StoreKey.kindByte] at hkind
    have henc : (StoreKey.data k).encode =
        2 :: (heightBytes k.blkNum k.txNum ++ (k.ns ++ nilByte :: k.coll)) := by
      simp [StoreKey.encode, encodeDataKey, heightNsCollKey, pvtDataKeyPrefix]
    rw [inRange_some_iff, henc, cons_le_and_lt_cons_iff, heightBytes_le_heightBytes_append_iff,
      heightBytes_append_lt_heightBytes_iff, lt_add_one_iff_le hb]
    simp only [true_and, StoreKey.data.injEq, exists_eq_left']
    exact ⟨fun h => UInt64.le_antisymm h.2 h.1, fun h => ⟨h ▸ UInt64.le_refl _, h ▸ UInt64.le_refl _⟩⟩
  · refine iff_of_false (not_inRange_of_kindByte_ne hkind) ?_
    rintro ⟨k, rfl, -⟩
    exact hkind rfl

/-- The expiry keys of the blocks from `minBlkNum` to `maxBlkNum`, the largest block number
    left out. -/
theorem inRange_getExpiryKeysForRangeScan {minBlkNum maxBlkNum : UInt64}
    (hmax : maxBlkNum ≠ maxUint64) (key : StoreKey) :
    InRange (getExpiryKeysForRangeScan minBlkNum maxBlkNum).1
        (some (getExpiryKeysForRangeScan minBlkNum maxBlkNum).2) key.encode ↔
      ∃ e, key = .expiry e ∧ minBlkNum ≤ e.expiringBlk ∧ e.expiringBlk ≤ maxBlkNum := by
  simp only [getExpiryKeysForRangeScan, expiryKeyPrefix, List.singleton_append]
  by_cases hkind : key.kindByte = 3
  · obtain ⟨e, rfl⟩ : ∃ e, key = .expiry e := by
      cases key <;> first | exact ⟨_, rfl⟩ | simp [StoreKey.kindByte] at hkind
    have henc : (StoreKey.expiry e).encode =
        3 :: (heightBytes e.expiringBlk e.committingBlk ++ []) := by
      simp [StoreKey.encode, encodeExpiryKey, expiryKeyPrefix]
    rw [inRange_some_iff, henc, cons_le_and_lt_cons_iff, heightBytes_le_heightBytes_append_iff,
      heightBytes_append_lt_heightBytes_iff, lt_add_one_iff_le hmax]
    simp
  · refine iff_of_false (not_inRange_of_kindByte_ne hkind) ?_
    rintro ⟨e, rfl, -⟩
    exact hkind rfl

/-- Followed by anything, a block number's reverse-order encoding is below that of `0` when the
    number is not `0`, and at least that of `b` when the number is at most `b`. -/
theorem encodeReverseOrderVarUint64_append_lt_zero_iff (b : UInt64) (rest : Bytes) :
    encodeReverseOrderVarUint64 b ++ rest < encodeReverseOrderVarUint64 0 ↔ 0 < b := by
  have h := encodeReverseOrderVarUint64_append_lt_iff b 0 rest []
  rw [List.append_nil] at h
  rw [h]
  simp [List.not_lt_nil]

theorem encodeReverseOrderVarUint64_le_append_iff (b' b : UInt64) (rest : Bytes) :
    encodeReverseOrderVarUint64 b' ≤ encodeReverseOrderVarUint64 b ++ rest ↔ b ≤ b' := by
  have h := encodeReverseOrderVarUint64_append_lt_iff b b' rest []
  rw [List.append_nil] at h
  rw [← List.not_lt, h]
  simp [List.not_lt_nil, UInt64.not_lt]

/-- An eligible missing data key of a group: the group byte and the rest of the layout. -/
theorem elgMissingDataKey_eq (g : UInt8) (key : MissingDataKey) :
    elgMissingDataKey [g] key =
      g :: (encodeReverseOrderVarUint64 key.blkNum ++ (key.ns ++ nilByte :: key.coll)) := by
  rw [elgMissingDataKey, List.append_assoc, List.append_assoc, List.append_assoc,
    List.singleton_append, List.singleton_append]

/-- The range scan of a group of eligible missing data keys: the keys of the group whose block
    number is from `1` to `blkNum`. -/
theorem inRange_createRangeScanKeysForElgMissingData {g : UInt8} {mk : MissingDataKey → StoreKey}
    (hmk : ∀ k, (mk k).encode = elgMissingDataKey [g] k)
    (hkind : ∀ key : StoreKey, key.kindByte = g → ∃ k, key = mk k)
    (hmk_inj : ∀ k k', mk k = mk k' → k = k') (blkNum : UInt64) (key : StoreKey) :
    InRange (createRangeScanKeysForElgMissingData blkNum [g]).1
        (some (createRangeScanKeysForElgMissingData blkNum [g]).2) key.encode ↔
      ∃ k, key = mk k ∧ 0 < k.blkNum ∧ k.blkNum ≤ blkNum := by
  simp only [createRangeScanKeysForElgMissingData, List.singleton_append]
  by_cases hg : key.kindByte = g
  · obtain ⟨k, rfl⟩ := hkind key hg
    rw [inRange_some_iff, hmk, elgMissingDataKey_eq, cons_le_and_lt_cons_iff,
      encodeReverseOrderVarUint64_le_append_iff, encodeReverseOrderVarUint64_append_lt_zero_iff]
    constructor
    · rintro ⟨-, hle, hpos⟩
      exact ⟨k, rfl, hpos, hle⟩
    · rintro ⟨k', hk', hpos, hle⟩
      obtain rfl := hmk_inj _ _ hk'
      exact ⟨rfl, hle, hpos⟩
  · refine iff_of_false (not_inRange_of_kindByte_ne hg) ?_
    rintro ⟨k, rfl, -⟩
    obtain ⟨t, ht⟩ := (mk k).encode_eq_cons
    rw [hmk, elgMissingDataKey_eq] at ht
    exact hg (List.cons.inj ht).1.symm

/-- Keys of one group sort by decreasing block number. -/
theorem blkNum_le_of_elgMissingDataKey_lt {g : UInt8} {k k' : MissingDataKey}
    (h : elgMissingDataKey [g] k < elgMissingDataKey [g] k') : k'.blkNum ≤ k.blkNum := by
  rw [elgMissingDataKey_eq, elgMissingDataKey_eq, List.cons_lt_cons_iff] at h
  rcases h with h | ⟨-, h⟩
  · exact absurd h (UInt8.lt_irrefl g)
  · rcases (encodeReverseOrderVarUint64_append_lt_iff _ _ _ _).mp h with h | ⟨h, -⟩
    · exact UInt64.le_of_lt h
    · exact h ▸ UInt64.le_refl _

theorem encodeHashedIndexKey_eq (k : HashedIndexKey) :
    encodeHashedIndexKey k = 0x62 :: ((k.ns ++ nilByte :: (k.coll ++ nilByte :: k.pvtkeyHash)) ++
      heightBytes k.blkNum k.txNum) := by
  simp [encodeHashedIndexKey, hashedIndexKeyPrefix]

/-- Names without nil bytes and hashes of one length, one layout a prefix of the other with
    something after: the names and the hashes are the same. -/
theorem names_eq_of_prefix {ns coll keyHash ns' coll' keyHash' rest : Bytes}
    (hns : nilByte ∉ ns) (hcoll : nilByte ∉ coll) (hns' : nilByte ∉ ns') (hcoll' : nilByte ∉ coll')
    (hhash : keyHash.length = keyHash'.length)
    (h : ns ++ nilByte :: (coll ++ nilByte :: keyHash) <+:
      ns' ++ nilByte :: (coll' ++ nilByte :: keyHash') ++ rest) :
    ns = ns' ∧ coll = coll' ∧ keyHash = keyHash' := by
  obtain ⟨u, hu⟩ := h
  simp only [List.append_assoc, List.cons_append] at hu
  obtain ⟨rfl, hcolls⟩ := List.append_cons_inj_of_not_mem hns hns' hu
  obtain ⟨rfl, hhashes⟩ := List.append_cons_inj_of_not_mem hcoll hcoll' hcolls
  exact ⟨rfl, rfl, (List.append_inj hhashes hhash).1⟩

theorem lt_maxUint64_iff {a : UInt64} : a < maxUint64 ↔ a ≠ maxUint64 := by
  have := a.toNat_lt
  rw [UInt64.lt_iff_toNat_lt, Ne, ← UInt64.toNat_inj]
  simp [maxUint64]
  omega

/-- A range from the names and key hash of hashed index keys, followed by at most the least
    height, up to a height: the well-formed keys of those names and key hash below the height. -/
theorem inRange_hashedIndex_iff {ns coll keyHash s : Bytes} (hns : nilByte ∉ ns)
    (hcoll : nilByte ∉ coll) (hhash : keyHash.length = 32) (hs : ∀ b t, s ≤ heightBytes b t)
    (b t : UInt64) (key : StoreKey) (hkey : key.WellFormed) :
    InRange (0x62 :: ((ns ++ nilByte :: (coll ++ nilByte :: keyHash)) ++ s))
        (some (0x62 :: ((ns ++ nilByte :: (coll ++ nilByte :: keyHash)) ++ heightBytes b t)))
        key.encode ↔
      ∃ k, key = .hashedIndex k ∧ k.ns = ns ∧ k.coll = coll ∧ k.pvtkeyHash = keyHash ∧
        Prod.lexLt (k.blkNum, k.txNum) (b, t) := by
  by_cases hkind : key.kindByte = 0x62
  · obtain ⟨k, rfl⟩ : ∃ k, key = .hashedIndex k := by
      cases key <;> first | exact ⟨_, rfl⟩ | simp [StoreKey.kindByte] at hkind
    obtain ⟨hns', hcoll', hhash'⟩ := hkey
    rw [inRange_some_iff, StoreKey.encode, encodeHashedIndexKey_eq, cons_le_and_lt_cons_iff]
    have hhigh : heightBytes k.blkNum k.txNum < heightBytes b t ↔
        Prod.lexLt (k.blkNum, k.txNum) (b, t) := by
      rw [heightBytes_eq, heightBytes_eq, encode_pair_lt_iff]
    constructor
    · rintro ⟨-, hle, hlt⟩
      -- the key lies between two extensions of the names, so it extends them too
      obtain ⟨rfl, rfl, rfl⟩ := names_eq_of_prefix hns hcoll hns' hcoll' (by rw [hhash, hhash'])
        (List.prefix_of_le_of_lt hle hlt)
      exact ⟨k, rfl, rfl, rfl, rfl, hhigh.mp (List.append_left_lt_iff.mp hlt)⟩
    · rintro ⟨k', hk', rfl, rfl, rfl, hlt⟩
      obtain rfl := StoreKey.hashedIndex.inj hk'
      exact ⟨rfl, List.append_left_le_iff.mpr (hs _ _), List.append_left_lt_iff.mpr (hhigh.mpr hlt)⟩
  · refine iff_of_false (not_inRange_of_kindByte_ne hkind) ?_
    rintro ⟨k, rfl, -⟩
    exact hkind rfl

/-- The range scan of a key hash's hashed index keys: the well-formed keys of that namespace,
    collection and key hash, but for the one at the largest height. -/
theorem inRange_rangeScanKeysForHashedIndexKey {ns coll keyHash : Bytes} (hns : nilByte ∉ ns)
    (hcoll : nilByte ∉ coll) (hhash : keyHash.length = 32) (key : StoreKey)
    (hkey : key.WellFormed) :
    InRange (rangeScanKeysForHashedIndexKey ns coll keyHash).1
        (some (rangeScanKeysForHashedIndexKey ns coll keyHash).2) key.encode ↔
      ∃ k, key = .hashedIndex k ∧ k.ns = ns ∧ k.coll = coll ∧ k.pvtkeyHash = keyHash ∧
        (k.blkNum, k.txNum) ≠ (maxUint64, maxUint64) := by
  -- the least height starts the range, and below the largest height is every other one
  have hlow : ∀ b t, heightBytes 0 0 ≤ heightBytes b t := by
    intro b t
    rw [← List.not_lt, heightBytes_eq, heightBytes_eq, encode_pair_lt_iff, Prod.lexLt]
    simp [UInt64.not_lt_zero]
  have hhigh : ∀ b t : UInt64, Prod.lexLt (b, t) (maxUint64, maxUint64) ↔
      (b, t) ≠ (maxUint64, maxUint64) := by
    intro b t
    rw [Prod.lexLt, lt_maxUint64_iff, lt_maxUint64_iff]
    by_cases hb : b = maxUint64 <;> simp [hb]
  simp only [rangeScanKeysForHashedIndexKey, encodeHashedIndexKey_eq]
  rw [inRange_hashedIndex_iff hns hcoll hhash hlow _ _ key hkey]
  simp only [hhigh]

/-- The range of the purge markers: every purge marker key, and no other key. -/
theorem inRange_rangeScanKeysForPurgeMarkers (key : StoreKey) :
    InRange rangeScanKeysForPurgeMarkers.1 (some rangeScanKeysForPurgeMarkers.2) key.encode ↔
      ∃ k, key = .purgeMarker k := by
  obtain ⟨t, ht⟩ := key.encode_eq_cons
  -- the range holds the keys of first byte `0x63`
  have hfirst : [(0x63 : UInt8)] ≤ key.kindByte :: t ∧ key.kindByte :: t < [0x63 + 1] ↔
      key.kindByte = 0x63 := by
    rw [← List.not_lt, List.cons_lt_cons_iff, List.cons_lt_cons_iff]
    simp only [List.not_lt_nil, and_false, or_false]
    rw [UInt8.lt_iff_toNat_lt, UInt8.lt_iff_toNat_lt, ← UInt8.toNat_inj]
    simp
    omega
  rw [inRange_some_iff, ht]
  simp only [rangeScanKeysForPurgeMarkers, purgeMarkerKeyPrefix, List.get_eq_getElem,
    List.getElem_cons_zero, hfirst]
  constructor
  · intro h
    cases key <;> first | exact ⟨_, rfl⟩ | simp [StoreKey.kindByte] at h
  · rintro ⟨k, rfl⟩
    rfl

/-- A purge marker's value decodes to its height, and its range ends at the height one
    transaction later. -/
theorem driveHashedIndexKeyRangeFromPurgeMarker_encode (k : PurgeMarkerKey) (v : PurgeMarkerVal) :
    driveHashedIndexKeyRangeFromPurgeMarker (encodePurgeMarkerKey k) (encodePurgeMarkerVal v) =
      .ok (0x62 :: ((k.ns ++ nilByte :: (k.coll ++ nilByte :: k.pvtkeyHash)) ++ []),
        0x62 :: ((k.ns ++ nilByte :: (k.coll ++ nilByte :: k.pvtkeyHash)) ++
          heightBytes v.blkNum (v.txNum + 1))) := by
  have hdec : decodePurgeMarkerVal (encodePurgeMarkerVal v) =
      .ok (newHeight v.blkNum.toNat v.txNum.toNat) := by
    have h := newHeightFromBytes_heightBytes_append v.blkNum v.txNum []
    rw [List.append_nil] at h
    simp [decodePurgeMarkerVal, encodePurgeMarkerVal, h]
  -- `TxNum + 1` taken back to a `uint64` is the `uint64` sum
  have hend : (⟨v.blkNum.toNat, v.txNum.toNat + 1⟩ : Height).toBytes =
      heightBytes v.blkNum (v.txNum + 1) := by
    have htx : (v.txNum.toNat + 1).toUInt64 = v.txNum + 1 :=
      (UInt64.ofNat_eq_iff_mod_eq_toNat _ _).mpr rfl
    rw [heightBytes, newHeight, Height.toBytes, Height.toBytes]
    dsimp only
    rw [htx]
    congr 2
    exact UInt64.ofNat_toNat.symm
  simp [driveHashedIndexKeyRangeFromPurgeMarker, encodePurgeMarkerKey, purgeMarkerLayout,
    purgeMarkerKeyPrefix, hashedIndexKeyPrefix, hdec, newHeight, hend]

/-- The range a purge marker drives, for a transaction number below the largest: the
    well-formed hashed index keys of its namespace, collection and key hash at heights up to
    the marker's, the purge's own transaction included. -/
theorem inRange_driveHashedIndexKeyRangeFromPurgeMarker {k : PurgeMarkerKey}
    (hns : nilByte ∉ k.ns) (hcoll : nilByte ∉ k.coll) (hhash : k.pvtkeyHash.length = 32)
    {v : PurgeMarkerVal} (htx : v.txNum ≠ maxUint64) :
    ∃ startKey endKey, driveHashedIndexKeyRangeFromPurgeMarker (encodePurgeMarkerKey k)
        (encodePurgeMarkerVal v) = .ok (startKey, endKey) ∧
      ∀ key : StoreKey, key.WellFormed → (InRange startKey (some endKey) key.encode ↔
        ∃ h, key = .hashedIndex h ∧ h.ns = k.ns ∧ h.coll = k.coll ∧
          h.pvtkeyHash = k.pvtkeyHash ∧
          (h.blkNum < v.blkNum ∨ h.blkNum = v.blkNum ∧ h.txNum ≤ v.txNum)) := by
  refine ⟨_, _, driveHashedIndexKeyRangeFromPurgeMarker_encode k v, fun key hkey => ?_⟩
  rw [inRange_hashedIndex_iff hns hcoll hhash (fun _ _ => List.nil_le _) _ _ key hkey]
  simp only [Prod.lexLt, lt_add_one_iff_le htx]

theorem encode_elgPrioMissingData (k : MissingDataKey) :
    (StoreKey.elgPrioMissingData k).encode = elgMissingDataKey [4] k := rfl

theorem encode_elgDeprioMissingData (k : MissingDataKey) :
    (StoreKey.elgDeprioMissingData k).encode = elgMissingDataKey [8] k := rfl

theorem eq_elgPrioMissingData_of_kindByte {key : StoreKey} (h : key.kindByte = 4) :
    ∃ k, key = .elgPrioMissingData k := by
  cases key <;> first | exact ⟨_, rfl⟩ | simp [StoreKey.kindByte] at h

theorem eq_elgDeprioMissingData_of_kindByte {key : StoreKey} (h : key.kindByte = 8) :
    ∃ k, key = .elgDeprioMissingData k := by
  cases key <;> first | exact ⟨_, rfl⟩ | simp [StoreKey.kindByte] at h

/-- The key layouts of the private data store, for names without nil bytes and key hashes of
    32 bytes: each decoder reads back its key, a hashed index key gives the data key of its
    height, and each range scan selects, among all the keys of the store, the keys it is for,
    the eligible missing data keys by decreasing block number; the range of one block's data
    keys and the expiry range need a last block below the largest block number, a key hash's
    range leaves out the largest height, and the range a purge marker drives needs a
    transaction number below the largest. -/
theorem pvtDataKeys_spec :
    (∀ key : DataKey, nilByte ∉ key.ns → nilByte ∉ key.coll →
        decodeDatakey (encodeDataKey key) = .ok key) ∧
      (∀ e : ExpiryKey, decodeExpiryKey (encodeExpiryKey e) = .ok e) ∧
      (∀ m : MissingDataKey, nilByte ∉ m.ns → nilByte ∉ m.coll →
        decodeElgMissingDataKey (encodeElgPrioMissingDataKey m) = some m ∧
          decodeElgMissingDataKey (encodeElgDeprioMissingDataKey m) = some m ∧
          decodeInelgMissingDataKey (encodeInelgMissingDataKey m) = some m) ∧
      (∀ blkNum : UInt64, decodeCollElgKey (encodeCollElgKey blkNum) = some blkNum) ∧
      (∀ h : HashedIndexKey, nilByte ∉ h.ns → nilByte ∉ h.coll → h.pvtkeyHash.length = 32 →
        deriveDataKeyFromEncodedHashedIndexKey (encodeHashedIndexKey h) =
          .ok (encodeDataKey ⟨⟨h.ns, h.coll, h.blkNum⟩, h.txNum⟩)) ∧
      (∀ blockNum : UInt64, blockNum ≠ maxUint64 → ∀ key : StoreKey,
        InRange (getDataKeysForRangeScanByBlockNum blockNum).1
            (some (getDataKeysForRangeScanByBlockNum blockNum).2) key.encode ↔
          ∃ k, key = .data k ∧ k.blkNum = blockNum) ∧
      (∀ minBlkNum maxBlkNum : UInt64, maxBlkNum ≠ maxUint64 → ∀ key : StoreKey,
        InRange (getExpiryKeysForRangeScan minBlkNum maxBlkNum).1
            (some (getExpiryKeysForRangeScan minBlkNum maxBlkNum).2) key.encode ↔
          ∃ e, key = .expiry e ∧ minBlkNum ≤ e.expiringBlk ∧ e.expiringBlk ≤ maxBlkNum) ∧
      (∀ (blkNum : UInt64) (key : StoreKey),
        InRange (createRangeScanKeysForElgMissingData blkNum elgPrioritizedMissingDataGroup).1
            (some (createRangeScanKeysForElgMissingData blkNum elgPrioritizedMissingDataGroup).2)
            key.encode ↔
          ∃ m, key = .elgPrioMissingData m ∧ 0 < m.blkNum ∧ m.blkNum ≤ blkNum) ∧
      (∀ (blkNum : UInt64) (key : StoreKey),
        InRange (createRangeScanKeysForElgMissingData blkNum elgDeprioritizedMissingDataGroup).1
            (some (createRangeScanKeysForElgMissingData blkNum elgDeprioritizedMissingDataGroup).2)
            key.encode ↔
          ∃ m, key = .elgDeprioMissingData m ∧ 0 < m.blkNum ∧ m.blkNum ≤ blkNum) ∧
      (∀ m m' : MissingDataKey, encodeElgPrioMissingDataKey m < encodeElgPrioMissingDataKey m' →
        m'.blkNum ≤ m.blkNum) ∧
      (∀ m m' : MissingDataKey,
        encodeElgDeprioMissingDataKey m < encodeElgDeprioMissingDataKey m' →
          m'.blkNum ≤ m.blkNum) ∧
      (∀ ns coll keyHash : Bytes, nilByte ∉ ns → nilByte ∉ coll → keyHash.length = 32 →
        ∀ key : StoreKey, key.WellFormed →
          (InRange (rangeScanKeysForHashedIndexKey ns coll keyHash).1
              (some (rangeScanKeysForHashedIndexKey ns coll keyHash).2) key.encode ↔
            ∃ k, key = .hashedIndex k ∧ k.ns = ns ∧ k.coll = coll ∧ k.pvtkeyHash = keyHash ∧
              (k.blkNum, k.txNum) ≠ (maxUint64, maxUint64))) ∧
      (∀ key : StoreKey,
        InRange rangeScanKeysForPurgeMarkers.1 (some rangeScanKeysForPurgeMarkers.2) key.encode ↔
          ∃ k, key = .purgeMarker k) ∧
      ∀ k : PurgeMarkerKey, nilByte ∉ k.ns → nilByte ∉ k.coll → k.pvtkeyHash.length = 32 →
        ∀ v : PurgeMarkerVal, v.txNum ≠ maxUint64 →
          ∃ startKey endKey, driveHashedIndexKeyRangeFromPurgeMarker (encodePurgeMarkerKey k)
              (encodePurgeMarkerVal v) = .ok (startKey, endKey) ∧
            ∀ key : StoreKey, key.WellFormed → (InRange startKey (some endKey) key.encode ↔
              ∃ h, key = .hashedIndex h ∧ h.ns = k.ns ∧ h.coll = k.coll ∧
                h.pvtkeyHash = k.pvtkeyHash ∧
                (h.blkNum < v.blkNum ∨ h.blkNum = v.blkNum ∧ h.txNum ≤ v.txNum)) := by
  refine ⟨fun key hns _ => decodeDatakey_encodeDataKey hns, decodeExpiryKey_encodeExpiryKey,
    fun m hns hcoll => ⟨?_, ?_, decodeInelgMissingDataKey_encodeInelgMissingDataKey hns hcoll⟩,
    decodeCollElgKey_encodeCollElgKey,
    fun h hns hcoll hhash => deriveDataKeyFromEncodedHashedIndexKey_encodeHashedIndexKey hns hcoll
      hhash,
    fun _ hb => inRange_getDataKeysForRangeScanByBlockNum hb,
    fun _ _ hmax => inRange_getExpiryKeysForRangeScan hmax,
    inRange_createRangeScanKeysForElgMissingData encode_elgPrioMissingData
      (fun _ => eq_elgPrioMissingData_of_kindByte) (fun _ _ => StoreKey.elgPrioMissingData.inj),
    inRange_createRangeScanKeysForElgMissingData encode_elgDeprioMissingData
      (fun _ => eq_elgDeprioMissingData_of_kindByte) (fun _ _ => StoreKey.elgDeprioMissingData.inj),
    fun _ _ h => blkNum_le_of_elgMissingDataKey_lt h, fun _ _ h => blkNum_le_of_elgMissingDataKey_lt h,
    fun _ _ _ hns hcoll hhash => inRange_rangeScanKeysForHashedIndexKey hns hcoll hhash,
    inRange_rangeScanKeysForPurgeMarkers,
    fun _ hns hcoll hhash _ htx => inRange_driveHashedIndexKeyRangeFromPurgeMarker hns hcoll hhash htx⟩
  · exact decodeElgMissingDataKey_elgMissingDataKey _ rfl hns hcoll
  · exact decodeElgMissingDataKey_elgMissingDataKey _ rfl hns hcoll

/-- The data key of the largest block number is outside the range of its block, the expiry
    key of the largest block outside a range up to it, the hashed index key at the largest
    height outside the range of its key hash, and a purge marker at the largest transaction
    number drives a range without the hashed index key of its own height. -/
theorem pvtDataKeys_range_largest :
    ¬ InRange (getDataKeysForRangeScanByBlockNum maxUint64).1
        (some (getDataKeysForRangeScanByBlockNum maxUint64).2)
        (StoreKey.data ⟨⟨[0x6e], [0x63], maxUint64⟩, 0⟩).encode ∧
      ¬ InRange (getExpiryKeysForRangeScan 0 maxUint64).1
        (some (getExpiryKeysForRangeScan 0 maxUint64).2)
        (StoreKey.expiry ⟨maxUint64, 0⟩).encode ∧
      ¬ InRange (rangeScanKeysForHashedIndexKey [0x6e] [0x63] (List.replicate 32 0)).1
        (some (rangeScanKeysForHashedIndexKey [0x6e] [0x63] (List.replicate 32 0)).2)
        (StoreKey.hashedIndex ⟨[0x6e], [0x63], List.replicate 32 0, maxUint64, maxUint64⟩).encode ∧
      ∃ startKey endKey, driveHashedIndexKeyRangeFromPurgeMarker
          (encodePurgeMarkerKey ⟨[0x6e], [0x63], List.replicate 32 0⟩)
          (encodePurgeMarkerVal ⟨0, maxUint64⟩) = .ok (startKey, endKey) ∧
        ¬ InRange startKey (some endKey)
          (StoreKey.hashedIndex ⟨[0x6e], [0x63], List.replicate 32 0, 0, maxUint64⟩).encode := by
  -- one past the largest block number is block `0`
  have hwrap : maxUint64 + 1 = 0 := rfl
  have hwf : ∀ b t, (StoreKey.hashedIndex ⟨[0x6e], [0x63], List.replicate 32 0, b, t⟩).WellFormed := by
    simp [StoreKey.WellFormed, nilByte]
  refine ⟨?_, ?_, ?_, _, _, driveHashedIndexKeyRangeFromPurgeMarker_encode _ _, ?_⟩
  · rw [inRange_some_iff]
    rintro ⟨-, hlt⟩
    have henc : (StoreKey.data ⟨⟨[0x6e], [0x63], maxUint64⟩, 0⟩).encode =
        2 :: (heightBytes maxUint64 0 ++ ([0x6e] ++ nilByte :: [0x63])) := by
      simp [StoreKey.encode, encodeDataKey, heightNsCollKey, pvtDataKeyPrefix]
    simp only [getDataKeysForRangeScanByBlockNum, pvtDataKeyPrefix, List.singleton_append, hwrap,
      henc] at hlt
    rw [List.cons_lt_cons_iff, heightBytes_append_lt_heightBytes_iff] at hlt
    simp [UInt64.not_lt_zero, UInt8.lt_irrefl] at hlt
  · rw [inRange_some_iff]
    rintro ⟨-, hlt⟩
    have henc : (StoreKey.expiry ⟨maxUint64, 0⟩).encode = 3 :: (heightBytes maxUint64 0 ++ []) := by
      simp [StoreKey.encode, encodeExpiryKey, expiryKeyPrefix]
    simp only [getExpiryKeysForRangeScan, expiryKeyPrefix, List.singleton_append, hwrap,
      henc] at hlt
    rw [List.cons_lt_cons_iff, heightBytes_append_lt_heightBytes_iff] at hlt
    simp [UInt64.not_lt_zero, UInt8.lt_irrefl] at hlt
  · intro h
    obtain ⟨k, hk, -, -, -, hne⟩ := (inRange_rangeScanKeysForHashedIndexKey (by decide) (by decide)
      (by simp) _ (hwf _ _)).mp h
    obtain rfl := StoreKey.hashedIndex.inj hk
    exact hne rfl
  · -- the range ends at the height `(0, 0)`, below the purge's own
    intro h
    rw [hwrap] at h
    obtain ⟨k, hk, -, -, -, hlt⟩ := (inRange_hashedIndex_iff (by decide) (by decide) (by simp)
      (fun _ _ => List.nil_le _) _ _ _ (hwf _ _)).mp h
    obtain rfl := StoreKey.hashedIndex.inj hk
    simp [Prod.lexLt, UInt64.not_lt_zero] at hlt

end Fabric.PvtDataStorage
