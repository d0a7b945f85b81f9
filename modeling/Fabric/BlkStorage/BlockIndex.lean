import Fabric.BlkStorage.BlockFile
import Fabric.Ledger.OrderPreserving
import Fabric.Ledger.LevelDBHelper
import Fabric.Lib.FoldM

/-
  The txID index of the block store (`common/ledger/blkstorage/blockindex.go`), at the level
  of its keys in the index database.

  `indexBlock` writes each transaction under `constructTxIDKey`: the prefix `'t'`, the txID's
  length, the txID, the block number and the transaction number, the numbers
  order-preservingly encoded (`EncodeOrderPreservingVarUint64`). `getTxIDVal` reads the first
  key of `constructTxIDRangeScan`, the keys that go on from `'t'`, the length and the txID;
  `exportUniqueTxIDs` walks all `'t'` keys and writes each txID unless it is the one before.

  Proved, for txIDs that are Go strings (shorter than `2^63` bytes): a key gives back its txID
  and its block number (`retrieveTxID_constructTxIDKey`, `retrieveBlockNum_constructTxIDKey`);
  the range scan of a txID holds exactly that txID's keys (`inTxIDRange_iff`); keys sort by the
  txID's length, then the txID, then block and transaction number (`constructTxIDKey_lt_iff`).
  On an index whose `'t'` keys are txID keys (`TxIDKeysWellFormed`, which every write of such
  keys keeps), `getTxIDVal` reads the entry of the least `(blockNum, txNum)`
  (`getTxIDVal_least`), and `exportUniqueTxIDs` writes every non-empty indexed txID once
  (`exportUniqueTxIDs_eq`). An indexed empty txID is never written: the loop starts with the
  zero value `""` as the previous txID, and the test meant for duplicates skips it
  (`exportUniqueTxIDs_skips_empty_txID`).

  The data file of the export is the list of txIDs encoded into it; the file system and the
  hash of the file are left out. The value of an entry is unmarshalled by a parameter.
-/

namespace Fabric.BlkStorage

open LevelDB Fabric.Ledger Fabric.LevelDBHelper

/-- `txIDIdxKeyPrefix`, the byte of `'t'`. -/
def txIDIdxKeyPrefix : UInt8 := 0x74

/-- `constructTxIDKey`. -/
def constructTxIDKey (txID : Bytes) (blkNum txNum : UInt64) : Bytes :=
  [txIDIdxKeyPrefix] ++ encodeOrderPreservingVarUint64 txID.length.toUInt64 ++ txID ++
    encodeOrderPreservingVarUint64 blkNum ++ encodeOrderPreservingVarUint64 txNum

/-- `int(x)` of a `uint64`: two's complement, negative from `2^63` on. -/
def goInt (x : UInt64) : Int :=
  if x.toNat < 2 ^ 63 then x.toNat else (x.toNat : Int) - 2 ^ 64

/-- The errors of the txID index, and its runtime panics. -/
inductive IndexError
  /-- "transaction IDs not maintained in index" -/
  | txIDsNotMaintained
  /-- "invalid txIDKey - zero-length slice" -/
  | zeroLengthKey
  /-- "invalid txIDKey {%x} - unexpected prefix" -/
  | unexpectedPrefix (key : Bytes)
  /-- "invalid txIDKey {%x}" with the error of `DecodeOrderPreservingVarUint64` -/
  | invalidKey (key : Bytes) (err : Ledger.DecodeError)
  /-- "invalid txIDKey {%x}, fewer bytes present" -/
  | fewerBytes (key : Bytes)
  /-- "no such transaction ID [%s] in index" -/
  | noSuchTransactionID (txID : Bytes)
  /-- `errNilValue` -/
  | nilValue
  /-- "unexpected error while unmarshalling bytes [%#v] into TxIDIndexValProto" -/
  | unmarshal (valBytes : Bytes)
  /-- "error while decoding block number from txID index key" -/
  | blockNumDecode (err : Ledger.DecodeError)
  /-- a slice bound out of range: a runtime panic -/
  | slicePanic
  deriving DecidableEq, Repr

/-- `retrieveTxID`: the txID of a key of the form `prefix:len(TxID):TxID:BlkNum:TxNum`. -/
def retrieveTxID (encodedTxIDKey : Bytes) : Except IndexError Bytes :=
  match encodedTxIDKey with
  | [] => .error .zeroLengthKey
  | p :: remainingBytes =>
    if p ≠ txIDIdxKeyPrefix then .error (.unexpectedPrefix encodedTxIDKey)
    else
      -- `utf8.RuneLen(txIDIdxKeyPrefix)` is one byte
      match decodeOrderPreservingVarUint64 remainingBytes with
      | .error err => .error (.invalidKey encodedTxIDKey err)
      | .ok (txIDLen, n) =>
        let remainingBytes := remainingBytes.drop n
        if (remainingBytes.length : Int) ≤ goInt txIDLen then .error (.fewerBytes encodedTxIDKey)
        -- `remainingBytes[:int(txIDLen)]` panics on a negative bound
        else if goInt txIDLen < 0 then .error .slicePanic
        else .ok (remainingBytes.take txIDLen.toNat)

/-- `retrieveBlockNum`, its error as `getTxIDVal` wraps it. -/
def retrieveBlockNum (encodedTxIDKey : Bytes) (blkNumStartingIndex : Nat) :
    Except IndexError UInt64 :=
  if encodedTxIDKey.length < blkNumStartingIndex then .error .slicePanic
  else match decodeOrderPreservingVarUint64 (encodedTxIDKey.drop blkNumStartingIndex) with
    | .ok (n, _) => .ok n
    | .error err => .error (.blockNumDecode err)

/-- `rangeScan`. -/
structure RangeScan where
  startKey : Bytes
  stopKey : Bytes

/-- `constructTxIDRangeScan`. -/
def constructTxIDRangeScan (txID : Bytes) : RangeScan :=
  let sk := [txIDIdxKeyPrefix] ++ encodeOrderPreservingVarUint64 txID.length.toUInt64 ++ txID
  ⟨sk, sk ++ [0xff]⟩

/-- `blockIndex.getTxIDVal`: the value of the first key of the txID's range scan, unmarshalled,
    and the block number in the key. -/
def getTxIDVal {V : Type} (unmarshal : Bytes → Option V) (indexItems : List IndexableAttr)
    (db : DB) (dbName txID : Bytes) : Except IndexError (V × UInt64) :=
  if IndexableAttr.txID ∉ indexItems then .error .txIDsNotMaintained
  else
    let rangeScan := constructTxIDRangeScan txID
    let (present, itr) := (getIterator db dbName rangeScan.startKey (some rangeScan.stopKey)).next
    if !present then .error (.noSuchTransactionID txID)
    else
      let valBytes := itr.value.getD []
      if valBytes.length = 0 then .error .nilValue
      else match unmarshal valBytes with
        | none => .error (.unmarshal valBytes)
        | some val =>
          -- `Key` splits at the separator; a key without one panics
          match itr.key with
          | none => .error .slicePanic
          | some key =>
            match retrieveBlockNum key rangeScan.startKey.length with
            | .error err => .error err
            | .ok blockNum => .ok (val, blockNum)

/-- One pass of the loop of `exportUniqueTxIDs` over the binding under the cursor, with the
    previous txID and the txIDs encoded into the data file so far. -/
def exportStep (s : Bytes × List Bytes) (e : Bytes × Bytes) :
    Except IndexError (Bytes × List Bytes) :=
  let (previousTxID, written) := s
  match retrieveAppKey e.1 with
  | none => .error .slicePanic
  | some key =>
    match retrieveTxID key with
    | .error err => .error err
    | .ok txID =>
      -- duplicate TxID may be present in the index
      if previousTxID = txID then .ok (previousTxID, written)
      else .ok (txID, written ++ [txID])

/-- `blockIndex.exportUniqueTxIDs`: the txIDs written to the data file, none when no file is
    created. -/
def exportUniqueTxIDs (indexItems : List IndexableAttr) (db : DB) (dbName : Bytes) :
    Except IndexError (Option (List Bytes)) :=
  if IndexableAttr.txID ∉ indexItems then .error .txIDsNotMaintained
  else
    let dbItr := getIterator db dbName [txIDIdxKeyPrefix] (some [txIDIdxKeyPrefix + 1])
    match dbItr.iterator.forEach exportStep ([], []) with
    | .error err => .error err
    | .ok (_, written) => if written.isEmpty then .ok none else .ok (some written)

/-! ## Keys -/

section Keys

variable {t t' : Bytes} {b n : UInt64}

/-- A key is the range scan's start key, then the two numbers. -/
theorem constructTxIDKey_eq (txID : Bytes) (blkNum txNum : UInt64) :
    constructTxIDKey txID blkNum txNum = (constructTxIDRangeScan txID).startKey ++
      (encodeOrderPreservingVarUint64 blkNum ++ encodeOrderPreservingVarUint64 txNum) := by
  simp [constructTxIDKey, constructTxIDRangeScan]

theorem goInt_of_lt {x : UInt64} (h : x.toNat < 2 ^ 63) : goInt x = x.toNat := by
  rw [goInt, if_pos h]

theorem retrieveTxID_constructTxIDKey (ht : t.length < 2 ^ 63) (b n : UInt64) :
    retrieveTxID (constructTxIDKey t b n) = .ok t := by
  have hlen := toNat_length_toUInt64 (show t.length < 2 ^ 64 by omega)
  have hint : goInt t.length.toUInt64 = t.length := by rw [goInt_of_lt (by omega), hlen]
  have hb := length_encode b
  simp only [constructTxIDKey, List.append_assoc, List.cons_append, List.nil_append,
    retrieveTxID, ne_eq, not_true_eq_false, if_false, decode_encode_append, List.drop_left, hint]
  -- the block and transaction numbers follow the txID
  rw [if_neg (by rw [List.length_append, List.length_append, hb]; omega), if_neg (by omega), hlen,
    List.take_left]

theorem retrieveBlockNum_constructTxIDKey (t : Bytes) (b n : UInt64) :
    retrieveBlockNum (constructTxIDKey t b n) (constructTxIDRangeScan t).startKey.length = .ok b := by
  rw [retrieveBlockNum, constructTxIDKey_eq, if_neg (by simp), List.drop_left,
    decode_encode_append]

/-- The range scan of a txID holds the keys of that txID, and no other. -/
theorem inTxIDRange_iff (ht : t.length < 2 ^ 64) (ht' : t'.length < 2 ^ 64) (b n : UInt64) :
    (constructTxIDRangeScan t).startKey ≤ constructTxIDKey t' b n ∧
      constructTxIDKey t' b n < (constructTxIDRangeScan t).stopKey ↔ t' = t := by
  rw [show (constructTxIDRangeScan t).stopKey = (constructTxIDRangeScan t).startKey ++ [0xff]
    from rfl, ByteOrder.le_and_lt_append_ff_iff]
  constructor
  · rintro ⟨r, hr, -⟩
    simp only [constructTxIDKey, constructTxIDRangeScan, List.append_assoc, List.cons_append,
      List.nil_append, List.cons.injEq, true_and] at hr
    -- the lengths are read back first, and then the txIDs are heads of one length
    obtain ⟨hlen, htail⟩ := encode_append_inj.mp hr
    have hl : t'.length = t.length := by
      rw [← toNat_length_toUInt64 ht', ← toNat_length_toUInt64 ht, hlen]
    exact (List.append_inj htail hl).1
  · rintro rfl
    exact ⟨_, constructTxIDKey_eq t' b n, head_encode_ne_ff b _⟩

/-- Keys of one txID compare as their block and transaction numbers. -/
theorem constructTxIDKey_lt_constructTxIDKey_iff (t : Bytes) (b n b' n' : UInt64) :
    constructTxIDKey t b n < constructTxIDKey t b' n' ↔ Prod.lexLt (b, n) (b', n') := by
  rw [constructTxIDKey_eq, constructTxIDKey_eq, List.append_left_lt_iff, encode_pair_lt_iff]

/-- Keys sort by the txID's length, then the txID, then the block and transaction numbers. -/
theorem constructTxIDKey_lt_iff (ht : t.length < 2 ^ 64) (ht' : t'.length < 2 ^ 64)
    (b n b' n' : UInt64) :
    constructTxIDKey t b n < constructTxIDKey t' b' n' ↔
      t.length < t'.length ∨
        t.length = t'.length ∧ (t < t' ∨ t = t' ∧ Prod.lexLt (b, n) (b', n')) := by
  have hlt : t.length.toUInt64 < t'.length.toUInt64 ↔ t.length < t'.length := by
    rw [UInt64.lt_iff_toNat_lt, toNat_length_toUInt64 ht, toNat_length_toUInt64 ht']
  have heq : t.length.toUInt64 = t'.length.toUInt64 ↔ t.length = t'.length := by
    rw [← UInt64.toNat_inj, toNat_length_toUInt64 ht, toNat_length_toUInt64 ht']
  simp only [constructTxIDKey, List.append_assoc, List.cons_append, List.nil_append,
    List.cons_lt_cons_iff, UInt8.lt_irrefl, false_or, true_and, encode_append_lt_iff, hlt, heq]
  constructor
  · rintro (h | ⟨hl, h⟩)
    · exact .inl h
    · exact .inr ⟨hl, by rwa [List.append_lt_append_iff _ _ hl, encode_pair_lt_iff] at h⟩
  · rintro (h | ⟨hl, h⟩)
    · exact .inl h
    · exact .inr ⟨hl, by rwa [List.append_lt_append_iff _ _ hl, encode_pair_lt_iff]⟩

/-- A key holds one txID and one pair of numbers, whatever the txID's length. -/
theorem constructTxIDKey_inj {b' n' : UInt64}
    (h : constructTxIDKey t b n = constructTxIDKey t' b' n') : t = t' ∧ b = b' ∧ n = n' := by
  simp only [constructTxIDKey, List.append_assoc, List.cons_append, List.nil_append,
    List.cons.injEq, true_and] at h
  obtain ⟨hlen, htail⟩ := encode_append_inj.mp h
  -- the lengths agree modulo `2^64`, and the numbers after the txIDs take at most 18 bytes
  have hmod : t.length % 2 ^ 64 = t'.length % 2 ^ 64 := by
    simpa using congrArg UInt64.toNat hlen
  have hsum := congrArg List.length htail
  simp only [List.length_append, length_encode] at hsum
  have hb := byteLength_toNat_le b
  have hn := byteLength_toNat_le n
  have hb' := byteLength_toNat_le b'
  have hn' := byteLength_toNat_le n'
  obtain ⟨rfl, hnums⟩ := List.append_inj htail (by omega)
  obtain ⟨rfl, hrest⟩ := encode_append_inj.mp hnums
  have hrest' : encodeOrderPreservingVarUint64 n ++ [] = encodeOrderPreservingVarUint64 n' ++ [] := by
    simpa using hrest
  exact ⟨rfl, rfl, (encode_append_inj.mp hrest').1⟩

theorem head_constructTxIDKey (t : Bytes) (b n : UInt64) :
    (constructTxIDKey t b n).head? = some txIDIdxKeyPrefix := by
  simp [constructTxIDKey]

end Keys

/-! ## The index database -/

section Database

variable {db : DB} {dbName t : Bytes}

/-- A key that starts with `'t'` is a txID key of a Go string, as `indexBlock` writes them. -/
def TxIDKeyShaped (key : Bytes) : Prop :=
  key.head? = some txIDIdxKeyPrefix → ∃ t b n, t.length < 2 ^ 63 ∧ key = constructTxIDKey t b n

/-- The keys of the handle that start with `'t'` are txID keys. -/
def TxIDKeysWellFormed (db : DB) (dbName : Bytes) : Prop :=
  ∀ e ∈ view db dbName, TxIDKeyShaped e.1

/-- A txID is indexed when a key of it is bound. -/
def Indexed (db : DB) (dbName t : Bytes) : Prop :=
  ∃ b n v, DBHandle.get db dbName (constructTxIDKey t b n) = some v

/-- A bound txID key of a well-formed index is that of a Go string. -/
theorem length_lt_of_mem_view (hwf : TxIDKeysWellFormed db dbName) {b n : UInt64} {v : Bytes}
    (he : (constructTxIDKey t b n, v) ∈ view db dbName) : t.length < 2 ^ 63 := by
  obtain ⟨t', b', n', ht', hk⟩ := hwf _ he (head_constructTxIDKey t b n)
  obtain ⟨rfl, -⟩ := constructTxIDKey_inj hk
  exact ht'

/-- In a well-formed index, the bindings in the range scan of a txID are those of its keys. -/
theorem inRange_txIDRangeScan_iff (hwf : TxIDKeysWellFormed db dbName) (ht : t.length < 2 ^ 63)
    {e : Bytes × Bytes} (he : e ∈ view db dbName) :
    InRange (constructTxIDRangeScan t).startKey (some (constructTxIDRangeScan t).stopKey) e.1 ↔
      ∃ b n, e.1 = constructTxIDKey t b n := by
  constructor
  · rintro ⟨hle, hlt⟩
    have hlt := hlt _ rfl
    -- the key goes on from the start key, so it starts with `'t'`
    obtain ⟨r, hr, -⟩ := ByteOrder.le_and_lt_append_ff_iff.mp ⟨hle, hlt⟩
    have hhead : e.1.head? = some txIDIdxKeyPrefix := by
      rw [hr]
      simp [constructTxIDRangeScan]
    obtain ⟨t', b, n, ht', hk⟩ := hwf e he hhead
    rw [hk] at hle hlt
    obtain rfl := (inTxIDRange_iff (by omega) (by omega) b n).mp ⟨hle, hlt⟩
    exact ⟨b, n, hk⟩
  · rintro ⟨b, n, hk⟩
    obtain ⟨hle, hlt⟩ := (inTxIDRange_iff (by omega) (by omega) b n).mpr (rfl : t = t)
    rw [hk]
    exact ⟨hle, fun s hs => by cases hs; exact hlt⟩

/-- The keys that start with `'t'` are those in `['t', 'u')`. -/
theorem inRange_txIDs_iff (key : Bytes) :
    InRange [txIDIdxKeyPrefix] (some [txIDIdxKeyPrefix + 1]) key ↔
      key.head? = some txIDIdxKeyPrefix := by
  cases key with
  | nil => simp [InRange, txIDIdxKeyPrefix, ← List.not_lt, List.nil_lt_cons]
  | cons c key =>
    simp only [InRange, ← List.not_lt, Option.mem_def, Option.some.injEq, forall_eq',
      List.cons_lt_cons_iff, List.not_lt_nil, and_false, or_false, List.head?_cons]
    simp only [txIDIdxKeyPrefix, UInt8.lt_iff_toNat_lt, ← UInt8.toNat_inj]
    simp
    omega

/-- The bindings of the range scan of a txID. -/
theorem mem_txIDRange_iff (hwf : TxIDKeysWellFormed db dbName) (ht : t.length < 2 ^ 63)
    {e : Bytes × Bytes} :
    e ∈ (view db dbName).filter (fun e => decide (InRange (constructTxIDRangeScan t).startKey
        (some (constructTxIDRangeScan t).stopKey) e.1)) ↔
      ∃ b n, e = (constructTxIDKey t b n, e.2) ∧ DBHandle.get db dbName e.1 = some e.2 := by
  rw [List.mem_filter, decide_eq_true_eq]
  constructor
  · rintro ⟨he, hin⟩
    obtain ⟨b, n, hk⟩ := (inRange_txIDRangeScan_iff hwf ht he).mp hin
    exact ⟨b, n, Prod.ext hk rfl, get_eq_some_iff.mpr he⟩
  · rintro ⟨b, n, hk, hget⟩
    have he := get_eq_some_iff.mp hget
    exact ⟨he, (inRange_txIDRangeScan_iff hwf ht he).mpr ⟨b, n, congrArg Prod.fst hk⟩⟩

section GetTxIDVal

variable {V : Type} (unmarshal : Bytes → Option V) {indexItems : List IndexableAttr}

/-- `getTxIDVal` reads the entry of the least block and transaction numbers of the txID. -/
theorem getTxIDVal_least (hattr : IndexableAttr.txID ∈ indexItems) (hname : 0x00 ∉ dbName)
    (hwf : TxIDKeysWellFormed db dbName) (ht : t.length < 2 ^ 63) {b n : UInt64}
    {valBytes : Bytes} {val : V}
    (hget : DBHandle.get db dbName (constructTxIDKey t b n) = some valBytes)
    (hleast : ∀ b' n' v', DBHandle.get db dbName (constructTxIDKey t b' n') = some v' →
      ¬ Prod.lexLt (b', n') (b, n))
    (hval : valBytes ≠ []) (hunm : unmarshal valBytes = some val) :
    getTxIDVal unmarshal indexItems db dbName t = .ok (val, b) := by
  have hmem := (mem_txIDRange_iff (e := (constructTxIDKey t b n, valBytes)) hwf ht).mpr
    ⟨b, n, rfl, hget⟩
  obtain ⟨e, rest, hS⟩ := List.exists_cons_of_ne_nil (List.ne_nil_of_mem hmem)
  -- the first binding of the range is the one of the least numbers
  have he : e = (constructTxIDKey t b n, valBytes) := by
    have hsorted := (sorted_view db dbName).filter
      (fun e => decide (InRange (constructTxIDRangeScan t).startKey
        (some (constructTxIDRangeScan t).stopKey) e.1))
    rw [hS] at hmem hsorted
    obtain ⟨b', n', hk, hget'⟩ := (mem_txIDRange_iff hwf ht).mp (hS ▸ List.mem_cons_self)
    rcases List.mem_cons.mp hmem with h | h
    · exact h.symm
    · have hlt := (List.pairwise_cons.mp hsorted).1 _ h
      rw [hk, constructTxIDKey_lt_constructTxIDKey_iff] at hlt
      rw [hk] at hget'
      exact absurd hlt (hleast b' n' e.2 hget')
  subst he
  obtain ⟨itr, hnext, hkey, hvalue⟩ := next_getIterator hname hS
  simp only [getTxIDVal, hattr, not_true_eq_false, if_false, hnext, Bool.not_true,
    Bool.false_eq_true, hvalue, Option.getD_some, List.length_eq_zero_iff, hval, hunm, hkey,
    retrieveBlockNum_constructTxIDKey]

/-- A txID that is not indexed is not found. -/
theorem getTxIDVal_not_indexed (hattr : IndexableAttr.txID ∈ indexItems)
    (hwf : TxIDKeysWellFormed db dbName) (ht : t.length < 2 ^ 63) (hnot : ¬ Indexed db dbName t) :
    getTxIDVal unmarshal indexItems db dbName t = .error (.noSuchTransactionID t) := by
  have hnil : (view db dbName).filter (fun e => decide (InRange (constructTxIDRangeScan t).startKey
      (some (constructTxIDRangeScan t).stopKey) e.1)) = [] := by
    refine List.eq_nil_iff_forall_not_mem.mpr fun e he => hnot ?_
    obtain ⟨b, n, hk, hget⟩ := (mem_txIDRange_iff hwf ht).mp he
    exact ⟨b, n, e.2, hk ▸ hget⟩
  have hnext := next_getIterator_of_nil hnil
  simp only [getTxIDVal, hattr, not_true_eq_false, if_false]
  rw [← Prod.mk.eta (p := (getIterator _ _ _ _).next), hnext]
  rfl

end GetTxIDVal

/-! ### The export -/

/-- The order of txIDs in the index: shorter first, then bytewise. -/
def TxIDLe (t t' : Bytes) : Prop := t.length < t'.length ∨ t.length = t'.length ∧ t ≤ t'

instance : Std.Antisymm TxIDLe where
  antisymm t t' h h' := by
    rcases h with h | ⟨hl, h⟩ <;> rcases h' with h' | ⟨hl', h'⟩
    · omega
    · omega
    · omega
    · exact List.le_antisymm h h'

theorem nil_txIDLe (t : Bytes) : TxIDLe [] t := by
  cases t with
  | nil => exact .inr ⟨rfl, List.le_refl _⟩
  | cons x t => exact .inl (by simp)

theorem txIDLe_of_lt {t' : Bytes} {b n b' n' : UInt64} (ht : t.length < 2 ^ 64)
    (ht' : t'.length < 2 ^ 64) (h : constructTxIDKey t b n < constructTxIDKey t' b' n') :
    TxIDLe t t' := by
  rcases (constructTxIDKey_lt_iff ht ht' b n b' n').mp h with hl | ⟨hl, h | ⟨rfl, -⟩⟩
  · exact .inl hl
  · exact .inr ⟨hl, List.le_of_lt h⟩
  · exact .inr ⟨hl, List.le_refl _⟩

/-- The txID of a key, as `retrieveTxID` reads it; the empty one where it fails. -/
def txIDOfKey (key : Bytes) : Bytes :=
  match retrieveTxID key with
  | .ok txID => txID
  | .error _ => []

theorem txIDOfKey_constructTxIDKey (ht : t.length < 2 ^ 63) (b n : UInt64) :
    txIDOfKey (constructTxIDKey t b n) = t := by
  rw [txIDOfKey, retrieveTxID_constructTxIDKey ht]

/-- On a binding of the handle whose key has a txID, the loop writes it unless it is the
    previous one. -/
theorem exportStep_eq (hname : 0x00 ∉ dbName) (s : Bytes × List Bytes) {key value : Bytes}
    (h : retrieveTxID key = .ok t) :
    exportStep s (constructLevelKey dbName key, value) = .ok (FoldM.skipRepeat s t) := by
  obtain ⟨previousTxID, written⟩ := s
  simp only [exportStep, retrieveAppKey_constructLevelKey hname, h, FoldM.skipRepeat]
  split <;> rfl

/-- On a well-formed index, the export writes every indexed txID once, except the empty one. -/
theorem exportUniqueTxIDs_eq {indexItems : List IndexableAttr}
    (hattr : IndexableAttr.txID ∈ indexItems) (hname : 0x00 ∉ dbName)
    (hwf : TxIDKeysWellFormed db dbName) :
    ∃ written : List Bytes,
      exportUniqueTxIDs indexItems db dbName = .ok (if written = [] then none else some written) ∧
        written.Nodup ∧ ∀ t, t ∈ written ↔ t ≠ [] ∧ Indexed db dbName t := by
  -- the loop runs over the bindings of the `'t'` keys, each that of a txID key
  set S := (view db dbName).filter
    (fun e => decide (InRange [txIDIdxKeyPrefix] (some [txIDIdxKeyPrefix + 1]) e.1)) with hS
  have hkeys : ∀ e ∈ S, ∃ t b n, t.length < 2 ^ 63 ∧ e.1 = constructTxIDKey t b n := by
    intro e he
    obtain ⟨he, hin⟩ := List.mem_filter.mp he
    exact hwf e he ((inRange_txIDs_iff e.1).mp (by simpa using hin))
  set ts := S.map (fun e => txIDOfKey e.1) with hts
  have hloop : (getIterator db dbName [txIDIdxKeyPrefix]
      (some [txIDIdxKeyPrefix + 1])).iterator.forEach exportStep ([], []) =
        .ok (ts.foldl FoldM.skipRepeat ([], [])) := by
    have hpos : (getIterator db dbName [txIDIdxKeyPrefix]
        (some [txIDIdxKeyPrefix + 1])).iterator.pos = 0 := rfl
    rw [Iter.forEach_eq_foldlM exportStep _ _ _ rfl, hpos, List.drop_zero, items_getIterator, ← hS,
      List.foldlM_map, hts, List.foldl_map]
    refine FoldM.foldlM_eq_ok_foldl S _ fun s e he => ?_
    obtain ⟨t, b, n, ht, hk⟩ := hkeys e he
    rw [hk, txIDOfKey_constructTxIDKey ht]
    exact exportStep_eq hname s (retrieveTxID_constructTxIDKey ht b n)
  -- the txIDs come in the order of their keys, above the empty txID the loop starts from
  have hpairwise : ([] :: ts).Pairwise TxIDLe := by
    refine List.pairwise_cons.mpr ⟨fun t _ => nil_txIDLe t, ?_⟩
    refine List.pairwise_map.mpr (((sorted_view db dbName).filter _).imp_of_mem ?_)
    intro e e' he he' hlt
    obtain ⟨t, b, n, ht, hk⟩ := hkeys e he
    obtain ⟨t', b', n', ht', hk'⟩ := hkeys e' he'
    rw [hk, hk'] at hlt ⊢
    rw [txIDOfKey_constructTxIDKey ht, txIDOfKey_constructTxIDKey ht']
    exact txIDLe_of_lt (by omega) (by omega) hlt
  have hmem : ∀ t, t ∈ ts ↔ Indexed db dbName t := by
    intro t
    constructor
    · intro h
      obtain ⟨e, he, rfl⟩ := List.mem_map.mp h
      obtain ⟨t, b, n, ht, hk⟩ := hkeys e he
      refine ⟨b, n, e.2, ?_⟩
      rw [hk, txIDOfKey_constructTxIDKey ht, ← hk]
      exact get_eq_some_iff.mpr (List.mem_filter.mp he).1
    · rintro ⟨b, n, v, hget⟩
      have he := get_eq_some_iff.mp hget
      have ht := length_lt_of_mem_view hwf he
      refine List.mem_map.mpr ⟨_, List.mem_filter.mpr ⟨he, ?_⟩, txIDOfKey_constructTxIDKey ht b n⟩
      simpa using (inRange_txIDs_iff _).mpr (head_constructTxIDKey t b n)
  have hwritten := FoldM.foldl_skipRepeat ts [] []
  refine ⟨(ts.destutter' (· ≠ ·) []).tail, ?_, FoldM.nodup_tail_destutter' hpairwise, ?_⟩
  · simp only [exportUniqueTxIDs, hattr, not_true_eq_false, if_false, hloop]
    rw [← Prod.mk.eta (p := ts.foldl FoldM.skipRepeat ([], [])), hwritten, List.nil_append]
    simp only [List.isEmpty_iff]
    split <;> rfl
  · intro t
    rw [FoldM.mem_tail_destutter' hpairwise, hmem, and_comm]

/-- An index database of one transaction whose envelope did not unmarshal: `indexBlock` stored
    it under the empty txID, at block `0` and transaction `0`. -/
def emptyTxIDIndex : DB := DB.empty.put (constructLevelKey [0x63] (constructTxIDKey [] 0 0)) [1]

/-- An index that holds the empty txID, which the export does not write. -/
theorem exportUniqueTxIDs_skips_empty_txID :
    TxIDKeysWellFormed emptyTxIDIndex [0x63] ∧ Indexed emptyTxIDIndex [0x63] [] ∧
      exportUniqueTxIDs [.txID] emptyTxIDIndex [0x63] = .ok none := by
  have hname : (0x00 : UInt8) ∉ [0x63] := by decide
  -- the one key bound is that of the empty txID
  have honly : ∀ key v, DBHandle.get emptyTxIDIndex [0x63] key = some v →
      key = constructTxIDKey [] 0 0 := by
    intro key v h
    simp only [emptyTxIDIndex, DBHandle.get, DB.get?_put, DB.get?_empty] at h
    split at h
    · rename_i hk
      simpa [constructLevelKey] using hk
    · cases h
  have hwf : TxIDKeysWellFormed emptyTxIDIndex [0x63] := by
    rintro ⟨key, v⟩ he _
    rw [honly key v (get_eq_some_iff.mpr he)]
    exact ⟨[], 0, 0, by decide, rfl⟩
  have hindexed : Indexed emptyTxIDIndex [0x63] [] := ⟨0, 0, [1], by simp [emptyTxIDIndex, DBHandle.get]⟩
  refine ⟨hwf, hindexed, ?_⟩
  obtain ⟨written, hexport, -, hmem⟩ := exportUniqueTxIDs_eq (List.mem_singleton_self _) hname hwf
  have hnil : written = [] := by
    refine List.eq_nil_iff_forall_not_mem.mpr fun t ht => ?_
    obtain ⟨hne, b, n, v, hget⟩ := (hmem t).mp ht
    exact hne (constructTxIDKey_inj (honly _ v hget)).1
  rw [hexport, hnil]
  rfl

/-! ### Writes keep the index well formed -/

/-- A put keeps the index well formed when a key it puts under the handle's name is shaped. -/
theorem TxIDKeysWellFormed.put (hwf : TxIDKeysWellFormed db dbName) {key value : Bytes}
    (hkey : ∀ k, key = constructLevelKey dbName k → TxIDKeyShaped k) :
    TxIDKeysWellFormed (db.put key value) dbName := by
  rintro ⟨k, v⟩ he
  rcases mem_insertSorted (mem_view.mp he) with h | h
  · exact hkey k (congrArg Prod.fst h).symm
  · exact hwf _ (mem_view.mpr h)

theorem TxIDKeysWellFormed.delete (hwf : TxIDKeysWellFormed db dbName) (key : Bytes) :
    TxIDKeysWellFormed (db.delete key) dbName := by
  rintro ⟨k, v⟩ he
  exact hwf _ (mem_view.mpr (List.mem_filter.mp (mem_view.mp he)).1)

/-- The puts of a batch under the handle's name are of shaped keys. -/
def ShapedBatch (dbName : Bytes) (batch : List Op) : Prop :=
  ∀ key value, Op.put key value ∈ batch → ∀ k, key = constructLevelKey dbName k → TxIDKeyShaped k

/-- Every write of a batch whose puts are shaped keeps the index well formed. -/
theorem TxIDKeysWellFormed.write : ∀ {db : DB} {batch : List Op},
    TxIDKeysWellFormed db dbName → ShapedBatch dbName batch →
      TxIDKeysWellFormed (db.write batch) dbName
  | _, [], hwf, _ => hwf
  | _, op :: batch, hwf, hb => by
    rw [DB.write_cons]
    have hrest : ShapedBatch dbName batch := fun key value h => hb key value (List.mem_cons_of_mem _ h)
    cases op with
    | put key value => exact (hwf.put (hb key value List.mem_cons_self)).write hrest
    | delete key => exact (hwf.delete key).write hrest

end Database

/-! ## The layout of the txID index -/

/-- Keys of the txID index give back their txID and block number, the range scan of a txID
    holds that txID's keys only, and the keys of one txID sort by their numbers: `getTxIDVal`
    reads the least and fails for a txID not indexed, and the export writes every non-empty
    indexed txID once. -/
theorem txIDIndex_layout (t t' : Bytes) (b n : UInt64) (ht : t.length < 2 ^ 63)
    (ht' : t'.length < 2 ^ 63) :
    retrieveTxID (constructTxIDKey t b n) = .ok t ∧
      retrieveBlockNum (constructTxIDKey t b n) (constructTxIDRangeScan t).startKey.length = .ok b ∧
      ((constructTxIDRangeScan t).startKey ≤ constructTxIDKey t' b n ∧
        constructTxIDKey t' b n < (constructTxIDRangeScan t).stopKey ↔ t' = t) ∧
      (∀ b' n', constructTxIDKey t b n < constructTxIDKey t b' n' ↔ Prod.lexLt (b, n) (b', n')) ∧
      (∀ {V : Type} (unmarshal : Bytes → Option V) (indexItems : List IndexableAttr) (db : DB)
          (dbName valBytes : Bytes) (val : V),
        IndexableAttr.txID ∈ indexItems → 0x00 ∉ dbName → TxIDKeysWellFormed db dbName →
        DBHandle.get db dbName (constructTxIDKey t b n) = some valBytes →
        (∀ b' n' v', DBHandle.get db dbName (constructTxIDKey t b' n') = some v' →
          ¬ Prod.lexLt (b', n') (b, n)) →
        valBytes ≠ [] → unmarshal valBytes = some val →
        getTxIDVal unmarshal indexItems db dbName t = .ok (val, b)) ∧
      (∀ {V : Type} (unmarshal : Bytes → Option V) (indexItems : List IndexableAttr) (db : DB)
          (dbName : Bytes),
        IndexableAttr.txID ∈ indexItems → TxIDKeysWellFormed db dbName → ¬ Indexed db dbName t →
        getTxIDVal unmarshal indexItems db dbName t = .error (.noSuchTransactionID t)) ∧
      (∀ (indexItems : List IndexableAttr) (db : DB) (dbName : Bytes),
        IndexableAttr.txID ∈ indexItems → 0x00 ∉ dbName → TxIDKeysWellFormed db dbName →
        ∃ written : List Bytes,
          exportUniqueTxIDs indexItems db dbName =
              .ok (if written = [] then none else some written) ∧
            written.Nodup ∧ ∀ t, t ∈ written ↔ t ≠ [] ∧ Indexed db dbName t) :=
  ⟨retrieveTxID_constructTxIDKey ht b n, retrieveBlockNum_constructTxIDKey t b n,
    inTxIDRange_iff (by omega) (by omega) b n, constructTxIDKey_lt_constructTxIDKey_iff t b n,
    fun unmarshal _ _ _ _ _ hattr hname hwf hget hleast hval hunm =>
      getTxIDVal_least unmarshal hattr hname hwf ht hget hleast hval hunm,
    fun unmarshal _ _ _ hattr hwf hnot => getTxIDVal_not_indexed unmarshal hattr hwf ht hnot,
    fun _ _ _ hattr hname hwf => exportUniqueTxIDs_eq hattr hname hwf⟩

end Fabric.BlkStorage
