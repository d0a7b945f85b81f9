import Fabric.Lib.ByteOrder
import Fabric.Lib.Protowire
import Fabric.Ledger.Version

/-
  The order-preserving encoding of `uint64` numbers (`common/ledger/util/util.go`), on which
  the key layouts of the block index and of the history database rest.

  `EncodeOrderPreservingVarUint64` writes a number big-endian without its leading zero bytes,
  behind one byte that says how many bytes follow. `DecodeOrderPreservingVarUint64` reads that
  byte as a varint, checks it, and reads the number from the bytes after it.

  An encoding is its byte length and then its significant bytes (`encode_eq`). Proved:
  decoding reads back the number and the length of its encoding, whatever follows
  (`decode_encode_append`); the first byte is at most `8`, never `0xff`
  (`head_encode_ne_ff`); followed by anything, two encodings compare as the numbers and then
  as what follows (`encode_append_lt_iff`), and they are equal only for the same number
  followed by the same bytes (`encode_append_inj`). The eight bytes of `PutUint64`, which the
  encoding trims and the config history keeps whole, are read back by `Uint64`
  (`uint64_putUint64`) and compare as the numbers (`putUint64_lt_putUint64_iff`).

  A decoder that succeeds consumes no more than it is given (`le_length_of_decode`), so the
  slice `NewHeightFromBytes` takes after the block number never panics. A height's bytes, its
  two numbers encoded one after the other, are read back by `NewHeightFromBytes` and compare as
  `Height.Compare` does, when both numbers are `uint64`s (`height_toBytes_order_embedding`).
-/

namespace Fabric.Ledger

open Protowire BigEndian ByteOrder

/-- `binary.BigEndian.PutUint64`. -/
def putUint64 (number : UInt64) : Bytes := split 8 number.toNat

/-- `binary.BigEndian.Uint64` of eight bytes. -/
def uint64 (b : Bytes) : UInt64 := (combine b).toUInt64

/-- The loop of `EncodeOrderPreservingVarUint64` over the eight bytes: the index of the first
    byte that is not zero and the number of bytes from it on, `(0, 0)` when all are zero. -/
def significantBytes (bytes : Bytes) : Nat × Nat :=
  match bytes.findIdx? (· != 0) with
  | some i => (i, 8 - i)
  | none => (0, 0)

/-- `EncodeOrderPreservingVarUint64`. -/
def encodeOrderPreservingVarUint64 (number : UInt64) : Bytes :=
  let bytes := putUint64 number
  let (startingIndex, size) := significantBytes bytes
  -- `size` is at most `8`, so `sizeBytes` is one byte and the length check before the copy
  -- never panics (`appendVarint_of_lt`)
  let sizeBytes := appendVarint size
  sizeBytes.take 1 ++ (bytes.drop startingIndex).take size

/-- The errors of `DecodeOrderPreservingVarUint64`. -/
inductive DecodeError
  /-- "number of consumed bytes from DecodeVarint is invalid, expected 1, but got %d" -/
  | consumedBytes (numBytes : Nat)
  /-- "decoded size from DecodeVarint is invalid, expected <=8, but got %d" -/
  | decodedSize (s : Nat)
  /-- "decoded size (%d) from DecodeVarint is more than available bytes (%d)" -/
  | moreThanAvailable (s : Nat) (available : Int)
  deriving DecidableEq, Repr

/-- `DecodeOrderPreservingVarUint64`: the number and the number of bytes consumed. -/
def decodeOrderPreservingVarUint64 (bytes : Bytes) : Except DecodeError (UInt64 × Nat) :=
  -- a failed `ConsumeVarint` counts as zero bytes consumed
  let (s, numBytes) := match consumeVarint bytes with
    | .ok (s, numBytes) => (s, numBytes)
    | .error _ => (0, 0)
  if numBytes ≠ 1 then .error (.consumedBytes numBytes)
  else if s > 8 then .error (.decodedSize s)
  else if (s : Int) > (bytes.length : Int) - 1 then
    .error (.moreThanAvailable s ((bytes.length : Int) - 1))
  else
    let size := s
    let decodedBytes := List.replicate (8 - size) 0 ++ (bytes.drop 1).take size
    .ok (uint64 decodedBytes, size + 1)

/-- `Height.ToBytes`: the block number and the transaction number, each encoded. -/
def Height.toBytes (h : Height) : Bytes :=
  encodeOrderPreservingVarUint64 h.blockNum.toUInt64 ++ encodeOrderPreservingVarUint64 h.txNum.toUInt64

/-- `NewHeightFromBytes`: a height and the number of bytes it takes. The block number's
    decoder consumes no more than it is given (`le_length_of_decode`), so `b[n1:]` never
    panics. -/
def newHeightFromBytes (b : Bytes) : Except DecodeError (Height × Nat) := do
  let (blockNum, n1) ← decodeOrderPreservingVarUint64 b
  let (txNum, n2) ← decodeOrderPreservingVarUint64 (b.drop n1)
  return (newHeight blockNum.toNat txNum.toNat, n1 + n2)

/-! ## The shape of an encoding -/

theorem appendVarint_of_lt {v : Nat} (hv : v < 0x80) : appendVarint v = [v.toUInt8] := by
  simp [appendVarint, appendVarintN, hv]

theorem byteLength_toNat_le (number : UInt64) : byteLength number.toNat ≤ 8 :=
  byteLength_le_iff.mpr (by simpa using number.toNat_lt)

@[simp] theorem length_putUint64 (number : UInt64) : (putUint64 number).length = 8 :=
  length_split _ _

/-- `binary.BigEndian.Uint64` reads back what `PutUint64` wrote. -/
theorem uint64_putUint64 (number : UInt64) : uint64 (putUint64 number) = number := by
  rw [uint64, putUint64, combine_split (by simpa using number.toNat_lt)]
  simp

/-- Two numbers' eight bytes compare as the numbers. -/
theorem putUint64_lt_putUint64_iff (x y : UInt64) : putUint64 x < putUint64 y ↔ x < y := by
  rw [putUint64, putUint64, split_lt_split_iff (by simpa using x.toNat_lt)
    (by simpa using y.toNat_lt), UInt64.lt_iff_toNat_lt]

/-- The eight bytes of a number: zeros, then its significant bytes. -/
theorem putUint64_eq (number : UInt64) :
    putUint64 number =
      List.replicate (8 - byteLength number.toNat) 0 ++ split (byteLength number.toNat) number.toNat := by
  have h := split_add (8 - byteLength number.toNat) (lt_pow_byteLength number.toNat)
  rwa [Nat.sub_add_cancel (byteLength_toNat_le number)] at h

theorem significantBytes_putUint64 {number : UInt64} (hpos : 0 < number.toNat) :
    significantBytes (putUint64 number) =
      (8 - byteLength number.toNat, byteLength number.toNat) := by
  obtain ⟨d, rest, hsplit, hd⟩ := head_split_byteLength_ne_zero hpos
  have hle := byteLength_toNat_le number
  simp only [significantBytes, putUint64_eq, hsplit, List.findIdx?_append,
    List.findIdx?_replicate, List.findIdx?_cons]
  simp [hd]
  omega

/-- An encoding is the number of significant bytes, then those bytes. -/
theorem encode_eq (number : UInt64) :
    encodeOrderPreservingVarUint64 number =
      (byteLength number.toNat).toUInt8 :: split (byteLength number.toNat) number.toNat := by
  have hle := byteLength_toNat_le number
  rcases Nat.eq_zero_or_pos number.toNat with h0 | hpos
  · -- all eight bytes are zeros: the size byte alone
    have hz : putUint64 number = List.replicate 8 0 := by simp [putUint64_eq, h0, split]
    have hsig : significantBytes (List.replicate 8 0) = (0, 0) := by decide
    simp only [encodeOrderPreservingVarUint64, hz, hsig, h0, byteLength_zero]
    rfl
  · simp only [encodeOrderPreservingVarUint64]
    rw [significantBytes_putUint64 hpos, putUint64_eq,
      appendVarint_of_lt (show byteLength number.toNat < 0x80 by omega),
      List.drop_left' (List.length_replicate ..)]
    simp

theorem length_encode (number : UInt64) :
    (encodeOrderPreservingVarUint64 number).length = byteLength number.toNat + 1 := by
  simp [encode_eq]

theorem head_encode_ne_ff (number : UInt64) (rest : Bytes) :
    ∀ b ∈ (encodeOrderPreservingVarUint64 number ++ rest).head?, b ≠ 0xff := by
  have hle := byteLength_toNat_le number
  intro b hb
  simp only [encode_eq, List.cons_append, List.head?_cons, Option.mem_def, Option.some.injEq] at hb
  subst hb
  intro h
  have := congrArg UInt8.toNat h
  simp [Nat.toUInt8_eq] at this
  omega

/-! ## Decoding -/

/-- Decoding an encoding reads back the number and its length, whatever follows. -/
theorem decode_encode_append (number : UInt64) (rest : Bytes) :
    decodeOrderPreservingVarUint64 (encodeOrderPreservingVarUint64 number ++ rest) =
      .ok (number, (encodeOrderPreservingVarUint64 number).length) := by
  have hle := byteLength_toNat_le number
  have hsize : (byteLength number.toNat).toUInt8.toNat = byteLength number.toNat := by
    simp [Nat.toUInt8_eq]
    omega
  have hvarint : consumeVarint ((byteLength number.toNat).toUInt8 ::
      (split (byteLength number.toNat) number.toNat ++ rest)) = .ok (byteLength number.toNat, 1) := by
    have hlt : (byteLength number.toNat).toUInt8 < 0x80 := by
      rw [UInt8.lt_iff_toNat_lt, hsize]
      simp
      omega
    simp [consumeVarint, consumeVarintN, hlt, hsize]
  -- the copy puts the significant bytes back behind their leading zeros
  have hbytes : List.replicate (8 - byteLength number.toNat) 0 ++
      (split (byteLength number.toNat) number.toNat ++ rest).take (byteLength number.toNat) =
      putUint64 number := by
    rw [List.take_left' (length_split _ _), putUint64_eq]
  simp only [decodeOrderPreservingVarUint64, encode_eq, List.cons_append, hvarint]
  simp only [ne_eq, not_true_eq_false, if_false, List.length_cons, List.length_append,
    length_split, List.drop_succ_cons, List.drop_zero, hbytes, uint64_putUint64]
  rw [if_neg (by omega), if_neg (by omega)]

/-- What `DecodeOrderPreservingVarUint64` consumes lies within its input. -/
theorem le_length_of_decode {bytes : Bytes} {v : UInt64} {c : Nat}
    (h : decodeOrderPreservingVarUint64 bytes = .ok (v, c)) : c ≤ bytes.length := by
  unfold decodeOrderPreservingVarUint64 at h
  -- the size and the count `ConsumeVarint` returns, then the three checks
  split at h
  split_ifs at h
  obtain ⟨-, rfl⟩ := Prod.mk.inj (Except.ok.inj h)
  omega

/-- Followed by anything, an encoding is read back in one way only. -/
theorem encode_append_inj {x y : UInt64} {r r' : Bytes} :
    encodeOrderPreservingVarUint64 x ++ r = encodeOrderPreservingVarUint64 y ++ r' ↔
      x = y ∧ r = r' := by
  constructor
  · intro h
    have hdec := decode_encode_append x r
    rw [h, decode_encode_append y r'] at hdec
    obtain ⟨rfl, -⟩ := Prod.mk.inj (Except.ok.inj hdec)
    exact ⟨rfl, List.append_cancel_left h⟩
  · rintro ⟨rfl, rfl⟩
    rfl

/-- An encoding is read back in one way only. -/
theorem encode_inj {x y : UInt64} :
    encodeOrderPreservingVarUint64 x = encodeOrderPreservingVarUint64 y ↔ x = y := by
  simpa using @encode_append_inj x y [] []

/-! ## Order -/

/-- A number with fewer significant bytes is smaller. -/
theorem lt_of_byteLength_lt {n m : Nat} (h : byteLength n < byteLength m) : n < m :=
  lt_of_lt_of_le (lt_pow_byteLength n) (lt_byteLength_iff.mp h)

/-- Followed by anything, two encodings compare as the numbers, then as what follows. -/
theorem encode_append_lt_iff (x y : UInt64) (r r' : Bytes) :
    encodeOrderPreservingVarUint64 x ++ r < encodeOrderPreservingVarUint64 y ++ r' ↔
      x < y ∨ x = y ∧ r < r' := by
  have hx := byteLength_toNat_le x
  have hy := byteLength_toNat_le y
  have hlen : (byteLength x.toNat).toUInt8 < (byteLength y.toNat).toUInt8 ↔
      byteLength x.toNat < byteLength y.toNat := by
    rw [UInt8.lt_iff_toNat_lt]
    simp [Nat.toUInt8_eq]
    omega
  have hleneq : (byteLength x.toNat).toUInt8 = (byteLength y.toNat).toUInt8 ↔
      byteLength x.toNat = byteLength y.toNat := by
    rw [← UInt8.toNat_inj]
    simp [Nat.toUInt8_eq]
    omega
  rw [encode_eq, encode_eq, List.cons_append, List.cons_append, List.cons_lt_cons_iff, hlen,
    hleneq, UInt64.lt_iff_toNat_lt, ← UInt64.toNat_inj]
  rcases Nat.lt_trichotomy (byteLength x.toNat) (byteLength y.toNat) with hlt | heq | hgt
  · -- fewer significant bytes: a smaller number
    simp [hlt, lt_of_byteLength_lt hlt]
  · -- as many: the significant bytes decide, then what follows
    have hxlt : x.toNat < 256 ^ byteLength y.toNat := heq ▸ lt_pow_byteLength x.toNat
    have hylt := lt_pow_byteLength y.toNat
    have hinj : split (byteLength y.toNat) x.toNat = split (byteLength y.toNat) y.toNat ↔
        x.toNat = y.toNat := by
      constructor
      · intro h
        have := congrArg combine h
        rwa [combine_split hxlt, combine_split hylt] at this
      · intro h
        rw [h]
    rw [heq, List.append_lt_append_iff r r' (by simp), split_lt_split_iff hxlt hylt, hinj]
    simp
  · -- more significant bytes: a larger number
    have := lt_of_byteLength_lt hgt
    simp only [Nat.not_lt_of_gt hgt, hgt.ne', false_and, false_or, false_iff, not_or, not_and]
    exact ⟨by omega, fun h => by omega⟩

/-- Two encodings compare as the numbers. -/
theorem encode_lt_encode_iff (x y : UInt64) :
    encodeOrderPreservingVarUint64 x < encodeOrderPreservingVarUint64 y ↔ x < y := by
  have h := encode_append_lt_iff x y [] []
  simp only [List.append_nil] at h
  rw [h]
  simp [List.lt_irrefl]

/-- Two numbers encoded one after the other compare as pairs. -/
theorem encode_pair_lt_iff (b n b' n' : UInt64) :
    encodeOrderPreservingVarUint64 b ++ encodeOrderPreservingVarUint64 n <
        encodeOrderPreservingVarUint64 b' ++ encodeOrderPreservingVarUint64 n' ↔
      Prod.lexLt (b, n) (b', n') := by
  rw [encode_append_lt_iff, encode_lt_encode_iff, Prod.lexLt]

/-- The encoding of `uint64` numbers: decoding reads back the number and the length of its
    encoding whatever follows, the encoding is one byte and the significant bytes, it compares
    as the numbers, and a decoder that succeeds consumes no more than it is given. -/
theorem orderPreservingVarUint64_spec :
    (∀ (n : UInt64) (rest : Bytes),
        decodeOrderPreservingVarUint64 (encodeOrderPreservingVarUint64 n ++ rest) =
          .ok (n, (encodeOrderPreservingVarUint64 n).length)) ∧
      (∀ n : UInt64, (encodeOrderPreservingVarUint64 n).length = 1 + byteLength n.toNat) ∧
      (∀ n m : UInt64,
        threeWay (encodeOrderPreservingVarUint64 n) (encodeOrderPreservingVarUint64 m) =
          threeWay n m) ∧
      ∀ (b : Bytes) (v : UInt64) (c : Nat),
        decodeOrderPreservingVarUint64 b = .ok (v, c) → c ≤ b.length := by
  refine ⟨decode_encode_append, fun n => ?_, ?_, fun _ _ _ h => le_length_of_decode h⟩
  · rw [length_encode]
    omega
  · exact threeWay_map encode_lt_encode_iff (fun _ _ => encode_inj)

/-- A number below `2^64` is kept whole as a `uint64`. -/
theorem toNat_toUInt64_of_lt {n : Nat} (h : n < 2 ^ 64) : n.toUInt64.toNat = n := by
  simpa using Nat.mod_eq_of_lt h

/-- The length of a byte string below `2^64`, as a `uint64`. -/
theorem toNat_length_toUInt64 {s : Bytes} (h : s.length < 2 ^ 64) :
    s.length.toUInt64.toNat = s.length :=
  toNat_toUInt64_of_lt h

/-! ## Heights -/

section Heights

variable {h1 h2 : Height}

/-- A height of `uint64` numbers is read back from its bytes, whatever follows. -/
theorem newHeightFromBytes_toBytes_append (hb : h1.blockNum < 2 ^ 64) (ht : h1.txNum < 2 ^ 64)
    (rest : Bytes) : newHeightFromBytes (h1.toBytes ++ rest) = .ok (h1, h1.toBytes.length) := by
  obtain ⟨b, t⟩ := h1
  simp only [newHeightFromBytes, Height.toBytes, List.append_assoc, decode_encode_append, bind,
    Except.bind]
  -- past the block number: the transaction number, then what follows
  rw [List.drop_left, decode_encode_append]
  simp [pure, Except.pure, newHeight, toNat_toUInt64_of_lt hb, toNat_toUInt64_of_lt ht]

theorem Height.toBytes_lt_toBytes_iff (hb1 : h1.blockNum < 2 ^ 64) (ht1 : h1.txNum < 2 ^ 64)
    (hb2 : h2.blockNum < 2 ^ 64) (ht2 : h2.txNum < 2 ^ 64) :
    h1.toBytes < h2.toBytes ↔
      h1.blockNum < h2.blockNum ∨ h1.blockNum = h2.blockNum ∧ h1.txNum < h2.txNum := by
  rw [Height.toBytes, Height.toBytes, encode_pair_lt_iff, Prod.lexLt, UInt64.lt_iff_toNat_lt,
    UInt64.lt_iff_toNat_lt, ← UInt64.toNat_inj, toNat_toUInt64_of_lt hb1,
    toNat_toUInt64_of_lt ht1, toNat_toUInt64_of_lt hb2, toNat_toUInt64_of_lt ht2]

theorem Height.toBytes_inj (hb1 : h1.blockNum < 2 ^ 64) (ht1 : h1.txNum < 2 ^ 64)
    (hb2 : h2.blockNum < 2 ^ 64) (ht2 : h2.txNum < 2 ^ 64) :
    h1.toBytes = h2.toBytes ↔ h1 = h2 := by
  obtain ⟨b1, t1⟩ := h1
  obtain ⟨b2, t2⟩ := h2
  rw [Height.toBytes, Height.toBytes, encode_append_inj, encode_inj, ← UInt64.toNat_inj,
    ← UInt64.toNat_inj, toNat_toUInt64_of_lt hb1, toNat_toUInt64_of_lt ht1,
    toNat_toUInt64_of_lt hb2, toNat_toUInt64_of_lt ht2, Height.mk.injEq]

/-- Heights of `uint64` numbers: `NewHeightFromBytes` reads a height back from its bytes
    whatever follows, and `bytes.Compare` of two heights' bytes is `Height.Compare`. -/
theorem height_toBytes_order_embedding (h1 h2 : Height) (hb1 : h1.blockNum < 2 ^ 64)
    (ht1 : h1.txNum < 2 ^ 64) (hb2 : h2.blockNum < 2 ^ 64) (ht2 : h2.txNum < 2 ^ 64)
    (rest : Bytes) :
    newHeightFromBytes (h1.toBytes ++ rest) = .ok (h1, h1.toBytes.length) ∧
      threeWay h1.toBytes h2.toBytes = h1.compare h2 := by
  refine ⟨newHeightFromBytes_toBytes_append hb1 ht1 rest, ?_⟩
  unfold threeWay
  rw [if_congr (Height.toBytes_lt_toBytes_iff hb1 ht1 hb2 ht2) rfl rfl,
    if_congr (Height.toBytes_inj hb1 ht1 hb2 ht2) rfl rfl]
  obtain ⟨b1, t1⟩ := h1
  obtain ⟨b2, t2⟩ := h2
  simp only [Height.compare, Height.mk.injEq]
  split_ifs <;> omega

/-- The largest heights: both numbers `2^64 - 1`, and a block number of one byte. -/
theorem height_toBytes_order_embedding_max :
    (2 ^ 64 - 1 < 2 ^ 64 ∧ 2 ^ 64 - 1 < 2 ^ 64 ∧ 1 < 2 ^ 64 ∧ 0 < 2 ^ 64) ∧
      newHeightFromBytes ((newHeight (2 ^ 64 - 1) (2 ^ 64 - 1)).toBytes ++ [7]) =
        .ok (newHeight (2 ^ 64 - 1) (2 ^ 64 - 1),
          (newHeight (2 ^ 64 - 1) (2 ^ 64 - 1)).toBytes.length) ∧
      threeWay (newHeight (2 ^ 64 - 1) (2 ^ 64 - 1)).toBytes (newHeight 1 0).toBytes =
        (newHeight (2 ^ 64 - 1) (2 ^ 64 - 1)).compare (newHeight 1 0) :=
  ⟨by decide, height_toBytes_order_embedding (newHeight (2 ^ 64 - 1) (2 ^ 64 - 1))
    (newHeight 1 0) (by decide) (by decide) (by decide) (by decide) [7]⟩

end Heights

end Fabric.Ledger
