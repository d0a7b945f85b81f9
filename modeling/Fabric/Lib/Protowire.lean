import Mathlib

/-
  The protocol buffer wire format, as Go's protowire package reads and writes it.

  A message on the wire is a sequence of field records: a tag, which is a varint holding the
  field number and the wire type, and a value whose extent the wire type fixes (a varint, four
  or eight bytes, a length-prefixed byte string, or a group closed by an end-group marker).
  Bytes are lists of `UInt8`; a varint's value is a natural number, which the ten-byte limit
  of `consumeVarint` keeps below `2^64`, the range of Go's `uint64`.

  The consume functions return the length they read, or an error code, as Go's do with a
  negative length. Their one property that every decoder above them needs is that they read
  a prefix and nothing past it: a result depends only on the bytes it consumed
  (`consumeVarintN_of_take_eq`, `consumeFieldValueD_of_take_eq`). From it:
  * `fieldRecords`, the records a decoder reads from a message, splits a concatenation into
    the records of its parts (`fieldRecords_append`), and a message is the concatenation of
    its records' bytes (`fieldRecords_flatten`);
  * `eq_of_fieldRecords_delimited`: strings whose records begin with a delimiter record and
    hold no other are a prefix code, which is how a list of such messages is recovered from
    their concatenation.
-/

namespace Protowire

/-! ## Wire types, tags and error codes -/

/-- The wire type, the low three bits of a tag (`protowire.Type`). -/
inductive WireType
  | varint | fixed64 | bytes | startGroup | endGroup | fixed32 | reserved6 | reserved7
  deriving DecidableEq, Repr

namespace WireType

/-- The wire type's code. -/
def toNat : WireType → Nat
  | varint => 0 | fixed64 => 1 | bytes => 2 | startGroup => 3 | endGroup => 4 | fixed32 => 5
  | reserved6 => 6 | reserved7 => 7

/-- `Type(x & 7)`. -/
def ofLowBits (x : Nat) : WireType :=
  match x % 8 with
  | 0 => varint | 1 => fixed64 | 2 => bytes | 3 => startGroup | 4 => endGroup | 5 => fixed32
  | 6 => reserved6 | _ => reserved7

theorem toNat_lt (t : WireType) : t.toNat < 8 := by
  cases t <;> decide

@[simp] theorem ofLowBits_tag (num : Nat) (t : WireType) : ofLowBits (num * 8 + t.toNat) = t := by
  have h : (num * 8 + t.toNat) % 8 = t.toNat := by
    have := toNat_lt t
    omega
  simp only [ofLowBits, h]
  cases t <;> rfl

end WireType

/-- The error codes of the consume functions (`errCodeTruncated`, ...). -/
inductive ParseError
  | truncated | fieldNumber | overflow | reserved | endGroup | recursionDepth
  deriving DecidableEq, Repr

/-- `MaxValidNumber`: field numbers run from 1 to `2^29 - 1`. -/
def maxValidNumber : Nat := 2 ^ 29 - 1

/-- `math.MaxInt32`: `DecodeTag` reports any larger number as `-1`. -/
def maxInt32 : Nat := 2 ^ 31 - 1

/-- `DefaultRecursionLimit`: how deeply groups may nest inside an unknown field. -/
def defaultRecursionLimit : Int := 10000

/-- A consume function reads a prefix of its input: it reports no more bytes than there are,
    and returns the same on any input that agrees with this one on the bytes it reported. -/
def ReadsPrefix {ε β : Type} (f : List UInt8 → Except ε β) (len : β → Nat) : Prop :=
  ∀ b r, f b = .ok r → len r ≤ b.length ∧ ∀ b', b'.take (len r) = b.take (len r) → f b' = .ok r

theorem ReadsPrefix.append {ε β : Type} {f : List UInt8 → Except ε β} {len : β → Nat}
    (hf : ReadsPrefix f len) {b : List UInt8} {r : β} (h : f b = .ok r) (c : List UInt8) :
    f (b ++ c) = .ok r :=
  (hf b r h).2 _ (List.take_append_of_le_length (hf b r h).1)

theorem ReadsPrefix.take {ε β : Type} {f : List UInt8 → Except ε β} {len : β → Nat}
    (hf : ReadsPrefix f len) {b : List UInt8} {r : β} (h : f b = .ok r) :
    f (b.take (len r)) = .ok r :=
  (hf b r h).2 (b.take (len r)) (by rw [List.take_take, Nat.min_self])

/-! ## Varints -/

/-- `ConsumeVarint`, with `k` more bytes allowed after the first. Go unrolls the ten bytes of
    a `uint64`: each byte below `0x80` ends the varint, and the tenth may carry only bit 63. -/
def consumeVarintN : Nat → List UInt8 → Except ParseError (Nat × Nat)
  | _, [] => .error .truncated
  | 0, y :: _ => if y < 2 then .ok (y.toNat, 1) else .error .overflow
  | k + 1, y :: rest =>
    if y < 0x80 then .ok (y.toNat, 1)
    else do
      let (v, n) ← consumeVarintN k rest
      pure (y.toNat - 0x80 + 0x80 * v, n + 1)

/-- `ConsumeVarint`: the value and the number of bytes read. -/
def consumeVarint (b : List UInt8) : Except ParseError (Nat × Nat) := consumeVarintN 9 b

/-- `AppendVarint`, with `k` more bytes allowed after the first: seven bits a byte, least
    significant first, the continuation bit on all but the last. -/
def appendVarintN : Nat → Nat → List UInt8
  | 0, v => [v.toUInt8]
  | k + 1, v =>
    if v < 0x80 then [v.toUInt8] else (v % 0x80 + 0x80).toUInt8 :: appendVarintN k (v / 0x80)

/-- `AppendVarint` of a `uint64` (Go's switch over the ten lengths is this loop). -/
def appendVarint (v : Nat) : List UInt8 := appendVarintN 9 v

theorem toUInt8_toNat_of_lt {v : Nat} (h : v < 256) : v.toUInt8.toNat = v := by
  simp only [Nat.toUInt8_eq, UInt8.toNat_ofNat']
  omega

theorem consumeVarintN_appendVarintN (k v : Nat) (hv : v < 2 * 0x80 ^ k) (rest : List UInt8) :
    consumeVarintN k (appendVarintN k v ++ rest) = .ok (v, (appendVarintN k v).length) := by
  induction k generalizing v with
  | zero =>
    have hy : v.toUInt8.toNat = v := toUInt8_toNat_of_lt (by omega)
    have hlt : v.toUInt8 < 2 := by
      rw [UInt8.lt_iff_toNat_lt, hy]
      simp only [Nat.pow_zero] at hv
      exact hv
    simp [consumeVarintN, appendVarintN, hlt, hy]
  | succ k ih =>
    by_cases hsmall : v < 0x80
    · -- one byte: the varint ends here
      have hy : v.toUInt8.toNat = v := toUInt8_toNat_of_lt (by omega)
      have hlt : v.toUInt8 < 0x80 := by
        rw [UInt8.lt_iff_toNat_lt, hy]
        exact hsmall
      simp [consumeVarintN, appendVarintN, hsmall, hlt, hy]
    · -- a continuation byte, then the varint of `v / 0x80`
      have hy : (v % 0x80 + 0x80).toUInt8.toNat = v % 0x80 + 0x80 := toUInt8_toNat_of_lt (by omega)
      have hge : ¬ (v % 0x80 + 0x80).toUInt8 < 0x80 := by
        rw [UInt8.lt_iff_toNat_lt, hy]
        simp
      have hq : v / 0x80 < 2 * 0x80 ^ k := by
        rw [Nat.pow_succ] at hv
        omega
      simp only [appendVarintN, hsmall, if_false, List.cons_append, consumeVarintN, hge, ih _ hq]
      simp only [bind, Except.bind, pure, Except.pure, List.length_cons, hy]
      congr 2
      omega

theorem consumeVarint_appendVarint (v : Nat) (hv : v < 2 ^ 64) (rest : List UInt8) :
    consumeVarint (appendVarint v ++ rest) = .ok (v, (appendVarint v).length) :=
  consumeVarintN_appendVarintN 9 v (by omega) rest

/-- A value below `0x80^j` takes at most `j` bytes. -/
theorem length_appendVarintN_le :
    ∀ (k j v : Nat), 1 ≤ j → v < 0x80 ^ j → (appendVarintN k v).length ≤ j
  | 0, j, v, hj, _ => by simpa [appendVarintN] using hj
  | k + 1, j, v, hj, hv => by
    by_cases hsmall : v < 0x80
    · simpa [appendVarintN, hsmall] using hj
    · -- a continuation byte, then `v / 0x80`, which takes one byte fewer
      obtain ⟨i, rfl⟩ : ∃ i, j = i + 1 := ⟨j - 1, by omega⟩
      have hi : 1 ≤ i := by
        by_contra hi
        have : i = 0 := by omega
        subst this
        omega
      have hq : v / 0x80 < 0x80 ^ i := by
        rw [Nat.pow_succ] at hv
        omega
      have := length_appendVarintN_le k i (v / 0x80) hi hq
      simp only [appendVarintN, hsmall, if_false, List.length_cons]
      omega

/-- A value below `2^56` takes at most eight bytes. -/
theorem length_appendVarint_le_eight {v : Nat} (hv : v < 2 ^ 56) : (appendVarint v).length ≤ 8 :=
  length_appendVarintN_le 9 8 v (by omega) (by simpa using hv)

theorem appendVarintN_ne_nil (k v : Nat) : appendVarintN k v ≠ [] := by
  cases k with
  | zero => simp [appendVarintN]
  | succ k => unfold appendVarintN; split <;> simp

/-- A value of at least `0x80^j` takes more than `j` bytes. -/
theorem lt_length_appendVarintN :
    ∀ (k j v : Nat), j ≤ k → 0x80 ^ j ≤ v → j < (appendVarintN k v).length
  | k, 0, v, _, _ => List.length_pos_of_ne_nil (appendVarintN_ne_nil k v)
  | 0, _ + 1, _, hj, _ => absurd hj (by omega)
  | k + 1, j + 1, v, hj, hv => by
    -- a continuation byte, then `v / 0x80`, which takes one byte fewer
    have hbig : ¬ v < 0x80 := by
      have : 0x80 ≤ 0x80 ^ (j + 1) := Nat.le_self_pow (by omega) _
      omega
    have hq : 0x80 ^ j ≤ v / 0x80 := by
      rw [Nat.pow_succ] at hv
      exact (Nat.le_div_iff_mul_le (by decide)).mpr hv
    have := lt_length_appendVarintN k j (v / 0x80) (by omega) hq
    simp only [appendVarintN, hbig, if_false, List.length_cons]
    omega

/-- A varint's bytes: one at least, no more than were there, and its value below
    `2 * 128^k`. -/
theorem consumeVarintN_spec {k : Nat} {b : List UInt8} {v n : Nat}
    (h : consumeVarintN k b = .ok (v, n)) : 1 ≤ n ∧ n ≤ b.length ∧ v < 2 * 0x80 ^ k := by
  induction k generalizing b v n with
  | zero =>
    match b, h with
    | y :: _, h =>
      simp only [consumeVarintN] at h
      split at h
      · next hy =>
        cases h
        rw [UInt8.lt_iff_toNat_lt] at hy
        simp at hy ⊢
        omega
      · cases h
  | succ k ih =>
    match b, h with
    | y :: rest, h =>
      simp only [consumeVarintN] at h
      split at h
      · next hy =>
        cases h
        rw [UInt8.lt_iff_toNat_lt] at hy
        have : 0 < 0x80 ^ k := Nat.pow_pos (by decide)
        simp at hy ⊢
        rw [Nat.pow_succ]
        omega
      · match hr : consumeVarintN k rest, h with
        | .ok (v', n'), h =>
          simp only [bind, Except.bind, pure, Except.pure, Except.ok.injEq, Prod.mk.injEq] at h
          obtain ⟨rfl, rfl⟩ := h
          obtain ⟨h1, h2, h3⟩ := ih hr
          have hy := UInt8.toNat_lt y
          simp only [List.length_cons, Nat.pow_succ]
          exact ⟨by omega, by omega, by omega⟩

theorem consumeVarint_spec {b : List UInt8} {v n : Nat} (h : consumeVarint b = .ok (v, n)) :
    1 ≤ n ∧ n ≤ b.length ∧ v < 2 ^ 64 := by
  obtain ⟨h1, h2, h3⟩ := consumeVarintN_spec h
  exact ⟨h1, h2, by omega⟩

/-- A varint's value depends only on the bytes it spans. -/
theorem consumeVarintN_of_take_eq {k : Nat} {b b' : List UInt8} {v n : Nat}
    (h : consumeVarintN k b = .ok (v, n)) (ht : b'.take n = b.take n) :
    consumeVarintN k b' = .ok (v, n) := by
  induction k generalizing b b' v n with
  | zero =>
    match b, b', h with
    | y :: _, y' :: _, h =>
      simp only [consumeVarintN] at h ⊢
      split at h
      · cases h
        simp only [List.take_succ_cons, List.take_zero, List.cons.injEq] at ht
        rw [ht.1]
        simp_all
      · cases h
    | _ :: _, [], h =>
      have := (consumeVarintN_spec h).1
      obtain ⟨m, rfl⟩ : ∃ m, n = m + 1 := ⟨n - 1, by omega⟩
      simp at ht
  | succ k ih =>
    match b, b', h with
    | y :: rest, y' :: rest', h =>
      simp only [consumeVarintN] at h ⊢
      split at h
      · cases h
        simp only [List.take_succ_cons, List.take_zero, List.cons.injEq] at ht
        rw [ht.1]
        simp_all
      · match hr : consumeVarintN k rest, h with
        | .ok (v', n'), h =>
          simp only [bind, Except.bind, pure, Except.pure, Except.ok.injEq, Prod.mk.injEq] at h
          obtain ⟨rfl, rfl⟩ := h
          simp only [List.take_succ_cons, List.cons.injEq] at ht
          obtain ⟨rfl, ht⟩ := ht
          simp [*, ih hr ht]
    | _ :: _, [], h =>
      have := (consumeVarintN_spec h).1
      obtain ⟨m, rfl⟩ : ∃ m, n = m + 1 := ⟨n - 1, by omega⟩
      simp at ht

theorem readsPrefix_consumeVarint : ReadsPrefix consumeVarint Prod.snd := by
  rintro b ⟨v, n⟩ h
  exact ⟨(consumeVarint_spec h).2.1, fun _ ht => consumeVarintN_of_take_eq h ht⟩


/-- A varint of more than eight bytes cannot be read from its first eight. -/
theorem consumeVarint_take_eight_appendVarint {v : Nat} (hv : 2 ^ 56 ≤ v) (hv' : v < 2 ^ 64)
    (rest : List UInt8) : ∃ err, consumeVarint ((appendVarint v ++ rest).take 8) = .error err := by
  cases h : consumeVarint ((appendVarint v ++ rest).take 8) with
  | error err => exact ⟨err, rfl⟩
  | ok r =>
    obtain ⟨w, n⟩ := r
    -- what it read from eight bytes it would read from all of them
    obtain ⟨hn, hsame⟩ := readsPrefix_consumeVarint _ _ h
    have hn8 : n ≤ 8 := by
      simp only [List.length_take] at hn
      omega
    have hfull := hsame (appendVarint v ++ rest) (by rw [List.take_take, Nat.min_eq_left hn8])
    rw [consumeVarint_appendVarint v hv' rest, Except.ok.injEq, Prod.mk.injEq] at hfull
    have hlen := lt_length_appendVarintN 9 8 v (by omega) (by simpa using hv)
    rw [appendVarint] at hfull
    omega

/-- A varint read from a prefix of a varint's bytes is that varint: varints are prefix-free. -/
theorem consumeVarint_of_prefix_appendVarint {v : Nat} (hv : v < 2 ^ 64) {b rest : List UInt8}
    (hb : b <+: appendVarint v ++ rest) {w n : Nat} (h : consumeVarint b = .ok (w, n)) :
    w = v ∧ n = (appendVarint v).length := by
  obtain ⟨hn, hsame⟩ := readsPrefix_consumeVarint _ _ h
  obtain ⟨t, ht⟩ := hb
  have hfull := hsame (b ++ t) (List.take_append_of_le_length hn)
  rw [ht, consumeVarint_appendVarint v hv rest, Except.ok.injEq, Prod.mk.injEq] at hfull
  exact ⟨hfull.1.symm, hfull.2.symm⟩

/-! ## Tags and values -/

/-- `AppendTag`: the varint of `EncodeTag(num, typ) = num << 3 | typ`. -/
def appendTag (num : Nat) (typ : WireType) : List UInt8 := appendVarint (num * 8 + typ.toNat)

/-- `ConsumeTag`: `DecodeTag` reports a number beyond `MaxInt32` as `-1`, and every number
    below 1 is rejected. -/
def consumeTag (b : List UInt8) : Except ParseError (Nat × WireType × Nat) := do
  let (v, n) ← consumeVarint b
  if v / 8 > maxInt32 ∨ v / 8 < 1 then throw .fieldNumber
  pure (v / 8, WireType.ofLowBits v, n)

/-- `ConsumeFixed32`: four little-endian bytes. -/
def consumeFixed32 (b : List UInt8) : Except ParseError (Nat × Nat) :=
  if b.length < 4 then .error .truncated
  else .ok ((b.take 4).foldr (fun y acc => y.toNat + 0x100 * acc) 0, 4)

/-- `ConsumeFixed64`: eight little-endian bytes. -/
def consumeFixed64 (b : List UInt8) : Except ParseError (Nat × Nat) :=
  if b.length < 8 then .error .truncated
  else .ok ((b.take 8).foldr (fun y acc => y.toNat + 0x100 * acc) 0, 8)

/-- `ConsumeBytes`: a varint length, then that many bytes. -/
def consumeBytes (b : List UInt8) : Except ParseError (List UInt8 × Nat) := do
  let (m, n) ← consumeVarint b
  if m > (b.drop n).length then throw .truncated
  pure ((b.drop n).take m, n + m)

/-- `AppendBytes`: the length as a varint, then the bytes. -/
def appendBytes (v : List UInt8) : List UInt8 := appendVarint v.length ++ v

theorem consumeTag_eq_ok {b : List UInt8} {num : Nat} {t : WireType} {n : Nat} :
    consumeTag b = .ok (num, t, n) ↔
      ∃ v, consumeVarint b = .ok (v, n) ∧ 1 ≤ v / 8 ∧ v / 8 ≤ maxInt32 ∧
        num = v / 8 ∧ t = .ofLowBits v := by
  unfold consumeTag
  cases hv : consumeVarint b with
  | error e => simp [bind, Except.bind]
  | ok p =>
    obtain ⟨v, m⟩ := p
    by_cases hr : v / 8 > maxInt32 ∨ v / 8 < 1
    · simp only [bind, Except.bind, hr, if_true, throw, throwThe, MonadExceptOf.throw,
        reduceCtorEq, false_iff, not_exists, not_and]
      rintro x ⟨⟩ h1 h2
      exfalso
      omega
    · simp only [bind, Except.bind, hr, if_false, pure, Except.pure, Except.ok.injEq,
        Prod.mk.injEq]
      constructor
      · rintro ⟨rfl, rfl, rfl⟩
        exact ⟨v, ⟨rfl, rfl⟩, by omega, by omega, rfl, rfl⟩
      · rintro ⟨v', ⟨rfl, rfl⟩, -, -, rfl, rfl⟩
        exact ⟨rfl, rfl, rfl⟩

theorem consumeTag_spec {b : List UInt8} {num : Nat} {t : WireType} {n : Nat}
    (h : consumeTag b = .ok (num, t, n)) : 1 ≤ n ∧ n ≤ b.length := by
  obtain ⟨v, hv, -⟩ := consumeTag_eq_ok.mp h
  exact ⟨(consumeVarint_spec hv).1, (consumeVarint_spec hv).2.1⟩

theorem readsPrefix_consumeTag : ReadsPrefix consumeTag (fun r => r.2.2) := by
  rintro b ⟨num, t, n⟩ h
  obtain ⟨v, hv, h1, h2, rfl, rfl⟩ := consumeTag_eq_ok.mp h
  refine ⟨(consumeVarint_spec hv).2.1, fun b' ht => ?_⟩
  exact consumeTag_eq_ok.mpr ⟨v, (readsPrefix_consumeVarint b _ hv).2 b' ht, h1, h2, rfl, rfl⟩

theorem readsPrefix_consumeFixed32 : ReadsPrefix consumeFixed32 Prod.snd := by
  rintro b ⟨v, n⟩ h
  unfold consumeFixed32 at h ⊢
  split at h
  · cases h
  · next hlen =>
    cases h
    refine ⟨by omega, fun b' ht => ?_⟩
    have hlen' : ¬ b'.length < 4 := by
      have := congrArg List.length ht
      simp only [List.length_take] at this
      omega
    rw [if_neg hlen', ht]

theorem readsPrefix_consumeFixed64 : ReadsPrefix consumeFixed64 Prod.snd := by
  rintro b ⟨v, n⟩ h
  unfold consumeFixed64 at h ⊢
  split at h
  · cases h
  · next hlen =>
    cases h
    refine ⟨by omega, fun b' ht => ?_⟩
    have hlen' : ¬ b'.length < 8 := by
      have := congrArg List.length ht
      simp only [List.length_take] at this
      omega
    rw [if_neg hlen', ht]

theorem consumeBytes_eq_ok {b c : List UInt8} {k : Nat} :
    consumeBytes b = .ok (c, k) ↔
      ∃ m n, consumeVarint b = .ok (m, n) ∧ m ≤ (b.drop n).length ∧
        c = (b.drop n).take m ∧ k = n + m := by
  unfold consumeBytes
  cases hv : consumeVarint b with
  | error e => simp [bind, Except.bind]
  | ok p =>
    obtain ⟨m, n⟩ := p
    by_cases hr : m > (b.drop n).length
    · simp only [bind, Except.bind, hr, if_true, throw, throwThe, MonadExceptOf.throw,
        reduceCtorEq, false_iff, not_exists, not_and]
      rintro m' n' ⟨⟩ h1
      exfalso
      omega
    · simp only [bind, Except.bind, hr, if_false, pure, Except.pure, Except.ok.injEq,
        Prod.mk.injEq]
      constructor
      · rintro ⟨rfl, rfl⟩
        exact ⟨m, n, ⟨rfl, rfl⟩, by omega, rfl, rfl⟩
      · rintro ⟨m', n', ⟨rfl, rfl⟩, -, rfl, rfl⟩
        exact ⟨rfl, rfl⟩

/-- A length-delimited value holds fewer than `2^64` bytes, the most its varint can count. -/
theorem consumeBytes_length_lt {b c : List UInt8} {k : Nat} (h : consumeBytes b = .ok (c, k)) :
    c.length < 2 ^ 64 := by
  obtain ⟨m, n, hv, -, rfl, -⟩ := consumeBytes_eq_ok.mp h
  have := (consumeVarint_spec hv).2.2
  simp only [List.length_take]
  omega

theorem readsPrefix_consumeBytes : ReadsPrefix consumeBytes Prod.snd := by
  rintro b ⟨c, k⟩ h
  obtain ⟨m, n, hv, hm, rfl, rfl⟩ := consumeBytes_eq_ok.mp h
  have hn := (consumeVarint_spec hv).2.1
  simp only [List.length_drop] at hm
  refine ⟨by omega, fun b' ht => consumeBytes_eq_ok.mpr ⟨m, n, ?_, ?_, ?_, rfl⟩⟩
  · -- the varint lies inside the agreed prefix
    refine (readsPrefix_consumeVarint b _ hv).2 b' ?_
    have := congrArg (List.take n) ht
    simpa [List.take_take, Nat.min_eq_left (Nat.le_add_right n m)] using this
  · have := congrArg List.length ht
    simp only [List.length_take, List.length_drop] at this ⊢
    omega
  · have := congrArg (List.drop n) ht
    simp only [List.drop_take, Nat.add_sub_cancel_left] at this
    exact this.symm

theorem consumeBytes_appendBytes (v : List UInt8) (hv : v.length < 2 ^ 64) (rest : List UInt8) :
    consumeBytes (appendBytes v ++ rest) = .ok (v, (appendBytes v).length) := by
  have hvar := consumeVarint_appendVarint v.length hv (v ++ rest)
  refine consumeBytes_eq_ok.mpr ⟨v.length, (appendVarint v.length).length, ?_, ?_, ?_, ?_⟩
  · simpa [appendBytes] using hvar
  · simp [appendBytes]
  · simp [appendBytes]
  · simp [appendBytes, Nat.add_comm]

mutual

/-- `consumeFieldValueD`: the length of a field's value, given its number and wire type; a
    group runs to its matching end-group marker and may nest `depth` more levels. -/
def consumeFieldValueD (num : Nat) (typ : WireType) (b : List UInt8) (depth : Int) :
    Except ParseError Nat :=
  match typ with
  | .varint => Prod.snd <$> consumeVarint b
  | .fixed32 => Prod.snd <$> consumeFixed32 b
  | .fixed64 => Prod.snd <$> consumeFixed64 b
  | .bytes => Prod.snd <$> consumeBytes b
  | .startGroup => if depth < 0 then .error .recursionDepth else consumeGroupBody num b depth
  | .endGroup => .error .endGroup
  | .reserved6 | .reserved7 => .error .reserved
termination_by (b.length, 1)

/-- The loop of `consumeFieldValueD`'s group case: fields, until an end-group marker, which
    must carry the group's own number. -/
def consumeGroupBody (num : Nat) (b : List UInt8) (depth : Int) : Except ParseError Nat :=
  match _h : consumeTag b with
  | .error e => .error e
  | .ok (num2, typ2, n) =>
    if typ2 = .endGroup then
      if num ≠ num2 then .error .endGroup else .ok n
    else
      match consumeFieldValueD num2 typ2 (b.drop n) (depth - 1) with
      | .error e => .error e
      | .ok m => (fun k => n + m + k) <$> consumeGroupBody num (b.drop (n + m)) depth
termination_by (b.length, 0)
decreasing_by
  all_goals
    have hpos : 1 ≤ n ∧ n ≤ b.length := by
      simp only [consumeTag, bind, Except.bind] at _h
      split at _h
      · cases _h
      · next v hv =>
        have := consumeVarint_spec hv
        split at _h <;> simp_all [pure, Except.pure, throw, throwThe, MonadExceptOf.throw]
    simp only [List.length_drop]
    apply Prod.Lex.left
    omega

end

/-- `ConsumeFieldValue`. -/
def consumeFieldValue (num : Nat) (typ : WireType) (b : List UInt8) : Except ParseError Nat :=
  consumeFieldValueD num typ b defaultRecursionLimit

theorem map_snd_eq_ok {ε α : Type} (x : Except ε (α × Nat)) (n : Nat) :
    (Prod.snd <$> x) = .ok n ↔ ∃ v, x = .ok (v, n) := by
  rcases x with e | ⟨v, m⟩ <;> simp [Functor.map, Except.map]

/-- A scalar value reads a prefix when the consume function beneath it does. -/
theorem readsPrefix_map_snd {ε α : Type} {f : List UInt8 → Except ε (α × Nat)}
    (hf : ReadsPrefix f Prod.snd) : ReadsPrefix (fun b => Prod.snd <$> f b) id := by
  intro b n h
  obtain ⟨v, hv⟩ := (map_snd_eq_ok _ _).mp h
  refine ⟨(hf b _ hv).1, fun b' ht => (map_snd_eq_ok _ _).mpr ⟨v, (hf b _ hv).2 b' ht⟩⟩

/-- `consumeGroupBody` once its first tag is read. -/
theorem consumeGroupBody_of_consumeTag {num : Nat} {b : List UInt8} {d : Int} {num2 : Nat}
    {typ2 : WireType} {n : Nat} (h : consumeTag b = .ok (num2, typ2, n)) :
    consumeGroupBody num b d =
      if typ2 = .endGroup then (if num ≠ num2 then .error .endGroup else .ok n)
      else match consumeFieldValueD num2 typ2 (b.drop n) (d - 1) with
        | .error e => .error e
        | .ok m => (fun k => n + m + k) <$> consumeGroupBody num (b.drop (n + m)) d := by
  rw [consumeGroupBody]
  split
  · next e he => rw [h] at he; cases he
  · next num2' typ2' n' he =>
    rw [h] at he
    cases he
    rfl

/-- A field value, groups included, reads a prefix of its input. -/
theorem readsPrefix_consumeFieldValueD :
    (∀ num t d, ReadsPrefix (fun b => consumeFieldValueD num t b d) id) ∧
      ∀ num d, ReadsPrefix (fun b => consumeGroupBody num b d) id := by
  -- the two motives: a field value, and the rest of a group, read a prefix of their input
  have hm := consumeFieldValueD.mutual_induct
    (fun num t b d => ∀ n, consumeFieldValueD num t b d = .ok n →
      n ≤ b.length ∧ ∀ b', b'.take n = b.take n → consumeFieldValueD num t b' d = .ok n)
    (fun num b d => ∀ n, consumeGroupBody num b d = .ok n →
      n ≤ b.length ∧ ∀ b', b'.take n = b.take n → consumeGroupBody num b' d = .ok n)
  refine (fun h => ⟨fun num t d b n => h.1 num t b d n, fun num d b n => h.2 num b d n⟩) (hm
    ?varint ?fixed32 ?fixed64 ?bytes ?depth ?group ?endGroup ?reserved6 ?reserved7
    ?tagError ?endMismatch ?endMatch ?valueError ?next)
  case varint =>
    intro num b d
    simp only [consumeFieldValueD]
    exact readsPrefix_map_snd readsPrefix_consumeVarint b
  case fixed32 =>
    intro num b d
    simp only [consumeFieldValueD]
    exact readsPrefix_map_snd readsPrefix_consumeFixed32 b
  case fixed64 =>
    intro num b d
    simp only [consumeFieldValueD]
    exact readsPrefix_map_snd readsPrefix_consumeFixed64 b
  case bytes =>
    intro num b d
    simp only [consumeFieldValueD]
    exact readsPrefix_map_snd readsPrefix_consumeBytes b
  case depth =>
    intro num b d hd n h
    simp [consumeFieldValueD, hd] at h
  case group =>
    intro num b d hd ih n h
    simp only [consumeFieldValueD, hd, if_false] at h ⊢
    exact ih n h
  case endGroup => intro num b d n h; simp [consumeFieldValueD] at h
  case reserved6 => intro num b d n h; simp [consumeFieldValueD] at h
  case reserved7 => intro num b d n h; simp [consumeFieldValueD] at h
  case tagError =>
    intro num b d e he n h
    rw [consumeGroupBody] at h
    split at h
    · cases h
    · next _ _ _ he' => rw [he] at he'; cases he'
  case endMismatch =>
    intro num b d num2 n hne ht k h
    rw [consumeGroupBody_of_consumeTag ht, if_pos rfl, if_pos hne] at h
    cases h
  case endMatch =>
    -- the group ends at this marker: only the tag was read
    intro num b d num2 n heq ht k h
    simp only [consumeGroupBody_of_consumeTag ht, heq, if_true, if_false,
      Except.ok.injEq] at h
    subst h
    refine ⟨(consumeTag_spec ht).2, fun b' hb' => ?_⟩
    rw [consumeGroupBody_of_consumeTag ((readsPrefix_consumeTag b _ ht).2 b' hb')]
    simp [heq]
  case valueError =>
    intro num b d num2 typ2 n ht hne e he _ k h
    rw [consumeGroupBody_of_consumeTag ht, if_neg hne, he] at h
    cases h
  case next =>
    -- a field, then the rest of the group: each part reads inside the agreed prefix
    intro num b d num2 typ2 n ht hne m hm ih1 ih2 k h
    rw [consumeGroupBody_of_consumeTag ht, if_neg hne, hm] at h
    dsimp only at h
    obtain ⟨j, hj, rfl⟩ : ∃ j, consumeGroupBody num (b.drop (n + m)) d = .ok j ∧ k = n + m + j := by
      cases hr : consumeGroupBody num (b.drop (n + m)) d with
      | error e => rw [hr] at h; cases h
      | ok j =>
        rw [hr] at h
        simp only [Functor.map, Except.map, Except.ok.injEq] at h
        exact ⟨j, rfl, h.symm⟩
    have hn := (consumeTag_spec ht).2
    obtain ⟨hm1, hm2⟩ := ih1 m hm
    obtain ⟨hj1, hj2⟩ := ih2 j hj
    simp only [List.length_drop] at hm1 hj1
    refine ⟨by omega, fun b' hb' => ?_⟩
    have htag : consumeTag b' = .ok (num2, typ2, n) := by
      refine (readsPrefix_consumeTag b _ ht).2 b' ?_
      have := congrArg (List.take n) hb'
      simpa [List.take_take, Nat.min_eq_left (show n ≤ n + m + j by omega)] using this
    have hval : consumeFieldValueD num2 typ2 (b'.drop n) (d - 1) = .ok m := by
      refine hm2 _ ?_
      have := congrArg (fun l => (l.drop n).take m) hb'
      simpa [List.drop_take, List.take_take, Nat.min_eq_left (show m ≤ n + m + j - n by omega)]
        using this
    have hrest : consumeGroupBody num (b'.drop (n + m)) d = .ok j := by
      refine hj2 _ ?_
      have := congrArg (fun l => (l.drop (n + m)).take j) hb'
      simpa [List.drop_take, List.take_take, Nat.add_sub_cancel_left] using this
    rw [consumeGroupBody_of_consumeTag htag, if_neg hne, hval]
    dsimp only
    rw [hrest]
    rfl

theorem readsPrefix_consumeFieldValue (num : Nat) (t : WireType) :
    ReadsPrefix (fun b => consumeFieldValue num t b) id :=
  readsPrefix_consumeFieldValueD.1 num t defaultRecursionLimit

/-! ## Field records -/

/-- A field record as a decoder reads it: the bytes of its tag, the number and wire type the
    tag holds, and the bytes of its value. -/
structure Record where
  tag : List UInt8
  num : Nat
  typ : WireType
  value : List UInt8
  deriving DecidableEq, Repr

/-- The record's bytes on the wire. -/
def Record.bytes (r : Record) : List UInt8 := r.tag ++ r.value

/-- The tag check of a generated message's decoder: a number from 1 to `MaxValidNumber`, and
    no end-group marker, since a message that is not a group has none to close. -/
def validTag (tag : Nat) : Bool :=
  1 ≤ tag / 8 && tag / 8 ≤ maxValidNumber && WireType.ofLowBits tag != .endGroup

/-- The records of a message, read one after another as a generated message's decoder reads
    them: the tag and its check, then `ConsumeFieldValue` for the value. -/
def fieldRecords (b : List UInt8) : Option (List Record) :=
  match b with
  | [] => some []
  | y :: ys =>
    match _h : consumeVarint (y :: ys) with
    | .error _ => none
    | .ok (tag, tn) =>
      if validTag tag then
        let rest := (y :: ys).drop tn
        match consumeFieldValue (tag / 8) (.ofLowBits tag) rest with
        | .error _ => none
        | .ok n =>
          (⟨(y :: ys).take tn, tag / 8, .ofLowBits tag, rest.take n⟩ :: ·) <$>
            fieldRecords (rest.drop n)
      else none
termination_by b.length
decreasing_by
  have := (consumeVarint_spec _h).1
  simp only [List.length_drop, List.length_cons]
  omega

@[simp] theorem fieldRecords_nil : fieldRecords [] = some [] := by
  rw [fieldRecords]

/-- `fieldRecords` once the first record's tag and value are read. -/
theorem fieldRecords_of_consumeVarint {b : List UInt8} {tag tn n : Nat}
    (h : consumeVarint b = .ok (tag, tn)) (hv : validTag tag)
    (hn : consumeFieldValue (tag / 8) (.ofLowBits tag) (b.drop tn) = .ok n) :
    fieldRecords b = (⟨b.take tn, tag / 8, .ofLowBits tag, (b.drop tn).take n⟩ :: ·) <$>
      fieldRecords ((b.drop tn).drop n) := by
  match b, h with
  | y :: ys, h =>
    rw [fieldRecords]
    split
    · next e he => rw [h] at he; cases he
    · next tag' tn' he =>
      rw [h] at he
      cases he
      simp only [hv, if_true, hn]

/-- A message is the concatenation of its records. -/
theorem fieldRecords_flatten {b : List UInt8} {rs : List Record} (h : fieldRecords b = some rs) :
    (rs.map Record.bytes).flatten = b := by
  fun_induction fieldRecords b generalizing rs with
  | case1 => cases h; rfl
  | case2 => cases h
  | case3 => cases h
  | case4 y ys tag tn hv hval rest n hn =>
    rename_i ih
    cases hr : fieldRecords (((y :: ys).drop tn).drop n) with
    | none => rw [hr] at h; cases h
    | some rs' =>
      rw [hr] at h
      cases h
      simp only [List.map_cons, List.flatten_cons, ih hr, Record.bytes, List.append_assoc,
        List.take_append_drop]
      exact List.take_append_drop tn (y :: ys)
  | case5 => cases h

/-- The records of a concatenation whose first part parses on its own: the first part's records,
    then the second's. -/
theorem fieldRecords_append {a : List UInt8} {ra : List Record} (h : fieldRecords a = some ra)
    (c : List UInt8) : fieldRecords (a ++ c) = (ra ++ ·) <$> fieldRecords c := by
  fun_induction fieldRecords a generalizing ra with
  | case1 => cases h; simp
  | case2 => cases h
  | case3 => cases h
  | case4 y ys tag tn hv hval rest n hn =>
    rename_i ih
    cases hra' : fieldRecords (((y :: ys).drop tn).drop n) with
    | none => rw [hra'] at h; cases h
    | some ra' =>
    rw [hra'] at h
    cases h
    have htn := (consumeVarint_spec hv).2.1
    have hnl : n ≤ ((y :: ys).drop tn).length := (readsPrefix_consumeFieldValue _ _ _ n hn).1
    have hdrop : (y :: ys ++ c).drop tn = (y :: ys).drop tn ++ c :=
      List.drop_append_of_le_length htn
    rw [fieldRecords_of_consumeVarint (readsPrefix_consumeVarint.append hv c) hval
      (by rw [hdrop]; exact (readsPrefix_consumeFieldValue _ _).append hn c)]
    rw [hdrop, List.drop_append_of_le_length hnl, ih hra', List.take_append_of_le_length htn,
      List.take_append_of_le_length hnl]
    simp [Option.map_map, Function.comp_def]
    rfl
  | case5 => cases h

/-- The records of a message that begins with a well-formed record of its own. -/
theorem fieldRecords_appendTag (num : Nat) (t : WireType) (v rest : List UInt8)
    (hnum : 1 ≤ num ∧ num ≤ maxValidNumber) (ht : t ≠ .endGroup)
    (hv : consumeFieldValue num t v = .ok v.length) :
    fieldRecords (appendTag num t ++ v ++ rest) =
      (⟨appendTag num t, num, t, v⟩ :: ·) <$> fieldRecords rest := by
  have htl := WireType.toNat_lt t
  have hdiv : (num * 8 + t.toNat) / 8 = num := by omega
  have hvar : consumeVarint (appendTag num t ++ (v ++ rest)) =
      .ok (num * 8 + t.toNat, (appendTag num t).length) :=
    consumeVarint_appendVarint _ (by unfold maxValidNumber at hnum; omega) (v ++ rest)
  have hvalid : validTag (num * 8 + t.toNat) := by
    simp [validTag, hdiv, hnum, ht]
  have hval : consumeFieldValue ((num * 8 + t.toNat) / 8) (.ofLowBits (num * 8 + t.toNat))
      ((appendTag num t ++ (v ++ rest)).drop (appendTag num t).length) = .ok v.length := by
    simpa [hdiv] using (readsPrefix_consumeFieldValue num t).append hv rest
  rw [List.append_assoc, fieldRecords_of_consumeVarint hvar hvalid hval]
  simp [hdiv]

/-- Two lists split the same way at the first element of a kind: lists without that kind, each
    followed by a list that starts with it or is empty. -/
theorem eq_of_append_eq_of_delimited {α : Type} (p : α → Bool) :
    ∀ {s s' t t' : List α}, (∀ q ∈ s, p q = false) → (∀ q ∈ s', p q = false) →
      (∀ q ∈ t.head?, p q = true) → (∀ q ∈ t'.head?, p q = true) → s ++ t = s' ++ t' → s = s'
  | [], [], _, _, _, _, _, _, _ => rfl
  | [], q :: _, _, _, _, hs', ht, _, h => by
    have := ht q (by simp only [List.nil_append] at h; simp [h])
    simp_all
  | q :: _, [], _, _, hs, _, _, ht', h => by
    have := ht' q (by simp only [List.nil_append] at h; simp [← h])
    simp_all
  | q :: s, q' :: s', _, _, hs, hs', ht, ht', h => by
    simp only [List.cons_append, List.cons.injEq] at h
    obtain ⟨rfl, h⟩ := h
    rw [eq_of_append_eq_of_delimited p (fun r hr => hs r (List.mem_cons_of_mem _ hr))
      (fun r hr => hs' r (List.mem_cons_of_mem _ hr)) ht ht' h]

/-- Messages whose records begin with one record and hold no other of a delimiting kind form a
    prefix code: the first of a concatenation of them ends where the next delimiter begins. -/
theorem eq_of_fieldRecords_delimited (p : Record → Bool) {x x' y y' : List UInt8}
    {r r' : Record} {rx rx' ry ry' : List Record}
    (hx : fieldRecords x = some (r :: rx)) (hx' : fieldRecords x' = some (r' :: rx'))
    (hy : fieldRecords y = some ry) (hy' : fieldRecords y' = some ry')
    (hdx : ∀ q ∈ rx, p q = false) (hdx' : ∀ q ∈ rx', p q = false)
    (hdy : ∀ q ∈ ry.head?, p q = true) (hdy' : ∀ q ∈ ry'.head?, p q = true)
    (h : x ++ y = x' ++ y') : x = x' := by
  have hrec : (r :: rx) ++ ry = (r' :: rx') ++ ry' := by
    have h1 := fieldRecords_append hx y
    have h2 := fieldRecords_append hx' y'
    rw [hy] at h1
    rw [hy', ← h] at h2
    simpa [h1] using h2
  simp only [List.cons_append, List.cons.injEq] at hrec
  obtain ⟨rfl, hrec⟩ := hrec
  have := eq_of_append_eq_of_delimited p hdx hdx' hdy hdy' hrec
  subst this
  rw [← fieldRecords_flatten hx, ← fieldRecords_flatten hx']

end Protowire
