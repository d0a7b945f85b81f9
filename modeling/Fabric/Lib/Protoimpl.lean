import Fabric.Lib.Protowire

/-
  Decoding and encoding a generated message, as the Go implementation of protocol buffers
  does it (its `impl` package).

  A decoder knows a message type through its `MessageInfo`: the coders of the known fields,
  by number, and the place where the bytes of every other field are kept. `unmarshalPointer`
  is Go's loop: read a tag, check it, and hand the value to the known field's coder when the
  wire type is the coder's; any other field is consumed with `consumeFieldValue` and appended,
  under a re-encoded tag, to the unknown fields. A bytes field that occurs twice keeps the last
  value, since its coder overwrites what it stored.

  A run of the loop is a sequence of coder stores and unknown appends, so an invariant of the
  message holds after a run when both keep it (`unmarshalPointer_induction`). One such
  invariant is that the unknown bytes are records the decoder does not know
  (`unknownRecords_unmarshalPointer`): that is what a decoder's output says about the fields
  it did not keep.
-/

namespace Protowire

/-- The errors of a message decoder (`errDecode`, `errInvalidUTF8`). -/
inductive UnmarshalError
  | decode | invalidUTF8
  deriving DecidableEq, Repr

/-- A known field's coder (`coderFieldInfo.funcs`). The generated coders check the wire type,
    consume the value with the protowire function of that type, where a failure is
    `errDecode`, and store it in the message. Varint and length-delimited are the wire types of
    the scalar, bytes, string and sub-message fields this library covers. -/
inductive FieldCoder (σ : Type)
  | varint (store : Nat → σ → Except UnmarshalError σ)
  | bytes (store : List UInt8 → σ → Except UnmarshalError σ)

namespace FieldCoder

variable {σ : Type}

/-- The wire type the coder decodes. -/
def wireType : FieldCoder σ → WireType
  | varint _ => .varint
  | bytes _ => .bytes

/-- The coder's unmarshal function, after its wire type check: the message it stores and the
    length it consumed. -/
def consume : FieldCoder σ → List UInt8 → σ → Except UnmarshalError (σ × Nat)
  | varint store, b, p =>
    match consumeVarint b with
    | .error _ => .error .decode
    | .ok (v, n) => (·, n) <$> store v p
  | bytes store, b, p =>
    match consumeBytes b with
    | .error _ => .error .decode
    | .ok (v, n) => (·, n) <$> store v p

theorem map_pair_eq_ok {ε α : Type} (x : Except ε α) (n : Nat) (q : α) (m : Nat) :
    ((·, n) <$> x) = .ok (q, m) ↔ x = .ok q ∧ n = m := by
  cases x <;> simp [Functor.map, Except.map]

theorem consume_bytes_eq_ok {store : List UInt8 → σ → Except UnmarshalError σ}
    {b : List UInt8} {p q : σ} {n : Nat} :
    (bytes store).consume b p = .ok (q, n) ↔ ∃ v, consumeBytes b = .ok (v, n) ∧ store v p = .ok q := by
  rw [consume]
  split
  · next e he => simp [he]
  · next v m he =>
    simp only [he, map_pair_eq_ok, Except.ok.injEq, Prod.mk.injEq]
    constructor
    · rintro ⟨hs, rfl⟩
      exact ⟨v, ⟨rfl, rfl⟩, hs⟩
    · rintro ⟨_, ⟨rfl, rfl⟩, hs⟩
      exact ⟨hs, rfl⟩

theorem consume_varint_eq_ok {store : Nat → σ → Except UnmarshalError σ}
    {b : List UInt8} {p q : σ} {n : Nat} :
    (varint store).consume b p = .ok (q, n) ↔ ∃ v, consumeVarint b = .ok (v, n) ∧ store v p = .ok q := by
  rw [consume]
  split
  · next e he => simp [he]
  · next v m he =>
    simp only [he, map_pair_eq_ok, Except.ok.injEq, Prod.mk.injEq]
    constructor
    · rintro ⟨hs, rfl⟩
      exact ⟨v, ⟨rfl, rfl⟩, hs⟩
    · rintro ⟨_, ⟨rfl, rfl⟩, hs⟩
      exact ⟨hs, rfl⟩

theorem consume_bytes_appendBytes (store : List UInt8 → σ → Except UnmarshalError σ)
    {v : List UInt8} (hv : v.length < 2 ^ 64) (rest : List UInt8) (p : σ) :
    (bytes store).consume (appendBytes v ++ rest) p = (·, (appendBytes v).length) <$> store v p := by
  rw [consume, consumeBytes_appendBytes v hv rest]

theorem consume_varint_appendVarint (store : Nat → σ → Except UnmarshalError σ)
    {v : Nat} (hv : v < 2 ^ 64) (rest : List UInt8) (p : σ) :
    (varint store).consume (appendVarint v ++ rest) p = (·, (appendVarint v).length) <$> store v p := by
  rw [consume, consumeVarint_appendVarint v hv rest]

end FieldCoder

/-- `utf8.Valid`: the bytes are the UTF-8 encoding of a sequence of Unicode scalar values. -/
def utf8Valid (b : List UInt8) : Bool := ByteArray.validateUTF8 ⟨b.toArray⟩

namespace FieldCoder

variable {σ : Type}

/-- A proto3 bytes field (`consumeBytesNoZero`): a later value replaces an earlier one. -/
def ofBytes (set : σ → List UInt8 → σ) : FieldCoder σ := bytes fun v p => .ok (set p v)

/-- A proto3 string field (`consumeStringValidateUTF8`): its bytes must be UTF-8. -/
def ofString (set : σ → List UInt8 → σ) : FieldCoder σ :=
  bytes fun v p => if utf8Valid v then .ok (set p v) else .error .invalidUTF8

/-- A varint scalar field (`consumeInt32`, `consumeUint64`, ...); `set` makes Go's conversion
    of the `uint64` it reads. -/
def ofVarint (set : σ → Nat → σ) : FieldCoder σ := varint fun v p => .ok (set p v)

theorem consume_ofBytes_eq_ok {set : σ → List UInt8 → σ} {b : List UInt8} {p q : σ} {n : Nat} :
    (ofBytes set).consume b p = .ok (q, n) ↔ ∃ v, consumeBytes b = .ok (v, n) ∧ q = set p v := by
  rw [ofBytes, consume_bytes_eq_ok]
  simp only [Except.ok.injEq]
  constructor
  · rintro ⟨v, hv, rfl⟩
    exact ⟨v, hv, rfl⟩
  · rintro ⟨v, hv, rfl⟩
    exact ⟨v, hv, rfl⟩

/-! A field's coder changes only its field: what `set` keeps, the store keeps. -/

theorem consume_ofBytes_preserves {β : Type} {set : σ → List UInt8 → σ} {b : List UInt8}
    {p q : σ} {n : Nat} (h : (ofBytes set).consume b p = .ok (q, n)) {g : σ → β}
    (hg : ∀ p v, g (set p v) = g p) : g q = g p := by
  obtain ⟨v, -, rfl⟩ := consume_ofBytes_eq_ok.mp h
  exact hg p v

theorem consume_ofString_preserves {β : Type} {set : σ → List UInt8 → σ} {b : List UInt8}
    {p q : σ} {n : Nat} (h : (ofString set).consume b p = .ok (q, n)) {g : σ → β}
    (hg : ∀ p v, g (set p v) = g p) : g q = g p := by
  obtain ⟨v, -, hs⟩ := consume_bytes_eq_ok.mp h
  split at hs
  · cases hs
    exact hg p v
  · cases hs

theorem consume_ofVarint_preserves {β : Type} {set : σ → Nat → σ} {b : List UInt8}
    {p q : σ} {n : Nat} (h : (ofVarint set).consume b p = .ok (q, n)) {g : σ → β}
    (hg : ∀ p v, g (set p v) = g p) : g q = g p := by
  obtain ⟨v, -, hs⟩ := consume_varint_eq_ok.mp h
  cases hs
  exact hg p v

end FieldCoder

/-- What a decoder knows of a message type `σ` (Go's `MessageInfo`): the coders of its known
    fields by number, and how it keeps the bytes of the others. A known field's store leaves
    those bytes alone. -/
structure MessageInfo (σ : Type) where
  coderField : Nat → Option (FieldCoder σ)
  unknownFields : σ → List UInt8
  appendUnknown : σ → List UInt8 → σ
  unknownFields_appendUnknown : ∀ p u, unknownFields (appendUnknown p u) = unknownFields p ++ u
  unknownFields_consume : ∀ num f b p q n, coderField num = some f →
    f.consume b p = .ok (q, n) → unknownFields q = unknownFields p

namespace MessageInfo

variable {σ : Type} (mi : MessageInfo σ)

/-- The coder that decodes a field: the one for its number, when the wire type is the coder's.
    Otherwise the coder returns `errUnknown` and the field is kept as unknown. -/
def knownCoder (num : Nat) (wtyp : WireType) : Option (FieldCoder σ) :=
  match mi.coderField num with
  | some f => if f.wireType = wtyp then some f else none
  | none => none

theorem knownCoder_eq_some {num : Nat} {wtyp : WireType} {f : FieldCoder σ} :
    mi.knownCoder num wtyp = some f ↔ mi.coderField num = some f ∧ f.wireType = wtyp := by
  unfold knownCoder
  cases mi.coderField num with
  | none => simp
  | some g => by_cases hg : g.wireType = wtyp <;> simp [hg] <;> aesop

/-- `unmarshalPointer` for a message that is not a group: tag by tag, each known field to its
    coder and every other one appended, with its tag re-encoded, to the unknown fields. -/
def unmarshalPointer (b : List UInt8) (p : σ) : Except UnmarshalError σ :=
  match b with
  | [] => .ok p
  | y :: ys =>
    match _h : consumeVarint (y :: ys) with
    | .error _ => .error .decode
    | .ok (tag, tn) =>
      if validTag tag then
        let num := tag / 8
        let wtyp := WireType.ofLowBits tag
        let rest := (y :: ys).drop tn
        match mi.knownCoder num wtyp with
        | some f =>
          match f.consume rest p with
          | .error e => .error e
          | .ok (q, n) => unmarshalPointer (rest.drop n) q
        | none =>
          match consumeFieldValue num wtyp rest with
          | .error _ => .error .decode
          | .ok n =>
            unmarshalPointer (rest.drop n) (mi.appendUnknown p (appendTag num wtyp ++ rest.take n))
      else .error .decode
termination_by b.length
decreasing_by
  all_goals
    have := (consumeVarint_spec _h).1
    simp only [List.length_drop, List.length_cons]
    omega

@[simp] theorem unmarshalPointer_nil (p : σ) : mi.unmarshalPointer [] p = .ok p := by
  rw [unmarshalPointer]

/-- One step of `unmarshalPointer`, once the tag is read and checked. -/
theorem unmarshalPointer_of_consumeVarint {b : List UInt8} {tag tn : Nat} (p : σ)
    (h : consumeVarint b = .ok (tag, tn)) (hv : validTag tag) :
    mi.unmarshalPointer b p =
      match mi.knownCoder (tag / 8) (.ofLowBits tag) with
      | some f =>
        match f.consume (b.drop tn) p with
        | .error e => .error e
        | .ok (q, n) => mi.unmarshalPointer ((b.drop tn).drop n) q
      | none =>
        match consumeFieldValue (tag / 8) (.ofLowBits tag) (b.drop tn) with
        | .error _ => .error .decode
        | .ok n => mi.unmarshalPointer ((b.drop tn).drop n)
            (mi.appendUnknown p (appendTag (tag / 8) (.ofLowBits tag) ++ (b.drop tn).take n)) := by
  match b, h with
  | y :: ys, h =>
    rw [unmarshalPointer]
    split
    · next e he => rw [h] at he; cases he
    · next tag' tn' he =>
      rw [h] at he
      cases he
      simp only [hv, if_true]

/-- A known field written with its canonical tag: its coder stores it and the loop goes on
    after its value. -/
theorem unmarshalPointer_appendTag_known {num : Nat} {f : FieldCoder σ}
    (hf : mi.coderField num = some f) (hnum : 1 ≤ num ∧ num ≤ maxValidNumber)
    {rest : List UInt8} {p q : σ} {n : Nat} (hc : f.consume rest p = .ok (q, n)) :
    mi.unmarshalPointer (appendTag num f.wireType ++ rest) p = mi.unmarshalPointer (rest.drop n) q := by
  have htl := WireType.toNat_lt f.wireType
  have hdiv : (num * 8 + f.wireType.toNat) / 8 = num := by omega
  have hvar : consumeVarint (appendTag num f.wireType ++ rest) =
      .ok (num * 8 + f.wireType.toNat, (appendTag num f.wireType).length) :=
    consumeVarint_appendVarint _ (by unfold maxValidNumber at hnum; omega) rest
  have hend : f.wireType ≠ .endGroup := by cases f <;> simp [FieldCoder.wireType]
  have hvalid : validTag (num * 8 + f.wireType.toNat) := by
    simp [validTag, hdiv, hnum, hend]
  have hk : mi.knownCoder num f.wireType = some f := (mi.knownCoder_eq_some).mpr ⟨hf, rfl⟩
  rw [mi.unmarshalPointer_of_consumeVarint p hvar hvalid]
  simp only [hdiv, WireType.ofLowBits_tag, hk, List.drop_left, hc]

/-- The induction rule of the decoder: an invariant that every known field's store and every
    unknown field's append keep holds after the whole loop. -/
theorem unmarshalPointer_induction (Inv : σ → Prop)
    (hknown : ∀ num f b p q n, mi.coderField num = some f → Inv p →
      f.consume b p = .ok (q, n) → Inv q)
    (hunknown : ∀ p num wtyp v, Inv p → 1 ≤ num → num ≤ maxValidNumber → wtyp ≠ .endGroup →
      mi.knownCoder num wtyp = none → consumeFieldValue num wtyp v = .ok v.length →
      Inv (mi.appendUnknown p (appendTag num wtyp ++ v)))
    {b : List UInt8} {p q : σ} (hp : Inv p) (h : mi.unmarshalPointer b p = .ok q) : Inv q := by
  fun_induction mi.unmarshalPointer b p with
  | case1 p => cases h; exact hp
  | case2 => cases h
  | case3 => cases h
  | case4 p y ys tag tn hv hvalid num wtyp rest f hk q' n hc =>
    -- a known field: its coder keeps the invariant
    rename_i ih
    exact ih (hknown num f rest p q' n ((mi.knownCoder_eq_some).mp hk).1 hp hc) h
  | case5 => cases h
  | case6 p y ys tag tn hv hvalid num wtyp rest hk n hn ih =>
    -- an unknown field: appended with its tag re-encoded
    simp only [validTag, Bool.and_eq_true, decide_eq_true_eq, bne_iff_ne, ne_eq] at hvalid
    refine ih ?_ h
    have hlen : (rest.take n).length = n := by
      have : n ≤ rest.length := (readsPrefix_consumeFieldValue num wtyp rest n hn).1
      simp only [List.length_take]
      omega
    exact hunknown p num wtyp (rest.take n) hp hvalid.1.1 hvalid.1.2 hvalid.2 hk
      (by rw [hlen]; exact (readsPrefix_consumeFieldValue num wtyp).take hn)
  | case7 => cases h

/-- The unknown bytes of a message are records its decoder does not know. -/
def UnknownRecords (p : σ) : Prop :=
  ∃ rs, fieldRecords (mi.unknownFields p) = some rs ∧ ∀ r ∈ rs, mi.knownCoder r.num r.typ = none

theorem unknownRecords_unmarshalPointer {b : List UInt8} {p q : σ} (hp : mi.UnknownRecords p)
    (h : mi.unmarshalPointer b p = .ok q) : mi.UnknownRecords q := by
  refine mi.unmarshalPointer_induction mi.UnknownRecords ?_ ?_ hp h
  · intro num f b p q n hf hp hc
    rw [UnknownRecords, mi.unknownFields_consume num f b p q n hf hc]
    exact hp
  · rintro p num wtyp v ⟨rs, hrs, hunk⟩ h1 h2 hend hk hv
    refine ⟨rs ++ [⟨appendTag num wtyp, num, wtyp, v⟩], ?_, ?_⟩
    · have hone : fieldRecords (appendTag num wtyp ++ v) = some [⟨appendTag num wtyp, num, wtyp, v⟩] := by
        simpa using fieldRecords_appendTag num wtyp v [] ⟨h1, h2⟩ hend hv
      rw [mi.unknownFields_appendUnknown, fieldRecords_append hrs, hone]
      rfl
    · intro r hr
      rcases List.mem_append.mp hr with hr | hr
      · exact hunk r hr
      · simp only [List.mem_singleton] at hr
        subst hr
        exact hk

/-- A bytes field's canonical record: its coder stores the value and the loop goes on after it. -/
theorem unmarshalPointer_appendTag_bytes {num : Nat} {store : List UInt8 → σ → Except UnmarshalError σ}
    (hf : mi.coderField num = some (.bytes store)) (hnum : 1 ≤ num ∧ num ≤ maxValidNumber)
    {v : List UInt8} (hv : v.length < 2 ^ 64) {p q : σ} (hs : store v p = .ok q)
    (rest : List UInt8) :
    mi.unmarshalPointer (appendTag num .bytes ++ (appendBytes v ++ rest)) p =
      mi.unmarshalPointer rest q := by
  have hc : (FieldCoder.bytes store).consume (appendBytes v ++ rest) p =
      .ok (q, (appendBytes v).length) := by
    rw [FieldCoder.consume_bytes_appendBytes store hv, hs]
    rfl
  rw [show (WireType.bytes) = (FieldCoder.bytes store).wireType from rfl,
    mi.unmarshalPointer_appendTag_known hf hnum hc, List.drop_left]

/-- A varint field's canonical record: its coder stores the value and the loop goes on after
    it. -/
theorem unmarshalPointer_appendTag_varint {num : Nat} {store : Nat → σ → Except UnmarshalError σ}
    (hf : mi.coderField num = some (.varint store)) (hnum : 1 ≤ num ∧ num ≤ maxValidNumber)
    {v : Nat} (hv : v < 2 ^ 64) {p q : σ} (hs : store v p = .ok q) (rest : List UInt8) :
    mi.unmarshalPointer (appendTag num .varint ++ (appendVarint v ++ rest)) p =
      mi.unmarshalPointer rest q := by
  have hc : (FieldCoder.varint store).consume (appendVarint v ++ rest) p =
      .ok (q, (appendVarint v).length) := by
    rw [FieldCoder.consume_varint_appendVarint store hv, hs]
    rfl
  rw [show (WireType.varint) = (FieldCoder.varint store).wireType from rfl,
    mi.unmarshalPointer_appendTag_known hf hnum hc, List.drop_left]

end MessageInfo

namespace FieldCoder

variable {σ τ : Type}

/-- A sub-message field (`consumeMessageInfo`): its bytes are decoded into the field's message,
    a new one (`empty`) when the field is nil, so that a field read twice is merged. -/
def ofMessage (mi : MessageInfo τ) (get : σ → Option τ) (set : σ → τ → σ) (empty : τ) :
    FieldCoder σ :=
  bytes fun v p => (set p ·) <$> mi.unmarshalPointer v ((get p).getD empty)

theorem consume_ofMessage_preserves {β : Type} {mi : MessageInfo τ} {get : σ → Option τ}
    {set : σ → τ → σ} {empty : τ} {b : List UInt8} {p q : σ} {n : Nat}
    (h : (ofMessage mi get set empty).consume b p = .ok (q, n)) {g : σ → β}
    (hg : ∀ p m, g (set p m) = g p) : g q = g p := by
  obtain ⟨v, -, hs⟩ := consume_bytes_eq_ok.mp h
  cases hm : mi.unmarshalPointer v ((get p).getD empty) with
  | error e => simp [hm, Functor.map, Except.map] at hs
  | ok m =>
    simp only [hm, Functor.map, Except.map, Except.ok.injEq] at hs
    rw [← hs]
    exact hg p m

end FieldCoder

/-! ## Encoding -/

/-- `appendBytesNoZero`: a proto3 bytes field is written only when it is not empty. -/
def appendBytesNoZero (num : Nat) (v : List UInt8) : List UInt8 :=
  if v.length = 0 then [] else appendTag num .bytes ++ appendBytes v

namespace MessageInfo

variable {σ : Type} (mi : MessageInfo σ)

/-- A proto3 bytes field as `appendBytesNoZero` writes it reads back into its field; an empty
    one is not written and leaves the message as it is. -/
theorem unmarshalPointer_appendBytesNoZero {num : Nat} {set : σ → List UInt8 → σ}
    (hf : mi.coderField num = some (.ofBytes set)) (hnum : 1 ≤ num ∧ num ≤ maxValidNumber)
    {v : List UInt8} (hv : v.length < 2 ^ 64) (rest : List UInt8) (p : σ) :
    mi.unmarshalPointer (appendBytesNoZero num v ++ rest) p =
      mi.unmarshalPointer rest (if v.length = 0 then p else set p v) := by
  unfold appendBytesNoZero
  split
  · rfl
  · rw [List.append_assoc, mi.unmarshalPointer_appendTag_bytes hf hnum hv rfl rest]

end MessageInfo

/-- The records of a proto3 bytes field as `appendBytesNoZero` writes it. -/
theorem fieldRecords_appendBytesNoZero {num : Nat} (hnum : 1 ≤ num ∧ num ≤ maxValidNumber)
    {v : List UInt8} (hv : v.length < 2 ^ 64) (hne : v.length ≠ 0) (rest : List UInt8) :
    fieldRecords (appendBytesNoZero num v ++ rest) =
      (⟨appendTag num .bytes, num, .bytes, appendBytes v⟩ :: ·) <$> fieldRecords rest := by
  have hval : consumeFieldValue num .bytes (appendBytes v) = .ok (appendBytes v).length := by
    have := consumeBytes_appendBytes v hv []
    rw [List.append_nil] at this
    rw [consumeFieldValue, consumeFieldValueD, this]
    rfl
  rw [appendBytesNoZero, if_neg hne, fieldRecords_appendTag num .bytes _ rest hnum (by decide) hval]

end Protowire
