import Fabric.Lib.Protoimpl
import Fabric.Ledger.Version

/-
  The messages a block's transactions are made of (`common.proto`): `Envelope`, `Payload`,
  `Header`, `ChannelHeader` and the `Timestamp` it holds, decoded as the generated Go code
  decodes them (`proto.Unmarshal` into a new message), and `Envelope` encoded as
  `proto.Marshal` encodes it.

  A message is a structure of its fields and its unknown fields; its `MessageInfo` gives each
  field number its coder. A string field is kept as its bytes, which the decoder checks to be
  UTF-8; an integer field holds Go's conversion of the varint (`int32(v)`, `int64(v)`).

  Proved: an envelope reads back from its encoding (`unmarshalPointer_marshalEnvelope`), so a
  later envelope's fields replace an earlier one's in their concatenation; and an envelope
  read from bytes that it re-encodes to has a payload record first and no other
  (`fieldRecords_of_canonical`), which is what lets a list of such envelopes be recovered
  from their concatenation.
-/

namespace Fabric.Protoutil

open Protowire
open Fabric.Ledger (Bytes)

/-! ## Messages and their decoders -/

/-- `google.protobuf.Timestamp`. -/
structure Timestamp where
  seconds : Int64 := 0
  nanos : Int32 := 0
  unknownFields : Bytes := []
  deriving DecidableEq, Repr

/-- `common.ChannelHeader`; `type` is a `HeaderType`. -/
structure ChannelHeader where
  type : Int32 := 0
  version : Int32 := 0
  timestamp : Option Timestamp := none
  channelId : Bytes := []
  txId : Bytes := []
  epoch : Nat := 0
  extension : Bytes := []
  tlsCertHash : Bytes := []
  unknownFields : Bytes := []
  deriving DecidableEq, Repr

/-- `common.Header`. -/
structure Header where
  channelHeader : Bytes := []
  signatureHeader : Bytes := []
  unknownFields : Bytes := []
  deriving DecidableEq, Repr

/-- `common.Payload`. -/
structure Payload where
  header : Option Header := none
  data : Bytes := []
  unknownFields : Bytes := []
  deriving DecidableEq, Repr

/-- `common.Envelope`. -/
structure Envelope where
  payload : Bytes := []
  signature : Bytes := []
  unknownFields : Bytes := []
  deriving DecidableEq, Repr

/-- `HeaderType_CONFIG`. -/
def headerTypeConfig : Int32 := 1

/-- The coders of `Timestamp`: `int64 seconds = 1; int32 nanos = 2`. -/
def timestampInfo : MessageInfo Timestamp where
  coderField
    | 1 => some (.ofVarint fun p v => { p with seconds := Int64.ofNat v })
    | 2 => some (.ofVarint fun p v => { p with nanos := Int32.ofNat v })
    | _ => none
  unknownFields := Timestamp.unknownFields
  appendUnknown p u := { p with unknownFields := p.unknownFields ++ u }
  unknownFields_appendUnknown _ _ := rfl
  unknownFields_consume := by
    intro num f b p q n hf hc
    split at hf <;> cases hf
    · exact FieldCoder.consume_ofVarint_preserves hc (fun _ _ => rfl)
    · exact FieldCoder.consume_ofVarint_preserves hc (fun _ _ => rfl)

/-- The coders of `ChannelHeader`, by field number. -/
def channelHeaderInfo : MessageInfo ChannelHeader where
  coderField
    | 1 => some (.ofVarint fun p v => { p with type := Int32.ofNat v })
    | 2 => some (.ofVarint fun p v => { p with version := Int32.ofNat v })
    | 3 => some (.ofMessage timestampInfo ChannelHeader.timestamp
        (fun p m => { p with timestamp := some m }) {})
    | 4 => some (.ofString fun p v => { p with channelId := v })
    | 5 => some (.ofString fun p v => { p with txId := v })
    | 6 => some (.ofVarint fun p v => { p with epoch := v })
    | 7 => some (.ofBytes fun p v => { p with extension := v })
    | 8 => some (.ofBytes fun p v => { p with tlsCertHash := v })
    | _ => none
  unknownFields := ChannelHeader.unknownFields
  appendUnknown p u := { p with unknownFields := p.unknownFields ++ u }
  unknownFields_appendUnknown _ _ := rfl
  unknownFields_consume := by
    intro num f b p q n hf hc
    split at hf <;> cases hf
    · exact FieldCoder.consume_ofVarint_preserves hc (fun _ _ => rfl)
    · exact FieldCoder.consume_ofVarint_preserves hc (fun _ _ => rfl)
    · exact FieldCoder.consume_ofMessage_preserves hc (fun _ _ => rfl)
    · exact FieldCoder.consume_ofString_preserves hc (fun _ _ => rfl)
    · exact FieldCoder.consume_ofString_preserves hc (fun _ _ => rfl)
    · exact FieldCoder.consume_ofVarint_preserves hc (fun _ _ => rfl)
    · exact FieldCoder.consume_ofBytes_preserves hc (fun _ _ => rfl)
    · exact FieldCoder.consume_ofBytes_preserves hc (fun _ _ => rfl)

/-- The coders of `Header`: `bytes channel_header = 1; bytes signature_header = 2`. -/
def headerInfo : MessageInfo Header where
  coderField
    | 1 => some (.ofBytes fun p v => { p with channelHeader := v })
    | 2 => some (.ofBytes fun p v => { p with signatureHeader := v })
    | _ => none
  unknownFields := Header.unknownFields
  appendUnknown p u := { p with unknownFields := p.unknownFields ++ u }
  unknownFields_appendUnknown _ _ := rfl
  unknownFields_consume := by
    intro num f b p q n hf hc
    split at hf <;> cases hf
    · exact FieldCoder.consume_ofBytes_preserves hc (fun _ _ => rfl)
    · exact FieldCoder.consume_ofBytes_preserves hc (fun _ _ => rfl)

/-- The coders of `Payload`: `Header header = 1; bytes data = 2`. -/
def payloadInfo : MessageInfo Payload where
  coderField
    | 1 => some (.ofMessage headerInfo Payload.header (fun p m => { p with header := some m }) {})
    | 2 => some (.ofBytes fun p v => { p with data := v })
    | _ => none
  unknownFields := Payload.unknownFields
  appendUnknown p u := { p with unknownFields := p.unknownFields ++ u }
  unknownFields_appendUnknown _ _ := rfl
  unknownFields_consume := by
    intro num f b p q n hf hc
    split at hf <;> cases hf
    · exact FieldCoder.consume_ofMessage_preserves hc (fun _ _ => rfl)
    · exact FieldCoder.consume_ofBytes_preserves hc (fun _ _ => rfl)

/-- The coders of `Envelope`: `bytes payload = 1; bytes signature = 2`. -/
def envelopeInfo : MessageInfo Envelope where
  coderField
    | 1 => some (.ofBytes fun p v => { p with payload := v })
    | 2 => some (.ofBytes fun p v => { p with signature := v })
    | _ => none
  unknownFields := Envelope.unknownFields
  appendUnknown p u := { p with unknownFields := p.unknownFields ++ u }
  unknownFields_appendUnknown _ _ := rfl
  unknownFields_consume := by
    intro num f b p q n hf hc
    split at hf <;> cases hf
    · exact FieldCoder.consume_ofBytes_preserves hc (fun _ _ => rfl)
    · exact FieldCoder.consume_ofBytes_preserves hc (fun _ _ => rfl)

/-- `UnmarshalEnvelope` (`proto.Unmarshal` into a new `Envelope`). -/
def unmarshalEnvelope (b : Bytes) : Except UnmarshalError Envelope :=
  envelopeInfo.unmarshalPointer b {}

/-- `UnmarshalPayload`. -/
def unmarshalPayload (b : Bytes) : Except UnmarshalError Payload :=
  payloadInfo.unmarshalPointer b {}

/-- `UnmarshalChannelHeader`. -/
def unmarshalChannelHeader (b : Bytes) : Except UnmarshalError ChannelHeader :=
  channelHeaderInfo.unmarshalPointer b {}

/-- The errors of `ChannelHeader`, with the data each message prints. -/
inductive ChannelHeaderError
  /-- the error of `UnmarshalPayload` -/
  | payload (err : UnmarshalError)
  /-- "header not set" -/
  | headerNotSet
  /-- "channel header not set" -/
  | channelHeaderNotSet
  /-- "error unmarshalling channel header" -/
  | channelHeader (err : UnmarshalError)
  deriving DecidableEq, Repr

/-- `ChannelHeader`: the channel header of an envelope's payload. A proto3 bytes field that is
    empty decodes as nil, so an empty channel header is one that is not set. -/
def channelHeader (env : Envelope) : Except ChannelHeaderError ChannelHeader := do
  let envPayload ← (unmarshalPayload env.payload).mapError .payload
  match envPayload.header with
  | none => throw .headerNotSet
  | some header =>
    if header.channelHeader = [] then throw .channelHeaderNotSet
    (unmarshalChannelHeader header.channelHeader).mapError .channelHeader

/-- `proto.Marshal` of an `Envelope`: its non-empty fields in number order, then its unknown
    fields. -/
def marshalEnvelope (env : Envelope) : Bytes :=
  appendBytesNoZero 1 env.payload ++ appendBytesNoZero 2 env.signature ++ env.unknownFields

/-! ## Envelopes on the wire -/

/-- An envelope's encoding sets, in the envelope it is read into, the fields it holds. -/
theorem unmarshalPointer_marshalEnvelope (env : Envelope) (hu : env.unknownFields = [])
    (hp : env.payload.length < 2 ^ 64) (hs : env.signature.length < 2 ^ 64) (rest : Bytes)
    (p : Envelope) :
    envelopeInfo.unmarshalPointer (marshalEnvelope env ++ rest) p =
      envelopeInfo.unmarshalPointer rest
        { p with payload := if env.payload.length = 0 then p.payload else env.payload,
                 signature := if env.signature.length = 0 then p.signature else env.signature } := by
  rw [marshalEnvelope, hu, List.append_nil, List.append_assoc,
    envelopeInfo.unmarshalPointer_appendBytesNoZero rfl (by decide) hp,
    envelopeInfo.unmarshalPointer_appendBytesNoZero rfl (by decide) hs]
  congr 1
  split_ifs <;> rfl

/-- An envelope without unknown fields reads back from its encoding. -/
theorem unmarshalEnvelope_marshalEnvelope (env : Envelope) (hu : env.unknownFields = [])
    (hp : env.payload.length < 2 ^ 64) (hs : env.signature.length < 2 ^ 64) :
    unmarshalEnvelope (marshalEnvelope env) = .ok env := by
  have h := unmarshalPointer_marshalEnvelope env hu hp hs [] {}
  rw [List.append_nil] at h
  rw [unmarshalEnvelope, h, MessageInfo.unmarshalPointer_nil]
  obtain ⟨payload, signature, unknownFields⟩ := env
  simp only at hu
  subst hu
  congr 1
  simp only [Envelope.mk.injEq, and_true]
  constructor <;> split_ifs with h0 <;> simp_all

/-- What an envelope was decoded from bounds its fields: each came with a varint length. -/
theorem length_lt_of_unmarshalEnvelope {b : Bytes} {env : Envelope}
    (h : unmarshalEnvelope b = .ok env) :
    env.payload.length < 2 ^ 64 ∧ env.signature.length < 2 ^ 64 := by
  refine envelopeInfo.unmarshalPointer_induction
    (fun e => e.payload.length < 2 ^ 64 ∧ e.signature.length < 2 ^ 64) ?_ ?_ (by simp) h
  · intro num f b p q n hf hp hc
    simp only [envelopeInfo] at hf
    split at hf <;> cases hf
    · obtain ⟨v, hv, rfl⟩ := FieldCoder.consume_ofBytes_eq_ok.mp hc
      exact ⟨consumeBytes_length_lt hv, hp.2⟩
    · obtain ⟨v, hv, rfl⟩ := FieldCoder.consume_ofBytes_eq_ok.mp hc
      exact ⟨hp.1, consumeBytes_length_lt hv⟩
  · intro p num wtyp v hp _ _ _ _ _
    exact hp

/-- A payload record: field 1, length-delimited. -/
def isPayloadRecord (r : Record) : Bool := r.num == 1 && r.typ == .bytes

/-- An envelope that encodes back to the bytes it was decoded from, with a payload, is one
    payload record followed by records none of which is another: the signature's, and unknown
    fields the decoder did not take as the payload. -/
theorem fieldRecords_of_canonical {raw : Bytes} {env : Envelope}
    (h : unmarshalEnvelope raw = .ok env) (hp : env.payload ≠ []) (hm : marshalEnvelope env = raw) :
    ∃ r rs, fieldRecords raw = some (r :: rs) ∧ isPayloadRecord r ∧
      ∀ q ∈ rs, isPayloadRecord q = false := by
  obtain ⟨hlp, hls⟩ := length_lt_of_unmarshalEnvelope h
  obtain ⟨us, hus, hunk⟩ := envelopeInfo.unknownRecords_unmarshalPointer
    (by exact ⟨[], by simp [envelopeInfo], by simp⟩) h
  -- no unknown record is a payload record: the decoder would have taken it as the payload
  have hus' : ∀ q ∈ us, isPayloadRecord q = false := by
    intro q hq
    have hk := hunk q hq
    unfold isPayloadRecord
    by_contra hc
    simp only [Bool.not_eq_false, Bool.and_eq_true, beq_iff_eq] at hc
    rw [hc.1, hc.2] at hk
    simp [MessageInfo.knownCoder, envelopeInfo, FieldCoder.ofBytes, FieldCoder.wireType] at hk
  have hp0 : env.payload.length ≠ 0 := by simpa using hp
  rw [← hm, marshalEnvelope, List.append_assoc,
    fieldRecords_appendBytesNoZero (by decide) hlp hp0]
  by_cases hs0 : env.signature.length = 0
  · rw [appendBytesNoZero, if_pos hs0, List.nil_append]
    simp only [envelopeInfo] at hus
    refine ⟨⟨appendTag 1 .bytes, 1, .bytes, appendBytes env.payload⟩, us, by simp [hus],
      by simp [isPayloadRecord], hus'⟩
  · rw [fieldRecords_appendBytesNoZero (by decide) hls hs0]
    simp only [envelopeInfo] at hus
    refine ⟨⟨appendTag 1 .bytes, 1, .bytes, appendBytes env.payload⟩,
      ⟨appendTag 2 .bytes, 2, .bytes, appendBytes env.signature⟩ :: us, by simp [hus],
      by simp [isPayloadRecord], ?_⟩
    intro q hq
    rcases List.mem_cons.mp hq with rfl | hq
    · simp [isPayloadRecord]
    · exact hus' q hq

end Fabric.Protoutil
