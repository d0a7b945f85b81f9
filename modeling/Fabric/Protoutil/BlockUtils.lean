import Fabric.Protoutil.Messages

/-
  The data hash of a block (`protoutil/blockutils.go`, `protoutil/commonutils.go`).

  `BlockDataHash` hashes the concatenation of a block's transactions once
  `VerifyTransactionsAreWellFormed` has accepted them: every transaction must decode to an
  envelope with a payload and a signature that encodes back to exactly its bytes. Those are
  canonical envelope encodings, which begin with the payload field and hold no second one, so
  the concatenation splits back into the transactions in one way only
  (`data_eq_of_flatten_eq`): the hash of a checked block binds its list of transactions.

  The check is skipped for a block of one transaction that `HasConfigTx` takes for a config
  transaction, and `HasConfigTx` reads the envelope as the decoder does, keeping the last of
  repeated fields. The concatenation of an ordinary envelope and a config envelope is then a
  single config transaction with the same data hash as the checked block of the two
  (`blockDataHash_merged_config`).

  SHA-256 is a parameter.
-/

namespace Fabric.Protoutil

open Protowire
open Fabric.Ledger (Bytes)

/-- `common.BlockHeader`. -/
structure BlockHeader where
  number : UInt64
  previousHash : Bytes
  dataHash : Bytes
  deriving DecidableEq, Repr

/-- `common.BlockData`: the marshalled transactions. -/
structure BlockData where
  data : List Bytes
  deriving DecidableEq, Repr

/-- `common.BlockMetadata`: the metadata entries, by their index. -/
structure BlockMetadata where
  metadata : List Bytes
  deriving DecidableEq, Repr

/-- `common.Block`; a nil field is `none`. -/
structure Block where
  header : Option BlockHeader
  data : Option BlockData
  metadata : Option BlockMetadata := none
  deriving DecidableEq, Repr

/-- The errors of `VerifyTransactionsAreWellFormed`, with the data each message prints. -/
inductive WellFormedError
  /-- "empty block" -/
  | emptyBlock
  /-- "transaction %d is invalid: %v" -/
  | invalid (i : Nat) (err : UnmarshalError)
  /-- "transaction %d has no payload" -/
  | noPayload (i : Nat)
  /-- "transaction %d has no signature" -/
  | noSignature (i : Nat)
  /-- "transaction %d has %d trailing bytes" -/
  | trailingBytes (i n : Nat)
  /-- "transaction %d (%s) does not match its raw form (%s)", the bytes in base64 -/
  | mismatch (i : Nat) (expected raw : Bytes)
  deriving DecidableEq, Repr

/-- `HasConfigTx`: the block holds one transaction, an envelope whose payload's channel header
    is of type CONFIG. -/
def hasConfigTx (blockdata : BlockData) : Bool :=
  match blockdata.data with
  | [marshaledEnvelope] =>
    match unmarshalEnvelope marshaledEnvelope with
    | .error _ => false
    | .ok envelope =>
      match unmarshalPayload envelope.payload with
      | .error _ => false
      | .ok payload =>
        match payload.header with
        | none => false
        | some header =>
          match unmarshalChannelHeader header.channelHeader with
          | .error _ => false
          | .ok hdr => hdr.type == headerTypeConfig
  | _ => false

/-- The body of `VerifyTransactionsAreWellFormed`'s loop, for the transaction at index `i`. -/
def verifyRawTx (i : Nat) (rawTx : Bytes) : Except WellFormedError Unit := do
  let env ← (unmarshalEnvelope rawTx).mapError (.invalid i)
  if env.payload.length = 0 then throw (.noPayload i)
  if env.signature.length = 0 then throw (.noSignature i)
  -- re-marshalling an envelope cannot fail
  let expected := marshalEnvelope env
  if expected.length < rawTx.length then
    throw (.trailingBytes i (rawTx.length - expected.length))
  if expected ≠ rawTx then throw (.mismatch i expected rawTx)

/-- The loop of `VerifyTransactionsAreWellFormed`, from the transaction at index `i`. -/
def verifyRawTxs : Nat → List Bytes → Except WellFormedError Unit
  | _, [] => .ok ()
  | i, rawTx :: rest => do
    verifyRawTx i rawTx
    verifyRawTxs (i + 1) rest

/-- `VerifyTransactionsAreWellFormed`; a nil `BlockData` is `none`. -/
def verifyTransactionsAreWellFormed (bd : Option BlockData) : Except WellFormedError Unit :=
  match bd with
  | none => throw .emptyBlock
  | some bd =>
    if bd.data.length = 0 then throw .emptyBlock
    -- a single config transaction is not checked
    else if hasConfigTx bd then pure ()
    else verifyRawTxs 0 bd.data

/-- `ComputeBlockDataHash`: the hash of the concatenated transactions (`bytes.Join(b.Data, nil)`). -/
def computeBlockDataHash (sha256 : Bytes → Bytes) (b : BlockData) : Bytes :=
  sha256 b.data.flatten

/-- `BlockDataHash` of a non-nil `BlockData`, as every caller modelled here passes. -/
def blockDataHash (sha256 : Bytes → Bytes) (b : BlockData) : Except WellFormedError Bytes := do
  verifyTransactionsAreWellFormed (some b)
  pure (computeBlockDataHash sha256 b)

/-! ## The check accepts exactly the canonical envelopes -/

/-- The bytes of a transaction are the canonical encoding of an envelope with a payload and a
    signature. -/
def CanonicalEnvelope (raw : Bytes) : Prop :=
  ∃ env, unmarshalEnvelope raw = .ok env ∧ env.payload ≠ [] ∧ env.signature ≠ [] ∧
    marshalEnvelope env = raw

theorem verifyRawTx_eq_ok {i : Nat} {raw : Bytes} :
    verifyRawTx i raw = .ok () ↔ CanonicalEnvelope raw := by
  unfold verifyRawTx CanonicalEnvelope
  cases hu : unmarshalEnvelope raw with
  | error e => simp [Except.mapError, bind, Except.bind]
  | ok env =>
    simp only [Except.mapError, bind, Except.bind, Except.ok.injEq, exists_eq_left']
    by_cases hp : env.payload.length = 0
    · simp [List.length_eq_zero_iff.mp hp, throw, throwThe, MonadExceptOf.throw]
    by_cases hs : env.signature.length = 0
    · simp [hp, List.length_eq_zero_iff.mp hs, throw, throwThe, MonadExceptOf.throw]
    by_cases hl : (marshalEnvelope env).length < raw.length
    · have hne : marshalEnvelope env ≠ raw := fun h => by rw [h] at hl; omega
      simp [hp, hs, hl, hne, throw, throwThe, MonadExceptOf.throw]
    · by_cases he : marshalEnvelope env = raw
      · simp [hp, hs, he, pure, Except.pure, List.ne_nil_iff_length_pos]
        omega
      · simp [hp, hs, hl, he, throw, throwThe, MonadExceptOf.throw]

theorem verifyRawTxs_eq_ok (i : Nat) (txs : List Bytes) :
    verifyRawTxs i txs = .ok () ↔ ∀ raw ∈ txs, CanonicalEnvelope raw := by
  induction txs generalizing i with
  | nil => simp [verifyRawTxs]
  | cons raw rest ih =>
    rw [verifyRawTxs, List.forall_mem_cons, ← verifyRawTx_eq_ok (i := i), ← ih (i + 1)]
    cases verifyRawTx i raw <;> simp [bind, Except.bind]

/-- A block that passed the check without the config shortcut holds canonical envelopes. -/
theorem canonical_of_verifyTransactionsAreWellFormed {bd : BlockData}
    (h : verifyTransactionsAreWellFormed (some bd) = .ok ()) (hc : hasConfigTx bd = false) :
    ∀ raw ∈ bd.data, CanonicalEnvelope raw := by
  simp only [verifyTransactionsAreWellFormed, hc, Bool.false_eq_true, if_false] at h
  split_ifs at h with h0
  exact (verifyRawTxs_eq_ok 0 bd.data).mp h

/-! ## Binding -/

/-- The records of a concatenation of canonical envelopes start with a payload record. -/
theorem fieldRecords_flatten_canonical :
    ∀ {txs : List Bytes}, (∀ raw ∈ txs, CanonicalEnvelope raw) →
      ∃ rs, fieldRecords txs.flatten = some rs ∧ ∀ q ∈ rs.head?, isPayloadRecord q = true
  | [], _ => ⟨[], by simp, by simp⟩
  | raw :: rest, h => by
    obtain ⟨env, hu, hp, -, hm⟩ := h raw (List.mem_cons_self ..)
    obtain ⟨r, rs, hr, hpay, -⟩ := fieldRecords_of_canonical hu hp hm
    obtain ⟨rs', hrs', -⟩ := fieldRecords_flatten_canonical fun q hq => h q (List.mem_cons_of_mem _ hq)
    refine ⟨r :: rs ++ rs', ?_, by simpa using hpay⟩
    rw [List.flatten_cons, fieldRecords_append hr, hrs']
    rfl

theorem canonicalEnvelope_ne_nil {raw : Bytes} (h : CanonicalEnvelope raw) : raw ≠ [] := by
  obtain ⟨env, hu, hp, -, hm⟩ := h
  obtain ⟨r, rs, hr, -, -⟩ := fieldRecords_of_canonical hu hp hm
  rintro rfl
  simp at hr

/-- Canonical envelopes form a prefix code: a list of them is recovered from its
    concatenation. -/
theorem eq_of_flatten_eq_of_canonical :
    ∀ {txs₁ txs₂ : List Bytes}, (∀ raw ∈ txs₁, CanonicalEnvelope raw) →
      (∀ raw ∈ txs₂, CanonicalEnvelope raw) → txs₁.flatten = txs₂.flatten → txs₁ = txs₂
  | [], [], _, _, _ => rfl
  | [], raw :: _, _, h₂, h => by
    have := canonicalEnvelope_ne_nil (h₂ raw (List.mem_cons_self ..))
    simp_all
  | raw :: _, [], h₁, _, h => by
    have := canonicalEnvelope_ne_nil (h₁ raw (List.mem_cons_self ..))
    simp_all
  | raw₁ :: rest₁, raw₂ :: rest₂, h₁, h₂, h => by
    have hc₁ : ∀ raw ∈ rest₁, CanonicalEnvelope raw := fun q hq => h₁ q (List.mem_cons_of_mem _ hq)
    have hc₂ : ∀ raw ∈ rest₂, CanonicalEnvelope raw := fun q hq => h₂ q (List.mem_cons_of_mem _ hq)
    obtain ⟨env₁, hu₁, hp₁, -, hm₁⟩ := h₁ raw₁ (List.mem_cons_self ..)
    obtain ⟨env₂, hu₂, hp₂, -, hm₂⟩ := h₂ raw₂ (List.mem_cons_self ..)
    obtain ⟨r₁, rs₁, hr₁, -, hd₁⟩ := fieldRecords_of_canonical hu₁ hp₁ hm₁
    obtain ⟨r₂, rs₂, hr₂, -, hd₂⟩ := fieldRecords_of_canonical hu₂ hp₂ hm₂
    obtain ⟨ys₁, hy₁, hh₁⟩ := fieldRecords_flatten_canonical hc₁
    obtain ⟨ys₂, hy₂, hh₂⟩ := fieldRecords_flatten_canonical hc₂
    simp only [List.flatten_cons] at h
    -- the first transactions end where the next payload record begins
    have heq : raw₁ = raw₂ :=
      eq_of_fieldRecords_delimited isPayloadRecord hr₁ hr₂ hy₁ hy₂ hd₁ hd₂ hh₁ hh₂ h
    subst heq
    rw [eq_of_flatten_eq_of_canonical hc₁ hc₂ (List.append_cancel_left h)]

/-- The data hash binds the transactions of a block checked without the config shortcut: two
    such blocks with the same concatenation hold the same transactions. -/
theorem data_eq_of_flatten_eq {d₁ d₂ : BlockData}
    (h₁ : verifyTransactionsAreWellFormed (some d₁) = .ok ())
    (h₂ : verifyTransactionsAreWellFormed (some d₂) = .ok ())
    (hc₁ : hasConfigTx d₁ = false) (hc₂ : hasConfigTx d₂ = false)
    (h : d₁.data.flatten = d₂.data.flatten) : d₁.data = d₂.data :=
  eq_of_flatten_eq_of_canonical (canonical_of_verifyTransactionsAreWellFormed h₁ hc₁)
    (canonical_of_verifyTransactionsAreWellFormed h₂ hc₂) h

/-- An envelope with a payload and a signature, no unknown fields, and fields of a length a
    varint can count. -/
def WellFormedEnvelope (env : Envelope) : Prop :=
  env.payload ≠ [] ∧ env.signature ≠ [] ∧ env.unknownFields = [] ∧
    env.payload.length < 2 ^ 64 ∧ env.signature.length < 2 ^ 64

theorem canonicalEnvelope_marshalEnvelope {env : Envelope} (h : WellFormedEnvelope env) :
    CanonicalEnvelope (marshalEnvelope env) :=
  ⟨env, unmarshalEnvelope_marshalEnvelope env h.2.2.1 h.2.2.2.1 h.2.2.2.2, h.1, h.2.1, rfl⟩

/-- A checked block of well-formed envelopes: its hash is the hash of their encodings. -/
theorem blockDataHash_of_canonical (sha256 : Bytes → Bytes) {bd : BlockData}
    (hne : bd.data ≠ []) (h : ∀ raw ∈ bd.data, CanonicalEnvelope raw) :
    blockDataHash sha256 bd = .ok (computeBlockDataHash sha256 bd) := by
  have hv : verifyTransactionsAreWellFormed (some bd) = .ok () := by
    simp only [verifyTransactionsAreWellFormed, List.length_eq_zero_iff, hne, if_false]
    split_ifs
    · rfl
    · exact (verifyRawTxs_eq_ok 0 bd.data).mpr h
  rw [blockDataHash, hv]
  rfl

/-! ## The config shortcut -/

/-- Of two envelopes' encodings, concatenated, the decoder keeps the second's fields. -/
theorem unmarshalEnvelope_append_marshalEnvelope {e₁ e₂ : Envelope} (h₁ : WellFormedEnvelope e₁)
    (h₂ : WellFormedEnvelope e₂) :
    unmarshalEnvelope (marshalEnvelope e₁ ++ marshalEnvelope e₂) = .ok e₂ := by
  obtain ⟨-, -, hu₁, hp₁, hs₁⟩ := h₁
  obtain ⟨hp₂, hs₂, hu₂, hlp₂, hls₂⟩ := h₂
  rw [unmarshalEnvelope, unmarshalPointer_marshalEnvelope e₁ hu₁ hp₁ hs₁,
    ← List.append_nil (marshalEnvelope e₂), unmarshalPointer_marshalEnvelope e₂ hu₂ hlp₂ hls₂,
    MessageInfo.unmarshalPointer_nil]
  have hp₂' : e₂.payload.length ≠ 0 := by simpa using hp₂
  have hs₂' : e₂.signature.length ≠ 0 := by simpa using hs₂
  obtain ⟨payload, signature, unknownFields⟩ := e₂
  simp only at hu₂ hp₂' hs₂'
  subst hu₂
  simp [hp₂', hs₂']

/-- `HasConfigTx` of a one-transaction block, once its envelope, payload and channel header are
    decoded. -/
theorem hasConfigTx_singleton {raw : Bytes} {env : Envelope} {payload : Payload}
    {header : Header} {hdr : ChannelHeader} (he : unmarshalEnvelope raw = .ok env)
    (hp : unmarshalPayload env.payload = .ok payload) (hh : payload.header = some header)
    (hc : unmarshalChannelHeader header.channelHeader = .ok hdr) :
    hasConfigTx ⟨[raw]⟩ = (hdr.type == headerTypeConfig) := by
  simp only [hasConfigTx, he, hp, hh, hc]

/-- `ChannelHeader{Type: CONFIG}` on the wire. -/
def configChannelHeaderBytes : Bytes := appendTag 1 .varint ++ appendVarint 1

/-- `Header{ChannelHeader: configChannelHeaderBytes}` on the wire. -/
def configHeaderBytes : Bytes := appendBytesNoZero 1 configChannelHeaderBytes

/-- `Payload{Header: ...}` on the wire. -/
def configPayloadBytes : Bytes := appendBytesNoZero 1 configHeaderBytes

/-- A config transaction. -/
def configEnvelope : Envelope := { payload := configPayloadBytes, signature := [1] }

/-- Any other transaction. -/
def plainEnvelope : Envelope := { payload := [1], signature := [1] }

theorem wellFormedEnvelope_configEnvelope : WellFormedEnvelope configEnvelope := by
  refine ⟨?_, by simp [configEnvelope], rfl, ?_, by simp [configEnvelope]⟩ <;> decide

theorem wellFormedEnvelope_plainEnvelope : WellFormedEnvelope plainEnvelope := by
  refine ⟨?_, ?_, rfl, ?_, ?_⟩ <;> decide

theorem unmarshalChannelHeader_config :
    unmarshalChannelHeader configChannelHeaderBytes = .ok { type := Int32.ofNat 1 } := by
  rw [unmarshalChannelHeader, configChannelHeaderBytes, ← List.append_nil (appendVarint 1),
    channelHeaderInfo.unmarshalPointer_appendTag_varint rfl (by decide) (by decide) rfl,
    MessageInfo.unmarshalPointer_nil]

theorem unmarshalPayload_config :
    unmarshalPayload configPayloadBytes =
      .ok { header := some { channelHeader := configChannelHeaderBytes } } := by
  have hheader : headerInfo.unmarshalPointer configHeaderBytes {} =
      .ok { channelHeader := configChannelHeaderBytes } := by
    rw [configHeaderBytes, ← List.append_nil (appendBytesNoZero 1 configChannelHeaderBytes),
      headerInfo.unmarshalPointer_appendBytesNoZero rfl (by decide) (by decide),
      MessageInfo.unmarshalPointer_nil]
    rfl
  have hbytes : configPayloadBytes = appendTag 1 .bytes ++ (appendBytes configHeaderBytes ++ []) := by
    rw [List.append_nil, configPayloadBytes, appendBytesNoZero, if_neg (by decide)]
  rw [unmarshalPayload, hbytes, payloadInfo.unmarshalPointer_appendTag_bytes rfl (by decide)
    (by decide) (by simp only [Option.getD_none, hheader]; rfl), MessageInfo.unmarshalPointer_nil]

/-- The single transaction that concatenates an ordinary envelope and a config envelope passes
    for a config transaction, whose well-formedness is not checked: its data hash is that of
    the checked block of the two transactions, a different list of transactions. -/
theorem blockDataHash_merged_config (sha256 : Bytes → Bytes) :
    blockDataHash sha256 ⟨[marshalEnvelope plainEnvelope ++ marshalEnvelope configEnvelope]⟩ =
        .ok (computeBlockDataHash sha256 ⟨[marshalEnvelope plainEnvelope, marshalEnvelope configEnvelope]⟩) ∧
      blockDataHash sha256 ⟨[marshalEnvelope plainEnvelope, marshalEnvelope configEnvelope]⟩ =
        .ok (computeBlockDataHash sha256 ⟨[marshalEnvelope plainEnvelope, marshalEnvelope configEnvelope]⟩) ∧
      [marshalEnvelope plainEnvelope ++ marshalEnvelope configEnvelope] ≠
        [marshalEnvelope plainEnvelope, marshalEnvelope configEnvelope] := by
  have hconfig : hasConfigTx ⟨[marshalEnvelope plainEnvelope ++ marshalEnvelope configEnvelope]⟩ := by
    rw [hasConfigTx_singleton (unmarshalEnvelope_append_marshalEnvelope
      wellFormedEnvelope_plainEnvelope wellFormedEnvelope_configEnvelope) unmarshalPayload_config
      rfl unmarshalChannelHeader_config]
    rfl
  refine ⟨?_, ?_, by simp⟩
  · -- the merged block takes the config shortcut
    rw [blockDataHash, verifyTransactionsAreWellFormed]
    simp only [List.length_cons, List.length_nil, Nat.add_eq_zero_iff, hconfig, if_true]
    simp [computeBlockDataHash, pure, Except.pure, bind, Except.bind]
  · -- the split block passes the full check
    refine blockDataHash_of_canonical sha256 (by simp) ?_
    intro raw hraw
    simp only [List.mem_cons, List.not_mem_nil, or_false] at hraw
    rcases hraw with rfl | rfl
    · exact canonicalEnvelope_marshalEnvelope wellFormedEnvelope_plainEnvelope
    · exact canonicalEnvelope_marshalEnvelope wellFormedEnvelope_configEnvelope

end Fabric.Protoutil
