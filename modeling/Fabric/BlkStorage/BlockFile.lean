import Fabric.Protoutil.BlockUtils

/-
  Blocks in the block files of the block store (`common/ledger/blkstorage`).

  `serializeBlock` writes a block as the header's number and hashes, the transactions as a
  count and length-prefixed byte strings, and the metadata entries likewise, noting where
  each transaction lies in the block's bytes (`block_serialization.go`). `addBlock` appends the
  bytes to the latest block file behind their length as a varint and indexes the block and its
  transactions by where they lie in the file (`blockfile_mgr.go`, `blockindex.go`). At
  recovery `syncIndex` reads the blocks back from the file with a block stream
  (`block_stream.go`) and indexes them again from what `extractSerializedBlockInfo` finds.

  Proved: decoding a serialized block returns it (`deserializeBlock_serializeBlock`), and
  `extractSerializedBlockInfo` the information `serializeBlock` noted
  (`extractSerializedBlockInfo_serializeBlock`); the transaction locations that `addBlock`
  indexes hold the length-prefixed transactions, and the block stream reads back the block
  and the same index (`addBlock_index_agrees`). `indexBlock` reads the transaction filter,
  metadata entry `2`, of every block it indexes, and the stream peeks eight bytes for the
  block's length: a block with fewer metadata entries is not added
  (`addBlock_short_metadata_panics`).

  When one of `addBlock`'s writes fails (`addBlockFailing`), the truncation after a failed
  append or `saveBlkfilesInfo` leaves the files as they were (`addBlockFailing_truncated`); a
  failed index `WriteBatch` is not followed by one, and the block stays in the file.

  Byte strings are lists, so a nil one and an empty one are both `[]`. SHA-256 of a header
  and the transaction ID of an envelope are parameters; the cache, what `saveBlkfilesInfo`
  writes to the database and the I/O errors of reads are left out.
-/

namespace Fabric.BlkStorage

open Protowire Protoutil
open Fabric.Ledger (Bytes)

/-! ## Serialization -/

/-- `locPointer`: where some bytes lie, by their offset and their length. -/
structure LocPointer where
  offset : Nat
  bytesLength : Nat
  deriving DecidableEq, Repr

/-- `txindexInfo`: a transaction's ID and where its bytes lie in the block's bytes. -/
structure TxIndexInfo where
  txID : String
  loc : LocPointer
  deriving DecidableEq, Repr

/-- `serializedBlockInfo`. -/
structure SerializedBlockInfo where
  blockHeader : BlockHeader
  txOffsets : List TxIndexInfo
  metadata : Option BlockMetadata
  deriving DecidableEq, Repr

section Serialize

-- `protoutil.GetOrComputeTxIDFromEnvelope`: the ID it returns for the bytes of an envelope;
-- both callers here only log its error
variable (getOrComputeTxID : Bytes → String)

/-- `addHeaderBytes`. -/
def addHeaderBytes (blockHeader : BlockHeader) (buf : Bytes) : Bytes :=
  buf ++ appendVarint blockHeader.number.toNat ++ appendBytes blockHeader.dataHash ++
    appendBytes blockHeader.previousHash

/-- One pass of the loop of `addDataBytesAndConstructTxIndexInfo`: append a transaction and
    note where it lies. -/
def addTxBytes (acc : List TxIndexInfo × Bytes) (txEnvelopeBytes : Bytes) :
    List TxIndexInfo × Bytes :=
  let offset := acc.2.length
  let buf := acc.2 ++ appendBytes txEnvelopeBytes
  (acc.1 ++ [⟨getOrComputeTxID txEnvelopeBytes, ⟨offset, buf.length - offset⟩⟩], buf)

/-- `addDataBytesAndConstructTxIndexInfo`. -/
def addDataBytesAndConstructTxIndexInfo (blockData : BlockData) (buf : Bytes) :
    List TxIndexInfo × Bytes :=
  blockData.data.foldl (addTxBytes getOrComputeTxID) ([], buf ++ appendVarint blockData.data.length)

/-- `addMetadataBytes`: a nil metadata is written as no entries. -/
def addMetadataBytes (blockMetadata : Option BlockMetadata) (buf : Bytes) : Bytes :=
  let numItems := match blockMetadata with
    | none => 0
    | some m => m.metadata.length
  let buf := buf ++ appendVarint numItems
  match blockMetadata with
  | none => buf
  | some m => m.metadata.foldl (fun buf b => buf ++ appendBytes b) buf

/-- `serializeBlock`; `none` is the nil dereference of a block without a header or data. -/
def serializeBlock (block : Block) : Option (Bytes × SerializedBlockInfo) := do
  let header ← block.header
  let data ← block.data
  let buf := addHeaderBytes header []
  let (txOffsets, buf) := addDataBytesAndConstructTxIndexInfo getOrComputeTxID data buf
  let buf := addMetadataBytes block.metadata buf
  pure (buf, ⟨header, txOffsets, block.metadata⟩)

end Serialize

/-! ## Deserialization -/

/-- `buffer`: the bytes, and the position of the next byte to read. -/
structure Buffer where
  buf : Bytes
  position : Nat

/-- `buffer.DecodeVarint`. -/
def Buffer.decodeVarint (b : Buffer) : Except ParseError (Nat × Buffer) := do
  let (v, n) ← consumeVarint (b.buf.drop b.position)
  pure (v, { b with position := b.position + n })

/-- `buffer.DecodeRawBytes`. -/
def Buffer.decodeRawBytes (b : Buffer) : Except ParseError (Bytes × Buffer) := do
  let (v, n) ← consumeBytes (b.buf.drop b.position)
  pure (v, { b with position := b.position + n })

/-- The errors of the block decoders: each wraps the `protowire` error in its message. -/
inductive DecodeError
  /-- "error decoding the block number" -/
  | blockNumber (err : ParseError)
  /-- "error decoding the data hash" -/
  | dataHash (err : ParseError)
  /-- "error decoding the previous hash" -/
  | previousHash (err : ParseError)
  /-- "error decoding the length of block data" -/
  | dataLength (err : ParseError)
  /-- "error decoding the transaction envelope" -/
  | txEnvelope (err : ParseError)
  /-- "error decoding the length of block metadata" -/
  | metadataLength (err : ParseError)
  /-- "error decoding the block metadata" -/
  | metadataEntry (err : ParseError)
  deriving DecidableEq, Repr

/-- `extractHeader`. An empty previous hash is read as nil, which is `[]` here too. -/
def extractHeader (b : Buffer) : Except DecodeError (BlockHeader × Buffer) := do
  let (number, b) ← b.decodeVarint.mapError .blockNumber
  let (dataHash, b) ← b.decodeRawBytes.mapError .dataHash
  let (previousHash, b) ← b.decodeRawBytes.mapError .previousHash
  pure ({ number := number.toUInt64, previousHash, dataHash }, b)

section Extract

variable (getOrComputeTxID : Bytes → String)

/-- The loop of `extractData` over the `numItems` transactions left to read. -/
def extractDataLoop : Nat → Buffer → Except DecodeError (List Bytes × List TxIndexInfo × Buffer)
  | 0, b => .ok ([], [], b)
  | numItems + 1, b => do
    let txOffset := b.position
    let (txEnvBytes, b) ← b.decodeRawBytes.mapError .txEnvelope
    let idxInfo : TxIndexInfo := ⟨getOrComputeTxID txEnvBytes, ⟨txOffset, b.position - txOffset⟩⟩
    let (data, txOffsets, b) ← extractDataLoop numItems b
    pure (txEnvBytes :: data, idxInfo :: txOffsets, b)

/-- `extractData`. -/
def extractData (b : Buffer) : Except DecodeError (BlockData × List TxIndexInfo × Buffer) := do
  let (numItems, b) ← b.decodeVarint.mapError .dataLength
  let (data, txOffsets, b) ← extractDataLoop getOrComputeTxID numItems b
  pure (⟨data⟩, txOffsets, b)

/-- The loop of `extractMetadata` over the `numItems` entries left to read. -/
def extractMetadataLoop : Nat → Buffer → Except DecodeError (List Bytes × Buffer)
  | 0, b => .ok ([], b)
  | numItems + 1, b => do
    let (metadataEntry, b) ← b.decodeRawBytes.mapError .metadataEntry
    let (metadata, b) ← extractMetadataLoop numItems b
    pure (metadataEntry :: metadata, b)

/-- `extractMetadata`: the metadata read back is never nil. -/
def extractMetadata (b : Buffer) : Except DecodeError (BlockMetadata × Buffer) := do
  let (numItems, b) ← b.decodeVarint.mapError .metadataLength
  let (metadata, b) ← extractMetadataLoop numItems b
  pure (⟨metadata⟩, b)

/-- `deserializeBlock`. -/
def deserializeBlock (serializedBlockBytes : Bytes) : Except DecodeError Block := do
  let b : Buffer := ⟨serializedBlockBytes, 0⟩
  let (header, b) ← extractHeader b
  let (data, _, b) ← extractData getOrComputeTxID b
  let (metadata, _) ← extractMetadata b
  pure { header := some header, data := some data, metadata := some metadata }

/-- `extractSerializedBlockInfo`. -/
def extractSerializedBlockInfo (serializedBlockBytes : Bytes) :
    Except DecodeError SerializedBlockInfo := do
  let b : Buffer := ⟨serializedBlockBytes, 0⟩
  let (blockHeader, b) ← extractHeader b
  let (_, txOffsets, b) ← extractData getOrComputeTxID b
  let (metadata, _) ← extractMetadata b
  pure ⟨blockHeader, txOffsets, some metadata⟩

end Extract

/-! ## The layout of a serialized block -/

section Layout

variable (getOrComputeTxID : Bytes → String)

/-- Where the transactions lie when their length-prefixed bytes follow one another from
    `start`, with their IDs. -/
def txIndexInfos (start : Nat) : List Bytes → List TxIndexInfo
  | [] => []
  | env :: envs =>
    ⟨getOrComputeTxID env, ⟨start, (appendBytes env).length⟩⟩ ::
      txIndexInfos (start + (appendBytes env).length) envs

theorem foldl_addTxBytes (envs : List Bytes) (acc : List TxIndexInfo) (buf : Bytes) :
    envs.foldl (addTxBytes getOrComputeTxID) (acc, buf) =
      (acc ++ txIndexInfos getOrComputeTxID buf.length envs, buf ++ envs.flatMap appendBytes) := by
  induction envs generalizing acc buf with
  | nil => simp [txIndexInfos]
  | cons env envs ih =>
    rw [List.foldl_cons, addTxBytes]
    dsimp only
    rw [ih]
    simp [txIndexInfos, List.append_assoc]

theorem addDataBytesAndConstructTxIndexInfo_eq (blockData : BlockData) (buf : Bytes) :
    addDataBytesAndConstructTxIndexInfo getOrComputeTxID blockData buf =
      (txIndexInfos getOrComputeTxID (buf.length + (appendVarint blockData.data.length).length)
          blockData.data,
        buf ++ appendVarint blockData.data.length ++ blockData.data.flatMap appendBytes) := by
  rw [addDataBytesAndConstructTxIndexInfo, foldl_addTxBytes]
  simp

theorem addMetadataBytes_eq (blockMetadata : Option BlockMetadata) (buf : Bytes) :
    addMetadataBytes blockMetadata buf =
      buf ++ appendVarint ((blockMetadata.map BlockMetadata.metadata).getD []).length ++
        ((blockMetadata.map BlockMetadata.metadata).getD []).flatMap appendBytes := by
  cases blockMetadata with
  | none => simp [addMetadataBytes]
  | some m =>
    -- the entries are appended one after another
    have hfold : ∀ (entries : List Bytes) (buf : Bytes),
        entries.foldl (fun buf b => buf ++ appendBytes b) buf = buf ++ entries.flatMap appendBytes := by
      intro entries
      induction entries with
      | nil => simp
      | cons e es ih => intro buf; simp [ih]
    simp [addMetadataBytes, hfold]

/-- `serializeBlock` of a block with a header and data: the header, the transactions and the
    metadata, one after another. -/
theorem serializeBlock_eq_some {block : Block} {bytes : Bytes} {info : SerializedBlockInfo}
    (h : serializeBlock getOrComputeTxID block = some (bytes, info)) :
    ∃ header data, block.header = some header ∧ block.data = some data ∧
      bytes = addHeaderBytes header [] ++ appendVarint data.data.length ++
        data.data.flatMap appendBytes ++
        appendVarint ((block.metadata.map BlockMetadata.metadata).getD []).length ++
        ((block.metadata.map BlockMetadata.metadata).getD []).flatMap appendBytes ∧
      info = ⟨header, txIndexInfos getOrComputeTxID
        ((addHeaderBytes header []).length + (appendVarint data.data.length).length) data.data,
        block.metadata⟩ := by
  cases hh : block.header with
  | none => simp [serializeBlock, hh] at h
  | some header =>
    cases hd : block.data with
    | none => simp [serializeBlock, hh, hd] at h
    | some data =>
      simp only [serializeBlock, hh, hd, addDataBytesAndConstructTxIndexInfo_eq, addMetadataBytes_eq]
        at h
      obtain ⟨rfl, rfl⟩ := Prod.mk.inj (Option.some.inj h)
      exact ⟨header, data, rfl, rfl, by simp [List.append_assoc], rfl⟩

end Layout

/-! ## Reading a serialized block back -/

theorem drop_position_add {b : Buffer} {x rest : Bytes} (hb : b.buf.drop b.position = x ++ rest) :
    b.buf.drop (b.position + x.length) = rest := by
  rw [← List.drop_drop, hb, List.drop_left]

theorem decodeVarint_eq {b : Buffer} {v : Nat} {rest : Bytes}
    (hb : b.buf.drop b.position = appendVarint v ++ rest) (hv : v < 2 ^ 64) :
    b.decodeVarint = .ok (v, { b with position := b.position + (appendVarint v).length }) := by
  simp only [Buffer.decodeVarint, hb, consumeVarint_appendVarint v hv]
  rfl

theorem decodeRawBytes_eq {b : Buffer} {v rest : Bytes}
    (hb : b.buf.drop b.position = appendBytes v ++ rest) (hv : v.length < 2 ^ 64) :
    b.decodeRawBytes = .ok (v, { b with position := b.position + (appendBytes v).length }) := by
  simp only [Buffer.decodeRawBytes, hb, consumeBytes_appendBytes v hv rest]
  rfl

/-- `extractHeader` reads back the header `addHeaderBytes` wrote. -/
theorem extractHeader_eq {b : Buffer} {header : BlockHeader} {rest : Bytes}
    (hb : b.buf.drop b.position = addHeaderBytes header [] ++ rest)
    (hdata : header.dataHash.length < 2 ^ 64) (hprev : header.previousHash.length < 2 ^ 64) :
    extractHeader b =
      .ok (header, { b with position := b.position + (addHeaderBytes header []).length }) := by
  -- the number, then the two hashes, each from where the last ended
  have h1 : b.buf.drop b.position = appendVarint header.number.toNat ++
      (appendBytes header.dataHash ++ appendBytes header.previousHash ++ rest) := by
    rw [hb]
    simp [addHeaderBytes, List.append_assoc]
  have h2 := drop_position_add h1
  rw [List.append_assoc] at h2
  have h3 := drop_position_add (b := { b with position := b.position +
    (appendVarint header.number.toNat).length }) h2
  rw [extractHeader, decodeVarint_eq h1 (UInt64.toNat_lt _)]
  simp only [Except.mapError, bind, Except.bind]
  rw [decodeRawBytes_eq h2 hdata]
  simp only
  rw [decodeRawBytes_eq h3 hprev]
  simp only [pure, Except.pure, Nat.toUInt64_eq, UInt64.ofNat_toNat]
  congr 3
  simp [addHeaderBytes]
  omega

section Extract

variable (getOrComputeTxID : Bytes → String)

/-- The loop of `extractData` reads back the transactions, where `serializeBlock` noted they
    lie. -/
theorem extractDataLoop_eq :
    ∀ (envs : List Bytes) (b : Buffer) (rest : Bytes),
      b.buf.drop b.position = envs.flatMap appendBytes ++ rest →
      (∀ env ∈ envs, env.length < 2 ^ 64) →
      extractDataLoop getOrComputeTxID envs.length b =
        .ok (envs, txIndexInfos getOrComputeTxID b.position envs,
          { b with position := b.position + (envs.flatMap appendBytes).length })
  | [], b, _, _, _ => by simp [extractDataLoop, txIndexInfos]
  | env :: envs, b, rest, hb, hlen => by
    have h1 : b.buf.drop b.position = appendBytes env ++ (envs.flatMap appendBytes ++ rest) := by
      rw [hb]
      simp [List.append_assoc]
    have hrest := extractDataLoop_eq envs
      { b with position := b.position + (appendBytes env).length } rest
      (drop_position_add h1) (fun e he => hlen e (List.mem_cons_of_mem env he))
    rw [List.length_cons, extractDataLoop, decodeRawBytes_eq h1 (hlen env List.mem_cons_self)]
    simp only [Except.mapError, bind, Except.bind]
    rw [hrest]
    simp only [pure, Except.pure, txIndexInfos]
    congr 3
    · simp
    · simp [Nat.add_assoc]

/-- The loop of `extractMetadata` reads back the entries. -/
theorem extractMetadataLoop_eq :
    ∀ (entries : List Bytes) (b : Buffer) (rest : Bytes),
      b.buf.drop b.position = entries.flatMap appendBytes ++ rest →
      (∀ e ∈ entries, e.length < 2 ^ 64) →
      extractMetadataLoop entries.length b =
        .ok (entries, { b with position := b.position + (entries.flatMap appendBytes).length })
  | [], b, _, _, _ => by simp [extractMetadataLoop]
  | e :: entries, b, rest, hb, hlen => by
    have h1 : b.buf.drop b.position = appendBytes e ++ (entries.flatMap appendBytes ++ rest) := by
      rw [hb]
      simp [List.append_assoc]
    have hrest := extractMetadataLoop_eq entries
      { b with position := b.position + (appendBytes e).length } rest
      (drop_position_add h1) (fun e' he' => hlen e' (List.mem_cons_of_mem e he'))
    rw [List.length_cons, extractMetadataLoop, decodeRawBytes_eq h1 (hlen e List.mem_cons_self)]
    simp only [Except.mapError, bind, Except.bind]
    rw [hrest]
    simp only [pure, Except.pure]
    congr 3
    simp [Nat.add_assoc]

/-- `extractData` reads back the transactions `addDataBytesAndConstructTxIndexInfo` wrote. -/
theorem extractData_eq {b : Buffer} {blockData : BlockData} {rest : Bytes}
    (hb : b.buf.drop b.position =
      appendVarint blockData.data.length ++ blockData.data.flatMap appendBytes ++ rest)
    (hcount : blockData.data.length < 2 ^ 64) (hlen : ∀ env ∈ blockData.data, env.length < 2 ^ 64) :
    extractData getOrComputeTxID b =
      .ok (blockData, txIndexInfos getOrComputeTxID
          (b.position + (appendVarint blockData.data.length).length) blockData.data,
        { b with position := b.position + (appendVarint blockData.data.length).length +
          (blockData.data.flatMap appendBytes).length }) := by
  rw [List.append_assoc] at hb
  have h1 := drop_position_add hb
  rw [extractData, decodeVarint_eq hb hcount]
  simp only [Except.mapError, bind, Except.bind]
  rw [extractDataLoop_eq getOrComputeTxID blockData.data _ rest h1 hlen]
  rfl

/-- `extractMetadata` reads back the entries `addMetadataBytes` wrote. -/
theorem extractMetadata_eq {b : Buffer} {entries : List Bytes} {rest : Bytes}
    (hb : b.buf.drop b.position = appendVarint entries.length ++ entries.flatMap appendBytes ++ rest)
    (hcount : entries.length < 2 ^ 64) (hlen : ∀ e ∈ entries, e.length < 2 ^ 64) :
    extractMetadata b =
      .ok (⟨entries⟩, { b with position := b.position + (appendVarint entries.length).length +
        (entries.flatMap appendBytes).length }) := by
  rw [List.append_assoc] at hb
  have h1 := drop_position_add hb
  rw [extractMetadata, decodeVarint_eq hb hcount]
  simp only [Except.mapError, bind, Except.bind]
  rw [extractMetadataLoop_eq entries _ rest h1 hlen]
  rfl

end Extract

/-! ## Lengths -/

theorem length_appendBytes (v : Bytes) :
    (appendBytes v).length = (appendVarint v.length).length + v.length := by
  simp [appendBytes]

/-- A byte string and the count of the strings are no longer than their length-prefixed
    bytes. -/
theorem length_le_length_flatMap_appendBytes (envs : List Bytes) :
    envs.length ≤ (envs.flatMap appendBytes).length ∧
      ∀ env ∈ envs, env.length ≤ (envs.flatMap appendBytes).length := by
  induction envs with
  | nil => simp
  | cons env envs ih =>
    have hvar : 0 < (appendVarint env.length).length :=
      List.length_pos_of_ne_nil (appendVarintN_ne_nil 9 _)
    have henv := length_appendBytes env
    simp only [List.flatMap_cons, List.length_append, List.length_cons, List.mem_cons,
      forall_eq_or_imp]
    refine ⟨by omega, by omega, fun e he => ?_⟩
    have := ih.2 e he
    omega

/-- The parts of a serialized block are below `2^64` when the whole is. -/
theorem fits_of_serializeBlock {getOrComputeTxID : Bytes → String} {block : Block}
    {bytes : Bytes} {info : SerializedBlockInfo}
    (h : serializeBlock getOrComputeTxID block = some (bytes, info)) (hsize : bytes.length < 2 ^ 64) :
    ∃ header data, block.header = some header ∧ block.data = some data ∧
      header.dataHash.length < 2 ^ 64 ∧ header.previousHash.length < 2 ^ 64 ∧
      data.data.length < 2 ^ 64 ∧ (∀ env ∈ data.data, env.length < 2 ^ 64) ∧
      ((block.metadata.map BlockMetadata.metadata).getD []).length < 2 ^ 64 ∧
      (∀ e ∈ (block.metadata.map BlockMetadata.metadata).getD [], e.length < 2 ^ 64) := by
  obtain ⟨header, data, hh, hd, rfl, -⟩ := serializeBlock_eq_some getOrComputeTxID h
  have hdata := length_le_length_flatMap_appendBytes data.data
  have hmeta := length_le_length_flatMap_appendBytes
    ((block.metadata.map BlockMetadata.metadata).getD [])
  have hdh := length_appendBytes header.dataHash
  have hph := length_appendBytes header.previousHash
  simp only [addHeaderBytes, List.nil_append, List.length_append] at hsize
  refine ⟨header, data, hh, hd, by omega, by omega, by omega, fun env he => ?_, by omega,
    fun e he => ?_⟩
  · have := hdata.2 env he
    omega
  · have := hmeta.2 e he
    omega

/-! ## Round trips -/

section RoundTrip

variable {getOrComputeTxID : Bytes → String} {block : Block} {bytes : Bytes}
  {info : SerializedBlockInfo}

/-- The three readers of `deserializeBlock` and `extractSerializedBlockInfo`, run over a
    serialized block, return its header, its transactions where `serializeBlock` noted them,
    and its metadata entries. -/
theorem extract_serializeBlock (h : serializeBlock getOrComputeTxID block = some (bytes, info))
    (hsize : bytes.length < 2 ^ 64) :
    ∃ header data bHeader bData,
      block.header = some header ∧ block.data = some data ∧
      extractHeader ⟨bytes, 0⟩ = .ok (header, bHeader) ∧
      extractData getOrComputeTxID bHeader = .ok (data, info.txOffsets, bData) ∧
      ∃ bMeta, extractMetadata bData =
        .ok (⟨(block.metadata.map BlockMetadata.metadata).getD []⟩, bMeta) := by
  obtain ⟨header, data, hh, hd, hdh, hph, hcount, hlen, hmcount, hmlen⟩ :=
    fits_of_serializeBlock h hsize
  obtain ⟨header', data', hh', hd', hbytes, hinfo⟩ := serializeBlock_eq_some getOrComputeTxID h
  rw [hh, Option.some.injEq] at hh'
  rw [hd, Option.some.injEq] at hd'
  subst hh' hd' hinfo
  -- where each part begins
  have h0 : (⟨bytes, 0⟩ : Buffer).buf.drop (⟨bytes, 0⟩ : Buffer).position =
      addHeaderBytes header [] ++ (appendVarint data.data.length ++ data.data.flatMap appendBytes ++
        (appendVarint ((block.metadata.map BlockMetadata.metadata).getD []).length ++
          ((block.metadata.map BlockMetadata.metadata).getD []).flatMap appendBytes)) := by
    rw [hbytes]
    simp [List.append_assoc]
  have hH := extractHeader_eq h0 hdh hph
  rw [Nat.zero_add] at hH
  -- the buffers after the header and after the transactions
  let b1 : Buffer := ⟨bytes, (addHeaderBytes header []).length⟩
  let b2 : Buffer := ⟨bytes, b1.position + (appendVarint data.data.length).length +
    (data.data.flatMap appendBytes).length⟩
  have h1 : b1.buf.drop b1.position = appendVarint data.data.length ++
      data.data.flatMap appendBytes ++
      (appendVarint ((block.metadata.map BlockMetadata.metadata).getD []).length ++
        ((block.metadata.map BlockMetadata.metadata).getD []).flatMap appendBytes) := by
    have := drop_position_add h0
    rwa [Nat.zero_add] at this
  have hD := extractData_eq getOrComputeTxID h1 hcount hlen
  have h2 : b2.buf.drop b2.position =
      appendVarint ((block.metadata.map BlockMetadata.metadata).getD []).length ++
        ((block.metadata.map BlockMetadata.metadata).getD []).flatMap appendBytes ++ [] := by
    have := drop_position_add h1
    rw [List.length_append, ← Nat.add_assoc] at this
    rw [List.append_nil]
    exact this
  have hM := extractMetadata_eq h2 hmcount hmlen
  exact ⟨header, data, _, _, hh, hd, hH, hD, _, hM⟩

/-- `deserializeBlock` reads back a serialized block, its metadata as entries even where it was
    nil. -/
theorem deserializeBlock_serializeBlock
    (h : serializeBlock getOrComputeTxID block = some (bytes, info)) (hsize : bytes.length < 2 ^ 64) :
    deserializeBlock getOrComputeTxID bytes =
      .ok { block with metadata := some ⟨(block.metadata.map BlockMetadata.metadata).getD []⟩ } := by
  obtain ⟨header, data, bHeader, bData, hh, hd, hH, hD, bMeta, hM⟩ := extract_serializeBlock h hsize
  simp only [deserializeBlock, hH, hD, hM, bind, Except.bind, pure, Except.pure, ← hh, ← hd]

/-- `extractSerializedBlockInfo` finds the information `serializeBlock` noted, the metadata as
    entries even where it was nil. -/
theorem extractSerializedBlockInfo_serializeBlock
    (h : serializeBlock getOrComputeTxID block = some (bytes, info)) (hsize : bytes.length < 2 ^ 64) :
    extractSerializedBlockInfo getOrComputeTxID bytes =
      .ok { info with metadata := some ⟨(info.metadata.map BlockMetadata.metadata).getD []⟩ } := by
  obtain ⟨header, data, bHeader, bData, hh, hd, hH, hD, bMeta, hM⟩ := extract_serializeBlock h hsize
  obtain ⟨header', data', hh', -, -, hinfo⟩ := serializeBlock_eq_some getOrComputeTxID h
  rw [hh, Option.some.injEq] at hh'
  subst hh'
  simp only [extractSerializedBlockInfo, hH, hD, hM, bind, Except.bind, pure, Except.pure, hinfo]

end RoundTrip

/-! ## The block index -/

/-- `IndexableAttr`: what the block index may maintain. -/
inductive IndexableAttr
  | blockNum
  | blockHash
  | txID
  | blockNumTranNum
  deriving DecidableEq, Repr

/-- `fileLocPointer`: a block file's suffix number and a location in it. -/
structure FileLocPointer where
  fileSuffixNum : Nat
  locPointer : LocPointer
  deriving DecidableEq, Repr

/-- `newFileLocationPointer`: a location relative to a block, placed in its file. -/
def newFileLocationPointer (fileSuffixNum beginningOffset : Nat) (relativeLP : LocPointer) :
    FileLocPointer :=
  ⟨fileSuffixNum, ⟨beginningOffset + relativeLP.offset, relativeLP.bytesLength⟩⟩

/-- `blockIdxInfo`. -/
structure BlockIdxInfo where
  blockNum : UInt64
  blockHash : Bytes
  flp : FileLocPointer
  txOffsets : List TxIndexInfo
  metadata : Option BlockMetadata
  deriving DecidableEq, Repr

/-- The keys of the index database, by what the `construct...Key` functions encode. -/
inductive IndexKey
  | blockHash (blockHash : Bytes)
  | blockNum (blockNum : UInt64)
  | txID (txID : String) (blockNum txNum : UInt64)
  | blockNumTranNum (blockNum txNum : UInt64)
  | indexSavePoint
  deriving DecidableEq, Repr

/-- What the index stores under a key: a location, a `TxIDIndexValue`, or the number of the
    last block indexed. -/
inductive IndexValue
  | loc (flp : FileLocPointer)
  | txIDValue (blkLocation txLocation : FileLocPointer) (txValidationCode : UInt8)
  | blockNum (blockNum : UInt64)
  deriving DecidableEq, Repr

/-- The runtime panics of `indexBlock`, which reads the transaction filter, metadata entry
    `common.BlockMetadataIndex_TRANSACTIONS_FILTER`, of every block it indexes. -/
inductive IndexPanic
  /-- the nil dereference of a block without metadata -/
  | nilMetadata
  /-- index out of range: the metadata has no transaction filter -/
  | noTransactionsFilter
  /-- index out of range: the filter has no flag for the transaction -/
  | noFlag (txNum : Nat)
  deriving DecidableEq, Repr

/-- `common.BlockMetadataIndex_TRANSACTIONS_FILTER`. -/
def transactionsFilterIndex : Nat := 2

/-- Index3 of `indexBlock`, from the `i`-th transaction on: each ID with the block's location,
    the transaction's and its validation flag. -/
def txIDEntries (txsfltr : Bytes) (blkNum : UInt64) (flp : FileLocPointer) :
    Nat → List TxIndexInfo → Except IndexPanic (List (IndexKey × IndexValue))
  | _, [] => .ok []
  | i, txoffset :: txOffsets => do
    let flag ← match txsfltr[i]? with
      | some flag => .ok flag
      | none => .error (.noFlag i)
    let txFlp := newFileLocationPointer flp.fileSuffixNum flp.locPointer.offset txoffset.loc
    let rest ← txIDEntries txsfltr blkNum flp (i + 1) txOffsets
    pure ((.txID txoffset.txID blkNum i.toUInt64, .txIDValue flp txFlp flag) :: rest)

/-- Index4 of `indexBlock`, from the `i`-th transaction on: each transaction's location by its
    number in the block. -/
def blockNumTranNumEntries (blkNum : UInt64) (flp : FileLocPointer) :
    Nat → List TxIndexInfo → List (IndexKey × IndexValue)
  | _, [] => []
  | i, txoffset :: txOffsets =>
    (.blockNumTranNum blkNum i.toUInt64,
      .loc (newFileLocationPointer flp.fileSuffixNum flp.locPointer.offset txoffset.loc)) ::
      blockNumTranNumEntries blkNum flp (i + 1) txOffsets

/-- `blockIndex.indexBlock`: the entries it writes, in order. -/
def indexBlock (indexItems : List IndexableAttr) (blockIdxInfo : BlockIdxInfo) :
    Except IndexPanic (List (IndexKey × IndexValue)) := do
  -- nothing to index
  if indexItems.isEmpty then return []
  let metadata ← match blockIdxInfo.metadata with
    | some metadata => .ok metadata
    | none => .error .nilMetadata
  let txsfltr ← match metadata.metadata[transactionsFilterIndex]? with
    | some txsfltr => .ok txsfltr
    | none => .error .noTransactionsFilter
  let flp := blockIdxInfo.flp
  let index1 := if .blockHash ∈ indexItems then [(.blockHash blockIdxInfo.blockHash, .loc flp)]
    else []
  let index2 := if .blockNum ∈ indexItems then [(.blockNum blockIdxInfo.blockNum, .loc flp)]
    else []
  let index3 ← if .txID ∈ indexItems then
      txIDEntries txsfltr blockIdxInfo.blockNum flp 0 blockIdxInfo.txOffsets
    else pure []
  let index4 := if .blockNumTranNum ∈ indexItems then
      blockNumTranNumEntries blockIdxInfo.blockNum flp 0 blockIdxInfo.txOffsets
    else []
  pure (index1 ++ index2 ++ index3 ++ index4 ++
    [(.indexSavePoint, .blockNum blockIdxInfo.blockNum)])

/-- `WriteBatch`: the index database after the entries, the last write of a key winning. -/
def writeBatch (index : IndexKey → Option IndexValue) (entries : List (IndexKey × IndexValue)) :
    IndexKey → Option IndexValue :=
  entries.foldl (fun index e => Function.update index e.1 (some e.2)) index

/-- The errors of `getTXLocByBlockNumTranNum`. -/
inductive LookupError
  /-- "<blockNumber, transactionNumber> tuple not maintained in index" -/
  | notMaintained
  /-- "no such blockNumber, transactionNumber <%d, %d> in index" -/
  | noSuchEntry (blockNum tranNum : UInt64)
  deriving DecidableEq, Repr

/-- `blockIndex.getTXLocByBlockNumTranNum`. -/
def getTXLocByBlockNumTranNum (indexItems : List IndexableAttr)
    (index : IndexKey → Option IndexValue) (blockNum tranNum : UInt64) :
    Except LookupError FileLocPointer :=
  if .blockNumTranNum ∉ indexItems then .error .notMaintained
  else match index (.blockNumTranNum blockNum tranNum) with
    | some (.loc flp) => .ok flp
    | _ => .error (.noSuchEntry blockNum tranNum)

/-! ## Adding a block -/

/-- The state of `blockfileMgr` that `addBlock` reads and writes: the block files by suffix
    number, the latest of them and its size as `blockfilesInfo` records it, the blockchain info
    and the index database. -/
structure BlockfileMgr where
  files : Nat → Bytes
  latestFileNumber : Nat
  latestFileSize : Nat
  height : UInt64
  currentBlockHash : Bytes
  index : IndexKey → Option IndexValue

/-- How `addBlock` fails. -/
inductive AddBlockFailure
  /-- "block number should have been %d but was %d" -/
  | blockNumber (expected actual : UInt64)
  /-- "unexpected Previous block hash. Expected PreviousHash = [%x], PreviousHash referred in
      the latest block= [%x]" -/
  | previousHash (expected actual : Bytes)
  /-- the nil dereference of a block without a header or data -/
  | nilDereference
  /-- a panic of `indexBlock` -/
  | indexPanic (p : IndexPanic)
  /-- the panic "Could not truncate current file to known size after an error during block
      append: %s" -/
  | truncateAfterAppend
  /-- the panic "Error in truncating current file to known size after an error in saving
      blockfiles info: %s" -/
  | truncateAfterSave
  deriving DecidableEq, Repr

/-- A write of `addBlock` that fails, as the disk and the database decide: the file writer's
    `append` of the length or of the block's bytes, once `written` bytes of them are in the file;
    `saveBlkfilesInfo`; or the index's `WriteBatch`. A failed `append` or `saveBlkfilesInfo` is
    followed by `truncateFile`, which fails when `truncateFails`. -/
inductive WriteFailure
  | append (written : Nat) (truncateFails : Bool)
  | saveBlkfilesInfo (truncateFails : Bool)
  | indexWriteBatch
  deriving DecidableEq, Repr

section AddBlock

-- the size at which a block file is full, `protoutil.BlockHeaderHash`, the transaction IDs
-- and the attributes the index maintains
variable (maxBlockfileSize : Nat) (blockHeaderHash : BlockHeader → Bytes)
  (getOrComputeTxID : Bytes → String) (indexItems : List IndexableAttr)

/-- `blockfileMgr.addBlock`. -/
def addBlock (mgr : BlockfileMgr) (block : Block) : Except AddBlockFailure BlockfileMgr := do
  let header ← match block.header with
    | some header => .ok header
    | none => .error .nilDereference
  if header.number ≠ mgr.height then throw (.blockNumber mgr.height header.number)
  if header.previousHash ≠ mgr.currentBlockHash then
    throw (.previousHash mgr.currentBlockHash header.previousHash)
  let (blockBytes, info) ← match serializeBlock getOrComputeTxID block with
    | some r => .ok r
    | none => .error .nilDereference
  let blockHash := blockHeaderHash header
  let blockBytesEncodedLen := appendVarint blockBytes.length
  let totalBytesToAppend := blockBytes.length + blockBytesEncodedLen.length
  -- a block that does not fit in the latest file starts the next one
  let (fileNum, currentOffset) :=
    if mgr.latestFileSize + totalBytesToAppend > maxBlockfileSize then
      (mgr.latestFileNumber + 1, 0)
    else (mgr.latestFileNumber, mgr.latestFileSize)
  -- the writer appends at the end of the file, wherever the recorded size puts the block
  let files := Function.update mgr.files fileNum
    (mgr.files fileNum ++ blockBytesEncodedLen ++ blockBytes)
  let blockFLP : FileLocPointer := ⟨fileNum, ⟨currentOffset, 0⟩⟩
  -- the transactions move by the length prefixed to the block
  let txOffsets := info.txOffsets.map fun txOffset =>
    { txOffset with loc.offset := txOffset.loc.offset + blockBytesEncodedLen.length }
  let entries ← (indexBlock indexItems
    { blockNum := header.number, blockHash, flp := blockFLP, txOffsets,
      metadata := block.metadata }).mapError .indexPanic
  pure
    { files
      latestFileNumber := fileNum
      latestFileSize := currentOffset + totalBytesToAppend
      height := header.number + 1
      currentBlockHash := blockHash
      index := writeBatch mgr.index entries }

end AddBlock

/-! ## Reading blocks back -/

/-- How reading a transaction fails. -/
inductive FetchError
  /-- "error reading block file for offset %d and length %d" -/
  | read (offset length : Nat)
  /-- "error unmarshalling Envelope" -/
  | unmarshal (err : UnmarshalError)
  deriving DecidableEq, Repr

/-- `blockfileMgr.fetchRawBytes`. -/
def fetchRawBytes (files : Nat → Bytes) (lp : FileLocPointer) : Except FetchError Bytes :=
  let file := files lp.fileSuffixNum
  if lp.locPointer.offset + lp.locPointer.bytesLength ≤ file.length then
    .ok ((file.drop lp.locPointer.offset).take lp.locPointer.bytesLength)
  else .error (.read lp.locPointer.offset lp.locPointer.bytesLength)

/-- `blockfileMgr.fetchTransactionEnvelope`: the bytes at the location, past their length
    prefix, as an envelope. -/
def fetchTransactionEnvelope (mgr : BlockfileMgr) (lp : FileLocPointer) :
    Except FetchError Envelope := do
  let txEnvelopeBytes ← fetchRawBytes mgr.files lp
  let n := match consumeVarint txEnvelopeBytes with
    | .ok (_, n) => n
    | .error _ => 0
  (unmarshalEnvelope (txEnvelopeBytes.drop n)).mapError .unmarshal

/-- `blockPlacementInfo`. -/
structure BlockPlacementInfo where
  fileNum : Nat
  blockStartOffset : Nat
  blockBytesOffset : Nat
  deriving DecidableEq, Repr

/-- How a block stream fails. -/
inductive StreamFailure
  /-- `ErrUnexpectedEndOfBlockfile` -/
  | unexpectedEndOfBlockfile
  /-- the panic "Error in decoding varint bytes [%#v]" -/
  | varintPanic (lenBytes : Bytes)
  deriving DecidableEq, Repr

/-- `blockfileStream.nextBlockBytesAndPlacementInfo` over file `fileNum` from `currentOffset`:
    the next block's bytes and placement, `none` at the end of the file. It peeks at most eight
    bytes for the block's length. -/
def nextBlockBytesAndPlacementInfo (fileNum : Nat) (file : Bytes) (currentOffset : Nat) :
    Except StreamFailure (Option (Bytes × BlockPlacementInfo)) :=
  if currentOffset = file.length then .ok none
  else
    let remainingBytes := file.length - currentOffset
    let (peekBytes, moreContentAvailable) :=
      if remainingBytes < 8 then (remainingBytes, false) else (8, true)
    let lenBytes := (file.drop currentOffset).take peekBytes
    match consumeVarint lenBytes with
    | .error _ =>
      if moreContentAvailable then .error (.varintPanic lenBytes)
      else .error .unexpectedEndOfBlockfile
    | .ok (length, n) =>
      if n + length > remainingBytes then .error .unexpectedEndOfBlockfile
      else .ok (some ((file.drop (currentOffset + n)).take length,
        ⟨fileNum, currentOffset, currentOffset + n⟩))

/-- How one block of `syncIndex` fails. -/
inductive SyncFailure
  | stream (f : StreamFailure)
  | decode (err : DecodeError)
  | indexPanic (p : IndexPanic)
  deriving DecidableEq, Repr

section Sync

variable (blockHeaderHash : BlockHeader → Bytes) (getOrComputeTxID : Bytes → String)
  (indexItems : List IndexableAttr)

/-- One pass of the loop of `syncIndex`: read the next block of the file from the stream and
    index it again from what `extractSerializedBlockInfo` finds; the entries written and where
    the stream goes on, or `none` at the end of the file. -/
def syncIndexStep (files : Nat → Bytes) (fileNum currentOffset : Nat) :
    Except SyncFailure (Option (List (IndexKey × IndexValue) × Nat)) := do
  match ← (nextBlockBytesAndPlacementInfo fileNum (files fileNum) currentOffset).mapError
      .stream with
  | none => pure none
  | some (blockBytes, blockPlacementInfo) =>
    let info ← (extractSerializedBlockInfo getOrComputeTxID blockBytes).mapError .decode
    -- the offsets move by the block's length prefix; `indexBlock` adds the block's start
    let numBytesToShift := blockPlacementInfo.blockBytesOffset - blockPlacementInfo.blockStartOffset
    let txOffsets := info.txOffsets.map fun txOffset =>
      { txOffset with loc.offset := txOffset.loc.offset + numBytesToShift }
    let blockIdxInfo : BlockIdxInfo :=
      { blockHash := blockHeaderHash info.blockHeader
        blockNum := info.blockHeader.number
        flp := ⟨blockPlacementInfo.fileNum, ⟨blockPlacementInfo.blockStartOffset, 0⟩⟩
        txOffsets
        metadata := info.metadata }
    let entries ← (indexBlock indexItems blockIdxInfo).mapError .indexPanic
    pure (some (entries, blockPlacementInfo.blockBytesOffset + blockBytes.length))

end Sync

/-! ## The index a block writes -/

theorem writeBatch_of_not_mem {index : IndexKey → Option IndexValue} {k : IndexKey} :
    ∀ {entries : List (IndexKey × IndexValue)}, (∀ e ∈ entries, e.1 ≠ k) →
      writeBatch index entries k = index k
  | [], _ => rfl
  | e :: entries, h => by
    rw [writeBatch, List.foldl_cons, ← writeBatch,
      writeBatch_of_not_mem fun e' he' => h e' (List.mem_cons_of_mem e he')]
    exact Function.update_of_ne (h e List.mem_cons_self).symm _ _

/-- The last write of a key wins; a key written with one value only reads it back. -/
theorem writeBatch_of_mem {index : IndexKey → Option IndexValue} {k : IndexKey} {v : IndexValue} :
    ∀ {entries : List (IndexKey × IndexValue)}, (k, v) ∈ entries →
      (∀ e ∈ entries, e.1 = k → e.2 = v) → writeBatch index entries k = some v
  | e :: entries, hmem, huniq => by
    have huniq' : ∀ e' ∈ entries, e'.1 = k → e'.2 = v :=
      fun e' he' => huniq e' (List.mem_cons_of_mem e he')
    rw [writeBatch, List.foldl_cons, ← writeBatch]
    by_cases hk : ∃ e' ∈ entries, e'.1 = k
    · -- a later write of the key decides
      obtain ⟨e', he', rfl⟩ := hk
      have hv := huniq' e' he' rfl
      exact writeBatch_of_mem (by rw [← hv]; exact he') huniq'
    · -- this is the last write of the key
      simp only [not_exists, not_and] at hk
      rw [writeBatch_of_not_mem hk]
      rcases List.mem_cons.mp hmem with rfl | hmem
      · exact Function.update_self _ _ _
      · exact absurd rfl (hk _ hmem)

theorem txIDEntries_ok (txsfltr : Bytes) (blkNum : UInt64) (flp : FileLocPointer) :
    ∀ (i : Nat) (txOffsets : List TxIndexInfo), i + txOffsets.length ≤ txsfltr.length →
      ∃ es, txIDEntries txsfltr blkNum flp i txOffsets = .ok es ∧
        ∀ e ∈ es, ∃ txID txNum, e.1 = .txID txID blkNum txNum
  | _, [], _ => ⟨[], rfl, by simp⟩
  | i, txoffset :: txOffsets, hlen => by
    rw [List.length_cons] at hlen
    obtain ⟨es, hes, hkeys⟩ := txIDEntries_ok txsfltr blkNum flp (i + 1) txOffsets (by omega)
    have hflag : txsfltr[i]? = some txsfltr[i] := List.getElem?_eq_getElem (by omega)
    refine ⟨_, by simp only [txIDEntries, hflag, hes]; rfl, ?_⟩
    rintro e (_ | ⟨_, he⟩)
    · exact ⟨_, _, rfl⟩
    · exact hkeys e he

theorem mem_blockNumTranNumEntries {blkNum : UInt64} {flp : FileLocPointer} {e : IndexKey × IndexValue} :
    ∀ {i : Nat} {txOffsets : List TxIndexInfo}, e ∈ blockNumTranNumEntries blkNum flp i txOffsets ↔
      ∃ j t, txOffsets[j]? = some t ∧ e = (.blockNumTranNum blkNum (i + j).toUInt64,
        .loc (newFileLocationPointer flp.fileSuffixNum flp.locPointer.offset t.loc))
  | _, [] => by simp [blockNumTranNumEntries]
  | i, txoffset :: txOffsets => by
    rw [blockNumTranNumEntries, List.mem_cons, mem_blockNumTranNumEntries]
    constructor
    · rintro (rfl | ⟨j, t, ht, rfl⟩)
      · exact ⟨0, txoffset, rfl, rfl⟩
      · exact ⟨j + 1, t, ht, by rw [Nat.add_assoc, Nat.add_comm 1 j]⟩
    · rintro ⟨_ | j, t, ht, rfl⟩
      · cases ht
        exact .inl rfl
      · exact .inr ⟨j, t, ht, by rw [Nat.add_assoc, Nat.add_comm 1 j]⟩

/-- With the transaction filter covering the transactions, `indexBlock` writes its entries, and
    under each transaction's number in the block its location. -/
theorem indexBlock_ok {indexItems : List IndexableAttr} {info : BlockIdxInfo} {md : BlockMetadata}
    {txsfltr : Bytes} (hmd : info.metadata = some md)
    (hfltr : md.metadata[transactionsFilterIndex]? = some txsfltr)
    (hflags : info.txOffsets.length ≤ txsfltr.length) (hcount : info.txOffsets.length < 2 ^ 64) :
    ∃ entries, indexBlock indexItems info = .ok entries ∧
      (.blockNumTranNum ∈ indexItems →
        ∀ (index : IndexKey → Option IndexValue) (i : Nat) (t : TxIndexInfo), info.txOffsets[i]? = some t →
        writeBatch index entries (.blockNumTranNum info.blockNum i.toUInt64) =
          some (.loc (newFileLocationPointer info.flp.fileSuffixNum info.flp.locPointer.offset t.loc))) := by
  obtain ⟨es, hes, hkeys⟩ := txIDEntries_ok txsfltr info.blockNum info.flp 0 info.txOffsets
    (by omega)
  by_cases hempty : indexItems.isEmpty
  · have hnil : indexItems = [] := List.isEmpty_iff.mp hempty
    subst hnil
    refine ⟨[], ?_, by simp⟩
    simp only [indexBlock, List.isEmpty_nil, if_true]
    rfl
  let index3 : List (IndexKey × IndexValue) := if .txID ∈ indexItems then es else []
  let entries := (if .blockHash ∈ indexItems then [(.blockHash info.blockHash, .loc info.flp)] else []) ++
    (if .blockNum ∈ indexItems then [(.blockNum info.blockNum, .loc info.flp)] else []) ++
    index3 ++
    (if .blockNumTranNum ∈ indexItems then blockNumTranNumEntries info.blockNum info.flp 0 info.txOffsets
      else []) ++ [(.indexSavePoint, .blockNum info.blockNum)]
  refine ⟨entries, ?_, fun hitems index i t ht => writeBatch_of_mem ?_ ?_⟩
  · have hne : indexItems.isEmpty = false := by simpa using hempty
    -- the branches of index 3 rejoin after it
    by_cases htx : IndexableAttr.txID ∈ indexItems
    · simp only [indexBlock, hne, Bool.false_eq_true, if_false, hmd, hfltr, bind, Except.bind,
        htx, if_true, hes, entries, index3]
      rfl
    · simp only [indexBlock, hne, Bool.false_eq_true, if_false, hmd, hfltr, bind, Except.bind,
        htx, entries, index3]
      rfl
  · -- the entry of index 4 for the transaction
    simp only [entries, hitems, if_true, List.mem_append]
    exact .inl (.inr (mem_blockNumTranNumEntries.mpr ⟨i, t, ht, by rw [Nat.zero_add]⟩))
  · -- no other entry has the key: the other indexes have keys of other kinds, and index 4
    -- numbers the transactions below `2^64`
    have hi : i < 2 ^ 64 := Nat.lt_trans (List.getElem?_eq_some_iff.mp ht).1 hcount
    intro e he hk
    simp only [entries, hitems, if_true, List.mem_append] at he
    rcases he with (((he | he) | he) | he) | he
    · split at he <;> simp_all
    · split at he <;> simp_all
    · simp only [index3] at he
      split at he
      · obtain ⟨_, _, hkey⟩ := hkeys e he
        rw [hkey] at hk
        cases hk
      · cases he
    · obtain ⟨j, t', ht', rfl⟩ := mem_blockNumTranNumEntries.mp he
      have hj : j < 2 ^ 64 := Nat.lt_trans (List.getElem?_eq_some_iff.mp ht').1 hcount
      simp only [Nat.zero_add, IndexKey.blockNumTranNum.injEq, true_and] at hk
      have hji : j = i := by
        have := congrArg UInt64.toNat hk
        rwa [Nat.toUInt64_eq, Nat.toUInt64_eq, UInt64.toNat_ofNat', UInt64.toNat_ofNat',
          Nat.mod_eq_of_lt hj, Nat.mod_eq_of_lt hi] at this
      subst hji
      rw [ht] at ht'
      cases ht'
      rfl
    · simp at he
      rw [he] at hk
      cases hk

/-- With anything to index, `indexBlock` dereferences the nil metadata of a block. -/
theorem indexBlock_nilMetadata {indexItems : List IndexableAttr} {info : BlockIdxInfo}
    (hitems : indexItems ≠ []) (hmd : info.metadata = none) :
    indexBlock indexItems info = .error .nilMetadata := by
  have hne : indexItems.isEmpty = false := by simpa using hitems
  simp [indexBlock, hne, hmd, bind, Except.bind]

/-- With anything to index, `indexBlock` reads past the metadata entries of a block that has no
    transaction filter. -/
theorem indexBlock_noTransactionsFilter {indexItems : List IndexableAttr} {info : BlockIdxInfo}
    {md : BlockMetadata} (hitems : indexItems ≠ []) (hmd : info.metadata = some md)
    (hshort : md.metadata.length ≤ transactionsFilterIndex) :
    indexBlock indexItems info = .error .noTransactionsFilter := by
  have hne : indexItems.isEmpty = false := by simpa using hitems
  have hfltr : md.metadata[transactionsFilterIndex]? = none := List.getElem?_eq_none hshort
  simp [indexBlock, hne, hmd, hfltr, bind, Except.bind]

theorem txIDEntries_error_flp {txsfltr : Bytes} {blkNum : UInt64} {flp : FileLocPointer}
    (flp' : FileLocPointer) {p : IndexPanic} :
    ∀ {i : Nat} {txOffsets : List TxIndexInfo}, txIDEntries txsfltr blkNum flp i txOffsets = .error p →
      txIDEntries txsfltr blkNum flp' i txOffsets = .error p
  | _, [], h => by cases h
  | i, txoffset :: txOffsets, h => by
    cases hflag : txsfltr[i]? with
    | none => simpa [txIDEntries, hflag, bind, Except.bind] using h
    | some flag =>
      -- the flag is there, so the panic comes from a later transaction
      cases hrest : txIDEntries txsfltr blkNum flp (i + 1) txOffsets with
      | error p' =>
        simp only [txIDEntries, hflag, hrest, bind, Except.bind, Except.error.injEq] at h
        simp only [txIDEntries, hflag, txIDEntries_error_flp flp' hrest, bind, Except.bind, h]
      | ok es => simp [txIDEntries, hflag, hrest, bind, Except.bind, pure, Except.pure] at h

/-- Whether `indexBlock` panics does not depend on where the block lies. -/
theorem indexBlock_error_flp {indexItems : List IndexableAttr} {info : BlockIdxInfo}
    {p : IndexPanic} (h : indexBlock indexItems info = .error p) (flp : FileLocPointer) :
    indexBlock indexItems { info with flp } = .error p := by
  by_cases hempty : indexItems.isEmpty
  · simp [indexBlock, hempty, pure, Except.pure] at h
  cases hmd : info.metadata with
  | none => simpa [indexBlock, hempty, hmd, bind, Except.bind] using h
  | some md =>
    cases hfltr : md.metadata[transactionsFilterIndex]? with
    | none => simpa [indexBlock, hempty, hmd, hfltr, bind, Except.bind] using h
    | some txsfltr =>
      -- past the filter only index 3 can panic
      by_cases htx : IndexableAttr.txID ∈ indexItems
      · cases h3 : txIDEntries txsfltr info.blockNum info.flp 0 info.txOffsets with
        | error p' =>
          simp only [indexBlock, hempty, hmd, hfltr, htx, if_true, h3, Bool.false_eq_true,
            if_false, bind, Except.bind, Except.error.injEq] at h
          simp [indexBlock, hempty, hfltr, htx, txIDEntries_error_flp flp h3, bind, Except.bind, h]
        | ok es =>
          simp [indexBlock, hempty, hmd, hfltr, htx, h3, bind, Except.bind, pure, Except.pure] at h
      · simp [indexBlock, hempty, hmd, hfltr, htx, bind, Except.bind, pure, Except.pure] at h

theorem getTXLocByBlockNumTranNum_eq {indexItems : List IndexableAttr}
    {index : IndexKey → Option IndexValue} {blockNum tranNum : UInt64} {flp : FileLocPointer}
    (hitems : .blockNumTranNum ∈ indexItems)
    (h : index (.blockNumTranNum blockNum tranNum) = some (.loc flp)) :
    getTXLocByBlockNumTranNum indexItems index blockNum tranNum = .ok flp := by
  simp [getTXLocByBlockNumTranNum, hitems, h]

/-! ## Where `addBlock` writes -/

/-- What `addBlock` relies on of the block files: `blockfilesInfo` records the latest file's
    size, and no later file has been written. -/
structure BlockfileMgr.Consistent (mgr : BlockfileMgr) : Prop where
  latestFileSize_eq : mgr.latestFileSize = (mgr.files mgr.latestFileNumber).length
  files_eq_nil : ∀ n, mgr.latestFileNumber < n → mgr.files n = []

/-- The file and the offset at which `addBlock` writes `blockBytes` behind their length: the end
    of the latest file, or the start of the next one when they do not fit. -/
def BlockfileMgr.placement (maxBlockfileSize : Nat) (mgr : BlockfileMgr) (blockBytes : Bytes) :
    Nat × Nat :=
  if mgr.latestFileSize + (blockBytes.length + (appendVarint blockBytes.length).length) >
      maxBlockfileSize then
    (mgr.latestFileNumber + 1, 0)
  else (mgr.latestFileNumber, mgr.latestFileSize)

/-- In a consistent manager a block goes at the end of its file, the latest or a later one. -/
theorem BlockfileMgr.Consistent.placement {mgr : BlockfileMgr} (hmgr : mgr.Consistent)
    (maxBlockfileSize : Nat) (blockBytes : Bytes) :
    (mgr.files (mgr.placement maxBlockfileSize blockBytes).1).length =
        (mgr.placement maxBlockfileSize blockBytes).2 ∧
      mgr.latestFileNumber ≤ (mgr.placement maxBlockfileSize blockBytes).1 := by
  unfold BlockfileMgr.placement
  split
  · -- the next file, which nothing has written
    rw [hmgr.files_eq_nil _ (Nat.lt_succ_self _)]
    exact ⟨rfl, Nat.le_succ _⟩
  · exact ⟨hmgr.latestFileSize_eq.symm, Nat.le_refl _⟩

/-- The transactions' locations moved by `k` bytes, as `addBlock` and `syncIndex` move them. -/
def shiftTxOffsets (k : Nat) (txOffsets : List TxIndexInfo) : List TxIndexInfo :=
  txOffsets.map fun txOffset => { txOffset with loc.offset := txOffset.loc.offset + k }

theorem shiftTxOffsets_txIndexInfos (getOrComputeTxID : Bytes → String) (k : Nat) :
    ∀ (start : Nat) (envs : List Bytes),
      shiftTxOffsets k (txIndexInfos getOrComputeTxID start envs) =
        txIndexInfos getOrComputeTxID (start + k) envs
  | _, [] => rfl
  | start, env :: envs => by
    have ih := shiftTxOffsets_txIndexInfos getOrComputeTxID k (start + (appendBytes env).length) envs
    simp only [shiftTxOffsets, txIndexInfos, List.map_cons] at ih ⊢
    rw [ih, Nat.add_right_comm]

/-- The `blockIdxInfo` with which `addBlock` indexes a block: at its placement, its transactions
    moved by the length prefixed to it. -/
def BlockfileMgr.addedIdxInfo (maxBlockfileSize : Nat) (mgr : BlockfileMgr) (blockHash : Bytes)
    (header : BlockHeader) (blockBytes : Bytes) (txOffsets : List TxIndexInfo)
    (metadata : Option BlockMetadata) : BlockIdxInfo :=
  { blockNum := header.number, blockHash,
    flp := ⟨(mgr.placement maxBlockfileSize blockBytes).1,
      ⟨(mgr.placement maxBlockfileSize blockBytes).2, 0⟩⟩,
    txOffsets := shiftTxOffsets (appendVarint blockBytes.length).length txOffsets, metadata }

/-- The manager once `addBlock` has appended a block behind its length and written its index
    `entries`. -/
def BlockfileMgr.appendBlock (maxBlockfileSize : Nat) (mgr : BlockfileMgr) (blockHash : Bytes)
    (header : BlockHeader) (blockBytes : Bytes) (entries : List (IndexKey × IndexValue)) :
    BlockfileMgr where
  files := Function.update mgr.files (mgr.placement maxBlockfileSize blockBytes).1
    (mgr.files (mgr.placement maxBlockfileSize blockBytes).1 ++ appendVarint blockBytes.length ++
      blockBytes)
  latestFileNumber := (mgr.placement maxBlockfileSize blockBytes).1
  latestFileSize := (mgr.placement maxBlockfileSize blockBytes).2 +
    (blockBytes.length + (appendVarint blockBytes.length).length)
  height := header.number + 1
  currentBlockHash := blockHash
  index := writeBatch mgr.index entries

section AddBlockSpec

variable {maxBlockfileSize : Nat} {blockHeaderHash : BlockHeader → Bytes}
  {getOrComputeTxID : Bytes → String} {indexItems : List IndexableAttr} {mgr mgr' : BlockfileMgr}
  {block : Block} {header : BlockHeader} {blockBytes : Bytes} {info : SerializedBlockInfo}

/-- `addBlock` of a block that passes its checks indexes it at its placement and appends it. -/
theorem addBlock_eq (hh : block.header = some header) (hnum : header.number = mgr.height)
    (hprev : header.previousHash = mgr.currentBlockHash)
    (hser : serializeBlock getOrComputeTxID block = some (blockBytes, info)) :
    addBlock maxBlockfileSize blockHeaderHash getOrComputeTxID indexItems mgr block =
      (indexBlock indexItems (mgr.addedIdxInfo maxBlockfileSize (blockHeaderHash header) header
          blockBytes info.txOffsets block.metadata)).mapError .indexPanic >>= fun entries =>
        pure (mgr.appendBlock maxBlockfileSize (blockHeaderHash header) header blockBytes entries) := by
  simp only [addBlock, BlockfileMgr.addedIdxInfo, BlockfileMgr.appendBlock, BlockfileMgr.placement,
    hh, hnum, hprev, hser, ne_eq, not_true_eq_false, if_false, bind, Except.bind]
  -- the latest file or the next
  by_cases hfit : mgr.latestFileSize + (blockBytes.length + (appendVarint blockBytes.length).length) >
    maxBlockfileSize
  · simp only [hfit, if_true]
    rfl
  · simp only [hfit, if_false]
    rfl

/-- A block that passes `addBlock`'s checks but that `indexBlock` panics on is not added. -/
theorem addBlock_eq_error {p : IndexPanic} (hh : block.header = some header)
    (hnum : header.number = mgr.height) (hprev : header.previousHash = mgr.currentBlockHash)
    (hser : serializeBlock getOrComputeTxID block = some (blockBytes, info))
    (hidx : indexBlock indexItems (mgr.addedIdxInfo maxBlockfileSize (blockHeaderHash header) header
      blockBytes info.txOffsets block.metadata) = .error p) :
    addBlock maxBlockfileSize blockHeaderHash getOrComputeTxID indexItems mgr block =
      .error (.indexPanic p) := by
  rw [addBlock_eq hh hnum hprev hser, hidx]
  rfl

/-- Everything `addBlock` can do when it succeeds: the checks passed, the block serialized, its
    entries were indexed and it was appended. -/
theorem addBlock_eq_ok
    (h : addBlock maxBlockfileSize blockHeaderHash getOrComputeTxID indexItems mgr block = .ok mgr') :
    ∃ header blockBytes info entries, block.header = some header ∧
      header.number = mgr.height ∧ header.previousHash = mgr.currentBlockHash ∧
      serializeBlock getOrComputeTxID block = some (blockBytes, info) ∧
      indexBlock indexItems (mgr.addedIdxInfo maxBlockfileSize (blockHeaderHash header) header
        blockBytes info.txOffsets block.metadata) = .ok entries ∧
      mgr' = mgr.appendBlock maxBlockfileSize (blockHeaderHash header) header blockBytes entries := by
  cases hh : block.header with
  | none => simp [addBlock, hh, bind, Except.bind] at h
  | some header =>
    by_cases hnum : header.number = mgr.height
    · by_cases hprev : header.previousHash = mgr.currentBlockHash
      · cases hser : serializeBlock getOrComputeTxID block with
        | none => simp [addBlock, hh, hnum, hprev, hser, bind, Except.bind] at h
        | some r =>
          obtain ⟨blockBytes, info⟩ := r
          rw [addBlock_eq hh hnum hprev hser] at h
          cases hidx : indexBlock indexItems (mgr.addedIdxInfo maxBlockfileSize
              (blockHeaderHash header) header blockBytes info.txOffsets block.metadata) with
          | error p => simp [hidx, Except.mapError, bind, Except.bind] at h
          | ok entries =>
            simp only [hidx, Except.mapError, bind, Except.bind, pure, Except.pure,
              Except.ok.injEq] at h
            exact ⟨header, blockBytes, info, entries, rfl, hnum, hprev, rfl, hidx, h.symm⟩
      · simp [addBlock, hh, hnum, hprev, bind, Except.bind, throw, throwThe, MonadExceptOf.throw] at h
    · simp [addBlock, hh, hnum, bind, Except.bind, throw, throwThe, MonadExceptOf.throw] at h

@[simp] theorem appendBlock_latestFileNumber (blockHash : Bytes) (entries) :
    (mgr.appendBlock maxBlockfileSize blockHash header blockBytes entries).latestFileNumber =
      (mgr.placement maxBlockfileSize blockBytes).1 := rfl

@[simp] theorem appendBlock_latestFileSize (blockHash : Bytes) (entries) :
    (mgr.appendBlock maxBlockfileSize blockHash header blockBytes entries).latestFileSize =
      (mgr.placement maxBlockfileSize blockBytes).2 +
        (blockBytes.length + (appendVarint blockBytes.length).length) := rfl

@[simp] theorem appendBlock_index (blockHash : Bytes) (entries) :
    (mgr.appendBlock maxBlockfileSize blockHash header blockBytes entries).index =
      writeBatch mgr.index entries := rfl

/-- Appending a block keeps the manager consistent: the recorded size is the new end of the
    file, and the files after it are still unwritten. -/
theorem BlockfileMgr.Consistent.appendBlock (hmgr : mgr.Consistent) (blockHash : Bytes) (entries) :
    (mgr.appendBlock maxBlockfileSize blockHash header blockBytes entries).Consistent := by
  obtain ⟨hplace, hlatest⟩ := hmgr.placement maxBlockfileSize blockBytes
  constructor
  · simp only [BlockfileMgr.appendBlock, Function.update_self, List.length_append, hplace]
    omega
  · intro n hn
    simp only [appendBlock_latestFileNumber] at hn
    simp only [BlockfileMgr.appendBlock]
    rw [Function.update_of_ne (Nat.ne_of_gt hn)]
    exact hmgr.files_eq_nil n (by omega)

/-- Whether `addBlock` takes a block depends on the manager only through its height and its
    current hash: the placement moves the index's locations, never whether `indexBlock`
    panics. -/
theorem addBlock_ok_of_ok {mgr₁ : BlockfileMgr}
    (h : addBlock maxBlockfileSize blockHeaderHash getOrComputeTxID indexItems mgr block = .ok mgr₁)
    (hheight : mgr'.height = mgr.height) (hhash : mgr'.currentBlockHash = mgr.currentBlockHash) :
    ∃ mgr₂, addBlock maxBlockfileSize blockHeaderHash getOrComputeTxID indexItems mgr' block =
      .ok mgr₂ := by
  obtain ⟨header, blockBytes, info, entries, hh, hnum, hprev, hser, hidx, -⟩ := addBlock_eq_ok h
  rw [addBlock_eq hh (hnum.trans hheight.symm) (hprev.trans hhash.symm) hser]
  cases hidx' : indexBlock indexItems (mgr'.addedIdxInfo maxBlockfileSize (blockHeaderHash header)
      header blockBytes info.txOffsets block.metadata) with
  | error p =>
    -- at the first placement `indexBlock` would panic too
    have hpanic : indexBlock indexItems (mgr.addedIdxInfo maxBlockfileSize (blockHeaderHash header)
        header blockBytes info.txOffsets block.metadata) = .error p :=
      indexBlock_error_flp hidx' _
    rw [hidx] at hpanic
    cases hpanic
  | ok entries' => exact ⟨_, rfl⟩

end AddBlockSpec

/-! ## When a write of `addBlock` fails -/

/-- The manager once `addBlock` has failed in a write to `blockBytes`' file, which now holds
    `file`: the next file stays recorded if the block needed it, and nothing else changed. -/
def BlockfileMgr.afterFailedWrite (maxBlockfileSize : Nat) (mgr : BlockfileMgr)
    (blockBytes file : Bytes) : BlockfileMgr :=
  { mgr with
    files := Function.update mgr.files (mgr.placement maxBlockfileSize blockBytes).1 file
    latestFileNumber := (mgr.placement maxBlockfileSize blockBytes).1
    latestFileSize := (mgr.placement maxBlockfileSize blockBytes).2 }

section WriteFailure

variable (maxBlockfileSize : Nat) (blockHeaderHash : BlockHeader → Bytes)
  (getOrComputeTxID : Bytes → String) (indexItems : List IndexableAttr)

/-- `blockfileMgr.addBlock` when `failure` is the write that fails, whose error it returns: the
    manager it leaves, and whether its deferred `cache.put` runs. -/
def addBlockFailing (failure : WriteFailure) (mgr : BlockfileMgr) (block : Block) :
    Except AddBlockFailure (BlockfileMgr × Bool) := do
  let header ← match block.header with
    | some header => .ok header
    | none => .error .nilDereference
  if header.number ≠ mgr.height then throw (.blockNumber mgr.height header.number)
  if header.previousHash ≠ mgr.currentBlockHash then
    throw (.previousHash mgr.currentBlockHash header.previousHash)
  let (blockBytes, info) ← match serializeBlock getOrComputeTxID block with
    | some r => .ok r
    | none => .error .nilDereference
  let blockBytesEncodedLen := appendVarint blockBytes.length
  -- the file after `moveToNextFile`, and the size `blockfilesInfo` records for it
  let (fileNum, currentOffset) := mgr.placement maxBlockfileSize blockBytes
  let file := mgr.files fileNum
  match failure with
  | .append written truncateFails =>
    -- `truncateFile(latestFileSize)` cuts what the append wrote
    if truncateFails then throw .truncateAfterAppend
    pure (mgr.afterFailedWrite maxBlockfileSize blockBytes
      ((file ++ (blockBytesEncodedLen ++ blockBytes).take written).take currentOffset), false)
  | .saveBlkfilesInfo truncateFails =>
    if truncateFails then throw .truncateAfterSave
    pure (mgr.afterFailedWrite maxBlockfileSize blockBytes
      ((file ++ blockBytesEncodedLen ++ blockBytes).take currentOffset), true)
  | .indexWriteBatch => do
    -- `indexBlock` builds the batch whose write fails; the block stays in the file
    let _ ← (indexBlock indexItems (mgr.addedIdxInfo maxBlockfileSize (blockHeaderHash header)
      header blockBytes info.txOffsets block.metadata)).mapError .indexPanic
    pure (mgr.afterFailedWrite maxBlockfileSize blockBytes (file ++ blockBytesEncodedLen ++ blockBytes),
      true)

end WriteFailure

section WriteFailureSpec

variable {maxBlockfileSize : Nat} {blockHeaderHash : BlockHeader → Bytes}
  {getOrComputeTxID : Bytes → String} {indexItems : List IndexableAttr} {mgr mgr' : BlockfileMgr}
  {block : Block} {header : BlockHeader} {blockBytes : Bytes} {info : SerializedBlockInfo}

/-- `addBlock` of a block that passes its checks, when `failure` is the write that fails. -/
theorem addBlockFailing_eq (hh : block.header = some header) (hnum : header.number = mgr.height)
    (hprev : header.previousHash = mgr.currentBlockHash)
    (hser : serializeBlock getOrComputeTxID block = some (blockBytes, info))
    (failure : WriteFailure) :
    addBlockFailing maxBlockfileSize blockHeaderHash getOrComputeTxID indexItems failure mgr block =
      match failure with
      | .append written truncateFails =>
        if truncateFails then .error .truncateAfterAppend
        else .ok (mgr.afterFailedWrite maxBlockfileSize blockBytes
          ((mgr.files (mgr.placement maxBlockfileSize blockBytes).1 ++
            (appendVarint blockBytes.length ++ blockBytes).take written).take
              (mgr.placement maxBlockfileSize blockBytes).2), false)
      | .saveBlkfilesInfo truncateFails =>
        if truncateFails then .error .truncateAfterSave
        else .ok (mgr.afterFailedWrite maxBlockfileSize blockBytes
          ((mgr.files (mgr.placement maxBlockfileSize blockBytes).1 ++
            appendVarint blockBytes.length ++ blockBytes).take
              (mgr.placement maxBlockfileSize blockBytes).2), true)
      | .indexWriteBatch =>
        (indexBlock indexItems (mgr.addedIdxInfo maxBlockfileSize (blockHeaderHash header) header
          blockBytes info.txOffsets block.metadata)).mapError .indexPanic >>= fun _ =>
        .ok (mgr.afterFailedWrite maxBlockfileSize blockBytes
          (mgr.files (mgr.placement maxBlockfileSize blockBytes).1 ++
            appendVarint blockBytes.length ++ blockBytes), true) := by
  cases failure with
  | append written truncateFails =>
    cases truncateFails <;> simp [addBlockFailing, hh, hnum, hprev, hser, bind, Except.bind,
      throw, throwThe, MonadExceptOf.throw, pure, Except.pure]
  | saveBlkfilesInfo truncateFails =>
    cases truncateFails <;> simp [addBlockFailing, hh, hnum, hprev, hser, bind, Except.bind,
      throw, throwThe, MonadExceptOf.throw, pure, Except.pure]
  | indexWriteBatch =>
    simp [addBlockFailing, hh, hnum, hprev, hser, bind, Except.bind, pure, Except.pure]

/-- A failing write is reached only by a block that passes `addBlock`'s checks. -/
theorem addBlockFailing_checks {failure : WriteFailure} {r : BlockfileMgr × Bool}
    (h : addBlockFailing maxBlockfileSize blockHeaderHash getOrComputeTxID indexItems failure mgr
      block = .ok r) :
    ∃ header blockBytes info, block.header = some header ∧ header.number = mgr.height ∧
      header.previousHash = mgr.currentBlockHash ∧
      serializeBlock getOrComputeTxID block = some (blockBytes, info) := by
  cases hh : block.header with
  | none => simp [addBlockFailing, hh, bind, Except.bind] at h
  | some header =>
    by_cases hnum : header.number = mgr.height
    · by_cases hprev : header.previousHash = mgr.currentBlockHash
      · cases hser : serializeBlock getOrComputeTxID block with
        | none => simp [addBlockFailing, hh, hnum, hprev, hser, bind, Except.bind] at h
        | some r =>
          obtain ⟨blockBytes, info⟩ := r
          exact ⟨header, blockBytes, info, rfl, hnum, hprev, rfl⟩
      · simp [addBlockFailing, hh, hnum, hprev, bind, Except.bind, throw, throwThe,
          MonadExceptOf.throw] at h
    · simp [addBlockFailing, hh, hnum, bind, Except.bind, throw, throwThe, MonadExceptOf.throw] at h

/-- A block that `addBlock` would add gets past its checks and `indexBlock` when
    `saveBlkfilesInfo` or the index's `WriteBatch` fails: the call sets up the deferred
    `cache.put`, and leaves the height and the hash. -/
theorem addBlockFailing_of_addBlock {mgr₁ : BlockfileMgr}
    (h : addBlock maxBlockfileSize blockHeaderHash getOrComputeTxID indexItems mgr block = .ok mgr₁)
    {failure : WriteFailure}
    (hfailure : failure = .saveBlkfilesInfo false ∨ failure = .indexWriteBatch) :
    ∃ mgr', addBlockFailing maxBlockfileSize blockHeaderHash getOrComputeTxID indexItems failure
        mgr block = .ok (mgr', true) ∧
      mgr'.height = mgr.height ∧ mgr'.currentBlockHash = mgr.currentBlockHash := by
  obtain ⟨header, blockBytes, info, entries, hh, hnum, hprev, hser, hidx, -⟩ := addBlock_eq_ok h
  rw [addBlockFailing_eq hh hnum hprev hser]
  rcases hfailure with rfl | rfl
  · exact ⟨_, rfl, rfl, rfl⟩
  · rw [hidx]
    exact ⟨_, rfl, rfl, rfl⟩

/-- On a consistent manager, the truncation to the recorded size takes back whatever the writes
    added to the file: only the move to the next file stays. -/
theorem afterFailedWrite_truncate (hmgr : mgr.Consistent) (written : Bytes) :
    mgr.afterFailedWrite maxBlockfileSize blockBytes
        ((mgr.files (mgr.placement maxBlockfileSize blockBytes).1 ++ written).take
          (mgr.placement maxBlockfileSize blockBytes).2) =
      { mgr with latestFileNumber := (mgr.placement maxBlockfileSize blockBytes).1,
                 latestFileSize := (mgr.placement maxBlockfileSize blockBytes).2 } := by
  obtain ⟨hplace, -⟩ := hmgr.placement maxBlockfileSize blockBytes
  rw [BlockfileMgr.afterFailedWrite, ← hplace, List.take_left, Function.update_eq_self]

/-- A failed `append` or `saveBlkfilesInfo` whose truncation succeeds leaves a consistent
    manager's files, height, hash and index as they were, and the manager consistent. -/
theorem addBlockFailing_truncated (hmgr : mgr.Consistent) {failure : WriteFailure}
    (hfailure : failure ≠ .indexWriteBatch) {cachePut : Bool}
    (h : addBlockFailing maxBlockfileSize blockHeaderHash getOrComputeTxID indexItems failure mgr
      block = .ok (mgr', cachePut)) :
    mgr'.files = mgr.files ∧ mgr'.height = mgr.height ∧
      mgr'.currentBlockHash = mgr.currentBlockHash ∧ mgr'.index = mgr.index ∧ mgr'.Consistent := by
  obtain ⟨header, blockBytes, info, hh, hnum, hprev, hser⟩ := addBlockFailing_checks h
  rw [addBlockFailing_eq hh hnum hprev hser] at h
  -- either write leaves the manager truncated back to its recorded size
  have hmgr' : mgr' =
      { mgr with latestFileNumber := (mgr.placement maxBlockfileSize blockBytes).1,
                 latestFileSize := (mgr.placement maxBlockfileSize blockBytes).2 } := by
    cases failure with
    | append written truncateFails =>
      cases truncateFails
      · obtain ⟨rfl, -⟩ := Prod.mk.inj (Except.ok.inj h)
        exact afterFailedWrite_truncate hmgr _
      · cases h
    | saveBlkfilesInfo truncateFails =>
      cases truncateFails
      · obtain ⟨rfl, -⟩ := Prod.mk.inj (Except.ok.inj h)
        rw [List.append_assoc]
        exact afterFailedWrite_truncate hmgr _
      · cases h
    | indexWriteBatch => exact absurd rfl hfailure
  subst hmgr'
  obtain ⟨hplace, hlatest⟩ := hmgr.placement maxBlockfileSize blockBytes
  exact ⟨rfl, rfl, rfl, rfl, hplace.symm, fun n hn => hmgr.files_eq_nil n (by simp at hn; omega)⟩

end WriteFailureSpec

/-! ## Reading transactions and blocks back from the files -/

@[simp] theorem length_txIndexInfos (getOrComputeTxID : Bytes → String) :
    ∀ (start : Nat) (envs : List Bytes), (txIndexInfos getOrComputeTxID start envs).length = envs.length
  | _, [] => rfl
  | start, _ :: envs => by
    simp [txIndexInfos, length_txIndexInfos getOrComputeTxID _ envs]

/-- Where the transactions lie from `start` on, the `i`-th noted location holds the `i`-th
    transaction, length-prefixed. -/
theorem txIndexInfos_getElem? (getOrComputeTxID : Bytes → String) :
    ∀ (start : Nat) (envs : List Bytes) (i : Nat) (env : Bytes), envs[i]? = some env →
      ∃ loc, (txIndexInfos getOrComputeTxID start envs)[i]? = some ⟨getOrComputeTxID env, loc⟩ ∧
        loc.bytesLength = (appendBytes env).length ∧
        ∀ pre rest : Bytes, pre.length = start →
          ((pre ++ envs.flatMap appendBytes ++ rest).drop loc.offset).take loc.bytesLength =
            appendBytes env
  | _, [], _, _, h => by simp at h
  | start, e :: envs, 0, env, h => by
    rw [List.getElem?_cons_zero, Option.some.injEq] at h
    subst h
    refine ⟨⟨start, (appendBytes e).length⟩, rfl, rfl, fun pre rest hpre => ?_⟩
    subst hpre
    simp [List.append_assoc]
  | start, e :: envs, i + 1, env, h => by
    -- the later transactions lie from the end of this one
    obtain ⟨loc, hloc, hlen, hbytes⟩ :=
      txIndexInfos_getElem? getOrComputeTxID (start + (appendBytes e).length) envs i env h
    refine ⟨loc, hloc, hlen, fun pre rest hpre => ?_⟩
    have := hbytes (pre ++ appendBytes e) rest (by simp [hpre])
    simpa [List.append_assoc] using this

/-- `fetchRawBytes` returns the bytes at a location, when they are all there. -/
theorem fetchRawBytes_eq {files : Nat → Bytes} {lp : FileLocPointer} {x : Bytes}
    (h : ((files lp.fileSuffixNum).drop lp.locPointer.offset).take lp.locPointer.bytesLength = x)
    (hx : x.length = lp.locPointer.bytesLength) (hne : x ≠ []) : fetchRawBytes files lp = .ok x := by
  have hfits : lp.locPointer.offset + lp.locPointer.bytesLength ≤ (files lp.fileSuffixNum).length := by
    have hlen := congrArg List.length h
    have hpos := List.length_pos_of_ne_nil hne
    simp only [List.length_take, List.length_drop, hx] at hlen
    omega
  simp only [fetchRawBytes, hfits, if_true, h]

/-- A transaction fetched from its length-prefixed bytes is the envelope they hold. -/
theorem fetchTransactionEnvelope_eq {mgr : BlockfileMgr} {lp : FileLocPointer} {env : Bytes}
    (h : fetchRawBytes mgr.files lp = .ok (appendBytes env)) (henv : env.length < 2 ^ 64) :
    fetchTransactionEnvelope mgr lp = (unmarshalEnvelope env).mapError .unmarshal := by
  simp only [fetchTransactionEnvelope, h, bind, Except.bind, appendBytes,
    consumeVarint_appendVarint _ henv, List.drop_left]

/-- The stream reads a block appended behind its length from where the block starts, when its
    length fits in the eight bytes peeked. -/
theorem nextBlockBytesAndPlacementInfo_append (fileNum : Nat) (pre blockBytes rest : Bytes)
    (hsize : blockBytes.length < 2 ^ 56) :
    nextBlockBytesAndPlacementInfo fileNum (pre ++ appendVarint blockBytes.length ++ blockBytes ++ rest)
        pre.length =
      .ok (some (blockBytes,
        ⟨fileNum, pre.length, pre.length + (appendVarint blockBytes.length).length⟩)) := by
  have hvl8 := length_appendVarint_le_eight hsize
  have hvl0 : 0 < (appendVarint blockBytes.length).length :=
    List.length_pos_of_ne_nil (appendVarintN_ne_nil 9 _)
  have hdrop : (pre ++ appendVarint blockBytes.length ++ blockBytes ++ rest).drop pre.length =
      appendVarint blockBytes.length ++ (blockBytes ++ rest) := by
    simp [List.append_assoc]
  -- a peek of at least the varint's bytes reads the length
  have hpeek : ∀ k, (appendVarint blockBytes.length).length ≤ k →
      consumeVarint ((appendVarint blockBytes.length ++ (blockBytes ++ rest)).take k) =
        .ok (blockBytes.length, (appendVarint blockBytes.length).length) := by
    intro k hk
    rw [List.take_append, List.take_of_length_le hk,
      consumeVarint_appendVarint _ (by omega)]
  have hblock : (pre ++ appendVarint blockBytes.length ++ blockBytes ++ rest).drop
      (pre.length + (appendVarint blockBytes.length).length) = blockBytes ++ rest := by
    simp [List.append_assoc, ← List.drop_drop]
  unfold nextBlockBytesAndPlacementInfo
  rw [if_neg (by simp only [List.length_append]; omega)]
  by_cases h8 : pre.length + (appendVarint blockBytes.length).length + blockBytes.length +
      rest.length - pre.length < 8
  · simp only [List.length_append, h8, if_true]
    rw [hdrop, hpeek _ (by omega)]
    simp only [hblock, List.take_left', gt_iff_lt]
    rw [if_neg (by omega)]
  · simp only [List.length_append, h8, if_false]
    rw [hdrop, hpeek _ (by omega)]
    simp only [hblock, List.take_left', gt_iff_lt]
    rw [if_neg (by omega)]

/-- The stream peeks eight bytes for a block's length: the varint of a length of `2^56` or more
    does not fit in them, and the stream panics. -/
theorem nextBlockBytesAndPlacementInfo_large (fileNum : Nat) (pre blockBytes rest : Bytes)
    (hlarge : 2 ^ 56 ≤ blockBytes.length) (hsize : blockBytes.length < 2 ^ 64) :
    ∃ lenBytes, nextBlockBytesAndPlacementInfo fileNum
        (pre ++ appendVarint blockBytes.length ++ blockBytes ++ rest) pre.length =
      .error (.varintPanic lenBytes) := by
  obtain ⟨err, herr⟩ := consumeVarint_take_eight_appendVarint hlarge hsize (blockBytes ++ rest)
  have hdrop : (pre ++ appendVarint blockBytes.length ++ blockBytes ++ rest).drop pre.length =
      appendVarint blockBytes.length ++ (blockBytes ++ rest) := by
    simp [List.append_assoc]
  have h8 : ¬ pre.length + (appendVarint blockBytes.length).length + blockBytes.length +
      rest.length - pre.length < 8 := by
    omega
  unfold nextBlockBytesAndPlacementInfo
  rw [if_neg (by simp only [List.length_append]; omega)]
  simp only [List.length_append, h8, if_false]
  rw [hdrop, herr]
  exact ⟨_, rfl⟩

/-- A block of `2^56` zero bytes, alone in its file. -/
theorem nextBlockBytesAndPlacementInfo_large_zeros :
    2 ^ 56 ≤ (List.replicate (2 ^ 56) (0 : UInt8)).length ∧
      (List.replicate (2 ^ 56) (0 : UInt8)).length < 2 ^ 64 ∧
      ∃ lenBytes, nextBlockBytesAndPlacementInfo 0
          ([] ++ appendVarint (List.replicate (2 ^ 56) (0 : UInt8)).length ++
            List.replicate (2 ^ 56) 0 ++ []) ([] : Bytes).length =
        .error (.varintPanic lenBytes) :=
  have hlen : (List.replicate (2 ^ 56) (0 : UInt8)).length = 2 ^ 56 := List.length_replicate
  ⟨hlen.ge, by rw [hlen]; decide,
    nextBlockBytesAndPlacementInfo_large 0 [] (List.replicate (2 ^ 56) 0) [] hlen.ge
      (by rw [hlen]; decide)⟩

/-- One pass of `syncIndex` over a block appended behind its length indexes it from where the
    block starts, its transactions moved by the length's bytes, and goes on after it. -/
theorem syncIndexStep_append {blockHeaderHash : BlockHeader → Bytes}
    {getOrComputeTxID : Bytes → String} {indexItems : List IndexableAttr} {files : Nat → Bytes}
    {fileNum : Nat} {pre rest : Bytes} {block : Block} {blockBytes : Bytes}
    {info : SerializedBlockInfo}
    (hser : serializeBlock getOrComputeTxID block = some (blockBytes, info))
    (hsize : blockBytes.length < 2 ^ 56)
    (hfile : files fileNum = pre ++ appendVarint blockBytes.length ++ blockBytes ++ rest) :
    syncIndexStep blockHeaderHash getOrComputeTxID indexItems files fileNum pre.length =
      (indexBlock indexItems
        { blockNum := info.blockHeader.number, blockHash := blockHeaderHash info.blockHeader,
          flp := ⟨fileNum, ⟨pre.length, 0⟩⟩,
          txOffsets := shiftTxOffsets (appendVarint blockBytes.length).length info.txOffsets,
          metadata := some ⟨(info.metadata.map BlockMetadata.metadata).getD []⟩ }).mapError
          .indexPanic >>= fun entries =>
        pure (some (entries, pre.length + (appendVarint blockBytes.length).length + blockBytes.length)) := by
  have hinfo := extractSerializedBlockInfo_serializeBlock hser (by omega)
  simp only [syncIndexStep, hfile, nextBlockBytesAndPlacementInfo_append fileNum pre blockBytes rest hsize,
    hinfo, Except.mapError, bind, Except.bind, pure, Except.pure, Nat.add_sub_cancel_left]
  rfl

/-- `syncIndex` panics on a block without a transaction filter, reading its metadata back as
    the entries it has, and none where it had none. -/
theorem syncIndexStep_of_no_transactionsFilter {blockHeaderHash : BlockHeader → Bytes}
    {getOrComputeTxID : Bytes → String} {indexItems : List IndexableAttr} {files : Nat → Bytes}
    {fileNum : Nat} {pre rest : Bytes} {block : Block} {blockBytes : Bytes}
    {info : SerializedBlockInfo}
    (hser : serializeBlock getOrComputeTxID block = some (blockBytes, info))
    (hsize : blockBytes.length < 2 ^ 56)
    (hfile : files fileNum = pre ++ appendVarint blockBytes.length ++ blockBytes ++ rest)
    (hitems : indexItems ≠ [])
    (hshort : ((info.metadata.map BlockMetadata.metadata).getD []).length ≤ transactionsFilterIndex) :
    syncIndexStep blockHeaderHash getOrComputeTxID indexItems files fileNum pre.length =
      .error (.indexPanic .noTransactionsFilter) := by
  rw [syncIndexStep_append hser hsize hfile, indexBlock_noTransactionsFilter hitems rfl hshort]
  rfl

section IndexAgrees

variable {maxBlockfileSize : Nat} {blockHeaderHash : BlockHeader → Bytes}
  {getOrComputeTxID : Bytes → String} {indexItems : List IndexableAttr}

/-- A block whose transaction filter covers its transactions, and whose bytes fit the eight bytes
    the block stream peeks for their length, is read back whole; `addBlock` appends it at an
    offset of a block file and indexes each transaction by its number where its length-prefixed
    bytes lie, so that fetching the transaction returns it; and the block stream, from where the
    block starts, indexes it again with the same entries. -/
theorem addBlock_index_agrees {mgr : BlockfileMgr} {block : Block} {header : BlockHeader}
    {data : BlockData} {md : BlockMetadata} {txsfltr blockBytes : Bytes}
    {info : SerializedBlockInfo} (hmgr : mgr.Consistent)
    (hh : block.header = some header) (hd : block.data = some data)
    (hmd : block.metadata = some md) (hnum : header.number = mgr.height)
    (hprev : header.previousHash = mgr.currentBlockHash)
    (hser : serializeBlock getOrComputeTxID block = some (blockBytes, info))
    (hsize : blockBytes.length < 2 ^ 56)
    (hfltr : md.metadata[transactionsFilterIndex]? = some txsfltr)
    (hflags : data.data.length ≤ txsfltr.length) (hitems : .blockNumTranNum ∈ indexItems) :
    deserializeBlock getOrComputeTxID blockBytes = .ok block ∧
      extractSerializedBlockInfo getOrComputeTxID blockBytes = .ok info ∧
      ∃ mgr' entries blockStartOffset,
        addBlock maxBlockfileSize blockHeaderHash getOrComputeTxID indexItems mgr block = .ok mgr' ∧
        mgr'.Consistent ∧ mgr'.index = writeBatch mgr.index entries ∧
        mgr'.latestFileSize =
          blockStartOffset + (appendVarint blockBytes.length).length + blockBytes.length ∧
        (∀ (i : Nat) (env : Bytes), data.data[i]? = some env →
          ∃ t flp, info.txOffsets[i]? = some t ∧ t.txID = getOrComputeTxID env ∧
            flp = ⟨mgr'.latestFileNumber, ⟨blockStartOffset +
              (appendVarint blockBytes.length).length + t.loc.offset, t.loc.bytesLength⟩⟩ ∧
            getTXLocByBlockNumTranNum indexItems mgr'.index header.number i.toUInt64 = .ok flp ∧
            fetchRawBytes mgr'.files flp = .ok (appendBytes env) ∧
            fetchTransactionEnvelope mgr' flp = (unmarshalEnvelope env).mapError .unmarshal) ∧
        syncIndexStep blockHeaderHash getOrComputeTxID indexItems mgr'.files mgr'.latestFileNumber
          blockStartOffset = .ok (some (entries, mgr'.latestFileSize)) := by
  -- the layout of the block's bytes
  obtain ⟨header', data', hh', hd', hlayout, hinfo⟩ := serializeBlock_eq_some getOrComputeTxID hser
  obtain ⟨header'', data'', hh'', hd'', -, -, hcount, hlens, -, -⟩ :=
    fits_of_serializeBlock hser (by omega)
  rw [hh, Option.some.injEq] at hh' hh''
  rw [hd, Option.some.injEq] at hd' hd''
  subst hh' hd' hh'' hd''
  have hmeta : some (⟨(block.metadata.map BlockMetadata.metadata).getD []⟩ : BlockMetadata) =
      block.metadata := by
    rw [hmd]
    rfl
  -- where the block goes, and the entries it is indexed with
  rcases hq : mgr.placement maxBlockfileSize blockBytes with ⟨fileNum, offset⟩
  have hplace : (mgr.files fileNum).length = offset := by
    simpa only [hq] using (hmgr.placement maxBlockfileSize blockBytes).1
  let idxInfo := mgr.addedIdxInfo maxBlockfileSize (blockHeaderHash header) header blockBytes
    info.txOffsets block.metadata
  have htxOffsets : idxInfo.txOffsets = txIndexInfos getOrComputeTxID
      ((addHeaderBytes header []).length + (appendVarint data.data.length).length +
        (appendVarint blockBytes.length).length) data.data := by
    simp only [idxInfo, BlockfileMgr.addedIdxInfo, hinfo, shiftTxOffsets_txIndexInfos]
  obtain ⟨entries, hidx, hlookup⟩ := indexBlock_ok (show idxInfo.metadata = some md from hmd) hfltr
    (by rw [htxOffsets, length_txIndexInfos]; exact hflags)
    (by rw [htxOffsets, length_txIndexInfos]; exact hcount)
  let mgr' := mgr.appendBlock maxBlockfileSize (blockHeaderHash header) header blockBytes entries
  have hlatest : mgr'.latestFileNumber = fileNum := by simp only [mgr', appendBlock_latestFileNumber, hq]
  have hfile : mgr'.files fileNum = mgr.files fileNum ++ appendVarint blockBytes.length ++ blockBytes := by
    simp only [mgr', BlockfileMgr.appendBlock, hq, Function.update_self]
  -- past what the file held and the block's length lie the block's bytes
  have hdropBlock :
      (mgr'.files fileNum).drop (offset + (appendVarint blockBytes.length).length) = blockBytes := by
    rw [hfile, ← hplace, ← List.drop_drop, List.append_assoc, List.drop_left, List.drop_left]
  refine ⟨by rw [deserializeBlock_serializeBlock hser (by omega), hmeta],
    by rw [extractSerializedBlockInfo_serializeBlock hser (by omega), hinfo, hmeta],
    mgr', entries, offset, ?_, hmgr.appendBlock _ entries, rfl, ?_, ?_, ?_⟩
  · rw [addBlock_eq hh hnum hprev hser, hidx]
    rfl
  · simp only [mgr', appendBlock_latestFileSize, hq]
    omega
  · -- each transaction is indexed where its bytes lie in the file
    intro i env henv
    obtain ⟨loc, hloc, hlen, hat⟩ := txIndexInfos_getElem? getOrComputeTxID
      ((addHeaderBytes header []).length + (appendVarint data.data.length).length) data.data i env henv
    have hloc' : info.txOffsets[i]? = some ⟨getOrComputeTxID env, loc⟩ := by rw [hinfo]; exact hloc
    have hshift : idxInfo.txOffsets[i]? = some ⟨getOrComputeTxID env,
        ⟨loc.offset + (appendVarint blockBytes.length).length, loc.bytesLength⟩⟩ := by
      simp only [idxInfo, BlockfileMgr.addedIdxInfo, shiftTxOffsets, List.getElem?_map, hloc']
      rfl
    -- within the block, after its header and the count of its transactions
    have hinBlock : (blockBytes.drop loc.offset).take loc.bytesLength = appendBytes env := by
      have := hat (addHeaderBytes header [] ++ appendVarint data.data.length)
        (appendVarint ((block.metadata.map BlockMetadata.metadata).getD []).length ++
          ((block.metadata.map BlockMetadata.metadata).getD []).flatMap appendBytes)
        List.length_append
      rw [hlayout]
      simpa only [List.append_assoc] using this
    let flp : FileLocPointer :=
      ⟨fileNum, ⟨offset + (appendVarint blockBytes.length).length + loc.offset, loc.bytesLength⟩⟩
    have hfetch : fetchRawBytes mgr'.files flp = .ok (appendBytes env) := by
      refine fetchRawBytes_eq ?_ hlen.symm (by simp [appendBytes, appendVarint, appendVarintN_ne_nil])
      show ((mgr'.files fileNum).drop (offset + (appendVarint blockBytes.length).length +
        loc.offset)).take loc.bytesLength = _
      rw [← List.drop_drop, hdropBlock, hinBlock]
    refine ⟨⟨getOrComputeTxID env, loc⟩, flp, hloc', rfl, by rw [hlatest], ?_, hfetch,
      fetchTransactionEnvelope_eq hfetch (hlens env (List.mem_of_getElem? henv))⟩
    refine getTXLocByBlockNumTranNum_eq hitems ?_
    have := hlookup hitems mgr.index i _ hshift
    simp only [idxInfo, BlockfileMgr.addedIdxInfo, newFileLocationPointer, hq] at this
    rw [Nat.add_comm loc.offset, ← Nat.add_assoc] at this
    exact this
  · -- the stream reads the block back from where it starts
    have hsync : syncIndexStep blockHeaderHash getOrComputeTxID indexItems mgr'.files fileNum
        (mgr.files fileNum).length = _ :=
      syncIndexStep_append hser hsize (show _ = _ ++ [] by rw [List.append_nil]; exact hfile)
    -- with the header, metadata and offsets `addBlock` indexed
    have hhdr : info.blockHeader = header := by rw [hinfo]
    have hmetaInfo : some (⟨(info.metadata.map BlockMetadata.metadata).getD []⟩ : BlockMetadata) =
        block.metadata := by
      rw [hinfo]
      exact hmeta
    have hidx' : indexBlock indexItems
        { blockNum := header.number, blockHash := blockHeaderHash header,
          flp := ⟨fileNum, ⟨offset, 0⟩⟩,
          txOffsets := shiftTxOffsets (appendVarint blockBytes.length).length info.txOffsets,
          metadata := block.metadata } = .ok entries := by
      rw [← hidx]
      simp only [idxInfo, BlockfileMgr.addedIdxInfo, hq]
    rw [hlatest, ← hplace, hsync, hhdr, hmetaInfo, hplace, hidx']
    simp only [Except.mapError, bind, Except.bind, pure, Except.pure, mgr', appendBlock_latestFileSize,
      hq]
    congr 3
    omega

/-- One transaction, with the three metadata entries of a committed block, added to an empty
    block store. -/
theorem addBlock_index_agrees_one_transaction :
    deserializeBlock (fun _ => "tx") [0, 0, 0, 1, 2, 1, 2, 3, 0, 0, 1, 0] =
        .ok ⟨some ⟨0, [], []⟩, some ⟨[[1, 2]]⟩, some ⟨[[], [], [0]]⟩⟩ ∧
      extractSerializedBlockInfo (fun _ => "tx") [0, 0, 0, 1, 2, 1, 2, 3, 0, 0, 1, 0] =
        .ok ⟨⟨0, [], []⟩, [⟨"tx", ⟨4, 3⟩⟩], some ⟨[[], [], [0]]⟩⟩ ∧
      ∃ mgr' entries blockStartOffset,
        addBlock 1000 (fun _ => []) (fun _ => "tx") [.blockNumTranNum]
            ⟨fun _ => [], 0, 0, 0, [], fun _ => none⟩
            ⟨some ⟨0, [], []⟩, some ⟨[[1, 2]]⟩, some ⟨[[], [], [0]]⟩⟩ = .ok mgr' ∧
        mgr'.Consistent ∧ mgr'.index = writeBatch (fun _ => none) entries ∧
        mgr'.latestFileSize = blockStartOffset + (appendVarint 12).length + 12 ∧
        (∀ (i : Nat) (env : Bytes), [[(1 : UInt8), 2]][i]? = some env →
          ∃ t flp, ([⟨"tx", ⟨4, 3⟩⟩] : List TxIndexInfo)[i]? = some t ∧ t.txID = "tx" ∧
            flp = ⟨mgr'.latestFileNumber,
              ⟨blockStartOffset + (appendVarint 12).length + t.loc.offset, t.loc.bytesLength⟩⟩ ∧
            getTXLocByBlockNumTranNum [.blockNumTranNum] mgr'.index 0 i.toUInt64 = .ok flp ∧
            fetchRawBytes mgr'.files flp = .ok (appendBytes env) ∧
            fetchTransactionEnvelope mgr' flp = (unmarshalEnvelope env).mapError .unmarshal) ∧
        syncIndexStep (fun _ => []) (fun _ => "tx") [.blockNumTranNum] mgr'.files
          mgr'.latestFileNumber blockStartOffset = .ok (some (entries, mgr'.latestFileSize)) :=
  @addBlock_index_agrees 1000 (fun _ => []) (fun _ => "tx") [.blockNumTranNum]
    ⟨fun _ => [], 0, 0, 0, [], fun _ => none⟩
    ⟨some ⟨0, [], []⟩, some ⟨[[1, 2]]⟩, some ⟨[[], [], [0]]⟩⟩ ⟨0, [], []⟩ ⟨[[1, 2]]⟩
    ⟨[[], [], [0]]⟩ [0] [0, 0, 0, 1, 2, 1, 2, 3, 0, 0, 1, 0]
    ⟨⟨0, [], []⟩, [⟨"tx", ⟨4, 3⟩⟩], some ⟨[[], [], [0]]⟩⟩ ⟨rfl, fun _ _ => rfl⟩ rfl rfl rfl rfl rfl rfl (by decide) rfl (by decide)
    (List.mem_singleton_self _)

end IndexAgrees

/-- A block of one transaction without metadata, added to an empty store that keeps the default
    indexes, panics once its bytes are written; and the block stream of `syncIndex` over those
    bytes panics too, so no restart indexes it. -/
theorem addBlock_short_metadata_panics :
    serializeBlock (fun _ => "tx") ⟨some ⟨0, [], []⟩, some ⟨[[1, 2]]⟩, none⟩ =
        some ([0, 0, 0, 1, 2, 1, 2, 0], ⟨⟨0, [], []⟩, [⟨"tx", ⟨4, 3⟩⟩], none⟩) ∧
      addBlock 1000 (fun _ => []) (fun _ => "tx") [.blockHash, .blockNum, .txID, .blockNumTranNum]
          ⟨fun _ => [], 0, 0, 0, [], fun _ => none⟩ ⟨some ⟨0, [], []⟩, some ⟨[[1, 2]]⟩, none⟩ =
        .error (.indexPanic .nilMetadata) ∧
      syncIndexStep (fun _ => []) (fun _ => "tx") [.blockHash, .blockNum, .txID, .blockNumTranNum]
          (fun _ => appendVarint 8 ++ [0, 0, 0, 1, 2, 1, 2, 0]) 0 0 =
        .error (.indexPanic .noTransactionsFilter) := by
  have hser : serializeBlock (fun _ => "tx") ⟨some ⟨0, [], []⟩, some ⟨[[1, 2]]⟩, none⟩ =
      some ([0, 0, 0, 1, 2, 1, 2, 0], ⟨⟨0, [], []⟩, [⟨"tx", ⟨4, 3⟩⟩], none⟩) := rfl
  refine ⟨hser, addBlock_eq_error rfl rfl rfl hser
    (indexBlock_nilMetadata (List.cons_ne_nil _ _) rfl), ?_⟩
  -- the file holds the block behind its length, from offset `0`
  exact @syncIndexStep_of_no_transactionsFilter (fun _ => []) (fun _ => "tx")
    [.blockHash, .blockNum, .txID, .blockNumTranNum]
    (fun _ => appendVarint 8 ++ [0, 0, 0, 1, 2, 1, 2, 0]) 0 [] [] _ _ _ hser (by decide) rfl
    (List.cons_ne_nil _ _) (by decide)

end Fabric.BlkStorage
