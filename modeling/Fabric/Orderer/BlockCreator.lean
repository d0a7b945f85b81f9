import Fabric.Protoutil.BlockUtils

/-
  The blocks an orderer cuts and the hash-chain check a follower applies to them
  (`orderer/consensus/etcdraft/blockcreator.go`, `orderer/common/cluster/util.go`).

  `createNextBlock` numbers each block one past the last, links it to the hash of the last
  header and stores the hash of its marshalled envelopes. A run of it over batches of
  well-formed envelopes, after a block whose header it holds the number and hash of, gives a
  buffer that `VerifyBlockHash` accepts at every index past the first
  (`verifyBlockHash_createNextBlocks`). The proof goes through `ChainedAfter`, the shape every
  run leaves: the invariant of `createNextBlock` is that the creator holds the number and hash
  of the last header (`chainedAfter_createNextBlocks`), and `VerifyBlockHash` accepts each block
  of such a chain against the one before it (`verifyBlockHash_of_chainedAfter`).

  SHA-256 and the hash of a block header (SHA-256 of its ASN.1 encoding) are parameters.
-/

namespace Fabric.Orderer

open Fabric.Protoutil
open Fabric.Ledger (Bytes)

/-- `blockCreator`: the number and the header hash of the latest block. -/
structure BlockCreator where
  hash : Bytes
  number : UInt64

/-- The errors of `VerifyBlockHash`, with the data each message prints. -/
inductive VerifyError
  /-- "index %d out of bounds (total %d blocks)" -/
  | outOfBounds (index total : Nat)
  /-- "missing block header" -/
  | missingHeader
  /-- "missing block data" -/
  | missingData
  /-- the error of `BlockDataHash` -/
  | dataHash (err : WellFormedError)
  /-- "computed hash of block (%d) (%s) doesn't match claimed hash (%s)" -/
  | hashMismatch (seq : UInt64) (computed claimed : Bytes)
  /-- "previous block header is nil" -/
  | previousHeaderNil
  /-- "sequences %d and %d were received consecutively" -/
  | sequences (prevSeq currSeq : UInt64)
  /-- "block [%d]'s hash (%s) mismatches block [%d]'s prev block hash (%s)" -/
  | prevHashMismatch (prevSeq : UInt64) (actual : Bytes) (currSeq : UInt64) (claimed : Bytes)
  deriving DecidableEq, Repr

section

variable (sha256 : Bytes → Bytes) (blockHeaderHash : BlockHeader → Bytes)

/-- `createNextBlock`: the block after the creator's, over the marshalled envelopes
    (`NewBlock(number, hash)` with its data and data hash set), and the creator's new state.
    Marshalling an envelope cannot fail. -/
def BlockCreator.createNextBlock (bc : BlockCreator) (envs : List Envelope) :
    Block × BlockCreator :=
  let data : BlockData := ⟨envs.map marshalEnvelope⟩
  let number := bc.number + 1
  let header : BlockHeader :=
    { number := number, previousHash := bc.hash, dataHash := computeBlockDataHash sha256 data }
  ({ header := some header, data := some data }, { hash := blockHeaderHash header, number := number })

/-- Successive `createNextBlock` calls, one for each batch. -/
def BlockCreator.createNextBlocks (bc : BlockCreator) : List (List Envelope) → List Block
  | [] => []
  | envs :: rest =>
    let (block, bc') := bc.createNextBlock sha256 blockHeaderHash envs
    block :: bc'.createNextBlocks rest

theorem length_createNextBlocks (bc : BlockCreator) (envss : List (List Envelope)) :
    (bc.createNextBlocks sha256 blockHeaderHash envss).length = envss.length := by
  induction envss generalizing bc with
  | nil => rfl
  | cons envs rest ih => simp [BlockCreator.createNextBlocks, ih]

/-- The `i`-th block of a run is numbered `i + 1` past the creator's number, in `uint64`
    arithmetic. -/
theorem number_createNextBlocks :
    ∀ (bc : BlockCreator) (envss : List (List Envelope)) (i : Nat) (block : Block),
      (bc.createNextBlocks sha256 blockHeaderHash envss)[i]? = some block →
      ∃ header, block.header = some header ∧ header.number = bc.number + (i.toUInt64 + 1)
  | _, [], _, _, h => by simp [BlockCreator.createNextBlocks] at h
  | bc, envs :: rest, 0, block, h => by
    simp only [BlockCreator.createNextBlocks, List.getElem?_cons_zero, Option.some.injEq] at h
    subst h
    exact ⟨_, rfl, by simp⟩
  | bc, envs :: rest, i + 1, block, h => by
    simp only [BlockCreator.createNextBlocks, List.getElem?_cons_succ] at h
    obtain ⟨header, hh, hn⟩ := number_createNextBlocks _ rest i block h
    refine ⟨header, hh, ?_⟩
    rw [hn]
    simp only [BlockCreator.createNextBlock, Nat.toUInt64_eq, UInt64.ofNat_add]
    grind

/-- The `i`-th block of a run holds the marshalled envelopes of the `i`-th batch. -/
theorem data_createNextBlocks :
    ∀ (bc : BlockCreator) (envss : List (List Envelope)) (i : Nat) (envs : List Envelope),
      envss[i]? = some envs →
      ∃ block, (bc.createNextBlocks sha256 blockHeaderHash envss)[i]? = some block ∧
        block.data = some ⟨envs.map marshalEnvelope⟩
  | _, [], _, _, h => by simp at h
  | bc, envs :: rest, 0, envs', h => by
    simp only [List.getElem?_cons_zero, Option.some.injEq] at h
    subst h
    exact ⟨_, rfl, rfl⟩
  | bc, envs :: rest, i + 1, envs', h => by
    simp only [List.getElem?_cons_succ] at h
    exact data_createNextBlocks _ rest i envs' h

/-- The checks `VerifyBlockHash` makes of a block, given the block before it in the buffer, if
    there is one. -/
def verifyBlockAgainst (prevBlock : Option Block) (block : Block) : Except VerifyError Unit :=
  match block.header, block.data with
  | none, _ => throw .missingHeader
  | some _, none => throw .missingData
  | some header, some data => do
    let seq := header.number
    let dataHash ← (blockDataHash sha256 data).mapError .dataHash
    if dataHash ≠ header.dataHash then throw (.hashMismatch seq dataHash header.dataHash)
    match prevBlock with
    | none => pure ()
    | some prevBlock =>
      match prevBlock.header with
      | none => throw .previousHeaderNil
      | some prevHeader =>
        if prevHeader.number + 1 ≠ header.number then
          throw (.sequences prevHeader.number header.number)
        if header.previousHash ≠ blockHeaderHash prevHeader then
          throw (.prevHashMismatch prevHeader.number (blockHeaderHash prevHeader) header.number
            header.previousHash)

/-- `VerifyBlockHash`: the block at the index carries the hash of its data and, if a block
    comes before it in the buffer, follows that block. -/
def verifyBlockHash (indexInBuffer : Nat) (blockBuff : List Block) : Except VerifyError Unit :=
  match blockBuff[indexInBuffer]? with
  | none => throw (.outOfBounds indexInBuffer blockBuff.length)
  | some block =>
    let prevBlock := if indexInBuffer > 0 then blockBuff[indexInBuffer - 1]? else none
    verifyBlockAgainst sha256 blockHeaderHash prevBlock block

/-! ## The chain a run leaves -/

/-- Blocks that follow a header: each has a header and data, is numbered one past the header
    before it, carries its hash, and has data that passes `BlockDataHash` with the hash in its
    header. -/
def ChainedAfter (prev : BlockHeader) : List Block → Prop
  | [] => True
  | block :: rest => ∃ header data, block.header = some header ∧ block.data = some data ∧
      header.number = prev.number + 1 ∧ header.previousHash = blockHeaderHash prev ∧
      blockDataHash sha256 data = .ok header.dataHash ∧ ChainedAfter header rest

/-- A run of `createNextBlock` after the header whose number and hash the creator holds. -/
theorem chainedAfter_createNextBlocks :
    ∀ (bc : BlockCreator) (envss : List (List Envelope)) (prev : BlockHeader),
      (∀ envs ∈ envss, envs ≠ []) → (∀ envs ∈ envss, ∀ env ∈ envs, WellFormedEnvelope env) →
      prev.number = bc.number → blockHeaderHash prev = bc.hash →
      ChainedAfter sha256 blockHeaderHash prev (bc.createNextBlocks sha256 blockHeaderHash envss)
  | _, [], _, _, _, _, _ => trivial
  | bc, envs :: rest, prev, hne, hwf, hnum, hhash => by
    -- the new block's header becomes the creator's state
    refine ⟨_, _, rfl, rfl, by simp [hnum], hhash.symm ▸ rfl, ?_,
      chainedAfter_createNextBlocks _ rest _ (fun e he => hne e (List.mem_cons_of_mem _ he))
        (fun e he => hwf e (List.mem_cons_of_mem _ he)) rfl rfl⟩
    refine blockDataHash_of_canonical sha256 (by simpa using hne envs (List.mem_cons_self ..)) ?_
    intro raw hraw
    obtain ⟨env, henv, rfl⟩ := List.mem_map.mp hraw
    exact canonicalEnvelope_marshalEnvelope (hwf envs (List.mem_cons_self ..) env henv)

/-- `VerifyBlockHash` of a block against the one before it, at the front of the buffer. -/
theorem verifyBlockHash_one {prevBlock block : Block} {prev header : BlockHeader}
    {data : BlockData} (rest : List Block) (hprev : prevBlock.header = some prev)
    (hh : block.header = some header) (hd : block.data = some data)
    (hnum : header.number = prev.number + 1) (hlink : header.previousHash = blockHeaderHash prev)
    (hdata : blockDataHash sha256 data = .ok header.dataHash) :
    verifyBlockHash sha256 blockHeaderHash 1 (prevBlock :: block :: rest) = .ok () := by
  simp [verifyBlockHash, verifyBlockAgainst, hh, hd, hdata, hprev, hnum, hlink, Except.mapError,
    bind, Except.bind, pure, Except.pure]

/-- Past the first two blocks, `VerifyBlockHash` does not look at the first. -/
theorem verifyBlockHash_cons_succ_succ (k : Nat) (b : Block) (blocks : List Block)
    (h : verifyBlockHash sha256 blockHeaderHash (k + 1) blocks = .ok ()) :
    verifyBlockHash sha256 blockHeaderHash (k + 2) (b :: blocks) = .ok () := by
  unfold verifyBlockHash at h ⊢
  simp only [List.getElem?_cons_succ, Nat.add_sub_cancel, gt_iff_lt, Nat.succ_pos, if_true] at h ⊢
  rw [show k + 2 - 1 = k + 1 by omega, List.getElem?_cons_succ]
  split at h
  · cases h
  · exact h

/-- A buffer that starts with the header a chain follows passes `VerifyBlockHash` at every
    index of the chain. -/
theorem verifyBlockHash_of_chainedAfter :
    ∀ (blocks : List Block) (prevBlock : Block) (prev : BlockHeader),
      prevBlock.header = some prev → ChainedAfter sha256 blockHeaderHash prev blocks →
      ∀ k, 1 ≤ k → k ≤ blocks.length →
        verifyBlockHash sha256 blockHeaderHash k (prevBlock :: blocks) = .ok ()
  | [], _, _, _, _, k, h1, h2 => by simp at h2; omega
  | block :: rest, prevBlock, prev, hprev, hchain, k, h1, h2 => by
    obtain ⟨header, data, hh, hd, hnum, hlink, hdata, hrest⟩ := hchain
    match k, h1 with
    | 1, _ => exact verifyBlockHash_one sha256 blockHeaderHash rest hprev hh hd hnum hlink hdata
    | k + 2, _ =>
      -- the next block follows this one: the same argument one block further on
      refine verifyBlockHash_cons_succ_succ sha256 blockHeaderHash k prevBlock _ ?_
      exact verifyBlockHash_of_chainedAfter rest block header hh hrest (k + 1) (by omega)
        (by simp at h2; omega)

/-- Blocks cut by successive `createNextBlock` calls, after a block whose header the creator
    holds the number and hash of, pass `VerifyBlockHash` at every index past that block. -/
theorem verifyBlockHash_createNextBlocks (bc : BlockCreator) (envss : List (List Envelope))
    (hne : ∀ envs ∈ envss, envs ≠ [])
    (hwf : ∀ envs ∈ envss, ∀ env ∈ envs, WellFormedEnvelope env)
    (prevBlock : Block) (prev : BlockHeader) (hprev : prevBlock.header = some prev)
    (hnum : prev.number = bc.number) (hhash : blockHeaderHash prev = bc.hash) :
    ∀ k, 1 ≤ k → k ≤ envss.length →
      verifyBlockHash sha256 blockHeaderHash k
        (prevBlock :: bc.createNextBlocks sha256 blockHeaderHash envss) = .ok () := by
  intro k h1 h2
  refine verifyBlockHash_of_chainedAfter sha256 blockHeaderHash _ prevBlock prev hprev
    (chainedAfter_createNextBlocks sha256 blockHeaderHash bc envss prev hne hwf hnum hhash) k h1 ?_
  rwa [length_createNextBlocks]

end

end Fabric.Orderer
