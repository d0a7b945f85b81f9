import Fabric.BlkStorage.BlockStream
import Mathlib

/-
  Reading blocks back from the block store (`blockfile_mgr.go`, `blockindex.go`,
  `blocks_itr.go`, `block_stream.go`).

  `retrieveBlockByNumber` and `retrieveBlockByHash` look the block's location up in the index
  and read one record from there with a `blockfileStream`. A `blocksItr` returns the blocks
  from a start number on: it waits until the block it is to return is persisted, takes it from
  the cache when the cache holds it (and then drops its stream), and otherwise reads the next
  record of a `blockStream` that it opens at the block's location. A `blockStream` opened
  without an end file goes on to the next block file at the end of each one.

  The store a run of `addBlock` builds from an empty one is described by `Stored`: the `i`-th
  block added lies in its file behind its length at the place `placed[i]`, which the index holds
  under its number; consecutive blocks follow one another in a file, or the next block opens the
  next file, the earlier one ending right after the block before. Every successful `addBlock`
  keeps it (`Stored.addBlock`).

  Over a store with `Stored`, each block is read back by its number and, when no later block
  has the same header hash, by its hash (`Stored.retrieveBlockByNumber_eq`,
  `Stored.retrieveBlockByHash_eq`). A stream at a block's record reads that block and then the
  next one, in the same file or at the start of the next (`Stored.blockStreamNext_after`). An
  iterator with `ItrInv` (it takes no more blocks to be persisted than are, and its stream, if
  open, stands after the block before its own) returns its block when the block is stored,
  from the cache or the stream (`Stored.next_of_lt`), and otherwise waits, but on the empty
  store at block `0`, which the empty store reports as persisted (`Stored.next_of_le`). The runs
  of the whole store are in `StoreRun`.

  Here the cache is a lookup parameter that returns, if anything, the block stored under the
  number; `StoreRun` runs the iterator against the cache of `cache.go`. A block file exists when its number is at most the
  latest one: `addBlock` creates each file it moves to. `Close` and the iterator's close marker,
  the logging and the snapshot bootstrap (`firstPossibleBlockNumberInBlockFiles`, a parameter
  here) are left out.
-/

namespace Fabric.BlkStorage

open Protowire Protoutil
open Fabric.Ledger (Bytes)

/-! ## Looking a block up -/

/-- How a lookup in the block index fails. -/
inductive IndexLookupError
  /-- "block hashes not maintained in index", "block numbers not maintained in index" -/
  | notMaintained (attr : IndexableAttr)
  /-- "no such block hash [%x] in index", "no such block number [%d] in index" -/
  | noSuchKey (key : IndexKey)
  deriving DecidableEq, Repr

/-- The lookups of a block's location: the attribute must be maintained and the key hold a
    location. -/
def getLoc (indexItems : List IndexableAttr) (index : IndexKey → Option IndexValue)
    (attr : IndexableAttr) (key : IndexKey) : Except IndexLookupError FileLocPointer :=
  if attr ∉ indexItems then .error (.notMaintained attr)
  else match index key with
    | some (.loc flp) => .ok flp
    -- a value that is no location does not unmarshal
    | _ => .error (.noSuchKey key)

/-- `blockIndex.getBlockLocByHash`. -/
def getBlockLocByHash (indexItems : List IndexableAttr) (index : IndexKey → Option IndexValue)
    (blockHash : Bytes) : Except IndexLookupError FileLocPointer :=
  getLoc indexItems index .blockHash (.blockHash blockHash)

/-- `blockIndex.getBlockLocByBlockNum`. -/
def getBlockLocByBlockNum (indexItems : List IndexableAttr) (index : IndexKey → Option IndexValue)
    (blockNum : UInt64) : Except IndexLookupError FileLocPointer :=
  getLoc indexItems index .blockNum (.blockNum blockNum)

/-! ## Reading a block at its location -/

/-- How reading a block from the files fails. -/
inductive FetchBlockError
  /-- "error opening block file %s" -/
  | openFile (fileNum : Nat)
  | stream (f : StreamFailure)
  | decode (err : DecodeError)
  deriving DecidableEq, Repr

/-- `newBlockfileStream`: a stream over a block file from an offset. The files are the latest
    and those before it. -/
def newBlockfileStream (mgr : BlockfileMgr) (fileNum startOffset : Nat) :
    Except FetchBlockError BlockfileStream :=
  if fileNum ≤ mgr.latestFileNumber then .ok ⟨fileNum, mgr.files fileNum, startOffset⟩
  else .error (.openFile fileNum)

/-- `blockfileMgr.fetchBlockBytes`: the next block of a stream from the location, nil at the end
    of the file. -/
def fetchBlockBytes (mgr : BlockfileMgr) (lp : FileLocPointer) : Except FetchBlockError Bytes := do
  let stream ← newBlockfileStream mgr lp.fileSuffixNum lp.locPointer.offset
  match stream.next.1 with
  | .error f => .error (.stream f)
  | .ok none => pure []
  | .ok (some (b, _)) => pure b

section Retrieve

-- `protoutil.GetOrComputeTxIDFromEnvelope` and the attributes the index maintains
variable (getOrComputeTxID : Bytes → String) (indexItems : List IndexableAttr)

/-- `blockfileMgr.fetchBlock`. -/
def fetchBlock (mgr : BlockfileMgr) (lp : FileLocPointer) : Except FetchBlockError Block := do
  let blockBytes ← fetchBlockBytes mgr lp
  (deserializeBlock getOrComputeTxID blockBytes).mapError .decode

/-- How `retrieveBlockByNumber` and `retrieveBlockByHash` fail. -/
inductive BlockRetrievalError
  /-- "cannot serve block [%d]. The ledger is bootstrapped from a snapshot. First available
      block = [%d]" -/
  | notAvailable (blockNum firstAvailable : UInt64)
  | lookup (e : IndexLookupError)
  | fetch (e : FetchBlockError)
  deriving DecidableEq, Repr

/-- `blockfileMgr.retrieveBlockByNumber`; `firstPossibleBlockNumber` is the first block a store
    bootstrapped from a snapshot holds, `0` otherwise. -/
def retrieveBlockByNumber (firstPossibleBlockNumber : UInt64) (mgr : BlockfileMgr)
    (blockNum : UInt64) : Except BlockRetrievalError Block := do
  -- `math.MaxUint64` asks for the last block
  let blockNum := if blockNum = UInt64.ofNat (2 ^ 64 - 1) then mgr.height - 1 else blockNum
  if blockNum < firstPossibleBlockNumber then
    throw (.notAvailable blockNum firstPossibleBlockNumber)
  let loc ← (getBlockLocByBlockNum indexItems mgr.index blockNum).mapError .lookup
  (fetchBlock getOrComputeTxID mgr loc).mapError .fetch

/-- `blockfileMgr.retrieveBlockByHash`. -/
def retrieveBlockByHash (mgr : BlockfileMgr) (blockHash : Bytes) :
    Except BlockRetrievalError Block := do
  let loc ← (getBlockLocByHash indexItems mgr.index blockHash).mapError .lookup
  (fetchBlock getOrComputeTxID mgr loc).mapError .fetch

/-! ## The blocks iterator -/

/-- `blockfilesInfo.lastPersistedBlock`, which `addBlock` sets to the number of the block it
    adds; `0` before the first. -/
def BlockfileMgr.lastPersistedBlock (mgr : BlockfileMgr) : UInt64 :=
  if mgr.height = 0 then 0 else mgr.height - 1

/-- `blocksItr`; its `blockStream`, when it has one, as the file it reads and the offset of its
    next read. -/
structure BlocksItr where
  maxBlockNumAvailable : UInt64
  blockNumToRetrieve : UInt64
  stream : Option (Nat × Nat)
  deriving DecidableEq, Repr

/-- `newBlockItr`. -/
def newBlockItr (mgr : BlockfileMgr) (startBlockNum : UInt64) : BlocksItr :=
  ⟨mgr.lastPersistedBlock, startBlockNum, none⟩

/-- How `blocksItr.Next` fails. -/
inductive ItrError
  | lookup (e : IndexLookupError)
  | fetch (e : FetchBlockError)
  deriving DecidableEq, Repr

/-- `blockStream.nextBlockBytes` of a stream with no end file, over the files as they are when
    it is called: the next block of the current file, or, at its end, of the next file; with the
    file and offset the stream goes on from. -/
def blockStreamNext (mgr : BlockfileMgr) (fileNum offset : Nat) :
    Except FetchBlockError (Bytes × Nat × Nat) :=
  match (⟨fileNum, mgr.files fileNum, offset⟩ : BlockfileStream).next with
  | (.error f, _) => .error (.stream f)
  | (.ok (some (blockBytes, _)), s) => .ok (blockBytes, s.fileNum, s.currentOffset)
  | (.ok none, _) =>
    -- `moveToNextBlockfileStream`: the next file, which must exist
    if fileNum + 1 ≤ mgr.latestFileNumber then blockStreamNext mgr (fileNum + 1) 0
    else .error (.openFile (fileNum + 1))
termination_by mgr.latestFileNumber + 1 - fileNum

/-- `blocksItr.waitForBlock`: the number of the last persisted block once it is at least
    `blockNum`; `none` while the call waits. -/
def waitForBlock (mgr : BlockfileMgr) (blockNum : UInt64) : Option UInt64 :=
  if mgr.lastPersistedBlock < blockNum then none else some mgr.lastPersistedBlock

/-- `blocksItr.initStream`: a stream from the location of the block to retrieve. -/
def BlocksItr.initStream (mgr : BlockfileMgr) (itr : BlocksItr) : Except ItrError (Nat × Nat) := do
  let lp ← (getBlockLocByBlockNum indexItems mgr.index itr.blockNumToRetrieve).mapError .lookup
  let stream ← (newBlockfileStream mgr lp.fileSuffixNum lp.locPointer.offset).mapError .fetch
  pure (stream.fileNum, stream.currentOffset)

/-- The stream `Next` reads from: the iterator's own, or a new one from `initStream` when it has
    none. -/
def BlocksItr.openStream (mgr : BlockfileMgr) (itr : BlocksItr) : Except ItrError (Nat × Nat) :=
  match itr.stream with
  | some pos => pure pos
  | none => itr.initStream indexItems mgr

/-- `blocksItr.Next` once its block is persisted: the block from the cache, which puts the stream
    out of step and closes it, or from the stream, opened if need be. `cacheGet` is the block
    cache's `get`. -/
def BlocksItr.retrieve (mgr : BlockfileMgr) (cacheGet : UInt64 → Option Block) (itr : BlocksItr) :
    Except ItrError (Block × BlocksItr) :=
  match cacheGet itr.blockNumToRetrieve with
  | some cachedBlock =>
    .ok (cachedBlock, { itr with blockNumToRetrieve := itr.blockNumToRetrieve + 1, stream := none })
  | none => do
    let (fileNum, offset) ← itr.openStream indexItems mgr
    let (nextBlockBytes, fileNum, offset) ← (blockStreamNext mgr fileNum offset).mapError .fetch
    let block ← (deserializeBlock getOrComputeTxID nextBlockBytes).mapError (.fetch ∘ .decode)
    pure (block,
      { itr with blockNumToRetrieve := itr.blockNumToRetrieve + 1, stream := some (fileNum, offset) })

/-- `blocksItr.Next` against the store as it is when the call goes ahead: `none` while it waits
    for its block to be persisted. -/
def BlocksItr.next (mgr : BlockfileMgr) (cacheGet : UInt64 → Option Block) (itr : BlocksItr) :
    Option (Except ItrError (Block × BlocksItr)) :=
  if itr.maxBlockNumAvailable < itr.blockNumToRetrieve then
    (waitForBlock mgr itr.blockNumToRetrieve).map fun maxBlockNumAvailable =>
      BlocksItr.retrieve getOrComputeTxID indexItems mgr cacheGet { itr with maxBlockNumAvailable }
  else some (itr.retrieve getOrComputeTxID indexItems mgr cacheGet)

end Retrieve

/-! ## What `indexBlock` writes -/

theorem txIDEntries_keys {txsfltr : Bytes} {blkNum : UInt64} {flp : FileLocPointer} :
    ∀ {i : Nat} {txOffsets : List TxIndexInfo} {es : List (IndexKey × IndexValue)},
      txIDEntries txsfltr blkNum flp i txOffsets = .ok es →
        ∀ e ∈ es, ∃ txID txNum, e.1 = .txID txID blkNum txNum
  | _, [], es, h => by
    cases h
    simp
  | i, txoffset :: txOffsets, es, h => by
    cases hflag : txsfltr[i]? with
    | none => simp [txIDEntries, hflag, bind, Except.bind] at h
    | some flag =>
      cases hrest : txIDEntries txsfltr blkNum flp (i + 1) txOffsets with
      | error err => simp [txIDEntries, hflag, hrest, bind, Except.bind] at h
      | ok rest =>
        simp only [txIDEntries, hflag, hrest, bind, Except.bind, pure, Except.pure,
          Except.ok.injEq] at h
        subst h
        rintro e (_ | ⟨_, he⟩)
        · exact ⟨_, _, rfl⟩
        · exact txIDEntries_keys hrest e he

/-- What `indexBlock` writes when it returns, with anything to index: the block's location under
    its hash and its number, as maintained, then the transactions' entries, then the save point.
    It has read the block's metadata. -/
theorem indexBlock_eq_ok {indexItems : List IndexableAttr} {info : BlockIdxInfo}
    {entries : List (IndexKey × IndexValue)} (hitems : indexItems ≠ [])
    (h : indexBlock indexItems info = .ok entries) :
    (∃ md, info.metadata = some md) ∧ ∃ txEntries : List (IndexKey × IndexValue),
      (∀ e ∈ txEntries, (∃ txID txNum, e.1 = .txID txID info.blockNum txNum) ∨
        ∃ txNum, e.1 = .blockNumTranNum info.blockNum txNum) ∧
      entries = (if .blockHash ∈ indexItems then [(.blockHash info.blockHash, .loc info.flp)]
          else []) ++
        (if .blockNum ∈ indexItems then [(.blockNum info.blockNum, .loc info.flp)] else []) ++
        txEntries ++ [(.indexSavePoint, .blockNum info.blockNum)] := by
  have hne : indexItems.isEmpty = false := by simpa using hitems
  -- the metadata and the transaction filter were read
  cases hmd : info.metadata with
  | none => simp [indexBlock, hne, hmd, bind, Except.bind] at h
  | some md =>
    cases hfltr : md.metadata[transactionsFilterIndex]? with
    | none => simp [indexBlock, hne, hmd, hfltr, bind, Except.bind] at h
    | some txsfltr =>
      refine ⟨⟨md, rfl⟩, ?_⟩
      -- the transactions' entries: index 3, as maintained, then index 4
      let index4 : List (IndexKey × IndexValue) := if .blockNumTranNum ∈ indexItems then
        blockNumTranNumEntries info.blockNum info.flp 0 info.txOffsets else []
      have h4 : ∀ e ∈ index4, ∃ txNum, e.1 = .blockNumTranNum info.blockNum txNum := by
        intro e he
        simp only [index4] at he
        split at he
        · obtain ⟨j, t, -, rfl⟩ := mem_blockNumTranNumEntries.mp he
          exact ⟨_, rfl⟩
        · cases he
      by_cases htx : IndexableAttr.txID ∈ indexItems
      · cases h3 : txIDEntries txsfltr info.blockNum info.flp 0 info.txOffsets with
        | error err => simp [indexBlock, hne, hmd, hfltr, htx, h3, bind, Except.bind] at h
        | ok index3 =>
          simp only [indexBlock, hne, hmd, hfltr, htx, h3, Bool.false_eq_true, if_false, if_true,
            bind, Except.bind, pure, Except.pure, Except.ok.injEq] at h
          refine ⟨index3 ++ index4, fun e he => ?_, by rw [← h]; simp only [index4, List.append_assoc]⟩
          rcases List.mem_append.mp he with he | he
          · obtain ⟨txID, txNum, hk⟩ := txIDEntries_keys h3 e he
            exact .inl ⟨txID, txNum, hk⟩
          · exact .inr (h4 e he)
      · simp only [indexBlock, hne, hmd, hfltr, htx, Bool.false_eq_true, if_false, bind,
          Except.bind, pure, Except.pure, Except.ok.injEq] at h
        refine ⟨index4, fun e he => .inr (h4 e he), by rw [← h]; simp only [index4,
          List.append_assoc, List.nil_append]⟩

section Entries

variable {indexItems : List IndexableAttr} {info : BlockIdxInfo}
  {entries : List (IndexKey × IndexValue)}

/-- The index after a block's entries holds its location under its number, when numbers are
    maintained, and under other numbers what it held. -/
theorem writeBatch_indexBlock_blockNum (hitems : indexItems ≠ [])
    (h : indexBlock indexItems info = .ok entries) (index : IndexKey → Option IndexValue)
    (n : UInt64) :
    writeBatch index entries (.blockNum n) =
      if .blockNum ∈ indexItems ∧ n = info.blockNum then some (.loc info.flp)
      else index (.blockNum n) := by
  obtain ⟨-, txEntries, htx, rfl⟩ := indexBlock_eq_ok hitems h
  -- the only entry under a number is the block's own
  have hkey : ∀ e ∈ (if .blockHash ∈ indexItems then [(.blockHash info.blockHash, .loc info.flp)]
        else []) ++
      (if .blockNum ∈ indexItems then [(IndexKey.blockNum info.blockNum, IndexValue.loc info.flp)]
        else []) ++ txEntries ++ [(.indexSavePoint, .blockNum info.blockNum)],
      e.1 = .blockNum n → n = info.blockNum ∧ e.2 = .loc info.flp := by
    intro e he hk
    simp only [List.mem_append, List.mem_singleton] at he
    rcases he with ((he | he) | he) | rfl
    · split at he <;> simp_all
    · split at he <;> simp_all
    · rcases htx e he with ⟨_, _, h'⟩ | ⟨_, h'⟩ <;> rw [h'] at hk <;> cases hk
    · cases hk
  by_cases hn : IndexableAttr.blockNum ∈ indexItems ∧ n = info.blockNum
  · rw [if_pos hn]
    obtain ⟨hmem, rfl⟩ := hn
    exact writeBatch_of_mem (by simp [hmem]) fun e he hk => (hkey e he hk).2
  · rw [if_neg hn]
    refine writeBatch_of_not_mem fun e he hk => hn ?_
    obtain ⟨rfl, -⟩ := hkey e he hk
    -- an entry under the block's number is there only if numbers are maintained
    simp only [List.mem_append, List.mem_singleton] at he
    rcases he with ((he | he) | he) | rfl
    · split at he <;> simp_all
    · split at he
      · exact ⟨‹_›, rfl⟩
      · cases he
    · rcases htx e he with ⟨_, _, h'⟩ | ⟨_, h'⟩ <;> rw [h'] at hk <;> cases hk
    · cases hk

/-- The index after a block's entries holds its location under its hash, when hashes are
    maintained, and under other hashes what it held. -/
theorem writeBatch_indexBlock_blockHash (hitems : indexItems ≠ [])
    (h : indexBlock indexItems info = .ok entries) (index : IndexKey → Option IndexValue)
    (hash : Bytes) :
    writeBatch index entries (.blockHash hash) =
      if .blockHash ∈ indexItems ∧ hash = info.blockHash then some (.loc info.flp)
      else index (.blockHash hash) := by
  obtain ⟨-, txEntries, htx, rfl⟩ := indexBlock_eq_ok hitems h
  have hkey : ∀ e ∈ (if .blockHash ∈ indexItems then
        [(IndexKey.blockHash info.blockHash, IndexValue.loc info.flp)] else []) ++
      (if .blockNum ∈ indexItems then [(.blockNum info.blockNum, .loc info.flp)]
        else []) ++ txEntries ++ [(.indexSavePoint, .blockNum info.blockNum)],
      e.1 = .blockHash hash → (.blockHash ∈ indexItems ∧ hash = info.blockHash) ∧
        e.2 = .loc info.flp := by
    intro e he hk
    simp only [List.mem_append, List.mem_singleton] at he
    rcases he with ((he | he) | he) | rfl
    · split at he
      · next hmem =>
        obtain rfl := List.mem_singleton.mp he
        cases hk
        exact ⟨⟨hmem, rfl⟩, rfl⟩
      · cases he
    · split at he <;> simp_all
    · rcases htx e he with ⟨_, _, h'⟩ | ⟨_, h'⟩ <;> rw [h'] at hk <;> cases hk
    · cases hk
  by_cases hn : IndexableAttr.blockHash ∈ indexItems ∧ hash = info.blockHash
  · rw [if_pos hn]
    obtain ⟨hmem, rfl⟩ := hn
    exact writeBatch_of_mem (by simp [hmem]) fun e he hk => (hkey e he hk).2
  · rw [if_neg hn]
    exact writeBatch_of_not_mem fun e he hk => hn (hkey e he hk).1

end Entries

/-! ## The store a run of `addBlock` builds -/

/-- `newBlockfileMgr` over an empty directory: an empty block file `0` and an empty index. -/
def BlockfileMgr.empty : BlockfileMgr := ⟨fun _ => [], 0, 0, 0, [], fun _ => none⟩

/-- Where a block lies in the block files: its file, the offset of its record, and its bytes. -/
structure Placed where
  fileNum : Nat
  offset : Nat
  blockBytes : Bytes
  deriving DecidableEq, Repr

/-- The location the index holds for a placed block. -/
def Placed.flp (p : Placed) : FileLocPointer := ⟨p.fileNum, ⟨p.offset, 0⟩⟩

/-- Where the record of a placed block ends. -/
def Placed.next (p : Placed) : Nat := p.offset + (blockRecord p.blockBytes).length

/-- The record of `q` follows that of `p`: right after it in its file, or at the start of the
    next file, which `p`'s record ends. -/
def Placed.Precedes (files : Nat → Bytes) (p q : Placed) : Prop :=
  q.fileNum = p.fileNum ∧ q.offset = p.next ∨
    q.fileNum = p.fileNum + 1 ∧ q.offset = 0 ∧ (files p.fileNum).length = p.next

theorem Placed.Precedes.of_files {files files' : Nat → Bytes} {p q : Placed}
    (h : p.Precedes files q) (hf : q.fileNum ≠ p.fileNum → files' p.fileNum = files p.fileNum) :
    p.Precedes files' q := by
  rcases h with h | ⟨hq, h0, hend⟩
  · exact .inl h
  · exact .inr ⟨hq, h0, by rw [hf (by omega), hend]⟩

theorem toUInt64_ne_of_lt {i n : Nat} (hi : i < n) (hn : n < 2 ^ 64) :
    i.toUInt64 ≠ n.toUInt64 := by
  intro h
  have := congrArg UInt64.toNat h
  simp [Nat.toUInt64_eq, UInt64.toNat_ofNat'] at this
  omega

section Stored

variable (getOrComputeTxID : Bytes → String) (blockHeaderHash : BlockHeader → Bytes)
  (indexItems : List IndexableAttr)

/-- What a run of `addBlock` from an empty store leaves: the blocks added, in order, each read
    back whole from its place; the index holds each place under the block's number and, for the
    last block of a hash, under the hash; and each record follows the one before, the last ending
    the latest file. -/
structure Stored (mgr : BlockfileMgr) (blocks : List Block) (placed : List Placed) : Prop where
  consistent : mgr.Consistent
  height_eq : mgr.height.toNat = blocks.length
  decodes : List.Forall₂ (fun b p => p.blockBytes.length < 2 ^ 56 ∧
    deserializeBlock getOrComputeTxID p.blockBytes = .ok b) blocks placed
  record : ∀ p ∈ placed, p.fileNum ≤ mgr.latestFileNumber ∧
    ∃ pre rest, mgr.files p.fileNum = pre ++ blockRecord p.blockBytes ++ rest ∧ pre.length = p.offset
  numIndex : .blockNum ∈ indexItems → ∀ (i : Nat) p, placed[i]? = some p →
    mgr.index (.blockNum i.toUInt64) = some (.loc p.flp)
  hashIndex : .blockHash ∈ indexItems → ∀ (i : Nat) b p header, blocks[i]? = some b →
    placed[i]? = some p → b.header = some header →
    (∀ (j : Nat) b', i < j → blocks[j]? = some b' →
      b'.header.map blockHeaderHash ≠ some (blockHeaderHash header)) →
    mgr.index (.blockHash (blockHeaderHash header)) = some (.loc p.flp)
  chain : ∀ (i : Nat) p q, placed[i]? = some p → placed[i + 1]? = some q →
    p.Precedes mgr.files q
  last : ∀ p, placed.getLast? = some p →
    p.fileNum = mgr.latestFileNumber ∧ mgr.latestFileSize = p.next

theorem stored_empty : Stored getOrComputeTxID blockHeaderHash indexItems BlockfileMgr.empty [] [] where
  consistent := ⟨rfl, fun _ _ => rfl⟩
  height_eq := rfl
  decodes := .nil
  record := by simp
  numIndex := by simp
  hashIndex := by simp
  chain := by simp
  last := by simp

end Stored

section AddBlock

variable {maxBlockfileSize : Nat} {blockHeaderHash : BlockHeader → Bytes}
  {getOrComputeTxID : Bytes → String} {indexItems : List IndexableAttr} {mgr : BlockfileMgr}
  {header : BlockHeader} {blockBytes : Bytes} {entries : List (IndexKey × IndexValue)}

theorem files_appendBlock (blockHash : Bytes) (n : Nat) :
    (mgr.appendBlock maxBlockfileSize blockHash header blockBytes entries).files n =
      if n = (mgr.placement maxBlockfileSize blockBytes).1 then
        mgr.files n ++ blockRecord blockBytes
      else mgr.files n := by
  simp only [BlockfileMgr.appendBlock, Function.update_apply, blockRecord, List.append_assoc]
  split
  · next h => rw [h]
  · rfl

/-- Appending a block leaves every record where it was. -/
theorem record_appendBlock (blockHash : Bytes) {p : Placed}
    (hp : p.fileNum ≤ mgr.latestFileNumber ∧ ∃ pre rest,
      mgr.files p.fileNum = pre ++ blockRecord p.blockBytes ++ rest ∧ pre.length = p.offset) :
    let mgr' := mgr.appendBlock maxBlockfileSize blockHash header blockBytes entries
    p.fileNum ≤ mgr'.latestFileNumber ∧ ∃ pre rest,
      mgr'.files p.fileNum = pre ++ blockRecord p.blockBytes ++ rest ∧ pre.length = p.offset := by
  obtain ⟨hle, pre, rest, hfile, hpre⟩ := hp
  have hlatest : mgr.latestFileNumber ≤ (mgr.placement maxBlockfileSize blockBytes).1 := by
    unfold BlockfileMgr.placement
    split <;> simp
  refine ⟨by simp only [appendBlock_latestFileNumber]; omega, ?_⟩
  rw [files_appendBlock]
  split
  · exact ⟨pre, rest ++ blockRecord blockBytes, by rw [hfile]; simp, hpre⟩
  · exact ⟨pre, rest, hfile, hpre⟩

end AddBlock

section StoredStep

variable {maxBlockfileSize : Nat} {blockHeaderHash : BlockHeader → Bytes}
  {getOrComputeTxID : Bytes → String} {indexItems : List IndexableAttr} {mgr mgr' : BlockfileMgr}
  {blocks : List Block} {placed : List Placed} {block : Block} {header : BlockHeader}
  {blockBytes : Bytes} {txOffsets : List TxIndexInfo} {entries : List (IndexKey × IndexValue)}

/-- Where `addBlock` places a block's bytes. -/
def placedAt (maxBlockfileSize : Nat) (mgr : BlockfileMgr) (blockBytes : Bytes) : Placed :=
  ⟨(mgr.placement maxBlockfileSize blockBytes).1, (mgr.placement maxBlockfileSize blockBytes).2,
    blockBytes⟩

/-- The place of the block `addBlock` appends follows the place of the last block. -/
theorem Stored.precedes_placedAt
    (hs : Stored getOrComputeTxID blockHeaderHash indexItems mgr blocks placed) {q : Placed}
    (hq : placed.getLast? = some q) (blockHash : Bytes) :
    q.Precedes (mgr.appendBlock maxBlockfileSize blockHash header blockBytes entries).files
      (placedAt maxBlockfileSize mgr blockBytes) := by
  obtain ⟨hqf, hqsize⟩ := hs.last q hq
  by_cases hfit : mgr.latestFileSize + (blockBytes.length + (appendVarint blockBytes.length).length) >
      maxBlockfileSize
  · -- the block opens the next file; the latest one ends with `q`'s record
    have hpl : mgr.placement maxBlockfileSize blockBytes = (mgr.latestFileNumber + 1, 0) :=
      if_pos hfit
    refine .inr ⟨by simp [placedAt, hpl, hqf], by simp [placedAt, hpl], ?_⟩
    rw [files_appendBlock, hpl]
    simp only [hqf, Nat.left_eq_add, one_ne_zero, if_false]
    rw [← hs.consistent.latestFileSize_eq, hqsize]
  · have hpl : mgr.placement maxBlockfileSize blockBytes =
        (mgr.latestFileNumber, mgr.latestFileSize) := if_neg hfit
    exact .inl ⟨by simp [placedAt, hpl, hqf], by simp [placedAt, hpl, hqsize]⟩

/-- `addBlock`'s append keeps `Stored`, with the block at its place. -/
theorem Stored.appendBlock
    (hs : Stored getOrComputeTxID blockHeaderHash indexItems mgr blocks placed)
    (hitems : indexItems ≠ []) (hlen : blocks.length + 1 < 2 ^ 64)
    (hsize : blockBytes.length < 2 ^ 56) (hh : block.header = some header)
    (hnum : header.number = mgr.height)
    (hdecode : deserializeBlock getOrComputeTxID blockBytes = .ok block)
    (hidx : indexBlock indexItems (mgr.addedIdxInfo maxBlockfileSize (blockHeaderHash header) header
      blockBytes txOffsets block.metadata) = .ok entries) :
    Stored getOrComputeTxID blockHeaderHash indexItems
      (mgr.appendBlock maxBlockfileSize (blockHeaderHash header) header blockBytes entries)
      (blocks ++ [block]) (placed ++ [placedAt maxBlockfileSize mgr blockBytes]) := by
  have hlenp : placed.length = blocks.length := hs.decodes.length_eq.symm
  have hnum' : header.number = blocks.length.toUInt64 := by
    rw [hnum, ← hs.height_eq]
    simp
  obtain ⟨hplace, hlatest⟩ := hs.consistent.placement maxBlockfileSize blockBytes
  -- the index after the block's entries, by number and by hash
  have hnumIdx := writeBatch_indexBlock_blockNum hitems hidx mgr.index
  have hhashIdx := writeBatch_indexBlock_blockHash hitems hidx mgr.index
  constructor
  · exact hs.consistent.appendBlock _ entries
  · have hn : header.number.toNat = blocks.length := by rw [hnum]; exact hs.height_eq
    simp only [BlockfileMgr.appendBlock, UInt64.toNat_add, hn, List.length_append,
      List.length_singleton]
    simp
    omega
  · exact List.rel_append hs.decodes (.cons ⟨hsize, hdecode⟩ .nil)
  · intro q hq
    rcases List.mem_append.mp hq with hq | hq
    · exact record_appendBlock _ (hs.record q hq)
    · obtain rfl := List.mem_singleton.mp hq
      refine ⟨le_refl _, mgr.files (mgr.placement maxBlockfileSize blockBytes).1, [], ?_, hplace⟩
      simp only [files_appendBlock, placedAt, if_true, List.append_nil]
  · intro hmem i q hq
    rw [appendBlock_index, hnumIdx]
    by_cases hi : i < placed.length
    · -- an earlier block: its number is not the new one
      rw [List.getElem?_append_left hi] at hq
      rw [if_neg (fun hc => toUInt64_ne_of_lt (hlenp ▸ hi) (by omega) (hc.2.trans hnum'))]
      exact hs.numIndex hmem i q hq
    · have hi' : i = placed.length := by
        have := (List.getElem?_eq_some_iff.mp hq).1
        simp only [List.length_append, List.length_singleton] at this
        omega
      subst hi'
      rw [List.getElem?_append_right (le_refl _), Nat.sub_self, List.getElem?_cons_zero,
        Option.some.injEq] at hq
      subst hq
      rw [if_pos ⟨hmem, show _ = header.number by rw [hnum', hlenp]⟩]
      rfl
  · intro hmem i b q hdr hb hq hhdr hlater
    rw [appendBlock_index, hhashIdx]
    by_cases hi : i < placed.length
    · -- an earlier block: the new block comes later, with another hash
      rw [List.getElem?_append_left hi] at hq
      rw [List.getElem?_append_left (hlenp ▸ hi)] at hb
      have hne : blockHeaderHash hdr ≠ blockHeaderHash header := by
        intro hc
        refine hlater blocks.length block (hlenp ▸ hi) (by simp) ?_
        rw [hh, hc]
        rfl
      rw [if_neg (fun hc => hne hc.2)]
      refine hs.hashIndex hmem i b q hdr hb hq hhdr fun j b' hij hb' => ?_
      exact hlater j b' hij (List.getElem?_append_left
        (List.getElem?_eq_some_iff.mp hb').1 ▸ hb')
    · have hi' : i = placed.length := by
        have := (List.getElem?_eq_some_iff.mp hq).1
        simp only [List.length_append, List.length_singleton] at this
        omega
      subst hi'
      rw [List.getElem?_append_right (le_refl _), Nat.sub_self, List.getElem?_cons_zero,
        Option.some.injEq] at hq
      rw [hlenp, List.getElem?_append_right (le_refl _), Nat.sub_self, List.getElem?_cons_zero,
        Option.some.injEq] at hb
      subst hq hb
      rw [hh, Option.some.injEq] at hhdr
      subst hhdr
      rw [if_pos ⟨hmem, rfl⟩]
      rfl
  · intro i q q' hq hq'
    by_cases hi : i + 1 < placed.length
    · -- two earlier records: neither file that ends one of them is written
      rw [List.getElem?_append_left (by omega)] at hq
      rw [List.getElem?_append_left hi] at hq'
      have hq'f := (hs.record q' (List.mem_of_getElem? hq')).1
      refine (hs.chain i q q' hq hq').of_files fun hne => ?_
      rw [files_appendBlock, if_neg]
      rcases hs.chain i q q' hq hq' with h | ⟨h, -⟩
      · exact absurd h.1 hne
      · omega
    · -- the last earlier record and the new one
      have hi' : i + 1 = placed.length := by
        have := (List.getElem?_eq_some_iff.mp hq').1
        simp only [List.length_append, List.length_singleton] at this
        omega
      rw [List.getElem?_append_left (by omega)] at hq
      rw [hi', List.getElem?_append_right (le_refl _), Nat.sub_self, List.getElem?_cons_zero,
        Option.some.injEq] at hq'
      subst hq'
      have hlast : placed.getLast? = some q := by
        rw [List.getLast?_eq_getElem?, ← hi', Nat.add_sub_cancel]
        exact hq
      exact hs.precedes_placedAt hlast _
  · intro q hq
    rw [List.getLast?_append, List.getLast?_singleton, Option.some_or, Option.some.injEq] at hq
    subst hq
    refine ⟨rfl, ?_⟩
    simp only [appendBlock_latestFileSize, Placed.next, placedAt, blockRecord, List.length_append]
    omega

end StoredStep

section Run

variable {maxBlockfileSize : Nat} {blockHeaderHash : BlockHeader → Bytes}
  {getOrComputeTxID : Bytes → String} {indexItems : List IndexableAttr}

/-- `addBlock` keeps `Stored`, at the place it gives the block. -/
theorem Stored.addBlock {mgr mgr' : BlockfileMgr} {blocks : List Block} {placed : List Placed}
    {block : Block} (hs : Stored getOrComputeTxID blockHeaderHash indexItems mgr blocks placed)
    (hitems : indexItems ≠ []) (hlen : blocks.length + 1 < 2 ^ 64)
    (hsmall : ∀ bytes info, serializeBlock getOrComputeTxID block = some (bytes, info) →
      bytes.length < 2 ^ 56)
    (h : addBlock maxBlockfileSize blockHeaderHash getOrComputeTxID indexItems mgr block = .ok mgr') :
    ∃ p, Stored getOrComputeTxID blockHeaderHash indexItems mgr' (blocks ++ [block])
      (placed ++ [p]) := by
  obtain ⟨header, blockBytes, info, entries, hh, hnum, -, hser, hidx, rfl⟩ := addBlock_eq_ok h
  have hsize := hsmall _ _ hser
  -- `indexBlock` read the block's metadata, so the block reads back whole
  obtain ⟨⟨md, hmd⟩, -⟩ := indexBlock_eq_ok hitems hidx
  have hdecode : deserializeBlock getOrComputeTxID blockBytes = .ok block := by
    have hmd' : block.metadata = some md := hmd
    rw [deserializeBlock_serializeBlock hser (by omega)]
    obtain ⟨hdr, data, metadata⟩ := block
    cases hmd'
    rfl
  exact ⟨_, hs.appendBlock hitems hlen hsize hh hnum hdecode hidx⟩

theorem forall₂_getElem? {α β : Type} {R : α → β → Prop} :
    ∀ {l₁ : List α} {l₂ : List β}, List.Forall₂ R l₁ l₂ → ∀ {i : Nat} {a : α} {b : β},
      l₁[i]? = some a → l₂[i]? = some b → R a b
  | _, _, .nil, _, _, _, ha, _ => by simp at ha
  | _, _, .cons hab _, 0, _, _, ha, hb => by
    cases ha
    cases hb
    exact hab
  | _, _, .cons _ hrest, i + 1, _, _, ha, hb => forall₂_getElem? hrest ha hb

/-- A stored block is read back from its place. -/
theorem Stored.fetchBlock_eq {mgr : BlockfileMgr} {blocks : List Block} {placed : List Placed}
    (hs : Stored getOrComputeTxID blockHeaderHash indexItems mgr blocks placed) {i : Nat} {b : Block}
    {p : Placed} (hb : blocks[i]? = some b) (hp : placed[i]? = some p) :
    fetchBlock getOrComputeTxID mgr p.flp = .ok b := by
  obtain ⟨hsize, hdec⟩ := forall₂_getElem? hs.decodes hb hp
  obtain ⟨hle, pre, rest, hfile, hpre⟩ := hs.record p (List.mem_of_getElem? hp)
  have hnext := next_of_record p.fileNum pre p.blockBytes rest hsize
  rw [← hfile, hpre] at hnext
  simp only [fetchBlock, fetchBlockBytes, newBlockfileStream, Placed.flp, hle, if_true, hnext,
    bind, Except.bind, pure, Except.pure, hdec, Except.mapError]

end Run

/-! ## Reading the blocks of a run back -/

section RetrieveSpec

variable {maxBlockfileSize : Nat} {blockHeaderHash : BlockHeader → Bytes}
  {getOrComputeTxID : Bytes → String} {indexItems : List IndexableAttr} {mgr : BlockfileMgr}
  {blocks : List Block} {placed : List Placed}

theorem Stored.exists_placed (hs : Stored getOrComputeTxID blockHeaderHash indexItems mgr blocks placed)
    {i : Nat} {b : Block} (hb : blocks[i]? = some b) : ∃ p, placed[i]? = some p := by
  have hi := (List.getElem?_eq_some_iff.mp hb).1
  rw [hs.decodes.length_eq] at hi
  exact ⟨_, List.getElem?_eq_getElem hi⟩

/-- A stored block is read back by its number. -/
theorem Stored.retrieveBlockByNumber_eq
    (hs : Stored getOrComputeTxID blockHeaderHash indexItems mgr blocks placed)
    (hnum : .blockNum ∈ indexItems) {i : Nat} {b : Block} (hb : blocks[i]? = some b) :
    retrieveBlockByNumber getOrComputeTxID indexItems 0 mgr i.toUInt64 = .ok b := by
  obtain ⟨p, hp⟩ := hs.exists_placed hb
  -- a number below the height is not `math.MaxUint64`
  have hmax : i.toUInt64 ≠ UInt64.ofNat (2 ^ 64 - 1) := by
    have hi := (List.getElem?_eq_some_iff.mp hb).1
    have := mgr.height.toNat_lt
    rw [hs.height_eq] at this
    intro hc
    have := congrArg UInt64.toNat hc
    simp [Nat.toUInt64_eq, UInt64.toNat_ofNat'] at this
    omega
  simp only [retrieveBlockByNumber, getBlockLocByBlockNum, getLoc, hmax, hnum,
    hs.numIndex hnum i p hp, hs.fetchBlock_eq hb hp, if_false, not_true_eq_false, bind,
    Except.bind, UInt64.not_lt_zero, Except.mapError]

/-- `math.MaxUint64` reads the last stored block. -/
theorem Stored.retrieveBlockByNumber_max
    (hs : Stored getOrComputeTxID blockHeaderHash indexItems mgr blocks placed)
    (hnum : .blockNum ∈ indexItems) {b : Block} (hb : blocks.getLast? = some b) :
    retrieveBlockByNumber getOrComputeTxID indexItems 0 mgr (UInt64.ofNat (2 ^ 64 - 1)) = .ok b := by
  have hpos : 0 < blocks.length := List.length_pos_iff.mpr (by rintro rfl; cases hb)
  -- the height less one is the number of the last block
  have hlast : mgr.height - 1 = (blocks.length - 1).toUInt64 := by
    have hh := hs.height_eq
    have hlt := mgr.height.toNat_lt
    apply UInt64.toNat_inj.mp
    rw [UInt64.toNat_sub_of_le _ _ (by simp [UInt64.le_iff_toNat_le]; omega)]
    simp
    omega
  have hb' : blocks[blocks.length - 1]? = some b := by rwa [← List.getLast?_eq_getElem?]
  have := hs.retrieveBlockByNumber_eq hnum hb'
  rw [← hlast] at this
  simpa [retrieveBlockByNumber] using this

/-- A stored block is read back by its hash when no later block has the same. -/
theorem Stored.retrieveBlockByHash_eq
    (hs : Stored getOrComputeTxID blockHeaderHash indexItems mgr blocks placed)
    (hhash : .blockHash ∈ indexItems) {i : Nat} {b : Block} {header : BlockHeader}
    (hb : blocks[i]? = some b) (hh : b.header = some header)
    (hlater : ∀ (j : Nat) b', i < j → blocks[j]? = some b' →
      b'.header.map blockHeaderHash ≠ some (blockHeaderHash header)) :
    retrieveBlockByHash getOrComputeTxID indexItems mgr (blockHeaderHash header) = .ok b := by
  obtain ⟨p, hp⟩ := hs.exists_placed hb
  simp only [retrieveBlockByHash, getBlockLocByHash, getLoc, hhash,
    hs.hashIndex hhash i b p header hb hp hh hlater, hs.fetchBlock_eq hb hp, not_true_eq_false,
    if_false, bind, Except.bind, Except.mapError]

end RetrieveSpec

/-! ## The blocks iterator over a stored run -/

section Iterator

variable {maxBlockfileSize : Nat} {blockHeaderHash : BlockHeader → Bytes}
  {getOrComputeTxID : Bytes → String} {indexItems : List IndexableAttr} {mgr : BlockfileMgr}
  {blocks : List Block} {placed : List Placed}

theorem blockStreamNext_of_record {fileNum : Nat} {pre b rest : Bytes}
    (hfile : mgr.files fileNum = pre ++ blockRecord b ++ rest) (hsize : b.length < 2 ^ 56) :
    blockStreamNext mgr fileNum pre.length = .ok (b, fileNum, (pre ++ blockRecord b).length) := by
  have h := next_of_record fileNum pre b rest hsize
  rw [← hfile] at h
  rw [blockStreamNext, h]

/-- At the end of a file the stream goes on from the start of the next. -/
theorem blockStreamNext_of_end {fileNum : Nat} (hnext : fileNum + 1 ≤ mgr.latestFileNumber) :
    blockStreamNext mgr fileNum (mgr.files fileNum).length = blockStreamNext mgr (fileNum + 1) 0 := by
  rw [blockStreamNext, next_of_end]
  simp [hnext]

theorem Stored.small (hs : Stored getOrComputeTxID blockHeaderHash indexItems mgr blocks placed)
    {p : Placed} (hp : p ∈ placed) : p.blockBytes.length < 2 ^ 56 := by
  obtain ⟨i, hi, rfl⟩ := List.getElem_of_mem hp
  have hi' : i < blocks.length := hs.decodes.length_eq ▸ hi
  exact (forall₂_getElem? hs.decodes (List.getElem?_eq_getElem hi') (List.getElem?_eq_getElem hi)).1

/-- A stream at a stored block's record reads it and goes on from its end. -/
theorem Stored.blockStreamNext_at
    (hs : Stored getOrComputeTxID blockHeaderHash indexItems mgr blocks placed) {p : Placed}
    (hp : p ∈ placed) :
    blockStreamNext mgr p.fileNum p.offset = .ok (p.blockBytes, p.fileNum, p.next) := by
  obtain ⟨-, pre, rest, hfile, hpre⟩ := hs.record p hp
  rw [← hpre, blockStreamNext_of_record hfile (hs.small hp)]
  simp [Placed.next, hpre]

/-- A stream at the end of a stored block's record reads the next block, in the same file or at
    the start of the next one. -/
theorem Stored.blockStreamNext_after
    (hs : Stored getOrComputeTxID blockHeaderHash indexItems mgr blocks placed) {i : Nat}
    {p q : Placed} (hp : placed[i]? = some p) (hq : placed[i + 1]? = some q) :
    blockStreamNext mgr p.fileNum p.next = .ok (q.blockBytes, q.fileNum, q.next) := by
  have hq' := List.mem_of_getElem? hq
  rcases hs.chain i p q hp hq with ⟨hf, ho⟩ | ⟨hf, ho, hend⟩
  · rw [← hf, ← ho]
    exact hs.blockStreamNext_at hq'
  · -- the stream reaches the end of `p`'s file and opens the next, where `q` starts
    have hle := (hs.record q hq').1
    rw [← hend, blockStreamNext_of_end (by omega), ← hf, ← ho]
    exact hs.blockStreamNext_at hq'

/-- The last persisted block is the last stored one, or `0` on an empty store. -/
theorem Stored.lastPersistedBlock_toNat
    (hs : Stored getOrComputeTxID blockHeaderHash indexItems mgr blocks placed) :
    mgr.lastPersistedBlock.toNat = blocks.length - 1 := by
  have hh := hs.height_eq
  by_cases h0 : mgr.height = 0
  · rw [h0] at hh
    simp [BlockfileMgr.lastPersistedBlock, h0, ← hh]
  · have hpos : mgr.height.toNat ≠ 0 := fun h => h0 (UInt64.toNat_inj.mp (by simpa using h))
    simp only [BlockfileMgr.lastPersistedBlock, h0, if_false]
    rw [UInt64.toNat_sub_of_le _ _ (by simp [UInt64.le_iff_toNat_le]; omega)]
    simp [hh]

theorem toNat_add_one_of_lt {x : UInt64} {n : Nat} (hx : x.toNat < n) (hn : n < 2 ^ 64) :
    (x + 1).toNat = x.toNat + 1 := by
  rw [UInt64.toNat_add, UInt64.toNat_one]
  exact Nat.mod_eq_of_lt (by omega)

/-- What an iterator over the stored `blocks` keeps: it never takes more to be persisted than is,
    and its stream, when it has one, stands where the record of the block before the one it is to
    return ends. -/
structure ItrInv (blocks : List Block) (placed : List Placed) (itr : BlocksItr) : Prop where
  maxAvailable_le : itr.maxBlockNumAvailable.toNat ≤ blocks.length - 1
  stream : ∀ pos, itr.stream = some pos → ∃ (n : Nat) (p : Placed),
    itr.blockNumToRetrieve.toNat = n + 1 ∧ placed[n]? = some p ∧ pos = (p.fileNum, p.next)

/-- More blocks stored keep an iterator's invariant. -/
theorem ItrInv.append {itr : BlocksItr} (hinv : ItrInv blocks placed itr) (more : List Block)
    (placedMore : List Placed) : ItrInv (blocks ++ more) (placed ++ placedMore) itr := by
  refine ⟨by simp only [List.length_append]; have := hinv.maxAvailable_le; omega, ?_⟩
  intro pos hpos
  obtain ⟨n, p, hn, hp, rfl⟩ := hinv.stream pos hpos
  exact ⟨n, p, hn, by rw [List.getElem?_append_left (List.getElem?_eq_some_iff.mp hp).1]; exact hp,
    rfl⟩

/-- `newBlockItr` makes an iterator with the invariant. -/
theorem Stored.itrInv_newBlockItr
    (hs : Stored getOrComputeTxID blockHeaderHash indexItems mgr blocks placed)
    (startBlockNum : UInt64) : ItrInv blocks placed (newBlockItr mgr startBlockNum) :=
  ⟨hs.lastPersistedBlock_toNat.le, fun _ h => by cases h⟩

/-- `retrieve` of a stored block returns it, from the cache or from the stream, with the stream
    left at the end of its record or closed. -/
theorem Stored.retrieve_eq
    (hs : Stored getOrComputeTxID blockHeaderHash indexItems mgr blocks placed)
    (hnum : .blockNum ∈ indexItems) {cacheGet : UInt64 → Option Block}
    (hcache : ∀ n b, cacheGet n = some b → blocks[n.toNat]? = some b) (itr : BlocksItr)
    (hstream : ∀ pos, itr.stream = some pos → ∃ (n : Nat) (p : Placed),
      itr.blockNumToRetrieve.toNat = n + 1 ∧ placed[n]? = some p ∧ pos = (p.fileNum, p.next))
    {b : Block} (hb : blocks[itr.blockNumToRetrieve.toNat]? = some b) :
    ∃ stream, itr.retrieve getOrComputeTxID indexItems mgr cacheGet =
        .ok (b, { itr with blockNumToRetrieve := itr.blockNumToRetrieve + 1, stream }) ∧
      ∀ pos, stream = some pos → ∃ p, placed[itr.blockNumToRetrieve.toNat]? = some p ∧
        pos = (p.fileNum, p.next) := by
  obtain ⟨p, hp⟩ := hs.exists_placed hb
  have hdec := (forall₂_getElem? hs.decodes hb hp).2
  cases hc : cacheGet itr.blockNumToRetrieve with
  | some cached =>
    -- the cache holds the stored block
    have hcb := hcache _ _ hc
    rw [hb, Option.some.injEq] at hcb
    subst hcb
    exact ⟨none, by simp [BlocksItr.retrieve, hc], by simp⟩
  | none =>
    -- the stream stands at the block's record, or at the end of the one before
    have hread : ∃ pos, itr.openStream indexItems mgr = .ok pos ∧
        blockStreamNext mgr pos.1 pos.2 = .ok (p.blockBytes, p.fileNum, p.next) := by
      cases hst : itr.stream with
      | some pos =>
        obtain ⟨n, q, hn, hq, rfl⟩ := hstream pos hst
        rw [hn] at hp
        exact ⟨(q.fileNum, q.next), by simp [BlocksItr.openStream, hst, pure, Except.pure],
          hs.blockStreamNext_after hq hp⟩
      | none =>
        refine ⟨(p.fileNum, p.offset), ?_, hs.blockStreamNext_at (List.mem_of_getElem? hp)⟩
        have hidx := hs.numIndex hnum _ p hp
        simp only [Nat.toUInt64_eq, UInt64.ofNat_toNat] at hidx
        simp [BlocksItr.openStream, hst, BlocksItr.initStream, getBlockLocByBlockNum, getLoc, hnum, hidx, Placed.flp,
          newBlockfileStream, (hs.record p (List.mem_of_getElem? hp)).1, bind, Except.bind,
          Except.mapError, pure, Except.pure]
    obtain ⟨pos, hpos, hnext⟩ := hread
    refine ⟨some (p.fileNum, p.next), ?_, fun pos' hpos' => ⟨p, hp, (Option.some.inj hpos').symm⟩⟩
    simp only [BlocksItr.retrieve, hc, hpos, hnext, hdec, bind, Except.bind, Except.mapError,
      pure, Except.pure]

/-- `Next` on an iterator whose block is stored returns it, waiting for nothing, and leaves the
    iterator at the block after it with its invariant. -/
theorem Stored.next_of_lt
    (hs : Stored getOrComputeTxID blockHeaderHash indexItems mgr blocks placed)
    (hnum : .blockNum ∈ indexItems) {cacheGet : UInt64 → Option Block}
    (hcache : ∀ n b, cacheGet n = some b → blocks[n.toNat]? = some b) {itr : BlocksItr}
    (hinv : ItrInv blocks placed itr) {b : Block}
    (hb : blocks[itr.blockNumToRetrieve.toNat]? = some b) :
    ∃ itr', itr.next getOrComputeTxID indexItems mgr cacheGet = some (.ok (b, itr')) ∧
      ItrInv blocks placed itr' ∧
      itr'.blockNumToRetrieve.toNat = itr.blockNumToRetrieve.toNat + 1 := by
  have hlt := (List.getElem?_eq_some_iff.mp hb).1
  have hlast := hs.lastPersistedBlock_toNat
  have hlen : blocks.length < 2 ^ 64 := hs.height_eq ▸ mgr.height.toNat_lt
  -- the block is persisted, so a wait, if the iterator needs one, ends at once
  obtain ⟨max', hnext, hmax'⟩ : ∃ max', itr.next getOrComputeTxID indexItems mgr cacheGet =
      some (BlocksItr.retrieve getOrComputeTxID indexItems mgr cacheGet
        { itr with maxBlockNumAvailable := max' }) ∧ max'.toNat ≤ blocks.length - 1 := by
    by_cases hw : itr.maxBlockNumAvailable < itr.blockNumToRetrieve
    · have hpersisted : ¬ mgr.lastPersistedBlock < itr.blockNumToRetrieve := by
        rw [UInt64.lt_iff_toNat_lt]
        omega
      exact ⟨mgr.lastPersistedBlock, by simp [BlocksItr.next, hw, waitForBlock, hpersisted],
        hlast.le⟩
    · exact ⟨itr.maxBlockNumAvailable, by simp [BlocksItr.next, hw], hinv.maxAvailable_le⟩
  obtain ⟨stream, hret, hstream⟩ :=
    hs.retrieve_eq hnum hcache { itr with maxBlockNumAvailable := max' } hinv.stream hb
  have hsucc := toNat_add_one_of_lt hlt hlen
  refine ⟨_, by rw [hnext, hret], ⟨hmax', fun pos hpos => ?_⟩, hsucc⟩
  obtain ⟨p, hp, rfl⟩ := hstream pos hpos
  exact ⟨_, p, hsucc, hp, rfl⟩

/-- `Next` on an iterator whose block is not stored waits, unless the store is empty and the
    iterator is at block `0`. -/
theorem Stored.next_of_le
    (hs : Stored getOrComputeTxID blockHeaderHash indexItems mgr blocks placed)
    {cacheGet : UInt64 → Option Block} {itr : BlocksItr} (hinv : ItrInv blocks placed itr)
    (hle : blocks.length ≤ itr.blockNumToRetrieve.toNat)
    (hne : blocks ≠ [] ∨ itr.blockNumToRetrieve ≠ 0) :
    itr.next getOrComputeTxID indexItems mgr cacheGet = none := by
  have hlast := hs.lastPersistedBlock_toNat
  have hmax := hinv.maxAvailable_le
  -- the iterator knows of no block past the last persisted one, which is before its own
  have hpos : 0 < itr.blockNumToRetrieve.toNat := by
    rcases hne with hne | hne
    · have := List.length_pos_iff.mpr hne
      omega
    · exact Nat.pos_of_ne_zero fun h => hne (UInt64.toNat_inj.mp (by simpa using h))
  have hw : itr.maxBlockNumAvailable < itr.blockNumToRetrieve := by
    rw [UInt64.lt_iff_toNat_lt]
    omega
  have hwait : mgr.lastPersistedBlock < itr.blockNumToRetrieve := by
    rw [UInt64.lt_iff_toNat_lt]
    omega
  simp [BlocksItr.next, hw, waitForBlock, hwait]

end Iterator

end Fabric.BlkStorage
