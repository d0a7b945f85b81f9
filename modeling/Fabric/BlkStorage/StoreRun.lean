import Fabric.BlkStorage.BlockStore
import Fabric.BlkStorage.Cache
import Fabric.Lib.FoldM
import Mathlib

/-
  The block store over whole runs (`blockfile_mgr.go`, `blocks_itr.go`, `cache.go`): the
  writer's `addBlock` calls interleaved with the readers' `newBlockItr` and `Next` calls.

  `addBlock` writes the block files and the index, and its deferred `cache.put` hands the block
  to the cache, which may evict older blocks. A block refused for its number or its previous
  hash leaves the store as it was; a nil dereference, a panic of `indexBlock` or a failed
  truncation stops the peer. Each `addBlock` event names the write that fails in it, if any
  (`addBlockFailing`): the call then returns its error, after the deferred `cache.put` when it
  got past the append. Each reader holds an iterator from `newBlockItr` and the blocks its `Next`
  calls returned; a call whose block is not persisted waits, which leaves the state as it is.

  The invariant `StoreState.Inv` joins `Stored` for the files and the index; the cache's
  representation invariant, with its newest number one below the height; a cache that holds only
  stored blocks under their numbers; and `ReaderInv` for each reader: what it returned is a
  prefix of the stored blocks from its start number, and its iterator is at the block after
  them. Every step keeps it (`StoreState.Inv.step`).

  Proved over every run from a new store whose blocks serialize to fewer than `2^56` bytes and
  are not numbered `2^64 - 1`, and in which no write fails:
  - every reader has returned the stored blocks from its start number on, in order, none
    skipped or repeated (`blocksItr_run`);
  - `Next` returns the reader's next block once it is persisted, waits while it is not, and
    fails only on the empty store for a reader at block `0`, which is not in the index
    (`blocksItr_next_progress`);
  - a run fails only in a panic of `addBlock` or in that `Next`: the cache's panics are out of
    reach, since `addBlock` hands it the blocks in order (`storeRun_failure`);
  - each stored block is read back by its number and, when no later block has the same header
    hash, by its hash (`retrieveBlock_addBlocks`).
  In every state such a run reaches, a failed append or `saveBlkfilesInfo` whose truncation
  succeeds leaves the files, the index, the height and the readers as they were
  (`addBlock_failed_write_truncated`). A failed `saveBlkfilesInfo` or index `WriteBatch` leaves
  the block's number in the cache, and past the genesis block the next block `addBlock` adds
  then panics the peer in the cache (`addBlock_after_failed_write_panics`).
-/

namespace Fabric.BlkStorage

open Protoutil
open Fabric.Ledger (Bytes)

/-- `defaultBlockCacheSizeBytes`, the size of the cache of every `blockfileMgr`. -/
def defaultBlockCacheSizeBytes : Int64 := 1024 * 1024 * 50

/-- A reader of the store: the number its iterator started at, the iterator, and the blocks its
    `Next` calls returned. -/
structure Reader where
  start : UInt64
  itr : BlocksItr
  returned : List Block

/-- The block store, its cache and its readers, with the blocks `addBlock` stored so far. -/
structure StoreState where
  mgr : BlockfileMgr
  cache : Cache
  readers : List Reader
  added : List Block

/-- A call on the store. -/
inductive StoreEvent
  /-- `addBlock`, with the write that fails in it, if any -/
  | addBlock (block : Block) (failure : Option WriteFailure)
  | newBlockItr (startBlockNum : UInt64)
  /-- `Next` on the iterator of reader `i` -/
  | next (i : Nat)

/-- What stops a run: a panic of `addBlock` or of the cache, or an error of a reader's `Next`. -/
inductive StoreFailure
  | addBlock (e : AddBlockFailure)
  | cache (p : CachePanic)
  | next (i : Nat) (e : ItrError)

/-- The failures of `addBlock` that are panics, not errors it returns before writing. -/
def AddBlockFailure.isPanic : AddBlockFailure → Bool
  | .nilDereference => true
  | .indexPanic _ => true
  | .truncateAfterAppend => true
  | .truncateAfterSave => true
  | _ => false

/-- A new block store: no block files, an empty index, an empty cache and no reader. -/
def StoreState.init : StoreState :=
  { mgr := BlockfileMgr.empty, cache := newCache defaultBlockCacheSizeBytes, readers := [],
    added := [] }

section System

variable (maxBlockfileSize : Nat) (blockHeaderHash : BlockHeader → Bytes)
  (getOrComputeTxID : Bytes → String) (indexItems : List IndexableAttr)

/-- `blockBytesLen`: the length of the bytes `addBlock` writes for the block. -/
def blockBytesLen (block : Block) : Nat :=
  ((serializeBlock getOrComputeTxID block).map fun r => r.1.length).getD 0

/-- One call on the store. -/
def StoreState.step (st : StoreState) : StoreEvent → Except StoreFailure StoreState
  | .addBlock block none =>
    match addBlock maxBlockfileSize blockHeaderHash getOrComputeTxID indexItems st.mgr block with
    -- refused before anything is written
    | .error (.blockNumber _ _) => pure st
    | .error (.previousHash _ _) => pure st
    | .error e => throw (.addBlock e)
    | .ok mgr => do
      -- the deferred `mgr.cache.put(block, blockBytesLen)`
      let cache ← (st.cache.put block (Int64.ofNat (blockBytesLen getOrComputeTxID block))).mapError
        .cache
      pure { st with mgr, cache, added := st.added ++ [block] }
  | .addBlock block (some failure) =>
    match addBlockFailing maxBlockfileSize blockHeaderHash getOrComputeTxID indexItems failure st.mgr
      block with
    | .error (.blockNumber _ _) => pure st
    | .error (.previousHash _ _) => pure st
    | .error e => throw (.addBlock e)
    | .ok (mgr, cachePut) => do
      -- the error returns after the deferred `cache.put`, if the call got that far
      let cache ← if cachePut then
          (st.cache.put block (Int64.ofNat (blockBytesLen getOrComputeTxID block))).mapError .cache
        else pure st.cache
      pure { st with mgr, cache }
  | .newBlockItr startBlockNum =>
    pure { st with
      readers := st.readers ++ [⟨startBlockNum, newBlockItr st.mgr startBlockNum, []⟩] }
  | .next i =>
    match st.readers[i]? with
    | none => pure st
    | some r =>
      match r.itr.next getOrComputeTxID indexItems st.mgr st.cache.get with
      -- the call waits for its block
      | none => pure st
      | some (.error e) => throw (.next i e)
      | some (.ok (block, itr)) =>
        pure { st with readers := st.readers.set i { r with itr, returned := r.returned ++ [block] } }

/-- A run of calls, up to the first that fails. -/
def StoreState.run (st : StoreState) (events : List StoreEvent) : Except StoreFailure StoreState :=
  events.foldlM (StoreState.step maxBlockfileSize blockHeaderHash getOrComputeTxID indexItems) st

end System

/-- The calls the runs are proved over: a block added serializes to fewer than `2^56` bytes,
    the most a record's length prefix reads back, and is not numbered `2^64 - 1`, past which the
    height wraps. -/
def StoreEvent.Fits (getOrComputeTxID : Bytes → String) : StoreEvent → Prop
  | .addBlock block _ =>
    (∀ bytes info, serializeBlock getOrComputeTxID block = some (bytes, info) →
      bytes.length < 2 ^ 56) ∧
    ∀ header, block.header = some header → header.number.toNat + 1 < 2 ^ 64
  | _ => True

/-- The calls in which no write fails. -/
def StoreEvent.WritesSucceed : StoreEvent → Prop
  | .addBlock _ failure => failure = none
  | _ => True

/-! ## What one call does -/

section StepCases

variable {maxBlockfileSize : Nat} {blockHeaderHash : BlockHeader → Bytes}
  {getOrComputeTxID : Bytes → String} {indexItems : List IndexableAttr} {st st' : StoreState}

theorem blockBytesLen_eq {block : Block} {blockBytes : Bytes} {info : SerializedBlockInfo}
    (h : serializeBlock getOrComputeTxID block = some (blockBytes, info)) :
    blockBytesLen getOrComputeTxID block = blockBytes.length := by
  simp [blockBytesLen, h]

/-- A block whose bytes are shorter than `2^56` and whose number is below `2^64 - 1` fits. -/
theorem fits_addBlock {block : Block} (failure : Option WriteFailure)
    (hlen : blockBytesLen getOrComputeTxID block < 2 ^ 56)
    (hnum : ∀ header, block.header = some header → header.number.toNat + 1 < 2 ^ 64) :
    (StoreEvent.addBlock block failure).Fits getOrComputeTxID :=
  ⟨fun _ _ h => by rw [← blockBytesLen_eq h]; exact hlen, hnum⟩

theorem step_addBlock_eq_ok {block : Block}
    (h : st.step maxBlockfileSize blockHeaderHash getOrComputeTxID indexItems (.addBlock block none) =
      .ok st') :
    st' = st ∨ ∃ mgr cache,
      addBlock maxBlockfileSize blockHeaderHash getOrComputeTxID indexItems st.mgr block =
        .ok mgr ∧
      st.cache.put block (Int64.ofNat (blockBytesLen getOrComputeTxID block)) = .ok cache ∧
      st' = { st with mgr, cache, added := st.added ++ [block] } := by
  cases hadd : addBlock maxBlockfileSize blockHeaderHash getOrComputeTxID indexItems st.mgr block with
  | error e =>
    -- only the refusals return, with the state as it was
    cases e <;> simp [StoreState.step, hadd, pure, Except.pure, throw, throwThe] at h
    · exact .inl h.symm
    · exact .inl h.symm
  | ok mgr =>
    simp only [StoreState.step, hadd] at h
    cases hput : st.cache.put block (Int64.ofNat (blockBytesLen getOrComputeTxID block)) with
    | error p => simp [hput, bind, Except.bind, Except.mapError] at h
    | ok cache =>
      simp only [hput, Except.mapError, bind, Except.bind, pure, Except.pure,
        Except.ok.injEq] at h
      exact .inr ⟨mgr, cache, rfl, rfl, h.symm⟩

theorem step_addBlock_of_ok {block : Block} {mgr : BlockfileMgr} {cache : Cache}
    (hadd : addBlock maxBlockfileSize blockHeaderHash getOrComputeTxID indexItems st.mgr block =
      .ok mgr)
    (hput : st.cache.put block (Int64.ofNat (blockBytesLen getOrComputeTxID block)) = .ok cache) :
    st.step maxBlockfileSize blockHeaderHash getOrComputeTxID indexItems (.addBlock block none) =
      .ok { st with mgr, cache, added := st.added ++ [block] } := by
  simp [StoreState.step, hadd, hput, bind, Except.bind, Except.mapError, pure, Except.pure]

/-- A call whose write fails after the deferred `cache.put` was set up leaves the manager the
    failure left and the cache `put` made, and stores nothing. -/
theorem step_addBlockFailing_of_ok {block : Block} {failure : WriteFailure} {mgr : BlockfileMgr}
    {cache : Cache}
    (hfail : addBlockFailing maxBlockfileSize blockHeaderHash getOrComputeTxID indexItems failure
      st.mgr block = .ok (mgr, true))
    (hput : st.cache.put block (Int64.ofNat (blockBytesLen getOrComputeTxID block)) = .ok cache) :
    st.step maxBlockfileSize blockHeaderHash getOrComputeTxID indexItems
        (.addBlock block (some failure)) = .ok { st with mgr, cache } := by
  simp [StoreState.step, hfail, hput, bind, Except.bind, Except.mapError, pure, Except.pure]

/-- A call whose write fails before the deferred `cache.put` is set up leaves the cache as it
    was. -/
theorem step_addBlockFailing_of_ok_false {block : Block} {failure : WriteFailure}
    {mgr : BlockfileMgr}
    (hfail : addBlockFailing maxBlockfileSize blockHeaderHash getOrComputeTxID indexItems failure
      st.mgr block = .ok (mgr, false)) :
    st.step maxBlockfileSize blockHeaderHash getOrComputeTxID indexItems
        (.addBlock block (some failure)) = .ok { st with mgr } := by
  simp [StoreState.step, hfail, pure, Except.pure, bind, Except.bind]

/-- A call with a failing write that returns: refused, it leaves the state as it was; past its
    checks, it leaves the manager `addBlockFailing` returns, and stores nothing. -/
theorem step_addBlockFailing_eq_ok {block : Block} {failure : WriteFailure}
    (h : st.step maxBlockfileSize blockHeaderHash getOrComputeTxID indexItems
      (.addBlock block (some failure)) = .ok st') :
    st' = st ∨ ∃ mgr cachePut, addBlockFailing maxBlockfileSize blockHeaderHash getOrComputeTxID
        indexItems failure st.mgr block = .ok (mgr, cachePut) ∧
      st'.mgr = mgr ∧ st'.readers = st.readers ∧ st'.added = st.added := by
  cases hfail : addBlockFailing maxBlockfileSize blockHeaderHash getOrComputeTxID indexItems
      failure st.mgr block with
  | error e =>
    -- only the refusals return, with the state as it was
    cases e <;> simp [StoreState.step, hfail, pure, Except.pure, throw, throwThe,
      MonadExceptOf.throw] at h
    · exact .inl h.symm
    · exact .inl h.symm
  | ok r =>
    obtain ⟨mgr, cachePut⟩ := r
    simp only [StoreState.step, hfail] at h
    cases cachePut with
    | false =>
      simp only [Bool.false_eq_true, if_false, pure, Except.pure, bind, Except.bind,
        Except.ok.injEq] at h
      subst h
      exact .inr ⟨mgr, false, rfl, rfl, rfl, rfl⟩
    | true =>
      cases hput : st.cache.put block (Int64.ofNat (blockBytesLen getOrComputeTxID block)) with
      | error p => simp [hput, bind, Except.bind, Except.mapError] at h
      | ok cache =>
        simp only [if_true, hput, Except.mapError, bind, Except.bind, pure, Except.pure,
          Except.ok.injEq] at h
        subst h
        exact .inr ⟨mgr, true, rfl, rfl, rfl, rfl⟩

theorem step_addBlock_eq_error {block : Block} {f : StoreFailure}
    (h : st.step maxBlockfileSize blockHeaderHash getOrComputeTxID indexItems (.addBlock block none) =
      .error f) :
    (∃ e, addBlock maxBlockfileSize blockHeaderHash getOrComputeTxID indexItems st.mgr block =
        .error e ∧ e.isPanic ∧ f = .addBlock e) ∨
      ∃ mgr p, addBlock maxBlockfileSize blockHeaderHash getOrComputeTxID indexItems st.mgr block =
        .ok mgr ∧
      st.cache.put block (Int64.ofNat (blockBytesLen getOrComputeTxID block)) = .error p ∧
      f = .cache p := by
  cases hadd : addBlock maxBlockfileSize blockHeaderHash getOrComputeTxID indexItems st.mgr block with
  | error e =>
    -- the refusals return; the other failures are the panics
    cases e <;> simp [StoreState.step, hadd, pure, Except.pure, throw, throwThe,
      MonadExceptOf.throw] at h
    all_goals exact .inl ⟨_, rfl, rfl, h.symm⟩
  | ok mgr =>
    simp only [StoreState.step, hadd] at h
    cases hput : st.cache.put block (Int64.ofNat (blockBytesLen getOrComputeTxID block)) with
    | error p =>
      simp only [hput, Except.mapError, bind, Except.bind, Except.error.injEq] at h
      exact .inr ⟨mgr, p, rfl, rfl, h.symm⟩
    | ok cache => simp [hput, bind, Except.bind, Except.mapError, pure, Except.pure] at h

theorem step_newBlockItr_eq (startBlockNum : UInt64) :
    st.step maxBlockfileSize blockHeaderHash getOrComputeTxID indexItems
        (.newBlockItr startBlockNum) =
      .ok { st with
        readers := st.readers ++ [⟨startBlockNum, newBlockItr st.mgr startBlockNum, []⟩] } :=
  rfl

theorem step_next_eq_ok {i : Nat}
    (h : st.step maxBlockfileSize blockHeaderHash getOrComputeTxID indexItems (.next i) = .ok st') :
    st' = st ∨ ∃ r block itr, st.readers[i]? = some r ∧
      r.itr.next getOrComputeTxID indexItems st.mgr st.cache.get = some (.ok (block, itr)) ∧
      st' = { st with
        readers := st.readers.set i { r with itr, returned := r.returned ++ [block] } } := by
  simp only [StoreState.step] at h
  split at h
  · exact .inl (Except.ok.inj h).symm
  · next r hr =>
    split at h
    · exact .inl (Except.ok.inj h).symm
    · cases h
    · next block itr hnext => exact .inr ⟨r, block, itr, hr, hnext, (Except.ok.inj h).symm⟩

theorem step_next_eq_error {i : Nat} {f : StoreFailure}
    (h : st.step maxBlockfileSize blockHeaderHash getOrComputeTxID indexItems (.next i) =
      .error f) :
    ∃ r e, st.readers[i]? = some r ∧
      r.itr.next getOrComputeTxID indexItems st.mgr st.cache.get = some (.error e) ∧
      f = .next i e := by
  simp only [StoreState.step] at h
  split at h
  · cases h
  · next r hr =>
    split at h
    · cases h
    · next e hnext => exact ⟨r, e, hr, hnext, (Except.error.inj h).symm⟩
    · cases h

end StepCases

/-! ## The invariant -/

/-- What a reader keeps: the blocks it returned are the first of the stored blocks from its start
    number, its iterator is at the block after them, and the iterator keeps its invariant. -/
structure ReaderInv (added : List Block) (placed : List Placed) (r : Reader) : Prop where
  returned_stored : r.returned <+: added.drop r.start.toNat
  blockNumToRetrieve_eq : r.itr.blockNumToRetrieve.toNat = r.start.toNat + r.returned.length
  itr : ItrInv added placed r.itr

/-- What every reachable state keeps: the store holds the blocks added, which the readers read in
    order; the cache has its representation invariant, its newest number is the last block's, and
    it holds only stored blocks under their numbers. -/
structure StoreState.Inv (blockHeaderHash : BlockHeader → Bytes)
    (getOrComputeTxID : Bytes → String) (indexItems : List IndexableAttr) (st : StoreState) :
    Prop where
  stored : ∃ placed, Stored getOrComputeTxID blockHeaderHash indexItems st.mgr st.added placed ∧
    ∀ r ∈ st.readers, ReaderInv st.added placed r
  empty : st.added = [] → st.mgr = BlockfileMgr.empty
  cache : st.cache.Inv
  maxSizeBytes : st.cache.maxSizeBytes = defaultBlockCacheSizeBytes
  maxSeq : st.cache.maxSeq.toNat + 1 = st.added.length ∨
    st.cache.maxSeq = 0 ∧ st.cache.cache.size = 0
  cached : ∀ n cb, st.cache.cache.get? n = some cb → st.added[n.toNat]? = some cb.block

section Invariant

variable {maxBlockfileSize : Nat} {blockHeaderHash : BlockHeader → Bytes}
  {getOrComputeTxID : Bytes → String} {indexItems : List IndexableAttr} {st st' : StoreState}

theorem defaultBlockCacheSizeBytes_toInt : defaultBlockCacheSizeBytes.toInt = 52428800 := by
  decide

theorem StoreState.inv_init :
    StoreState.init.Inv blockHeaderHash getOrComputeTxID indexItems where
  stored := ⟨[], stored_empty getOrComputeTxID blockHeaderHash indexItems, by simp [StoreState.init]⟩
  empty := fun _ => rfl
  cache := inv_newCache (by rw [defaultBlockCacheSizeBytes_toInt]; decide)
  maxSizeBytes := rfl
  maxSeq := .inr ⟨rfl, rfl⟩
  cached := by simp [StoreState.init, newCache, GoMap.empty, GoMap.get?]

/-- The cache of a state with the invariant returns only stored blocks, under their numbers. -/
theorem StoreState.Inv.get (hinv : st.Inv blockHeaderHash getOrComputeTxID indexItems)
    (n : UInt64) (b : Block) (h : st.cache.get n = some b) : st.added[n.toNat]? = some b := by
  simp only [Cache.get, hinv.cache.enabled, Bool.false_eq_true, if_false, Option.map_eq_some_iff]
    at h
  obtain ⟨cb, hcb, rfl⟩ := h
  exact hinv.cached n cb hcb

/-- More blocks stored keep a reader's invariant. -/
theorem ReaderInv.append {added : List Block} {placed : List Placed} {r : Reader}
    (hr : ReaderInv added placed r) (more : List Block) (placedMore : List Placed) :
    ReaderInv (added ++ more) (placed ++ placedMore) r where
  returned_stored := by
    rw [List.drop_append]
    exact hr.returned_stored.trans (List.prefix_append _ _)
  blockNumToRetrieve_eq := hr.blockNumToRetrieve_eq
  itr := hr.itr.append more placedMore

theorem prefix_append_singleton {α : Type} {l m : List α} {a : α} (h : l <+: m)
    (ha : m[l.length]? = some a) : l ++ [a] <+: m := by
  obtain ⟨t, rfl⟩ := h
  rw [List.getElem?_append_right (Nat.le_refl _), Nat.sub_self] at ha
  cases t with
  | nil => cases ha
  | cons b t =>
    cases ha
    exact ⟨t, by simp⟩

/-- `Next` on the empty store, for an iterator at block `0`, misses the cache and the index. -/
theorem next_of_empty (hnum : .blockNum ∈ indexItems) {cacheGet : UInt64 → Option Block}
    (hcache : cacheGet 0 = none) {itr : BlocksItr} (h0 : itr.blockNumToRetrieve = 0)
    (hstream : itr.stream = none) :
    itr.next getOrComputeTxID indexItems BlockfileMgr.empty cacheGet =
      some (.error (.lookup (.noSuchKey (.blockNum 0)))) := by
  -- the empty store reports block `0` as persisted, so the call does not wait
  simp [BlocksItr.next, BlocksItr.retrieve, h0, hcache, BlocksItr.openStream, hstream,
    BlocksItr.initStream, getBlockLocByBlockNum, getLoc, hnum, BlockfileMgr.empty, bind,
    Except.bind, Except.mapError]

/-- On the empty store `Next` fails for a reader at block `0`. -/
theorem StoreState.Inv.next_of_nil (hinv : st.Inv blockHeaderHash getOrComputeTxID indexItems)
    (hnum : .blockNum ∈ indexItems) {placed : List Placed} {r : Reader}
    (hr : ReaderInv st.added placed r) (hnil : st.added = []) (h0 : r.itr.blockNumToRetrieve = 0) :
    r.itr.next getOrComputeTxID indexItems st.mgr st.cache.get =
      some (.error (.lookup (.noSuchKey (.blockNum 0)))) := by
  -- a stream would stand after a block before block `0`
  have hstream : r.itr.stream = none := by
    cases hst : r.itr.stream with
    | none => rfl
    | some pos =>
      obtain ⟨n, p, hn, -⟩ := hr.itr.stream pos hst
      rw [h0] at hn
      simp at hn
  have hmiss : st.cache.get 0 = none := by
    cases hg : st.cache.get 0 with
    | none => rfl
    | some b => simpa [hnil] using hinv.get 0 b hg
  rw [hinv.empty hnil]
  exact next_of_empty hnum hmiss h0 hstream

/-- `Next` from a state with the invariant: the reader's next block if it is stored, a wait if
    it is not, or, on the empty store at block `0`, the failure to find it in the index. -/
theorem StoreState.Inv.next_cases (hinv : st.Inv blockHeaderHash getOrComputeTxID indexItems)
    (hnum : .blockNum ∈ indexItems) {placed : List Placed}
    (hs : Stored getOrComputeTxID blockHeaderHash indexItems st.mgr st.added placed)
    {r : Reader} (hr : ReaderInv st.added placed r) :
    (∃ b itr, st.added[r.itr.blockNumToRetrieve.toNat]? = some b ∧
      r.itr.next getOrComputeTxID indexItems st.mgr st.cache.get = some (.ok (b, itr)) ∧
      ItrInv st.added placed itr ∧
      itr.blockNumToRetrieve.toNat = r.itr.blockNumToRetrieve.toNat + 1) ∨
    r.itr.next getOrComputeTxID indexItems st.mgr st.cache.get = none ∨
    st.added = [] ∧ r.itr.blockNumToRetrieve = 0 ∧
      r.itr.next getOrComputeTxID indexItems st.mgr st.cache.get =
        some (.error (.lookup (.noSuchKey (.blockNum 0)))) := by
  by_cases hlt : r.itr.blockNumToRetrieve.toNat < st.added.length
  · obtain ⟨b, hb⟩ : ∃ b, st.added[r.itr.blockNumToRetrieve.toNat]? = some b :=
      ⟨_, List.getElem?_eq_getElem hlt⟩
    obtain ⟨itr, hnext, hitr, hsucc⟩ := hs.next_of_lt hnum hinv.get hr.itr hb
    exact .inl ⟨b, itr, hb, hnext, hitr, hsucc⟩
  · by_cases hne : st.added ≠ [] ∨ r.itr.blockNumToRetrieve ≠ 0
    · exact .inr (.inl (hs.next_of_le hr.itr (by omega) hne))
    · simp only [ne_eq, not_or, not_not] at hne
      exact .inr (.inr ⟨hne.1, hne.2, hinv.next_of_nil hnum hr hne.1 hne.2⟩)

/-- A reader's `Next` that returns keeps the reader's invariant: the block is the stored one
    after those it returned. -/
theorem ReaderInv.next (hinv : st.Inv blockHeaderHash getOrComputeTxID indexItems)
    (hnum : .blockNum ∈ indexItems) {placed : List Placed}
    (hs : Stored getOrComputeTxID blockHeaderHash indexItems st.mgr st.added placed)
    {r : Reader} (hr : ReaderInv st.added placed r) {block : Block} {itr : BlocksItr}
    (hnext : r.itr.next getOrComputeTxID indexItems st.mgr st.cache.get = some (.ok (block, itr))) :
    ReaderInv st.added placed { r with itr, returned := r.returned ++ [block] } := by
  rcases hinv.next_cases hnum hs hr with ⟨b, itr', hb, hnext', hitr', hsucc⟩ | hwait | ⟨-, -, hfail⟩
  · -- the block is the stored one, and the iterator moves on by one
    rw [hnext] at hnext'
    obtain ⟨rfl, rfl⟩ := Prod.mk.inj (Except.ok.inj (Option.some.inj hnext'))
    have hnum' := hr.blockNumToRetrieve_eq
    refine ⟨prefix_append_singleton hr.returned_stored ?_, ?_, hitr'⟩
    · rw [List.getElem?_drop, ← hnum']
      exact hb
    · simp only [List.length_append, List.length_singleton]
      omega
  · rw [hwait] at hnext
    cases hnext
  · rw [hfail] at hnext
    cases hnext

theorem StoreState.Inv.step_next (hinv : st.Inv blockHeaderHash getOrComputeTxID indexItems)
    (hnum : .blockNum ∈ indexItems) {i : Nat}
    (h : st.step maxBlockfileSize blockHeaderHash getOrComputeTxID indexItems (.next i) = .ok st') :
    st'.Inv blockHeaderHash getOrComputeTxID indexItems := by
  rcases step_next_eq_ok h with rfl | ⟨r, block, itr, hr, hnext, rfl⟩
  · exact hinv
  obtain ⟨placed, hs, hreaders⟩ := hinv.stored
  have hr' := ReaderInv.next hinv hnum hs (hreaders r (List.mem_of_getElem? hr)) hnext
  refine { hinv with stored := ⟨placed, hs, fun x hx => ?_⟩ }
  -- the other readers are as they were
  rcases FoldM.eq_or_getElem?_of_mem_set hx with rfl | ⟨j, -, hj⟩
  · exact hr'
  · exact hreaders x (List.mem_of_getElem? hj)

theorem StoreState.Inv.step_newBlockItr (hinv : st.Inv blockHeaderHash getOrComputeTxID indexItems)
    (startBlockNum : UInt64) :
    StoreState.Inv blockHeaderHash getOrComputeTxID indexItems
      { st with readers := st.readers ++ [⟨startBlockNum, newBlockItr st.mgr startBlockNum, []⟩] } := by
  obtain ⟨placed, hs, hreaders⟩ := hinv.stored
  refine { hinv with stored := ⟨placed, hs, fun r hr => ?_⟩ }
  rcases List.mem_append.mp hr with hr | hr
  · exact hreaders r hr
  · -- a new reader has returned nothing and stands at its start number
    obtain rfl := List.mem_singleton.mp hr
    exact ⟨List.nil_prefix, by simp [newBlockItr], hs.itrInv_newBlockItr startBlockNum⟩

/-- `addBlock` of a block that fits, into a store with the invariant, hands the cache the block
    after its newest one, which the cache takes without a panic. -/
theorem StoreState.Inv.put_ok (hinv : st.Inv blockHeaderHash getOrComputeTxID indexItems)
    {block : Block} (hfits : (StoreEvent.addBlock block none).Fits getOrComputeTxID) {mgr : BlockfileMgr}
    (hadd : addBlock maxBlockfileSize blockHeaderHash getOrComputeTxID indexItems st.mgr block =
      .ok mgr) :
    ∃ cache, st.cache.put block (Int64.ofNat (blockBytesLen getOrComputeTxID block)) = .ok cache ∧
      cache.Inv ∧ cache.maxSizeBytes = defaultBlockCacheSizeBytes ∧
      cache.maxSeq.toNat + 1 = st.added.length + 1 ∧
      ∀ n cb, cache.cache.get? n = some cb → (st.added ++ [block])[n.toNat]? = some cb.block := by
  obtain ⟨header, blockBytes, info, entries, hh, hnum, -, hser, -, -⟩ := addBlock_eq_ok hadd
  obtain ⟨placed, hs, -⟩ := hinv.stored
  have hsize := hfits.1 _ _ hser
  have hheight : header.number.toNat = st.added.length := by rw [hnum]; exact hs.height_eq
  have hlen : (Int64.ofNat blockBytes.length).toInt = blockBytes.length :=
    Int64.toInt_ofNat_of_lt (by omega)
  have hmax := hinv.maxSizeBytes
  -- the block is the one after the cache's newest, or the first of an empty cache
  have hnext : header.number.toNat = st.cache.maxSeq.toNat + 1 ∨
      st.cache.maxSeq = 0 ∧ st.cache.cache.size = 0 := hinv.maxSeq.imp (by omega) id
  have hnonneg : 0 ≤ (Int64.ofNat blockBytes.length).toInt := by omega
  obtain ⟨cache, hput, hcinv, hseq, hcmax, hold⟩ := put_next hinv.cache hh hnext hnonneg
    (by rw [hlen, hmax, defaultBlockCacheSizeBytes_toInt]; omega)
  refine ⟨cache, by rw [blockBytesLen_eq hser]; exact hput, hcinv, hcmax.trans hmax,
    by rw [hseq, hheight], fun n cb hcb => ?_⟩
  rcases hold n cb hcb with hcb | ⟨rfl, rfl⟩
  · rw [List.getElem?_append_left (List.getElem?_eq_some_iff.mp (hinv.cached n cb hcb)).1]
    exact hinv.cached n cb hcb
  · simp [hheight]

theorem StoreState.Inv.step_addBlock (hinv : st.Inv blockHeaderHash getOrComputeTxID indexItems)
    (hnum : .blockNum ∈ indexItems) {block : Block}
    (hfits : (StoreEvent.addBlock block none).Fits getOrComputeTxID)
    (h : st.step maxBlockfileSize blockHeaderHash getOrComputeTxID indexItems (.addBlock block none) =
      .ok st') :
    st'.Inv blockHeaderHash getOrComputeTxID indexItems := by
  rcases step_addBlock_eq_ok h with rfl | ⟨mgr, cache, hadd, hput, rfl⟩
  · exact hinv
  obtain ⟨cache', hput', hcinv, hcmax, hseq, hcached⟩ := hinv.put_ok hfits hadd
  rw [hput] at hput'
  cases hput'
  obtain ⟨placed, hs, hreaders⟩ := hinv.stored
  obtain ⟨header, -, -, -, hh, hheight, -⟩ := addBlock_eq_ok hadd
  have hlen : st.added.length + 1 < 2 ^ 64 := by
    have := hfits.2 header hh
    rw [hheight, hs.height_eq] at this
    exact this
  obtain ⟨p, hs'⟩ := hs.addBlock (List.ne_nil_of_mem hnum) hlen hfits.1 hadd
  exact
    { stored := ⟨placed ++ [p], hs', fun r hr => (hreaders r hr).append [block] [p]⟩
      empty := fun hnil => absurd hnil (by simp)
      cache := hcinv
      maxSizeBytes := hcmax
      maxSeq := .inl (by simp only [List.length_append, List.length_singleton]; exact hseq)
      cached := hcached }

/-- Every call that returns keeps the invariant. -/
theorem StoreState.Inv.step (hinv : st.Inv blockHeaderHash getOrComputeTxID indexItems)
    (hnum : .blockNum ∈ indexItems) {e : StoreEvent} (hfits : e.Fits getOrComputeTxID)
    (hw : e.WritesSucceed)
    (h : st.step maxBlockfileSize blockHeaderHash getOrComputeTxID indexItems e = .ok st') :
    st'.Inv blockHeaderHash getOrComputeTxID indexItems := by
  cases e with
  | addBlock block failure =>
    obtain rfl : failure = none := hw
    exact hinv.step_addBlock hnum hfits h
  | newBlockItr startBlockNum =>
    rw [step_newBlockItr_eq] at h
    cases h
    exact hinv.step_newBlockItr startBlockNum
  | next i => exact hinv.step_next hnum h

/-- A call that fails from a state with the invariant is a panic of `addBlock` or a `Next` on the
    empty store at block `0`: the cache takes every block `addBlock` hands it. -/
theorem StoreState.Inv.step_error (hinv : st.Inv blockHeaderHash getOrComputeTxID indexItems)
    (hnum : .blockNum ∈ indexItems) {e : StoreEvent} (hfits : e.Fits getOrComputeTxID)
    (hw : e.WritesSucceed) {f : StoreFailure}
    (h : st.step maxBlockfileSize blockHeaderHash getOrComputeTxID indexItems e = .error f) :
    (∃ e, f = .addBlock e ∧ e.isPanic) ∨ ∃ i, f = .next i (.lookup (.noSuchKey (.blockNum 0))) := by
  cases e with
  | addBlock block failure =>
    obtain rfl : failure = none := hw
    rcases step_addBlock_eq_error h with ⟨e, -, hpanic, rfl⟩ | ⟨mgr, p, hadd, hput, -⟩
    · exact .inl ⟨e, rfl, hpanic⟩
    · obtain ⟨cache, hput', -⟩ := hinv.put_ok hfits hadd
      rw [hput] at hput'
      cases hput'
  | newBlockItr startBlockNum =>
    rw [step_newBlockItr_eq] at h
    cases h
  | next i =>
    obtain ⟨r, e, hr, hnext, rfl⟩ := step_next_eq_error h
    obtain ⟨placed, hs, hreaders⟩ := hinv.stored
    rcases hinv.next_cases hnum hs (hreaders r (List.mem_of_getElem? hr)) with
      ⟨_, _, -, hnext', -, -⟩ | hwait | ⟨-, -, hfail⟩
    · rw [hnext] at hnext'
      cases hnext'
    · rw [hnext] at hwait
      cases hwait
    · rw [hnext] at hfail
      cases hfail
      exact .inr ⟨i, rfl⟩

/-- Every run from a new store that returns ends in a state with the invariant. -/
theorem StoreState.inv_run (hnum : .blockNum ∈ indexItems) {events : List StoreEvent}
    (hfits : ∀ e ∈ events, e.Fits getOrComputeTxID) (hwrites : ∀ e ∈ events, e.WritesSucceed)
    (hrun : StoreState.init.run maxBlockfileSize blockHeaderHash getOrComputeTxID indexItems events =
      .ok st) :
    st.Inv blockHeaderHash getOrComputeTxID indexItems :=
  FoldM.except_inv (Q := fun e => e.Fits getOrComputeTxID ∧ e.WritesSucceed)
    (fun _ _ _ hinv he h => StoreState.Inv.step hinv hnum he.1 he.2 h) events _ st
    StoreState.inv_init (fun e he => ⟨hfits e he, hwrites e he⟩) hrun

end Invariant

/-! ## Whole runs -/

section Runs

variable {maxBlockfileSize : Nat} {blockHeaderHash : BlockHeader → Bytes}
  {getOrComputeTxID : Bytes → String} {indexItems : List IndexableAttr} {st : StoreState}
  {events : List StoreEvent}

/-- However the writer and the readers interleave, every reader has returned the first of the
    stored blocks from its start number on, in order, and its iterator is at the block after
    them. -/
theorem blocksItr_run (hnum : .blockNum ∈ indexItems)
    (hfits : ∀ e ∈ events, e.Fits getOrComputeTxID) (hwrites : ∀ e ∈ events, e.WritesSucceed)
    (hrun : StoreState.init.run maxBlockfileSize blockHeaderHash getOrComputeTxID indexItems events =
      .ok st) :
    ∀ r ∈ st.readers, r.returned <+: st.added.drop r.start.toNat ∧
      r.itr.blockNumToRetrieve.toNat = r.start.toNat + r.returned.length := by
  obtain ⟨placed, -, hreaders⟩ := (StoreState.inv_run hnum hfits hwrites hrun).stored
  intro r hr
  exact ⟨(hreaders r hr).returned_stored, (hreaders r hr).blockNumToRetrieve_eq⟩

/-- A genesis block: number `0`, no transactions, and the metadata `indexBlock` reads. -/
def genesisBlock : Block :=
  { header := some { number := 0, previousHash := [], dataHash := [] }, data := some ⟨[]⟩,
    metadata := some ⟨[[], [], []]⟩ }

/-- The block files and the index after `genesisBlock`. -/
def genesisMgr : BlockfileMgr :=
  match addBlock 1024 (fun _ => []) (fun _ => "") [.blockNum] BlockfileMgr.empty genesisBlock with
  | .ok mgr => mgr
  | .error _ => BlockfileMgr.empty

theorem addBlock_genesisBlock :
    addBlock 1024 (fun _ => []) (fun _ => "") [.blockNum] BlockfileMgr.empty genesisBlock =
      .ok genesisMgr :=
  rfl

/-- A reader made on the new store, the genesis block, and the reader's `Next`. -/
def genesisEvents : List StoreEvent := [.newBlockItr 0, .addBlock genesisBlock none, .next 0]

theorem genesisEvents_fits : ∀ e ∈ genesisEvents, e.Fits fun _ => "" := by
  intro e he
  simp only [genesisEvents, List.mem_cons, List.not_mem_nil, or_false] at he
  rcases he with rfl | rfl | rfl
  · trivial
  · exact fits_addBlock none (by decide) fun _ hh => by cases hh; decide
  · trivial

theorem genesisEvents_writes : ∀ e ∈ genesisEvents, e.WritesSucceed := by
  intro e he
  simp only [genesisEvents, List.mem_cons, List.not_mem_nil, or_false] at he
  rcases he with rfl | rfl | rfl <;> trivial

/-- The reader, made before the genesis block, returns it from the cache. -/
theorem genesisEvents_run :
    ∃ st r, StoreState.init.run 1024 (fun _ => []) (fun _ => "") [.blockNum] genesisEvents =
      .ok st ∧ st.readers = [r] ∧ r.returned = [genesisBlock] ∧ st.added = [genesisBlock] ∧
      st.mgr = genesisMgr := by
  -- the block fits in the cache, which keeps it
  have hput := put_of_maxSeq_eq_zero (c := newCache defaultBlockCacheSizeBytes) rfl rfl
    (show genesisBlock.header = some ⟨0, [], []⟩ from rfl)
    (Int64.ofNat (blockBytesLen (fun _ => "") genesisBlock))
  rw [evictLoop_of_not_gt (by decide)] at hput
  simp only [StoreState.run, genesisEvents, List.foldlM_cons, List.foldlM_nil, step_newBlockItr_eq,
    bind, Except.bind]
  rw [step_addBlock_of_ok addBlock_genesisBlock hput]
  exact ⟨_, _, rfl, rfl, rfl, rfl, rfl⟩

theorem blocksItr_run_genesis :
    ∃ st, StoreState.init.run 1024 (fun _ => []) (fun _ => "") [.blockNum] genesisEvents =
      .ok st ∧ ∀ r ∈ st.readers, r.returned <+: st.added.drop r.start.toNat ∧
        r.itr.blockNumToRetrieve.toNat = r.start.toNat + r.returned.length := by
  obtain ⟨st, -, hrun, -⟩ := genesisEvents_run
  exact ⟨st, hrun, blocksItr_run (by decide) genesisEvents_fits genesisEvents_writes hrun⟩

/-- In every state a run reaches, a reader's `Next` returns its next block once the block is
    stored, waits while it is not, and fails only on the empty store at block `0`. -/
theorem blocksItr_next_progress (hnum : .blockNum ∈ indexItems)
    (hfits : ∀ e ∈ events, e.Fits getOrComputeTxID) (hwrites : ∀ e ∈ events, e.WritesSucceed)
    (hrun : StoreState.init.run maxBlockfileSize blockHeaderHash getOrComputeTxID indexItems events =
      .ok st) {i : Nat} {r : Reader} (hr : st.readers[i]? = some r) :
    (∀ b, st.added[r.itr.blockNumToRetrieve.toNat]? = some b → ∃ itr,
      st.step maxBlockfileSize blockHeaderHash getOrComputeTxID indexItems (.next i) =
        .ok { st with readers := st.readers.set i { r with itr, returned := r.returned ++ [b] } }) ∧
    (st.added.length ≤ r.itr.blockNumToRetrieve.toNat →
      (st.added ≠ [] ∨ r.itr.blockNumToRetrieve ≠ 0) →
      st.step maxBlockfileSize blockHeaderHash getOrComputeTxID indexItems (.next i) = .ok st) ∧
    (st.added = [] → r.itr.blockNumToRetrieve = 0 →
      st.step maxBlockfileSize blockHeaderHash getOrComputeTxID indexItems (.next i) =
        .error (.next i (.lookup (.noSuchKey (.blockNum 0))))) := by
  have hinv := StoreState.inv_run hnum hfits hwrites hrun
  obtain ⟨placed, hs, hreaders⟩ := hinv.stored
  have hri := hreaders r (List.mem_of_getElem? hr)
  refine ⟨fun b hb => ?_, fun hle hne => ?_, fun hnil h0 => ?_⟩
  · obtain ⟨itr, hnext, -⟩ := hs.next_of_lt hnum hinv.get hri.itr hb
    exact ⟨itr, by simp [StoreState.step, hr, hnext, pure, Except.pure]⟩
  · simp [StoreState.step, hr, hs.next_of_le hri.itr hle hne, pure, Except.pure]
  · simp [StoreState.step, hr, hinv.next_of_nil hnum hri hnil h0, throw, throwThe,
      MonadExceptOf.throw]

theorem blocksItr_next_progress_genesis :
    ∃ st r, StoreState.init.run 1024 (fun _ => []) (fun _ => "") [.blockNum] genesisEvents =
      .ok st ∧ st.readers[0]? = some r ∧
    (∀ b, st.added[r.itr.blockNumToRetrieve.toNat]? = some b → ∃ itr,
      st.step 1024 (fun _ => []) (fun _ => "") [.blockNum] (.next 0) =
        .ok { st with readers := st.readers.set 0 { r with itr, returned := r.returned ++ [b] } }) ∧
    (st.added.length ≤ r.itr.blockNumToRetrieve.toNat →
      (st.added ≠ [] ∨ r.itr.blockNumToRetrieve ≠ 0) →
      st.step 1024 (fun _ => []) (fun _ => "") [.blockNum] (.next 0) = .ok st) ∧
    (st.added = [] → r.itr.blockNumToRetrieve = 0 →
      st.step 1024 (fun _ => []) (fun _ => "") [.blockNum] (.next 0) =
        .error (.next 0 (.lookup (.noSuchKey (.blockNum 0))))) := by
  obtain ⟨st, r, hrun, hreaders, -⟩ := genesisEvents_run
  have hr : st.readers[0]? = some r := by simp [hreaders]
  exact ⟨st, r, hrun, hr, blocksItr_next_progress (by decide) genesisEvents_fits genesisEvents_writes hrun hr⟩

/-- A run from a new store fails only in a panic of `addBlock` (a nil dereference or a panic of
    `indexBlock`) or in a `Next` on the empty store at block `0`; never in a panic of the cache. -/
theorem storeRun_failure (hnum : .blockNum ∈ indexItems)
    (hfits : ∀ e ∈ events, e.Fits getOrComputeTxID) (hwrites : ∀ e ∈ events, e.WritesSucceed)
    {f : StoreFailure}
    (hrun : StoreState.init.run maxBlockfileSize blockHeaderHash getOrComputeTxID indexItems events =
      .error f) :
    (∃ e, f = .addBlock e ∧ e.isPanic) ∨ ∃ i, f = .next i (.lookup (.noSuchKey (.blockNum 0))) :=
  FoldM.except_error (Q := fun e => e.Fits getOrComputeTxID ∧ e.WritesSucceed)
    (fun _ _ _ hinv he h => StoreState.Inv.step hinv hnum he.1 he.2 h)
    (fun _ _ _ hinv he h => StoreState.Inv.step_error hinv hnum he.1 he.2 h) events _ f
    StoreState.inv_init (fun e he => ⟨hfits e he, hwrites e he⟩) hrun

/-- A reader made on the new store calls `Next` before any block is added. -/
theorem storeRun_failure_before_genesis :
    StoreState.init.run 1024 (fun _ => []) (fun _ => "") [.blockNum] [.newBlockItr 0, .next 0] =
      .error (.next 0 (.lookup (.noSuchKey (.blockNum 0)))) ∧
    ((∃ e, StoreFailure.next 0 (.lookup (.noSuchKey (.blockNum 0))) = .addBlock e ∧ e.isPanic) ∨
      ∃ i, StoreFailure.next 0 (.lookup (.noSuchKey (.blockNum 0))) =
        .next i (.lookup (.noSuchKey (.blockNum 0)))) := by
  have hrun : StoreState.init.run 1024 (fun _ => []) (fun _ => "") [.blockNum]
      [.newBlockItr 0, .next 0] = .error (.next 0 (.lookup (.noSuchKey (.blockNum 0)))) := rfl
  have hevents : ∀ e ∈ [StoreEvent.newBlockItr 0, .next 0], e.Fits (fun _ => "") ∧
      e.WritesSucceed := by
    intro e he
    simp only [List.mem_cons, List.not_mem_nil, or_false] at he
    rcases he with rfl | rfl <;> exact ⟨trivial, trivial⟩
  exact ⟨hrun, storeRun_failure (by decide) (fun e he => (hevents e he).1)
    (fun e he => (hevents e he).2) hrun⟩

/-- In every state a run reaches, each stored block is read back by its number, the last one
    also by `math.MaxUint64`, and, where the index keeps hashes, by its header hash when no later
    block has the same. -/
theorem retrieveBlock_addBlocks (hnum : .blockNum ∈ indexItems)
    (hfits : ∀ e ∈ events, e.Fits getOrComputeTxID) (hwrites : ∀ e ∈ events, e.WritesSucceed)
    (hrun : StoreState.init.run maxBlockfileSize blockHeaderHash getOrComputeTxID indexItems events =
      .ok st) :
    (∀ (i : Nat) b, st.added[i]? = some b →
      retrieveBlockByNumber getOrComputeTxID indexItems 0 st.mgr i.toUInt64 = .ok b) ∧
    (∀ b, st.added.getLast? = some b →
      retrieveBlockByNumber getOrComputeTxID indexItems 0 st.mgr (UInt64.ofNat (2 ^ 64 - 1)) =
        .ok b) ∧
    (.blockHash ∈ indexItems → ∀ (i : Nat) b header, st.added[i]? = some b →
      b.header = some header →
      (∀ (j : Nat) b', i < j → st.added[j]? = some b' →
        b'.header.map blockHeaderHash ≠ some (blockHeaderHash header)) →
      retrieveBlockByHash getOrComputeTxID indexItems st.mgr (blockHeaderHash header) = .ok b) := by
  obtain ⟨placed, hs, -⟩ := (StoreState.inv_run hnum hfits hwrites hrun).stored
  exact ⟨fun i b hb => hs.retrieveBlockByNumber_eq hnum hb,
    fun b hb => hs.retrieveBlockByNumber_max hnum hb,
    fun hhash i b header hb hh hlater => hs.retrieveBlockByHash_eq hhash hb hh hlater⟩

theorem retrieveBlock_addBlocks_genesis :
    ∃ st, StoreState.init.run 1024 (fun _ => []) (fun _ => "") [.blockNum] genesisEvents =
      .ok st ∧
    (∀ (i : Nat) b, st.added[i]? = some b →
      retrieveBlockByNumber (fun _ => "") [.blockNum] 0 st.mgr i.toUInt64 = .ok b) ∧
    (∀ b, st.added.getLast? = some b →
      retrieveBlockByNumber (fun _ => "") [.blockNum] 0 st.mgr (UInt64.ofNat (2 ^ 64 - 1)) =
        .ok b) ∧
    (.blockHash ∈ [IndexableAttr.blockNum] → ∀ (i : Nat) b header, st.added[i]? = some b →
      b.header = some header →
      (∀ (j : Nat) b', i < j → st.added[j]? = some b' →
        b'.header.map (fun _ => ([] : Bytes)) ≠ some []) →
      retrieveBlockByHash (fun _ => "") [.blockNum] st.mgr [] = .ok b) := by
  obtain ⟨st, -, hrun, -⟩ := genesisEvents_run
  exact ⟨st, hrun, retrieveBlock_addBlocks (by decide) genesisEvents_fits genesisEvents_writes hrun⟩

/-! ## After a failed write -/

/-- When `addBlock` fails in `saveBlkfilesInfo` or in the index's `WriteBatch`, its deferred
    `cache.put` has already taken the block's number, which the height still asks for. So in
    every state a run reaches past the genesis block, once such a failure has hit a block that
    `addBlock` would add, the next block it adds, the same one retried or another, panics the
    peer in the cache. -/
theorem addBlock_after_failed_write_panics (hnum : .blockNum ∈ indexItems)
    (hfits : ∀ e ∈ events, e.Fits getOrComputeTxID) (hwrites : ∀ e ∈ events, e.WritesSucceed)
    (hrun : StoreState.init.run maxBlockfileSize blockHeaderHash getOrComputeTxID indexItems events =
      .ok st) (hne : st.added ≠ []) {block block' : Block}
    (hblock : (StoreEvent.addBlock block none).Fits getOrComputeTxID) {mgr mgr' : BlockfileMgr}
    (hadd : addBlock maxBlockfileSize blockHeaderHash getOrComputeTxID indexItems st.mgr block =
      .ok mgr)
    (hadd' : addBlock maxBlockfileSize blockHeaderHash getOrComputeTxID indexItems st.mgr block' =
      .ok mgr')
    {failure : WriteFailure} (hfailure : failure = .saveBlkfilesInfo false ∨ failure = .indexWriteBatch) :
    ∃ header, block'.header = some header ∧
      st.run maxBlockfileSize blockHeaderHash getOrComputeTxID indexItems
          [.addBlock block (some failure), .addBlock block' none] =
        .error (.cache (.sameBlockTwice header.number)) := by
  have hinv := StoreState.inv_run hnum hfits hwrites hrun
  obtain ⟨placed, hs, -⟩ := hinv.stored
  -- the failed call keeps the height and the hash, and sets up the deferred `cache.put`
  obtain ⟨mgr₁, hfail, hheight₁, hhash₁⟩ := addBlockFailing_of_addBlock hadd hfailure
  obtain ⟨cache, hput, hcinv, -, hseq, -⟩ := hinv.put_ok hblock hadd
  -- the next block passes `addBlock` at whatever placement the failure left
  obtain ⟨mgr₂, hadd₂⟩ := addBlock_ok_of_ok hadd' hheight₁ hhash₁
  -- and it has the number of the failed one, which the cache took
  obtain ⟨header, -, -, -, hh, hheight, -⟩ := addBlock_eq_ok hadd
  obtain ⟨header', -, -, -, hh', hheight', -⟩ := addBlock_eq_ok hadd'
  have hlen : header.number.toNat = st.added.length := by rw [hheight]; exact hs.height_eq
  have hmaxSeq : cache.maxSeq = header'.number := by
    rw [hheight', ← hheight]
    exact UInt64.toNat_inj.mp (by omega)
  have h0 : header'.number ≠ 0 := by
    intro h0
    rw [hheight.trans hheight'.symm, h0, UInt64.toNat_zero, eq_comm, List.length_eq_zero_iff]
      at hlen
    exact hne hlen
  have hput₂ := put_sameBlockTwice hcinv.enabled hh' hmaxSeq h0
    (by rw [hheight', ← hheight]; exact hblock.2 header hh)
    (Int64.ofNat (blockBytesLen getOrComputeTxID block'))
  refine ⟨header', hh', ?_⟩
  simp only [StoreState.run, List.foldlM_cons, List.foldlM_nil, step_addBlockFailing_of_ok hfail hput,
    bind, Except.bind]
  simp [StoreState.step, hadd₂, hput₂, bind, Except.bind, Except.mapError]

/-- Block `1` after `genesisBlock`, under the header hash `fun _ => []`. -/
def secondBlock : Block :=
  { header := some { number := 1, previousHash := [], dataHash := [] }, data := some ⟨[]⟩,
    metadata := some ⟨[[], [], []]⟩ }

/-- After the genesis block, block `1` fails in `saveBlkfilesInfo` and is added again. -/
theorem addBlock_after_failed_write_panics_second :
    ∃ st header, StoreState.init.run 1024 (fun _ => []) (fun _ => "") [.blockNum] genesisEvents =
      .ok st ∧ secondBlock.header = some header ∧
      st.run 1024 (fun _ => []) (fun _ => "") [.blockNum]
          [.addBlock secondBlock (some (.saveBlkfilesInfo false)), .addBlock secondBlock none] =
        .error (.cache (.sameBlockTwice header.number)) := by
  obtain ⟨st, -, hrun, -, -, hadded, hmgr⟩ := genesisEvents_run
  obtain ⟨mgr, hadd⟩ : ∃ mgr, addBlock 1024 (fun _ => []) (fun _ => "") [.blockNum] genesisMgr
      secondBlock = .ok mgr := ⟨_, rfl⟩
  have hfits : (StoreEvent.addBlock secondBlock none).Fits fun _ => "" :=
    fits_addBlock none (by decide) fun _ hh => by cases hh; decide
  obtain ⟨header, hh, hretry⟩ := addBlock_after_failed_write_panics (by decide) genesisEvents_fits
    genesisEvents_writes hrun (by simp [hadded]) hfits (hmgr ▸ hadd) (hmgr ▸ hadd) (.inl rfl)
  exact ⟨st, header, hrun, hh, hretry⟩

/-- In every state a run reaches, a call whose `append` or `saveBlkfilesInfo` fails, and whose
    truncation succeeds, leaves the block files, the index and the height as they were, and the
    stored blocks and the readers: the truncation takes back whatever the writes added. -/
theorem addBlock_failed_write_truncated (hnum : .blockNum ∈ indexItems)
    (hfits : ∀ e ∈ events, e.Fits getOrComputeTxID) (hwrites : ∀ e ∈ events, e.WritesSucceed)
    (hrun : StoreState.init.run maxBlockfileSize blockHeaderHash getOrComputeTxID indexItems events =
      .ok st) {block : Block} {failure : WriteFailure} (hfailure : failure ≠ .indexWriteBatch)
    {st' : StoreState}
    (hstep : st.step maxBlockfileSize blockHeaderHash getOrComputeTxID indexItems
      (.addBlock block (some failure)) = .ok st') :
    st'.mgr.files = st.mgr.files ∧ st'.mgr.index = st.mgr.index ∧
      st'.mgr.height = st.mgr.height ∧ st'.added = st.added ∧ st'.readers = st.readers := by
  obtain ⟨placed, hs, -⟩ := (StoreState.inv_run hnum hfits hwrites hrun).stored
  rcases step_addBlockFailing_eq_ok hstep with rfl | ⟨mgr, cachePut, hfail, hmgr, hreaders, hadded⟩
  · exact ⟨rfl, rfl, rfl, rfl, rfl⟩
  -- the manager the runs keep is consistent, so the truncation restores its files
  obtain ⟨hfiles, hheight, -, hindex, -⟩ := addBlockFailing_truncated hs.consistent hfailure hfail
  rw [hmgr]
  exact ⟨hfiles, hindex, hheight, hadded, hreaders⟩

/-- After the genesis block, the append of block `1` fails before writing anything. -/
theorem addBlock_failed_write_truncated_second :
    ∃ st st', StoreState.init.run 1024 (fun _ => []) (fun _ => "") [.blockNum] genesisEvents =
      .ok st ∧
      st.step 1024 (fun _ => []) (fun _ => "") [.blockNum]
        (.addBlock secondBlock (some (.append 0 false))) = .ok st' ∧
      st'.mgr.files = st.mgr.files ∧ st'.mgr.index = st.mgr.index ∧
      st'.mgr.height = st.mgr.height ∧ st'.added = st.added ∧ st'.readers = st.readers := by
  obtain ⟨st, -, hrun, -, -, -, hmgr⟩ := genesisEvents_run
  obtain ⟨mgr, hfail⟩ : ∃ mgr, addBlockFailing 1024 (fun _ => []) (fun _ => "") [.blockNum]
      (.append 0 false) genesisMgr secondBlock = .ok (mgr, false) := ⟨_, rfl⟩
  have hstep : st.step 1024 (fun _ => []) (fun _ => "") [.blockNum]
      (.addBlock secondBlock (some (.append 0 false))) = .ok { st with mgr } :=
    step_addBlockFailing_of_ok_false (hmgr ▸ hfail)
  exact ⟨st, _, hrun, hstep, addBlock_failed_write_truncated (by decide) genesisEvents_fits
    genesisEvents_writes hrun (by decide) hstep⟩

end Runs

end Fabric.BlkStorage
