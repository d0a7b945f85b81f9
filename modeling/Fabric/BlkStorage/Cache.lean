import Fabric.Protoutil.BlockUtils
import Fabric.Lib.GoMap
import Mathlib

/-
  The block cache of the block store (`common/ledger/blkstorage/cache.go`).

  The cache maps block numbers to blocks and their sizes. `put` ignores a block older than the
  newest, panics on a gap or on the newest block again, inserts the block, and then evicts
  the oldest block while the cache holds more than `maxSizeBytes`. Eviction finds the oldest
  block by arithmetic, `maxSeq - len(cache) + 1`, which is right only while the cached numbers
  form the range that ends at `maxSeq`.

  The representation invariant is `Cache.Inv`: the cached numbers are exactly the range of
  `len(cache)` numbers ending at `maxSeq`, `sizeBytes` is the sum of the cached sizes and
  within `maxSizeBytes`. `put` keeps it whenever `maxSeq` is not `0` or the cache is empty
  (`put_inv`), so every run of puts of blocks numbered from `1` keeps it and never reaches the
  eviction panic (`putAll_inv`). A put of the block right after `maxSeq`, or of a first block,
  keeps it too, also at `maxSeq = 0`, and the cache then holds only what it held and the block
  (`put_next`): the order in which `addBlock` puts its blocks.

  At `maxSeq = 0` the guards against gaps and repeats are skipped, and `0` is also the number
  of the genesis block: after block `0` the cache takes block `2`, leaving a gap that makes the
  next eviction panic, and takes block `0` again, counting its size twice
  (`put_after_genesis_breaks_cache`).

  Sizes are Go `int`s, here `Int64` with its wrap-around.
-/

namespace Fabric.BlkStorage

open Fabric.Protoutil

/-- `cachedBlock`. -/
structure CachedBlock where
  block : Block
  blockSize : Int64
  deriving DecidableEq

/-- The panics of `put` and `evictOldestCachedBlock`, with the data each message prints. -/
inductive CachePanic
  /-- the nil `block.Header` dereferenced -/
  | nilHeader
  /-- "detected out of order block insertion: attempted to insert block number %d but highest
      block is %d" -/
  | outOfOrder (seq maxSeq : UInt64)
  /-- "detected insertion of the same block (%d) twice" -/
  | sameBlockTwice (seq : UInt64)
  /-- "programming error: last stored block sequence is %d and cached block count is %d but
      index to be evicted %d was not found" -/
  | programmingError (maxSeq : UInt64) (cachedItemCount : Nat) (evictedIndex : UInt64)
  deriving DecidableEq, Repr

/-- The panics `put` raises itself, on a gap or a repeated block. -/
def CachePanic.isPutOwn : CachePanic → Bool
  | .outOfOrder _ _ => true
  | .sameBlockTwice _ => true
  | _ => false

/-- `cache`. -/
structure Cache where
  disabled : Bool
  cache : GoMap UInt64 CachedBlock
  sizeBytes : Int64
  maxSeq : UInt64
  maxSizeBytes : Int64

/-- `newCache`: a size of `0` disables the cache. -/
def newCache (maxSizeBytes : Int64) : Cache :=
  { disabled := maxSizeBytes == 0, cache := GoMap.empty, sizeBytes := 0, maxSeq := 0,
    maxSizeBytes := maxSizeBytes }

/-- `get`. -/
def Cache.get (c : Cache) (seq : UInt64) : Option Block :=
  if c.disabled then none else (c.cache.get? seq).map CachedBlock.block

/-- `evictOldestCachedBlock`: removes the block `maxSeq - len(cache) + 1`, which is the oldest
    if the cached numbers are consecutive. -/
def Cache.evictOldestCachedBlock (c : Cache) : Except CachePanic Cache :=
  let cachedItemCount := c.cache.size
  let evictedIndex := c.maxSeq - cachedItemCount.toUInt64 + 1
  match c.cache.get? evictedIndex with
  | none => throw (.programmingError c.maxSeq cachedItemCount evictedIndex)
  | some evictedBlock =>
    pure { c with cache := c.cache.erase evictedIndex,
                  sizeBytes := c.sizeBytes - evictedBlock.blockSize }

theorem size_evictOldestCachedBlock {c c' : Cache} (h : c.evictOldestCachedBlock = .ok c') :
    c'.cache.size < c.cache.size := by
  simp only [Cache.evictOldestCachedBlock] at h
  split at h
  · cases h
  · next b hb =>
    cases h
    have := GoMap.size_erase hb
    simp only
    omega

/-- The loop of `put`: `for c.sizeBytes > c.maxSizeBytes { c.evictOldestCachedBlock() }`. -/
def Cache.evictLoop (c : Cache) : Except CachePanic Cache :=
  if c.sizeBytes > c.maxSizeBytes then
    match _h : c.evictOldestCachedBlock with
    | .error e => .error e
    | .ok c' => c'.evictLoop
  else .ok c
termination_by c.cache.size
decreasing_by exact size_evictOldestCachedBlock _h

/-- `put`. -/
def Cache.put (c : Cache) (block : Block) (blockSize : Int64) : Except CachePanic Cache :=
  if c.disabled then pure c else
  match block.header with
  | none => throw .nilHeader
  | some header =>
    let seq := header.number
    if c.maxSeq > seq then pure c
    else if c.maxSeq + 1 < seq ∧ c.maxSeq ≠ 0 then throw (.outOfOrder seq c.maxSeq)
    else if c.maxSeq = seq ∧ c.maxSeq ≠ 0 then throw (.sameBlockTwice seq)
    else
      -- insert the block, then evict while the cache is too big
      Cache.evictLoop
        { c with maxSeq := seq, sizeBytes := c.sizeBytes + blockSize,
                 cache := c.cache.insert seq ⟨block, blockSize⟩ }

/-- Successive `put` calls; a panic ends the run. -/
def Cache.putAll (c : Cache) : List (Block × Int64) → Except CachePanic Cache
  | [] => pure c
  | (block, blockSize) :: rest => do
    let c ← c.put block blockSize
    c.putAll rest

/-! ## The representation invariant -/

/-- The sum of the cached sizes. -/
def sizeSum (m : GoMap UInt64 CachedBlock) : Int :=
  (m.entries.map fun e => e.2.blockSize.toInt).sum

theorem sizeSum_erase {m : GoMap UInt64 CachedBlock} {k : UInt64} {b : CachedBlock}
    (h : m.get? k = some b) : sizeSum m = b.blockSize.toInt + sizeSum (m.erase k) := by
  simp [sizeSum, ((GoMap.entries_perm_erase h).map _).sum_eq]

theorem sizeSum_insert {m : GoMap UInt64 CachedBlock} {k : UInt64} (h : m.get? k = none)
    (b : CachedBlock) : sizeSum (m.insert k b) = b.blockSize.toInt + sizeSum m := by
  simp [sizeSum, GoMap.entries_insert_of_get?_eq_none h]

/-- The cache between two evictions: enabled, the cached numbers are the `len(cache)` numbers
    ending at `maxSeq`, and `sizeBytes` is the sum of the cached sizes, none negative. -/
structure Cache.Shape (c : Cache) : Prop where
  enabled : c.disabled = false
  maxSizeBytes_pos : 0 < c.maxSizeBytes.toInt
  size_le : c.cache.size ≤ c.maxSeq.toNat + 1
  keys : ∀ k : UInt64, (c.cache.get? k).isSome ↔
    c.maxSeq.toNat + 1 ≤ k.toNat + c.cache.size ∧ k.toNat ≤ c.maxSeq.toNat
  blockSize_nonneg : ∀ k b, c.cache.get? k = some b → 0 ≤ b.blockSize.toInt
  sizeBytes_eq : c.sizeBytes.toInt = sizeSum c.cache

/-- `Cache.Shape`, within `maxSizeBytes`: the state every `put` should leave. -/
structure Cache.Inv (c : Cache) : Prop extends c.Shape where
  sizeBytes_le : c.sizeBytes.toInt ≤ c.maxSizeBytes.toInt

theorem inv_newCache {maxSizeBytes : Int64} (h : 0 < maxSizeBytes.toInt) :
    (newCache maxSizeBytes).Inv where
  enabled := by
    have : maxSizeBytes ≠ 0 := fun h0 => by rw [h0] at h; exact absurd h (by decide)
    simpa [newCache] using this
  maxSizeBytes_pos := h
  size_le := by simp [newCache]
  keys := by intro k; simp [newCache]; omega
  blockSize_nonneg := by simp [newCache]
  sizeBytes_eq := rfl
  sizeBytes_le := Int.le_of_lt h

theorem Cache.Shape.sizeSum_nonneg {c : Cache} (hc : c.Shape) : 0 ≤ sizeSum c.cache := by
  apply List.sum_nonneg
  intro x hx
  obtain ⟨⟨k, b⟩, he, rfl⟩ := List.mem_map.mp hx
  exact hc.blockSize_nonneg k b (GoMap.get?_of_mem _ he)

/-- The evicted index is the lowest cached number, also when the subtraction wraps around. -/
theorem toNat_evictedIndex {c : Cache} (hc : c.Shape) (hpos : 0 < c.cache.size) :
    (c.maxSeq - c.cache.size.toUInt64 + 1).toNat = c.maxSeq.toNat + 1 - c.cache.size := by
  have hle := hc.size_le
  have hm := UInt64.toNat_lt c.maxSeq
  rw [UInt64.toNat_add, UInt64.toNat_sub, Nat.toUInt64, UInt64.toNat_ofNat', UInt64.toNat_one]
  omega

/-! ## Eviction -/

/-- On a cache over its size, eviction removes the lowest cached number and keeps the shape. -/
theorem evictOldestCachedBlock_shape {c : Cache} (hc : c.Shape)
    (hover : c.maxSizeBytes.toInt < c.sizeBytes.toInt) :
    ∃ c', c.evictOldestCachedBlock = .ok c' ∧ c'.Shape ∧ c'.maxSeq = c.maxSeq ∧
      c'.maxSizeBytes = c.maxSizeBytes := by
  -- a cache over a positive size is not empty
  have hpos : 0 < c.cache.size := by
    rcases Nat.eq_zero_or_pos c.cache.size with h0 | h0
    · have hnil : c.cache.entries = [] := List.length_eq_zero_iff.mp h0
      have := hc.sizeBytes_eq
      have := hc.maxSizeBytes_pos
      simp only [sizeSum, hnil, List.map_nil, List.sum_nil] at *
      omega
    · exact h0
  obtain ⟨idx, hidx_def⟩ : ∃ idx, c.maxSeq - c.cache.size.toUInt64 + 1 = idx := ⟨_, rfl⟩
  have hidx := toNat_evictedIndex hc hpos
  rw [hidx_def] at hidx
  have hle := hc.size_le
  obtain ⟨b, hb⟩ := Option.isSome_iff_exists.mp ((hc.keys idx).mpr (by omega))
  have hsum := sizeSum_erase hb
  have hrest := hc.sizeSum_nonneg
  have hbpos := hc.blockSize_nonneg _ _ hb
  have hsize := GoMap.size_erase hb
  refine ⟨{ c with cache := c.cache.erase idx, sizeBytes := c.sizeBytes - b.blockSize }, ?_,
    ⟨hc.enabled, hc.maxSizeBytes_pos, ?_, ?_, ?_, ?_⟩, rfl, rfl⟩
  · simp only [Cache.evictOldestCachedBlock, hidx_def, hb]
    rfl
  · show (c.cache.erase idx).size ≤ c.maxSeq.toNat + 1
    omega
  · -- the numbers left are the range one shorter
    intro k
    show ((c.cache.erase idx).get? k).isSome ↔
      c.maxSeq.toNat + 1 ≤ k.toNat + (c.cache.erase idx).size ∧ k.toNat ≤ c.maxSeq.toNat
    rw [GoMap.get?_erase]
    have hk := hc.keys k
    split
    · next heq =>
      subst heq
      simp only [Option.isSome_none, Bool.false_eq_true, false_iff]
      omega
    · next hne =>
      have hne' : k.toNat ≠ idx.toNat := fun h => hne (UInt64.toNat_inj.mp h)
      rw [hk]
      omega
  · intro k b' hb'
    change (c.cache.erase idx).get? k = some b' at hb'
    rw [GoMap.get?_erase] at hb'
    split at hb'
    · cases hb'
    · exact hc.blockSize_nonneg k b' hb'
  · -- the subtraction stays within `int64`
    show (c.sizeBytes - b.blockSize).toInt = sizeSum (c.cache.erase idx)
    have hrange := Int64.toInt_lt c.sizeBytes
    have hb64 := Int64.toInt_lt b.blockSize
    have heq := hc.sizeBytes_eq
    rw [Int64.toInt_sub, Int.bmod_eq_of_le (by omega) (by omega)]
    omega

/-- From any cache with the shape, the eviction loop ends, without a panic, in a cache that
    keeps the invariant. -/
theorem evictLoop_inv (c : Cache) (hc : c.Shape) :
    ∃ c', c.evictLoop = .ok c' ∧ c'.Inv ∧ c'.maxSeq = c.maxSeq ∧
      c'.maxSizeBytes = c.maxSizeBytes := by
  induction c using Cache.evictLoop.induct with
  | case1 c hover e he =>
    rw [gt_iff_lt, Int64.lt_iff_toInt_lt] at hover
    obtain ⟨c', hc', -⟩ := evictOldestCachedBlock_shape hc hover
    rw [hc'] at he
    cases he
  | case2 c hover c' hc' ih =>
    have hover' := hover
    rw [gt_iff_lt, Int64.lt_iff_toInt_lt] at hover'
    obtain ⟨c'', hc'', hshape, hseq, hmax⟩ := evictOldestCachedBlock_shape hc hover'
    rw [hc'] at hc''
    cases hc''
    obtain ⟨d, hd, hinv, hdseq, hdmax⟩ := ih hshape
    refine ⟨d, ?_, hinv, hdseq.trans hseq, hdmax.trans hmax⟩
    rw [Cache.evictLoop, if_pos hover]
    split
    · next e he => rw [hc'] at he; cases he
    · next c'' he => rw [hc'] at he; cases he; exact hd
  | case3 c hle =>
    refine ⟨c, by rw [Cache.evictLoop, if_neg hle], ⟨hc, ?_⟩, rfl, rfl⟩
    rw [gt_iff_lt, Int64.lt_iff_toInt_lt, Int.not_lt] at hle
    exact hle

/-- Eviction only removes blocks. -/
theorem get?_evictOldestCachedBlock {c c' : Cache} (h : c.evictOldestCachedBlock = .ok c')
    {k : UInt64} {b : CachedBlock} (hk : c'.cache.get? k = some b) : c.cache.get? k = some b := by
  simp only [Cache.evictOldestCachedBlock] at h
  split at h
  · cases h
  · cases h
    change (c.cache.erase _).get? k = some b at hk
    rw [GoMap.get?_erase] at hk
    split at hk
    · cases hk
    · exact hk

theorem get?_evictLoop {c c' : Cache} (h : c.evictLoop = .ok c') {k : UInt64}
    {b : CachedBlock} (hk : c'.cache.get? k = some b) : c.cache.get? k = some b := by
  induction c using Cache.evictLoop.induct with
  | case1 c hover e he =>
    rw [Cache.evictLoop, if_pos hover] at h
    split at h
    · cases h
    · next c₁ he' => rw [he] at he'; cases he'
  | case2 c hover c₁ hc₁ ih =>
    rw [Cache.evictLoop, if_pos hover] at h
    split at h
    · cases h
    · next c₂ he' =>
      rw [hc₁] at he'
      cases he'
      exact get?_evictOldestCachedBlock hc₁ (ih h)
  | case3 c hle =>
    rw [Cache.evictLoop, if_neg hle] at h
    cases h
    exact hk

/-! ## Insertion -/

/-- Past the guards of `put`, with `maxSeq` not `0` or the cache empty, the block is the one
    after `maxSeq` or the first of the cache. -/
theorem next_of_guards {c : Cache} {seq : UInt64} (hseq0 : c.maxSeq ≠ 0 ∨ c.cache.size = 0)
    (hstale : ¬ c.maxSeq > seq) (hgap : ¬ (c.maxSeq + 1 < seq ∧ c.maxSeq ≠ 0))
    (hdup : ¬ (c.maxSeq = seq ∧ c.maxSeq ≠ 0)) :
    seq.toNat = c.maxSeq.toNat + 1 ∨ c.cache.size = 0 := by
  rcases hseq0 with h0 | h0
  · -- with `maxSeq` not `0` the guards leave only the next number
    have hgap' : ¬ c.maxSeq + 1 < seq := fun h => hgap ⟨h, h0⟩
    have hdup' : c.maxSeq.toNat ≠ seq.toNat := fun h => hdup ⟨UInt64.toNat_inj.mp h, h0⟩
    rw [gt_iff_lt, UInt64.lt_iff_toNat_lt] at hstale
    rw [UInt64.lt_iff_toNat_lt, UInt64.toNat_add, UInt64.toNat_one] at hgap'
    have hm := UInt64.toNat_lt c.maxSeq
    omega
  · exact .inr h0

/-- Inserting the next block, or the first, gives a cache with the shape. -/
theorem shape_insert {c : Cache} (hc : c.Inv) {seq : UInt64}
    (hnext : seq.toNat = c.maxSeq.toNat + 1 ∨ c.cache.size = 0) (block : Block)
    {blockSize : Int64} (hnonneg : 0 ≤ blockSize.toInt)
    (hfit : blockSize.toInt + c.maxSizeBytes.toInt < 2 ^ 63) :
    Cache.Shape
      { c with maxSeq := seq, sizeBytes := c.sizeBytes + blockSize,
               cache := c.cache.insert seq ⟨block, blockSize⟩ } := by
  have hle := hc.size_le
  have hkeys := hc.keys
  -- the block's number is not cached yet
  have habsent : c.cache.get? seq = none := by
    have hs := hkeys seq
    rw [← Option.not_isSome_iff_eq_none, hs]
    omega
  have hsize := GoMap.size_insert_of_get?_eq_none habsent ⟨block, blockSize⟩
  refine ⟨hc.enabled, hc.maxSizeBytes_pos, ?_, ?_, ?_, ?_⟩
  · show (c.cache.insert seq _).size ≤ seq.toNat + 1
    omega
  · intro k
    show ((c.cache.insert seq _).get? k).isSome ↔
      seq.toNat + 1 ≤ k.toNat + (c.cache.insert seq _).size ∧ k.toNat ≤ seq.toNat
    rw [GoMap.get?_insert, hsize]
    split
    · next heq =>
      subst heq
      simp only [Option.isSome_some, true_iff]
      omega
    · next hne =>
      have hne' : k.toNat ≠ seq.toNat := fun h => hne (UInt64.toNat_inj.mp h)
      rw [hkeys k]
      omega
  · intro k b hb
    change (c.cache.insert seq _).get? k = some b at hb
    rw [GoMap.get?_insert] at hb
    split at hb
    · cases hb
      exact hnonneg
    · exact hc.blockSize_nonneg k b hb
  · -- the sum stays within `int64`
    show (c.sizeBytes + blockSize).toInt = sizeSum (c.cache.insert seq _)
    have heq := hc.sizeBytes_eq
    have hbound := hc.sizeBytes_le
    have hsum := hc.sizeSum_nonneg
    have hb64 := Int64.le_toInt blockSize
    rw [Int64.toInt_add, Int.bmod_eq_of_le (by omega) (by omega), sizeSum_insert habsent]
    dsimp only
    omega

/-- `put` on a cache with the invariant whose `maxSeq` is not `0`, or which is empty, of a
    block with a header and a size that fits: one of `put`'s own panics, or the cache unchanged,
    or a cache with the invariant whose `maxSeq` is the block's number. -/
theorem put_inv {c : Cache} (hc : c.Inv) (hseq0 : c.maxSeq ≠ 0 ∨ c.cache.size = 0)
    {block : Block} {header : BlockHeader} (hh : block.header = some header)
    {blockSize : Int64} (hnonneg : 0 ≤ blockSize.toInt)
    (hfit : blockSize.toInt + c.maxSizeBytes.toInt < 2 ^ 63) :
    (∃ e, c.put block blockSize = .error e ∧ e.isPutOwn) ∨
      ∃ c', c.put block blockSize = .ok c' ∧ c'.Inv ∧ c'.maxSizeBytes = c.maxSizeBytes ∧
        (c' = c ∨ c'.maxSeq = header.number) := by
  have hen : ¬ c.disabled = true := by simp [hc.enabled]
  rw [Cache.put, if_neg hen, hh]
  dsimp only
  by_cases hstale : c.maxSeq > header.number
  · exact .inr ⟨c, by rw [if_pos hstale]; rfl, hc, rfl, .inl rfl⟩
  rw [if_neg hstale]
  by_cases hgap : c.maxSeq + 1 < header.number ∧ c.maxSeq ≠ 0
  · exact .inl ⟨_, by rw [if_pos hgap]; rfl, rfl⟩
  rw [if_neg hgap]
  by_cases hdup : c.maxSeq = header.number ∧ c.maxSeq ≠ 0
  · exact .inl ⟨_, by rw [if_pos hdup]; rfl, rfl⟩
  rw [if_neg hdup]
  have hshape := shape_insert hc (next_of_guards hseq0 hstale hgap hdup) block hnonneg hfit
  obtain ⟨c', hloop, hinv, hseq, hmax⟩ := evictLoop_inv _ hshape
  exact .inr ⟨c', hloop, hinv, hmax, .inr hseq⟩

/-- `put` of the block after `maxSeq`, or of a first block into a cache that has held none,
    passes the guards and inserts it; the eviction loop then ends in a cache with the invariant,
    which holds nothing it did not hold before but the block. -/
theorem put_next {c : Cache} (hc : c.Inv) {block : Block} {header : BlockHeader}
    (hh : block.header = some header)
    (hnext : header.number.toNat = c.maxSeq.toNat + 1 ∨ c.maxSeq = 0 ∧ c.cache.size = 0)
    {blockSize : Int64} (hnonneg : 0 ≤ blockSize.toInt)
    (hfit : blockSize.toInt + c.maxSizeBytes.toInt < 2 ^ 63) :
    ∃ c', c.put block blockSize = .ok c' ∧ c'.Inv ∧ c'.maxSeq = header.number ∧
      c'.maxSizeBytes = c.maxSizeBytes ∧ ∀ k b, c'.cache.get? k = some b →
        c.cache.get? k = some b ∨ k = header.number ∧ b = ⟨block, blockSize⟩ := by
  have hen : ¬ c.disabled = true := by simp [hc.enabled]
  have hseq := UInt64.toNat_lt header.number
  -- the guards let the block through
  have hstale : ¬ c.maxSeq > header.number := by
    rw [gt_iff_lt, UInt64.lt_iff_toNat_lt]
    rcases hnext with h | ⟨h0, -⟩
    · omega
    · simp [h0]
  have hgap : ¬ (c.maxSeq + 1 < header.number ∧ c.maxSeq ≠ 0) := by
    rintro ⟨hlt, hne⟩
    rcases hnext with h | ⟨h0, -⟩
    · rw [UInt64.lt_iff_toNat_lt, UInt64.toNat_add, UInt64.toNat_one,
        Nat.mod_eq_of_lt (by omega)] at hlt
      omega
    · exact hne h0
  have hdup : ¬ (c.maxSeq = header.number ∧ c.maxSeq ≠ 0) := by
    rintro ⟨heq, hne⟩
    rcases hnext with h | ⟨h0, -⟩
    · rw [heq] at h
      omega
    · exact hne h0
  obtain ⟨c', hloop, hinv, hseq', hmax⟩ :=
    evictLoop_inv _ (shape_insert hc (hnext.imp id (·.2)) block hnonneg hfit)
  refine ⟨c', ?_, hinv, hseq', hmax, fun k b hk => ?_⟩
  · rw [Cache.put, if_neg hen, hh]
    dsimp only
    rw [if_neg hstale, if_neg hgap, if_neg hdup]
    exact hloop
  · have hold := get?_evictLoop hloop hk
    change (c.cache.insert header.number _).get? k = some b at hold
    rw [GoMap.get?_insert] at hold
    split at hold
    · exact .inr ⟨‹_›, (Option.some.inj hold).symm⟩
    · exact .inl hold

/-- `put` of the block numbered `maxSeq` again, past block `0`, panics. -/
theorem put_sameBlockTwice {c : Cache} (hen : c.disabled = false) {block : Block}
    {header : BlockHeader} (hh : block.header = some header) (hseq : c.maxSeq = header.number)
    (h0 : header.number ≠ 0) (hlt : header.number.toNat + 1 < 2 ^ 64) (blockSize : Int64) :
    c.put block blockSize = .error (.sameBlockTwice header.number) := by
  -- `maxSeq + 1` does not wrap, so the block is not taken for one past a gap
  have hgap : ¬ (c.maxSeq + 1 < header.number ∧ c.maxSeq ≠ 0) := by
    rintro ⟨hgt, -⟩
    rw [hseq, UInt64.lt_iff_toNat_lt, UInt64.toNat_add, UInt64.toNat_one,
      Nat.mod_eq_of_lt hlt] at hgt
    omega
  rw [Cache.put, if_neg (by simp [hen]), hh]
  dsimp only
  rw [if_neg (by rw [hseq, gt_iff_lt, UInt64.lt_iff_toNat_lt]; exact Nat.lt_irrefl _), if_neg hgap,
    if_pos ⟨hseq, by rwa [hseq]⟩]
  rfl

/-- A run of `put` calls on a cache with the invariant, whose `maxSeq` is not `0` or which is
    empty, of blocks numbered from `1` whose sizes fit: it ends in one of `put`'s own panics
    or in a cache with the invariant, and never in the eviction panic. -/
theorem putAll_inv (puts : List (Block × Int64)) (c : Cache) (hc : c.Inv)
    (hseq0 : c.maxSeq ≠ 0 ∨ c.cache.size = 0)
    (hblocks : ∀ p ∈ puts, ∃ header, p.1.header = some header ∧ header.number ≠ 0)
    (hsizes : ∀ p ∈ puts, 0 ≤ p.2.toInt ∧ p.2.toInt + c.maxSizeBytes.toInt < 2 ^ 63) :
    (∃ e, c.putAll puts = .error e ∧ e.isPutOwn) ∨ ∃ c', c.putAll puts = .ok c' ∧ c'.Inv := by
  induction puts generalizing c with
  | nil => exact .inr ⟨c, rfl, hc⟩
  | cons p rest ih =>
    obtain ⟨block, blockSize⟩ := p
    obtain ⟨header, hh, hnum⟩ := hblocks _ (List.mem_cons_self ..)
    obtain ⟨hnonneg, hfit⟩ := hsizes _ (List.mem_cons_self ..)
    rcases put_inv hc hseq0 hh hnonneg hfit with ⟨e, he, hown⟩ | ⟨c', hput, hinv, hmax, hnext⟩
    · exact .inl ⟨e, by simp [Cache.putAll, he, bind, Except.bind], hown⟩
    · -- the rest of the run starts from the new cache
      have hseq0' : c'.maxSeq ≠ 0 ∨ c'.cache.size = 0 := by
        rcases hnext with rfl | hseq
        · exact hseq0
        · exact .inl (hseq ▸ hnum)
      have hrest := ih c' hinv hseq0' (fun q hq => hblocks q (List.mem_cons_of_mem _ hq))
        (fun q hq => hmax ▸ hsizes q (List.mem_cons_of_mem _ hq))
      simpa [Cache.putAll, hput, bind, Except.bind] using hrest

/-! ## Block `0` -/

theorem evictLoop_of_not_gt {c : Cache} (h : ¬ c.sizeBytes > c.maxSizeBytes) :
    c.evictLoop = .ok c := by
  rw [Cache.evictLoop, if_neg h]

theorem evictLoop_of_evict_error {c : Cache} {e : CachePanic} (h : c.sizeBytes > c.maxSizeBytes)
    (he : c.evictOldestCachedBlock = .error e) : c.evictLoop = .error e := by
  rw [Cache.evictLoop, if_pos h]
  split
  · next e' he' => rw [he] at he'; cases he'; rfl
  · next c' he' => rw [he] at he'; cases he'

/-- While `maxSeq` is `0`, `put` checks nothing: it inserts any block. -/
theorem put_of_maxSeq_eq_zero {c : Cache} (hen : c.disabled = false) (h0 : c.maxSeq = 0)
    {block : Block} {header : BlockHeader} (hh : block.header = some header) (blockSize : Int64) :
    c.put block blockSize =
      Cache.evictLoop
        { c with maxSeq := header.number, sizeBytes := c.sizeBytes + blockSize,
                 cache := c.cache.insert header.number ⟨block, blockSize⟩ } := by
  have hstale : ¬ c.maxSeq > header.number := by
    rw [h0, gt_iff_lt, UInt64.lt_iff_toNat_lt, UInt64.toNat_zero]
    exact Nat.not_lt_zero _
  rw [Cache.put, if_neg (by simp [hen]), hh]
  dsimp only
  rw [if_neg hstale, if_neg (by simp [h0]), if_neg (by simp [h0])]

/-- A block with a header of the given number and no data. -/
def numberedBlock (n : UInt64) : Block :=
  { header := some { number := n, previousHash := [], dataHash := [] }, data := none }

/-- After block `0`, `put` takes block `2`: under `newCache 1` the next eviction looks for
    block `1` and panics. And it takes block `0` a second time: under `newCache 10` the cache
    holds the block once and counts its size twice. -/
theorem put_after_genesis_breaks_cache :
    (newCache 1).putAll [(numberedBlock 0, 1), (numberedBlock 2, 1)] =
        .error (.programmingError 2 2 1) ∧
      ∃ c, (newCache 10).putAll [(numberedBlock 0, 1), (numberedBlock 0, 1)] = .ok c ∧
        c.sizeBytes.toInt = 2 ∧ sizeSum c.cache = 1 := by
  constructor
  · rw [Cache.putAll, put_of_maxSeq_eq_zero rfl rfl rfl, evictLoop_of_not_gt (by decide)]
    simp only [bind, Except.bind, Cache.putAll]
    rw [put_of_maxSeq_eq_zero rfl rfl rfl, evictLoop_of_evict_error (by decide) rfl]
    rfl
  · -- the block is cached once, with its size counted twice
    let twice : Cache :=
      { disabled := false, sizeBytes := 2, maxSeq := 0, maxSizeBytes := 10,
        cache := (GoMap.empty.insert 0 ⟨numberedBlock 0, 1⟩).insert 0 ⟨numberedBlock 0, 1⟩ }
    refine ⟨twice, ?_, by decide, by decide⟩
    · rw [Cache.putAll, put_of_maxSeq_eq_zero rfl rfl rfl, evictLoop_of_not_gt (by decide)]
      simp only [bind, Except.bind, Cache.putAll]
      rw [put_of_maxSeq_eq_zero rfl rfl rfl, evictLoop_of_not_gt (by decide)]
      rfl

end Fabric.BlkStorage
