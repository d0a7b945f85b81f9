import Fabric.BlkStorage.BlockFile

/-
  Reading a block file after a crash (`block_stream.go`).

  `addBlock` writes each block as a record: its length as a varint, then its bytes
  (`blockRecord`). A crash while appending leaves a strict prefix of one more record at the
  end of the file. A `blockfileStream` keeps the offset of its next read and moves it past each
  record it returns (`BlockfileStream.next`); `calls` lists what successive calls return.

  Proved: from the start of any record, successive calls return the remaining blocks in order,
  each with where its record and its bytes start, and then report the end of the file when
  nothing follows, or `ErrUnexpectedEndOfBlockfile` when a partial record does; no call panics
  on the eight bytes it peeks (`blockfileStream_reads_records`). A partial record is told apart
  from a whole one because varints are prefix-free (`consumeVarint_of_prefix_appendVarint`).
-/

namespace Fabric.BlkStorage

open Protowire
open Fabric.Ledger (Bytes)

/-- A block's record in a block file: its length as a varint, then its bytes. -/
def blockRecord (blockBytes : Bytes) : Bytes := appendVarint blockBytes.length ++ blockBytes

/-- `blockfileStream`: the number of the file it reads, the file's bytes, and the offset of
    the next read. -/
structure BlockfileStream where
  fileNum : Nat
  file : Bytes
  currentOffset : Nat

/-- `blockfileStream.nextBlockBytesAndPlacementInfo` with its move of `currentOffset` past the
    length's bytes and the block's bytes; at the end of the file and on an error the offset
    stays. -/
def BlockfileStream.next (s : BlockfileStream) :
    Except StreamFailure (Option (Bytes × BlockPlacementInfo)) × BlockfileStream :=
  match nextBlockBytesAndPlacementInfo s.fileNum s.file s.currentOffset with
  | .ok (some (blockBytes, placement)) =>
    (.ok (some (blockBytes, placement)),
      { s with currentOffset := placement.blockBytesOffset + blockBytes.length })
  | r => (r, s)

/-- What `k` successive calls of `nextBlockBytesAndPlacementInfo` return. -/
def BlockfileStream.calls (s : BlockfileStream) :
    Nat → List (Except StreamFailure (Option (Bytes × BlockPlacementInfo)))
  | 0 => []
  | k + 1 => s.next.1 :: s.next.2.calls k

/-- The blocks of consecutive records from offset `start`, each with where its record and its
    bytes start. -/
def recordPlacements (fileNum start : Nat) : List Bytes → List (Bytes × BlockPlacementInfo)
  | [] => []
  | b :: bs => (b, ⟨fileNum, start, start + (appendVarint b.length).length⟩) ::
      recordPlacements fileNum (start + (blockRecord b).length) bs

/-- How a stream ends on a strict prefix `P` of a record: at the end of the file if it is
    empty, with `ErrUnexpectedEndOfBlockfile` otherwise. -/
def tailOutcome (P : Bytes) : Except StreamFailure (Option (Bytes × BlockPlacementInfo)) :=
  if P = [] then .ok none else .error .unexpectedEndOfBlockfile

/-! ## One call -/

theorem next_of_record (fileNum : Nat) (pre b rest : Bytes) (hsize : b.length < 2 ^ 56) :
    (⟨fileNum, pre ++ blockRecord b ++ rest, pre.length⟩ : BlockfileStream).next =
      (.ok (some (b, ⟨fileNum, pre.length, pre.length + (appendVarint b.length).length⟩)),
        ⟨fileNum, pre ++ blockRecord b ++ rest, (pre ++ blockRecord b).length⟩) := by
  unfold BlockfileStream.next
  rw [blockRecord, ← List.append_assoc pre, nextBlockBytesAndPlacementInfo_append _ _ _ _ hsize]
  simp only [List.length_append, Nat.add_assoc]

theorem next_of_end (fileNum : Nat) (file : Bytes) :
    (⟨fileNum, file, file.length⟩ : BlockfileStream).next =
      (.ok none, ⟨fileNum, file, file.length⟩) := by
  unfold BlockfileStream.next
  rw [nextBlockBytesAndPlacementInfo, if_pos rfl]

/-- The varint of a length below `2^56` is read from the first eight bytes of its record. -/
theorem consumeVarint_take_eight_blockRecord {b : Bytes} (hsize : b.length < 2 ^ 56) :
    consumeVarint ((blockRecord b).take 8) = .ok (b.length, (appendVarint b.length).length) := by
  rw [blockRecord, List.take_append, List.take_of_length_le (length_appendVarint_le_eight hsize),
    consumeVarint_appendVarint _ (by omega)]

/-- A non-empty strict prefix of a record is a partial record: the call reports
    `ErrUnexpectedEndOfBlockfile`, whether or not it holds the whole varint. -/
theorem nextBlockBytesAndPlacementInfo_of_cut_record (fileNum : Nat) (pre P b : Bytes)
    (hsize : b.length < 2 ^ 56) (hP : P <+: blockRecord b)
    (hlt : P.length < (blockRecord b).length) (hne : P ≠ []) :
    nextBlockBytesAndPlacementInfo fileNum (pre ++ P) pre.length =
      .error .unexpectedEndOfBlockfile := by
  have hpos : 0 < P.length := List.length_pos_iff.mpr hne
  have hdrop : (pre ++ P).drop pre.length = P := List.drop_left
  have hrem : (pre ++ P).length - pre.length = P.length := by simp
  -- whatever is peeked is a prefix of the record
  have hpeek : ∀ k, P.take k <+: appendVarint b.length ++ b :=
    fun k => (List.take_prefix k P).trans hP
  unfold nextBlockBytesAndPlacementInfo
  rw [if_neg (by simp only [List.length_append]; omega), hdrop, hrem]
  by_cases h8 : P.length < 8
  · simp only [h8, if_true]
    split
    · rfl
    · rename_i w n hw
      obtain ⟨rfl, rfl⟩ := consumeVarint_of_prefix_appendVarint (by omega) (hpeek _) hw
      rw [if_pos (by rw [blockRecord, List.length_append] at hlt; omega)]
  · -- eight bytes hold the whole varint, which announces more than is there
    have htake : P.take 8 = (blockRecord b).take 8 := by
      obtain ⟨t, ht⟩ := hP
      rw [← ht, List.take_append_of_le_length (by omega)]
    simp only [h8, if_false, htake, consumeVarint_take_eight_blockRecord hsize]
    rw [if_pos (by rw [blockRecord, List.length_append] at hlt; omega)]

theorem next_of_tail (fileNum : Nat) (pre P b : Bytes) (hsize : b.length < 2 ^ 56)
    (hP : P <+: blockRecord b) (hlt : P.length < (blockRecord b).length) :
    (⟨fileNum, pre ++ P, pre.length⟩ : BlockfileStream).next.1 = tailOutcome P := by
  by_cases hne : P = []
  · subst hne
    rw [List.append_nil, next_of_end, tailOutcome, if_pos rfl]
  · unfold BlockfileStream.next
    rw [nextBlockBytesAndPlacementInfo_of_cut_record fileNum pre P b hsize hP hlt hne, tailOutcome,
      if_neg hne]

/-! ## A run of calls -/

/-- From the start of a record, the calls return the records' blocks in order and then end as
    the tail `P` makes them end. -/
theorem calls_records (fileNum : Nat) (P b : Bytes) (hsize : b.length < 2 ^ 56)
    (hP : P <+: blockRecord b) (hlt : P.length < (blockRecord b).length) :
    ∀ (blocks : List Bytes) (pre : Bytes), (∀ c ∈ blocks, c.length < 2 ^ 56) →
      (⟨fileNum, pre ++ (blocks.map blockRecord).flatten ++ P, pre.length⟩ :
        BlockfileStream).calls (blocks.length + 1) =
        (recordPlacements fileNum pre.length blocks).map (fun x => .ok (some x)) ++
          [tailOutcome P]
  | [], pre, _ => by
    simp only [List.map_nil, List.flatten_nil, List.append_nil, List.length_nil,
      BlockfileStream.calls, recordPlacements, List.nil_append]
    rw [next_of_tail fileNum pre P b hsize hP hlt]
  | c :: blocks, pre, hblocks => by
    have hc := hblocks c List.mem_cons_self
    have hfile : pre ++ ((c :: blocks).map blockRecord).flatten ++ P =
        pre ++ blockRecord c ++ ((blocks.map blockRecord).flatten ++ P) := by
      simp [List.append_assoc]
    have hrest : (pre ++ blockRecord c) ++ (blocks.map blockRecord).flatten ++ P =
        pre ++ blockRecord c ++ ((blocks.map blockRecord).flatten ++ P) := by
      simp [List.append_assoc]
    have ih := calls_records fileNum P b hsize hP hlt blocks (pre ++ blockRecord c)
      fun c' hc' => hblocks c' (List.mem_cons_of_mem c hc')
    rw [hrest] at ih
    rw [List.length_cons, BlockfileStream.calls, hfile, next_of_record fileNum pre c _ hc, ih,
      recordPlacements, List.map_cons, List.cons_append]
    simp only [List.length_append]

theorem blockfileStream_reads_records (fileNum : Nat) (blocks : List Bytes) (P b : Bytes)
    (hblocks : ∀ c ∈ blocks, c.length < 2 ^ 56) (hsize : b.length < 2 ^ 56)
    (hP : P <+: blockRecord b) (hlt : P.length < (blockRecord b).length) (i : Nat) :
    (⟨fileNum, (blocks.map blockRecord).flatten ++ P,
        ((blocks.take i).map blockRecord).flatten.length⟩ : BlockfileStream).calls
        (blocks.length - i + 1) =
      (recordPlacements fileNum ((blocks.take i).map blockRecord).flatten.length
          (blocks.drop i)).map (fun x => .ok (some x)) ++
        [if P = [] then .ok none else .error .unexpectedEndOfBlockfile] := by
  have hsplit : (blocks.map blockRecord).flatten =
      ((blocks.take i).map blockRecord).flatten ++ ((blocks.drop i).map blockRecord).flatten := by
    rw [← List.flatten_append, ← List.map_append, List.take_append_drop]
  rw [hsplit, ← List.length_drop]
  exact calls_records fileNum P b hsize hP hlt (blocks.drop i) _
    fun c hc => hblocks c (List.mem_of_mem_drop hc)

/-- A file of one whole record, `[1, 2, 3]` behind its length, then the first byte of the
    next, read from the start: the block, then `ErrUnexpectedEndOfBlockfile`. -/
theorem blockfileStream_reads_records_then_cut_record :
    (∀ c ∈ [[1, 2, 3]], (c : Bytes).length < 2 ^ 56) ∧ ([7] : Bytes).length < 2 ^ 56 ∧
      [1] <+: blockRecord [7] ∧ ([1] : Bytes).length < (blockRecord [7]).length ∧
      (⟨0, ([[1, 2, 3]].map blockRecord).flatten ++ [1], 0⟩ : BlockfileStream).calls 2 =
        [.ok (some ([1, 2, 3], ⟨0, 0, 1⟩)), .error .unexpectedEndOfBlockfile] := by
  have h := blockfileStream_reads_records 0 [[1, 2, 3]] [1] [7] (by decide) (by decide)
    (by decide) (by decide) 0
  refine ⟨by decide, by decide, by decide, by decide, ?_⟩
  exact h.trans rfl

end Fabric.BlkStorage
