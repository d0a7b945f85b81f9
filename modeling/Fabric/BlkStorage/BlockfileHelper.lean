import Fabric.BlkStorage.BlockStream

/-
  Finding the file of a block by binary search (`blockfile_helper.go`).

  `binarySearchFileNumForBlock` searches the files `0..latestFileNumber` by the number of the
  first block of each (`retrieveFirstBlockNumFromFile`, a stream from offset 0), probing the
  file just above the middle of what is left. `latestFileNumber` is the one that
  `constructBlockfilesInfo` finds: the largest file suffix in the directory, also when that
  file holds no complete block, which it tolerates after a crash. The loop keeps
  `beginFile ≤ endFile` and `endFile - beginFile` goes down at every probe
  (`binarySearchLoop`'s termination).

  Proved: over files whose first blocks can all be read and number upward, the search returns
  the file whose blocks include the block sought (`binarySearchFileNumForBlock_spec`). When the
  last file holds no complete block (empty, or a partial record), the search for a block of the
  file before it, past that file's first block, probes the last file and fails with the error
  of reading it (`binarySearchFileNumForBlock_of_cut_last_file`): with two files and the
  second empty, it fails for every block (`binarySearchFileNumForBlock_empty_last_file`).
-/

namespace Fabric.BlkStorage

open Protoutil
open Fabric.Ledger (Bytes)

/-- How `retrieveFirstBlockNumFromFile` fails: reading the block's bytes, or decoding them. -/
inductive RetrieveError
  | stream (f : StreamFailure)
  | decode (err : DecodeError)
  deriving DecidableEq, Repr

section Search

variable (getOrComputeTxID : Bytes → String) (files : Nat → Bytes)

/-- `retrieveFirstBlockNumFromFile`: the number of the first block of file `fileNum`. At the end
    of the file the stream returns no bytes, which `extractSerializedBlockInfo` cannot decode. -/
def retrieveFirstBlockNumFromFile (fileNum : Nat) : Except RetrieveError UInt64 := do
  let bb ← ((⟨fileNum, files fileNum, 0⟩ : BlockfileStream).next.1).mapError .stream
  let blockInfo ← (extractSerializedBlockInfo getOrComputeTxID ((bb.map Prod.fst).getD [])).mapError
    .decode
  pure blockInfo.blockHeader.number

/-- The `for endFile != beginFile` loop of `binarySearchFileNumForBlock`. -/
def binarySearchLoop (blockNum : UInt64) (beginFile endFile : Nat) (h : beginFile ≤ endFile) :
    Except RetrieveError Nat :=
  if hend : endFile = beginFile then .ok beginFile
  else
    match retrieveFirstBlockNumFromFile getOrComputeTxID files
        (beginFile + (endFile - beginFile) / 2 + 1) with
    | .error err => .error err
    | .ok n =>
      if n = blockNum then .ok (beginFile + (endFile - beginFile) / 2 + 1)
      else if n > blockNum then
        binarySearchLoop blockNum beginFile (beginFile + (endFile - beginFile) / 2 + 1 - 1)
          (by omega)
      else binarySearchLoop blockNum (beginFile + (endFile - beginFile) / 2 + 1) endFile (by omega)
termination_by endFile - beginFile
decreasing_by all_goals omega

/-- `binarySearchFileNumForBlock`, over the files up to the `latestFileNumber` of
    `constructBlockfilesInfo`. -/
def binarySearchFileNumForBlock (latestFileNumber : Nat) (blockNum : UInt64) :
    Except RetrieveError Nat :=
  binarySearchLoop getOrComputeTxID files blockNum 0 latestFileNumber (Nat.zero_le _)

/-! ## Reading the first block of a file -/

theorem extractSerializedBlockInfo_nil :
    extractSerializedBlockInfo getOrComputeTxID [] = .error (.blockNumber .truncated) := rfl

/-- A file that holds no whole record, only a strict prefix of one (nothing, or what a crash
    left of a block), has no first block to read. -/
theorem retrieveFirstBlockNumFromFile_of_cut_record {fileNum : Nat} {P b : Bytes}
    (hsize : b.length < 2 ^ 56) (hP : P <+: blockRecord b)
    (hlt : P.length < (blockRecord b).length) (hfile : files fileNum = P) :
    ∃ err, retrieveFirstBlockNumFromFile getOrComputeTxID files fileNum = .error err := by
  have htail := next_of_tail fileNum [] P b hsize hP hlt
  simp only [List.nil_append, List.length_nil] at htail
  unfold retrieveFirstBlockNumFromFile
  rw [hfile, htail, tailOutcome]
  split
  · -- an empty file: no bytes to decode
    refine ⟨.decode (.blockNumber .truncated), ?_⟩
    simp only [Except.mapError, bind, Except.bind, Option.map_none, Option.getD_none,
      extractSerializedBlockInfo_nil]
  · exact ⟨.stream .unexpectedEndOfBlockfile, rfl⟩

/-! ## The search -/

section Spec

variable {getOrComputeTxID files} (first : Nat → UInt64) (L : Nat) (blockNum : UInt64)

/-- `blockNum` lies in file `j` of `0..L`: the file's first block is not above it, and it is
    the last file or the next file starts above it. -/
def InFile (j : Nat) : Prop :=
  j ≤ L ∧ first j ≤ blockNum ∧ (j = L ∨ blockNum < first (j + 1))

/-- Over files `0..L` whose first blocks read as `first`, numbered upward, the loop keeps the
    file of `blockNum` between `beginFile` and `endFile`, and returns it. -/
theorem binarySearchLoop_spec
    (hret : ∀ j, j ≤ L → retrieveFirstBlockNumFromFile getOrComputeTxID files j = .ok (first j))
    (hmono : ∀ i j, i < j → j ≤ L → first i < first j) (beginFile endFile : Nat)
    (h : beginFile ≤ endFile) (hend : endFile ≤ L) (hbegin : first beginFile ≤ blockNum)
    (habove : endFile = L ∨ blockNum < first (endFile + 1)) :
    ∃ r, binarySearchLoop getOrComputeTxID files blockNum beginFile endFile h = .ok r ∧
      InFile first L blockNum r := by
  induction beginFile, endFile, h using binarySearchLoop.induct getOrComputeTxID files blockNum
    with
  | case1 endFile h =>
    rw [binarySearchLoop, dif_pos rfl]
    exact ⟨endFile, rfl, hend, hbegin, habove⟩
  | case2 beginFile endFile h hne err herr =>
    rw [hret _ (by omega)] at herr
    cases herr
  | case3 beginFile endFile h hne hn =>
    -- the probed file starts with the block sought
    rw [binarySearchLoop, dif_neg hne]
    simp only [hn, if_true]
    rw [hret _ (by omega), Except.ok.injEq] at hn
    refine ⟨_, rfl, by omega, by rw [hn]; exact UInt64.le_refl _, ?_⟩
    by_cases hL : beginFile + (endFile - beginFile) / 2 + 1 = L
    · exact .inl hL
    · right
      rw [← hn]
      exact hmono _ _ (Nat.lt_succ_self _) (by omega)
  | case4 beginFile endFile h hne n hn hneq hgt ih =>
    -- the probed file starts above the block: it lies below
    rw [binarySearchLoop, dif_neg hne]
    simp only [hn, if_neg hneq, if_pos hgt]
    rw [hret _ (by omega), Except.ok.injEq] at hn
    refine ih (by omega) hbegin (.inr ?_)
    rw [Nat.sub_add_cancel (by omega), hn]
    exact hgt
  | case5 beginFile endFile h hne n hn hneq hgt ih =>
    -- the probed file starts below the block: it lies there or above
    rw [binarySearchLoop, dif_neg hne]
    simp only [hn, if_neg hneq, if_neg hgt]
    rw [hret _ (by omega), Except.ok.injEq] at hn
    exact ih hend (by rw [hn]; exact UInt64.not_lt.mp hgt) habove

theorem binarySearchFileNumForBlock_spec
    (hret : ∀ j, j ≤ L → retrieveFirstBlockNumFromFile getOrComputeTxID files j = .ok (first j))
    (hmono : ∀ i j, i < j → j ≤ L → first i < first j) (hfirst : first 0 ≤ blockNum) :
    ∃ r, binarySearchFileNumForBlock getOrComputeTxID files L blockNum = .ok r ∧
      InFile first L blockNum r :=
  binarySearchLoop_spec first L blockNum hret hmono 0 L (Nat.zero_le L) (Nat.le_refl L) hfirst
    (.inl rfl)

/-- When file `L` cannot be read and the block lies in file `L - 1` past its first block, no
    probe below `L` moves `endFile`: the loop probes file `L` and fails with its error. -/
theorem binarySearchLoop_of_cut_last_file {err : RetrieveError}
    (hret : ∀ j, j < L → retrieveFirstBlockNumFromFile getOrComputeTxID files j = .ok (first j))
    (hmono : ∀ i j, i < j → j < L → first i < first j) (hlast : first (L - 1) < blockNum)
    (herr : retrieveFirstBlockNumFromFile getOrComputeTxID files L = .error err)
    (beginFile endFile : Nat) (h : beginFile ≤ endFile) (hend : endFile = L)
    (hbegin : beginFile < L) :
    binarySearchLoop getOrComputeTxID files blockNum beginFile endFile h = .error err := by
  -- a probe that reads is below `L`, where every file starts below the block
  have hok : ∀ s n, s ≤ L → retrieveFirstBlockNumFromFile getOrComputeTxID files s = .ok n →
      s < L ∧ n < blockNum := by
    intro s n hs hn
    have hsL : s < L := by
      by_contra hge
      rw [show s = L by omega, herr] at hn
      cases hn
    rw [hret s hsL, Except.ok.injEq] at hn
    refine ⟨hsL, ?_⟩
    rw [← hn]
    by_cases hs1 : s = L - 1
    · rw [hs1]
      exact hlast
    · exact UInt64.lt_trans (hmono s (L - 1) (by omega) (by omega)) hlast
  induction beginFile, endFile, h using binarySearchLoop.induct getOrComputeTxID files blockNum
    with
  | case1 endFile h => omega
  | case2 beginFile endFile h hne err' herr' =>
    rw [binarySearchLoop, dif_neg hne]
    simp only [herr']
    by_cases hL : beginFile + (endFile - beginFile) / 2 + 1 = L
    · rw [hL, herr] at herr'
      rw [Except.error.inj herr']
    · rw [hret _ (by omega)] at herr'
      cases herr'
  | case3 beginFile endFile h hne hn =>
    exact absurd (hok _ _ (by omega) hn).2 (UInt64.lt_irrefl _)
  | case4 beginFile endFile h hne n hn hneq hgt ih =>
    exact absurd hgt (UInt64.lt_asymm (hok _ _ (by omega) hn).2)
  | case5 beginFile endFile h hne n hn hneq hgt ih =>
    rw [binarySearchLoop, dif_neg hne]
    simp only [hn, if_neg hneq, if_neg hgt]
    exact ih hend (hok _ _ (by omega) hn).1

theorem binarySearchFileNumForBlock_of_cut_last_file {err : RetrieveError} (hL : 1 ≤ L)
    (hret : ∀ j, j < L → retrieveFirstBlockNumFromFile getOrComputeTxID files j = .ok (first j))
    (hmono : ∀ i j, i < j → j < L → first i < first j) (hlast : first (L - 1) < blockNum)
    (herr : retrieveFirstBlockNumFromFile getOrComputeTxID files L = .error err) :
    binarySearchFileNumForBlock getOrComputeTxID files L blockNum = .error err :=
  binarySearchLoop_of_cut_last_file first L blockNum hret hmono hlast herr 0 L
    (Nat.zero_le _) rfl (by omega)

end Spec

/-- Two files, the second empty as a crash right after the store moved to it leaves them: the
    first probe is file 1, and the search fails whatever file 0 holds and whichever block is
    sought. -/
theorem binarySearchFileNumForBlock_empty_last_file (f0 : Bytes) (blockNum : UInt64) :
    ∃ err, binarySearchFileNumForBlock getOrComputeTxID (fun i => if i = 0 then f0 else []) 1
      blockNum = .error err := by
  obtain ⟨err, herr⟩ := @retrieveFirstBlockNumFromFile_of_cut_record getOrComputeTxID
    (fun i => if i = 0 then f0 else []) 1 [] [] (by decide) List.nil_prefix (by decide) rfl
  refine ⟨err, ?_⟩
  rw [binarySearchFileNumForBlock, binarySearchLoop, dif_neg (by decide)]
  simp only [herr]

end Search

end Fabric.BlkStorage
