import Fabric.Ledger.Version
import Mathlib

/-
  The Merkle tree that summarises range-query results
  (`core/ledger/kvledger/txmgmt/rwsetutil/query_results_helper.go`).

  `RangeQueryResultsHelper.AddResult` collects results; with hashing enabled, every
  `maxDegree + 1` results are serialised, hashed, and the hash becomes the next leaf-level
  node of `merkleTree` (`update`). A level that grows past `maxDegree` hashes is replaced by
  one combined hash one level up. `Done` hashes what is pending and closes the tree
  (`merkleTree.done`); the summary is the highest level reached with its hashes.

  The Go map `tree : map[MerkleTreeLevel][]Hash` is a list of levels, level `ℓ` at index
  `ℓ` (index 0 is never used: `leafLevel = 1`), a missing level reading as empty. The hash
  function and `proto.Marshal` of a `QueryReads` message are parameters: the ledger's
  SHA-256 `hashFunc` never fails, so both are total functions here.
-/

namespace Fabric.Ledger

/-- `kvrwset.KVRead`: a key and the version it was read at (nil when the key was absent). -/
structure KVRead (κ : Type) where
  key : κ
  version : Option Height
  deriving DecidableEq, Repr

/-- `kvrwset.QueryReadsMerkleSummary`. -/
structure QueryReadsMerkleSummary where
  maxDegree : Nat
  maxLevel : Nat
  maxLevelHashes : List Bytes
  deriving DecidableEq, Repr

/-! ## Levels -/

section Levels

variable {α : Type}

/-- The entries at level `ℓ`; a level past the end of the list is empty. -/
def levelAt (t : List (List α)) (ℓ : Nat) : List α := t.getD ℓ []

/-- `t` with level `n` replaced by `f` of its entries, adding empty levels below `n` if the
    list is too short (a Go map write to a missing key). -/
def modifyLevel (f : List α → List α) : List (List α) → Nat → List (List α)
  | [], 0 => [f []]
  | [], n + 1 => [] :: modifyLevel f [] n
  | l :: t, 0 => f l :: t
  | l :: t, n + 1 => l :: modifyLevel f t n

/-- The number of entries over all levels. -/
def totalSize (t : List (List α)) : Nat := (t.map List.length).sum

@[simp] theorem levelAt_nil (ℓ : Nat) : levelAt ([] : List (List α)) ℓ = [] := by
  simp [levelAt]

theorem levelAt_modifyLevel (f : List α → List α) (t : List (List α)) (n i : Nat) :
    levelAt (modifyLevel f t n) i = if i = n then f (levelAt t n) else levelAt t i := by
  induction t generalizing n i with
  | nil =>
    induction n generalizing i with
    | zero => cases i <;> simp [modifyLevel, levelAt]
    | succ n ih =>
      cases i with
      | zero => simp [modifyLevel, levelAt]
      | succ i => simpa [modifyLevel, levelAt] using ih i
  | cons l t ih =>
    cases n <;> cases i <;> simp [modifyLevel, levelAt] at ih ⊢
    exact ih _ _

theorem totalSize_modifyLevel (f : List α → List α) (t : List (List α)) (n : Nat) :
    totalSize (modifyLevel f t n) + (levelAt t n).length =
      totalSize t + (f (levelAt t n)).length := by
  induction t generalizing n with
  | nil =>
    induction n with
    | zero => simp [modifyLevel, totalSize]
    | succ n ih => simpa [modifyLevel, totalSize] using ih
  | cons l t ih =>
    cases n with
    | zero => simp [modifyLevel, totalSize, levelAt]; omega
    | succ n =>
      have := ih n
      simp only [modifyLevel, totalSize, levelAt, List.map_cons, List.sum_cons,
        List.getD_cons_succ] at this ⊢
      omega

end Levels

/-! ## The tree -/

/-- `merkleTree`. `maxDegree` is at least 2: `newMerkleTree` refuses anything smaller, and
    the loop of `update` would not terminate for a smaller degree. -/
structure MerkleTree where
  tree : List (List Bytes)
  maxLevel : Nat
  maxDegree : Nat
  two_le_maxDegree : 2 ≤ maxDegree

/-- `leafLevel`. -/
def leafLevel : Nat := 1

/-- `newMerkleTree`. -/
def newMerkleTree (maxDegree : Nat) : Except String MerkleTree :=
  if h : 2 ≤ maxDegree then .ok ⟨[], 1, maxDegree, h⟩
  else .error s!"maxDegree [{maxDegree}] should not be less than 2 in the merkle tree"

/-- `m.tree[ℓ]`. -/
def MerkleTree.getLevel (m : MerkleTree) (ℓ : Nat) : List Bytes := levelAt m.tree ℓ

/-- `m.tree[ℓ] = append(m.tree[ℓ], h)`. -/
def appendLevel (t : List (List Bytes)) (ℓ : Nat) (h : Bytes) : List (List Bytes) :=
  modifyLevel (· ++ [h]) t ℓ

/-- `delete(m.tree, ℓ)`. -/
def deleteLevel (t : List (List Bytes)) (ℓ : Nat) : List (List Bytes) :=
  modifyLevel (fun _ => []) t ℓ

/-- `m.tree[ℓ] = hs`. -/
def setLevel (t : List (List Bytes)) (ℓ : Nat) (hs : List Bytes) : List (List Bytes) :=
  modifyLevel (fun _ => hs) t ℓ

@[simp] theorem levelAt_appendLevel (t : List (List Bytes)) (ℓ i : Nat) (h : Bytes) :
    levelAt (appendLevel t ℓ h) i = if i = ℓ then levelAt t ℓ ++ [h] else levelAt t i :=
  levelAt_modifyLevel _ _ _ _

@[simp] theorem levelAt_deleteLevel (t : List (List Bytes)) (ℓ i : Nat) :
    levelAt (deleteLevel t ℓ) i = if i = ℓ then [] else levelAt t i :=
  levelAt_modifyLevel _ _ _ _

@[simp] theorem levelAt_setLevel (t : List (List Bytes)) (ℓ i : Nat) (hs : List Bytes) :
    levelAt (setLevel t ℓ hs) i = if i = ℓ then hs else levelAt t i :=
  levelAt_modifyLevel _ _ _ _

theorem totalSize_appendLevel (t : List (List Bytes)) (ℓ : Nat) (h : Bytes) :
    totalSize (appendLevel t ℓ h) = totalSize t + 1 := by
  have := totalSize_modifyLevel (· ++ [h]) t ℓ
  simp only [List.length_append, List.length_singleton] at this
  unfold appendLevel
  omega

theorem totalSize_deleteLevel (t : List (List Bytes)) (ℓ : Nat) :
    totalSize (deleteLevel t ℓ) + (levelAt t ℓ).length = totalSize t := by
  simpa [deleteLevel] using totalSize_modifyLevel (fun _ => ([] : List Bytes)) t ℓ

section Operations

variable (hashFunc : Bytes → Bytes)

/-- `computeCombinedHash`: the hash of the concatenated hashes. -/
def computeCombinedHash (hashes : List Bytes) : Bytes := hashFunc hashes.flatten

/-- One pass of the loop of `merkleTree.update` at `currentLevel`: the level's hashes are
    deleted and their combined hash is appended one level up, which becomes the top level
    if it is higher than `maxLevel`. -/
def MerkleTree.carry (m : MerkleTree) (currentLevel : Nat) : MerkleTree :=
  let nextLevelHash := computeCombinedHash hashFunc (m.getLevel currentLevel)
  let nextLevel := currentLevel + 1
  { m with
    tree := appendLevel (deleteLevel m.tree currentLevel) nextLevel nextLevelHash
    maxLevel := if nextLevel > m.maxLevel then nextLevel else m.maxLevel }

theorem MerkleTree.totalSize_carry (m : MerkleTree) (currentLevel : Nat) :
    totalSize (m.carry hashFunc currentLevel).tree + (m.getLevel currentLevel).length =
      totalSize m.tree + 1 := by
  have hd := totalSize_deleteLevel m.tree currentLevel
  simp only [MerkleTree.carry, totalSize_appendLevel, MerkleTree.getLevel] at hd ⊢
  omega

/-- The `for` loop of `merkleTree.update`, entered at `currentLevel`: while the level holds
    more than `maxDegree` hashes, replace it by their combined hash one level up. -/
def MerkleTree.updateLoop (m : MerkleTree) (currentLevel : Nat) : MerkleTree :=
  if (m.getLevel currentLevel).length ≤ m.maxDegree then m
  else MerkleTree.updateLoop (m.carry hashFunc currentLevel) (currentLevel + 1)
termination_by totalSize m.tree
decreasing_by
  -- the pass removes more than `maxDegree ≥ 2` hashes and adds one
  have := m.totalSize_carry hashFunc currentLevel
  have := m.two_le_maxDegree
  omega

/-- `merkleTree.update`: add a leaf-level hash and complete the tree as far as possible. -/
def MerkleTree.update (m : MerkleTree) (nextLeafLevelHash : Bytes) : MerkleTree :=
  MerkleTree.updateLoop hashFunc
    { m with tree := appendLevel m.tree leafLevel nextLeafLevelHash } leafLevel

/-- The body of the loop of `merkleTree.done` at a non-empty `currentLevel`: the level is
    deleted and `h` (its hash, or the combined hash of its hashes) is appended above. -/
def MerkleTree.closeLevel (m : MerkleTree) (currentLevel : Nat) (h : Bytes) : MerkleTree :=
  { m with tree := appendLevel (deleteLevel m.tree currentLevel) (currentLevel + 1) h }

/-- The `for currentLevel < m.maxLevel` loop of `merkleTree.done`: every non-empty level
    below `maxLevel` becomes one hash on the level above (itself if it holds one hash). -/
def MerkleTree.doneLoop (m : MerkleTree) (currentLevel : Nat) : MerkleTree :=
  if currentLevel < m.maxLevel then
    match m.getLevel currentLevel with
    | [] => MerkleTree.doneLoop m (currentLevel + 1)
    | [h] => MerkleTree.doneLoop (m.closeLevel currentLevel h) (currentLevel + 1)
    | currentLevelHashes =>
      MerkleTree.doneLoop
        (m.closeLevel currentLevel (computeCombinedHash hashFunc currentLevelHashes))
        (currentLevel + 1)
  else m
termination_by m.maxLevel - currentLevel
decreasing_by all_goals (try simp only [MerkleTree.closeLevel]); omega

/-- `merkleTree.done`: close the lower levels, then replace a top level with more than
    `maxDegree` hashes by one combined hash one level up. -/
def MerkleTree.done (m : MerkleTree) : MerkleTree :=
  let m := MerkleTree.doneLoop hashFunc m leafLevel
  let finalHashes := m.getLevel m.maxLevel
  if finalHashes.length > m.maxDegree then
    { m with
      tree := setLevel (deleteLevel m.tree m.maxLevel) (m.maxLevel + 1)
        [computeCombinedHash hashFunc finalHashes]
      maxLevel := m.maxLevel + 1 }
  else m

end Operations

/-- `merkleTree.getSummery`: the degree, the highest level and its hashes. -/
def MerkleTree.getSummery (m : MerkleTree) : QueryReadsMerkleSummary :=
  { maxDegree := m.maxDegree, maxLevel := m.maxLevel, maxLevelHashes := m.getLevel m.maxLevel }

@[simp] theorem MerkleTree.getSummery_maxLevel (m : MerkleTree) :
    m.getSummery.maxLevel = m.maxLevel := rfl

@[simp] theorem MerkleTree.getSummery_maxLevelHashes (m : MerkleTree) :
    m.getSummery.maxLevelHashes = m.getLevel m.maxLevel := rfl

/-- `merkleTree.isEmpty`. -/
def MerkleTree.isEmpty (m : MerkleTree) : Bool :=
  m.maxLevel == 1 && (m.getLevel m.maxLevel).length == 0

/-! ## The results helper -/

/-- `RangeQueryResultsHelper`. The Go struct's `hashingEnabled` flag is set exactly when
    `mt` is non-nil (`NewRangeQueryResultsHelper`), so it is `mt.isSome` here. -/
structure RangeQueryResultsHelper (κ : Type) where
  pendingResults : List (KVRead κ)
  mt : Option MerkleTree
  maxDegree : Nat

section Helper

variable {κ : Type} (hashFunc : Bytes → Bytes) (serializeKVReads : List (KVRead κ) → Bytes)

/-- `NewRangeQueryResultsHelper`. -/
def newRangeQueryResultsHelper (enableHashing : Bool) (maxDegree : Nat) :
    Except String (RangeQueryResultsHelper κ) :=
  if enableHashing then
    (newMerkleTree maxDegree).map fun mt => ⟨[], some mt, maxDegree⟩
  else .ok ⟨[], none, maxDegree⟩

/-- `processPendingResults` on the tree `mt`: hash the serialised pending results into the
    next leaf and clear them. -/
def RangeQueryResultsHelper.processPendingResults (helper : RangeQueryResultsHelper κ)
    (mt : MerkleTree) : RangeQueryResultsHelper κ :=
  { helper with
    pendingResults := []
    mt := some (mt.update hashFunc (hashFunc (serializeKVReads helper.pendingResults))) }

/-- `AddResult`: queue the result; with hashing, process the queue once it holds more than
    `maxDegree` results. -/
def RangeQueryResultsHelper.addResult (helper : RangeQueryResultsHelper κ)
    (kvRead : KVRead κ) : RangeQueryResultsHelper κ :=
  let helper := { helper with pendingResults := helper.pendingResults ++ [kvRead] }
  match helper.mt with
  | some mt =>
    if helper.pendingResults.length > helper.maxDegree then
      helper.processPendingResults hashFunc serializeKVReads mt
    else helper
  | none => helper

/-- `Done`: the pending results and, if the tree was ever updated, its summary after the
    pending results are hashed in and the tree is closed. -/
def RangeQueryResultsHelper.done (helper : RangeQueryResultsHelper κ) :
    List (KVRead κ) × Option QueryReadsMerkleSummary :=
  match helper.mt with
  | none => (helper.pendingResults, none)
  | some mt =>
    if mt.isEmpty then (helper.pendingResults, none)
    else if helper.pendingResults.length ≠ 0 then
      -- `processPendingResults`, then `mt.done()`
      let mt := mt.update hashFunc (hashFunc (serializeKVReads helper.pendingResults))
      ([], some (mt.done hashFunc).getSummery)
    else (helper.pendingResults, some (mt.done hashFunc).getSummery)

/-- `GetMerkleSummary`: the current summary of the tree under construction. -/
def RangeQueryResultsHelper.getMerkleSummary (helper : RangeQueryResultsHelper κ) :
    Option QueryReadsMerkleSummary :=
  helper.mt.map MerkleTree.getSummery

end Helper

end Fabric.Ledger
