import Fabric.Ledger.MerkleTree

/-
  How the range-query Merkle tree grows.

  Between two calls every tree built by `newMerkleTree` and `update` has the shape `WF`:
  no level holds more than `maxDegree` hashes and nothing lies above `maxLevel`. One
  `update` either keeps `maxLevel` and appends at most one hash to the top level, or raises
  `maxLevel` by one with a single hash on the new top level (`update_growth`); `done` keeps
  or raises `maxLevel` and otherwise only appends to the top level (`extends_done`). So as
  long as the top level stays where it is, its hashes only ever get longer
  (`Extends`): this is the prefix stability that the phantom-read validator relies on when
  it compares a tree under construction with a finished one.
-/

namespace Fabric.Ledger

namespace MerkleTree

variable (hashFunc : Bytes → Bytes)

/-- The shape of a tree between two calls: each level holds at most `maxDegree` hashes,
    none lies above `maxLevel`, and `maxLevel ≥ 1`. -/
structure WF (m : MerkleTree) : Prop where
  one_le_maxLevel : 1 ≤ m.maxLevel
  level_le : ∀ ℓ, (m.getLevel ℓ).length ≤ m.maxDegree
  above_empty : ∀ ℓ, m.maxLevel < ℓ → m.getLevel ℓ = []

/-- The shape inside the loop of `update` at `cur`: only level `cur` may hold one hash too
    many. -/
structure LoopInv (m : MerkleTree) (cur : Nat) : Prop where
  one_le_cur : 1 ≤ cur
  cur_le : cur ≤ m.maxLevel
  level_le : ∀ ℓ, ℓ ≠ cur → (m.getLevel ℓ).length ≤ m.maxDegree
  cur_le_succ : (m.getLevel cur).length ≤ m.maxDegree + 1
  above_empty : ∀ ℓ, m.maxLevel < ℓ → m.getLevel ℓ = []

theorem wf_newMerkleTree {d : Nat} {m : MerkleTree} (h : newMerkleTree d = .ok m) : m.WF := by
  unfold newMerkleTree at h
  split at h
  · cases h
    exact ⟨Nat.le_refl 1, by simp [getLevel], by simp [getLevel]⟩
  · cases h

/-! ## One pass of the update loop -/

@[simp] theorem carry_maxDegree (m : MerkleTree) (cur : Nat) :
    (m.carry hashFunc cur).maxDegree = m.maxDegree := rfl

theorem carry_maxLevel (m : MerkleTree) (cur : Nat) :
    (m.carry hashFunc cur).maxLevel = max m.maxLevel (cur + 1) := by
  simp only [carry]
  split <;> omega

theorem getLevel_carry (m : MerkleTree) (cur ℓ : Nat) :
    (m.carry hashFunc cur).getLevel ℓ =
      if ℓ = cur + 1 then m.getLevel (cur + 1) ++ [computeCombinedHash hashFunc (m.getLevel cur)]
      else if ℓ = cur then [] else m.getLevel ℓ := by
  simp only [carry, getLevel, levelAt_appendLevel, levelAt_deleteLevel]
  by_cases h1 : ℓ = cur + 1
  · simp [h1]
  · simp [h1]

theorem updateLoop_of_le (m : MerkleTree) (cur : Nat)
    (h : (m.getLevel cur).length ≤ m.maxDegree) : m.updateLoop hashFunc cur = m := by
  rw [updateLoop, if_pos h]

theorem updateLoop_of_gt (m : MerkleTree) (cur : Nat)
    (h : m.maxDegree < (m.getLevel cur).length) :
    m.updateLoop hashFunc cur = (m.carry hashFunc cur).updateLoop hashFunc (cur + 1) := by
  rw [updateLoop, if_neg (by omega)]

/-- A pass keeps the loop shape, one level up. -/
theorem LoopInv.carry {m : MerkleTree} {cur : Nat} (h : m.LoopInv cur) :
    (m.carry hashFunc cur).LoopInv (cur + 1) := by
  have hml := carry_maxLevel hashFunc m cur
  refine ⟨by omega, by omega, ?_, ?_, ?_⟩
  · intro ℓ hℓ
    rw [getLevel_carry, if_neg hℓ, carry_maxDegree]
    split
    · simp
    · exact h.level_le ℓ (by assumption)
  · rw [getLevel_carry, if_pos rfl, carry_maxDegree, List.length_append,
      List.length_singleton]
    have := h.level_le (cur + 1) (by omega)
    omega
  · intro ℓ hℓ
    rw [getLevel_carry, if_neg (by omega), if_neg (by omega)]
    exact h.above_empty ℓ (by omega)

/-- The loop ends in the between-calls shape. -/
theorem wf_updateLoop (m : MerkleTree) (cur : Nat) (h : m.LoopInv cur) :
    (m.updateLoop hashFunc cur).WF := by
  induction m, cur using updateLoop.induct hashFunc with
  | case1 m cur hle =>
    rw [updateLoop_of_le hashFunc m cur hle]
    refine ⟨by have := h.one_le_cur; have := h.cur_le; omega, fun ℓ => ?_, h.above_empty⟩
    by_cases hℓ : ℓ = cur
    · subst hℓ
      exact hle
    · exact h.level_le ℓ hℓ
  | case2 m cur hgt ih =>
    rw [updateLoop_of_gt hashFunc m cur (by omega)]
    exact ih (h.carry hashFunc)

theorem updateLoop_maxDegree (m : MerkleTree) (cur : Nat) :
    (m.updateLoop hashFunc cur).maxDegree = m.maxDegree := by
  induction m, cur using updateLoop.induct hashFunc with
  | case1 m cur hle => rw [updateLoop_of_le hashFunc m cur hle]
  | case2 m cur hgt ih =>
    rw [updateLoop_of_gt hashFunc m cur (by omega), ih, carry_maxDegree]

/-- How one run of the update loop changes the top level `L = m.maxLevel`: either `L`
    stays and its hashes gain at most one more (none if the loop starts at `L`), or the
    loop overflows `L` into a new top level holding a single hash. -/
theorem updateLoop_growth (m : MerkleTree) (cur : Nat) (h : m.LoopInv cur) :
    ((m.updateLoop hashFunc cur).maxLevel = m.maxLevel ∧
        ∃ extra : List Bytes, extra.length ≤ 1 ∧ (cur = m.maxLevel → extra = []) ∧
          (m.updateLoop hashFunc cur).getLevel m.maxLevel = m.getLevel m.maxLevel ++ extra) ∨
      ((m.updateLoop hashFunc cur).maxLevel = m.maxLevel + 1 ∧
        ((m.updateLoop hashFunc cur).getLevel (m.maxLevel + 1)).length = 1) := by
  induction m, cur using updateLoop.induct hashFunc with
  | case1 m cur hle =>
    rw [updateLoop_of_le hashFunc m cur hle]
    exact .inl ⟨rfl, [], by simp⟩
  | case2 m cur hgt ih =>
    have hgt' : m.maxDegree < (m.getLevel cur).length := by omega
    rw [updateLoop_of_gt hashFunc m cur hgt']
    have hml := carry_maxLevel hashFunc m cur
    have hinv := h.carry hashFunc
    by_cases hcur : cur < m.maxLevel
    · -- the pass stays below the top level: `maxLevel` is unchanged
      have hL : (m.carry hashFunc cur).maxLevel = m.maxLevel := by omega
      rcases ih hinv with ⟨hmax, extra, hlen, hstart, hlev⟩ | ⟨hmax, hlev⟩
      · left
        refine ⟨hmax.trans hL, ?_⟩
        rw [hL] at hlev hstart
        by_cases hnext : cur + 1 = m.maxLevel
        · -- the pass fed the top level; the loop then stops there
          refine ⟨[computeCombinedHash hashFunc (m.getLevel cur)], by simp, by omega, ?_⟩
          rw [hlev, hstart hnext, getLevel_carry, if_pos hnext.symm, hnext]
          simp
        · refine ⟨extra, hlen, fun _ => by omega, ?_⟩
          rw [hlev, getLevel_carry, if_neg (by omega), if_neg (by omega)]
      · right
        rw [hL] at hmax hlev
        exact ⟨hmax, hlev⟩
    · -- the pass overflows the top level into a fresh level, where the loop stops
      have hcurL : cur = m.maxLevel := by have := h.cur_le; omega
      have habove := h.above_empty (cur + 1) (by omega)
      have htop : (m.carry hashFunc cur).getLevel (cur + 1) =
          [computeCombinedHash hashFunc (m.getLevel cur)] := by
        rw [getLevel_carry, if_pos rfl, habove, List.nil_append]
      have h2 := m.two_le_maxDegree
      rw [updateLoop_of_le hashFunc _ _ (by rw [htop, carry_maxDegree]; simp; omega)]
      right
      refine ⟨by omega, ?_⟩
      rw [← hcurL, htop]
      simp

/-! ## `update` -/

theorem loopInv_appendLeaf {m : MerkleTree} (hm : m.WF) (h : Bytes) :
    ({ m with tree := appendLevel m.tree leafLevel h } : MerkleTree).LoopInv leafLevel := by
  have h1 := hm.one_le_maxLevel
  refine ⟨Nat.le_refl 1, h1, fun ℓ hℓ => ?_, ?_, fun ℓ hℓ => ?_⟩
  · simpa [getLevel, hℓ] using hm.level_le ℓ
  · simpa [getLevel] using hm.level_le leafLevel
  · have hℓ' : m.maxLevel < ℓ := hℓ
    have hne : ℓ ≠ leafLevel := by simp only [leafLevel]; omega
    simpa [getLevel, hne] using hm.above_empty ℓ hℓ'

theorem wf_update {m : MerkleTree} (hm : m.WF) (h : Bytes) : (m.update hashFunc h).WF :=
  wf_updateLoop hashFunc _ _ (loopInv_appendLeaf hm h)

/-- One `update` of a well-formed tree: the top level stays and gains at most one hash, or a
    new top level one higher holds a single hash. -/
theorem update_growth {m : MerkleTree} (hm : m.WF) (h : Bytes) :
    ((m.update hashFunc h).maxLevel = m.maxLevel ∧
        ∃ extra : List Bytes, extra.length ≤ 1 ∧
          (m.update hashFunc h).getLevel m.maxLevel = m.getLevel m.maxLevel ++ extra) ∨
      ((m.update hashFunc h).maxLevel = m.maxLevel + 1 ∧
        ((m.update hashFunc h).getLevel (m.maxLevel + 1)).length = 1) := by
  rcases updateLoop_growth hashFunc _ _ (loopInv_appendLeaf hm h) with
    ⟨hmax, extra, hlen, hstart, hlev⟩ | hnew
  · left
    refine ⟨hmax, ?_⟩
    simp only [update]
    rw [hlev]
    by_cases hL : m.maxLevel = leafLevel
    · -- a tree of one level: the leaf is appended to the top level and the loop stops there
      refine ⟨[h], by simp, ?_⟩
      rw [hstart hL.symm]
      simp [getLevel, hL]
    · exact ⟨extra, hlen, by simp [getLevel, hL]⟩
  · exact .inr hnew

/-- An `update` never leaves the tree empty. -/
theorem update_isEmpty {m : MerkleTree} (hm : m.WF) (h : Bytes) :
    (m.update hashFunc h).isEmpty = false := by
  have h1 := hm.one_le_maxLevel
  rcases updateLoop_growth hashFunc _ _ (loopInv_appendLeaf hm h) with
    ⟨hmax, extra, -, hstart, hlev⟩ | ⟨hmax, -⟩
  · change (m.update hashFunc h).maxLevel = m.maxLevel at hmax
    by_cases hL : m.maxLevel = leafLevel
    · -- a tree of one level: the new leaf lies on the top level
      have htop : (m.update hashFunc h).getLevel (m.update hashFunc h).maxLevel =
          m.getLevel leafLevel ++ [h] := by
        rw [hmax]
        simp only [update]
        rw [hlev, hstart hL.symm]
        simp [getLevel, hL]
      simp [isEmpty, htop]
    · have hne : (m.update hashFunc h).maxLevel ≠ 1 := by
        rw [hmax]
        exact hL
      simp [isEmpty, hne]
  · change (m.update hashFunc h).maxLevel = m.maxLevel + 1 at hmax
    have hne : (m.update hashFunc h).maxLevel ≠ 1 := by omega
    simp [isEmpty, hne]

/-! ## `done` -/

@[simp] theorem closeLevel_maxLevel (m : MerkleTree) (cur : Nat) (h : Bytes) :
    (m.closeLevel cur h).maxLevel = m.maxLevel := rfl

theorem getLevel_closeLevel (m : MerkleTree) (cur ℓ : Nat) (h : Bytes) :
    (m.closeLevel cur h).getLevel ℓ =
      if ℓ = cur + 1 then m.getLevel (cur + 1) ++ [h]
      else if ℓ = cur then [] else m.getLevel ℓ := by
  simp only [closeLevel, getLevel, levelAt_appendLevel, levelAt_deleteLevel]
  by_cases h1 : ℓ = cur + 1 <;> simp [h1]

theorem doneLoop_of_ge (m : MerkleTree) (cur : Nat) (h : ¬ cur < m.maxLevel) :
    m.doneLoop hashFunc cur = m := by
  rw [doneLoop, if_neg h]

/-- What closing a level keeps, the whole loop of `done` keeps. -/
theorem doneLoop_induction (P : MerkleTree → Prop)
    (hP : ∀ m cur h, P m → P (m.closeLevel cur h)) (m : MerkleTree) (cur : Nat) (hm : P m) :
    P (m.doneLoop hashFunc cur) := by
  induction m, cur using doneLoop.induct hashFunc with
  | case1 m cur hlt hnil ih => rw [doneLoop, if_pos hlt, hnil]; exact ih hm
  | case2 m cur hlt h hone ih => rw [doneLoop, if_pos hlt, hone]; exact ih (hP _ _ _ hm)
  | case3 m cur hlt hnil hone ih =>
    rw [doneLoop, if_pos hlt]
    split
    · contradiction
    · rename_i h' hh'; exact absurd hh' (hone h')
    · exact ih (hP _ _ _ hm)
  | case4 m cur hge => rw [doneLoop_of_ge hashFunc m cur hge]; exact hm

theorem doneLoop_maxLevel (m : MerkleTree) (cur : Nat) :
    (m.doneLoop hashFunc cur).maxLevel = m.maxLevel :=
  doneLoop_induction hashFunc (fun m' => m'.maxLevel = m.maxLevel) (fun _ _ _ h => h) m cur rfl

theorem doneLoop_maxDegree (m : MerkleTree) (cur : Nat) :
    (m.doneLoop hashFunc cur).maxDegree = m.maxDegree :=
  doneLoop_induction hashFunc (fun m' => m'.maxDegree = m.maxDegree) (fun _ _ _ h => h) m cur rfl

/-- Closing level `cur` below the top and running the rest of the loop appends at most one
    hash to the top level, given that the rest of the loop does so on the closed tree. -/
theorem top_doneLoop_closeLevel (m : MerkleTree) (cur : Nat) (x : Bytes)
    (hlt : cur < m.maxLevel)
    (ih : ∃ extra : List Bytes, extra.length ≤ 1 ∧
      ((m.closeLevel cur x).doneLoop hashFunc (cur + 1)).getLevel m.maxLevel =
        (m.closeLevel cur x).getLevel m.maxLevel ++ extra) :
    ∃ extra : List Bytes, extra.length ≤ 1 ∧
      ((m.closeLevel cur x).doneLoop hashFunc (cur + 1)).getLevel m.maxLevel =
        m.getLevel m.maxLevel ++ extra := by
  by_cases hnext : cur + 1 = m.maxLevel
  · -- the closed level feeds the top level, and the loop ends
    rw [doneLoop_of_ge hashFunc _ _ (by simp; omega), getLevel_closeLevel,
      if_pos hnext.symm, hnext]
    exact ⟨[x], by simp, rfl⟩
  · obtain ⟨extra, hlen, hlev⟩ := ih
    rw [getLevel_closeLevel, if_neg (by omega), if_neg (by omega)] at hlev
    exact ⟨extra, hlen, hlev⟩

/-- The loop of `done` appends at most one hash to the top level. -/
theorem doneLoop_top (m : MerkleTree) (cur : Nat) :
    ∃ extra : List Bytes, extra.length ≤ 1 ∧
      (m.doneLoop hashFunc cur).getLevel m.maxLevel = m.getLevel m.maxLevel ++ extra := by
  induction m, cur using doneLoop.induct hashFunc with
  | case1 m cur hlt hnil ih => rw [doneLoop, if_pos hlt, hnil]; exact ih
  | case2 m cur hlt h hone ih =>
    rw [doneLoop, if_pos hlt, hone]
    exact top_doneLoop_closeLevel hashFunc m cur h hlt ih
  | case3 m cur hlt hnil hone ih =>
    rw [doneLoop, if_pos hlt]
    split
    · contradiction
    · rename_i h' hh'; exact absurd hh' (hone h')
    · exact top_doneLoop_closeLevel hashFunc m cur _ hlt ih
  | case4 m cur hge => exact ⟨[], by simp, by rw [doneLoop_of_ge hashFunc m cur hge]; simp⟩

/-! ## Extension -/

/-- `m'` extends `m`: its top level is no lower, and at the same height its top-level
    hashes start with those of `m`. -/
def Extends (m m' : MerkleTree) : Prop :=
  m.maxLevel ≤ m'.maxLevel ∧
    (m'.maxLevel = m.maxLevel → m.getLevel m.maxLevel <+: m'.getLevel m'.maxLevel)

theorem Extends.refl (m : MerkleTree) : m.Extends m :=
  ⟨Nat.le_refl _, fun _ => List.prefix_refl _⟩

theorem Extends.trans {m m' m'' : MerkleTree} (h1 : m.Extends m') (h2 : m'.Extends m'') :
    m.Extends m'' := by
  refine ⟨Nat.le_trans h1.1 h2.1, fun heq => ?_⟩
  have h' : m'.maxLevel = m.maxLevel := by have := h1.1; have := h2.1; omega
  exact (h1.2 h').trans (h2.2 (heq.trans h'.symm))

theorem extends_update {m : MerkleTree} (hm : m.WF) (h : Bytes) :
    m.Extends (m.update hashFunc h) := by
  rcases update_growth hashFunc hm h with ⟨hmax, extra, -, hlev⟩ | ⟨hmax, -⟩
  · refine ⟨by omega, fun _ => ?_⟩
    rw [hmax, hlev]
    exact List.prefix_append _ _
  · exact ⟨by omega, fun h' => by omega⟩

/-- `done` keeps or raises the top level and otherwise only appends to it. -/
theorem extends_done (m : MerkleTree) : m.Extends (m.done hashFunc) := by
  have hL := doneLoop_maxLevel hashFunc m leafLevel
  obtain ⟨extra, -, hlev⟩ := doneLoop_top hashFunc m leafLevel
  unfold done
  dsimp only
  split
  · -- the top level overflows: `maxLevel` goes up by one
    constructor
    · show m.maxLevel ≤ (doneLoop hashFunc m leafLevel).maxLevel + 1
      omega
    · intro h'
      change (doneLoop hashFunc m leafLevel).maxLevel + 1 = m.maxLevel at h'
      omega
  · refine ⟨Nat.le_of_eq hL.symm, fun _ => ?_⟩
    rw [hL, hlev]
    exact List.prefix_append _ _

theorem done_maxDegree (m : MerkleTree) : (m.done hashFunc).maxDegree = m.maxDegree := by
  unfold done
  dsimp only
  split <;> exact doneLoop_maxDegree hashFunc m leafLevel

/-- What one call can do to the tree of a results helper: nothing, or one `update`. -/
def StepsTo (m m' : MerkleTree) : Prop := m' = m ∨ ∃ h, m' = m.update hashFunc h

/-- A step of a well-formed tree: the top level stays and grows by at most one hash, or a
    new top level one higher starts with a single hash. -/
def OneStep (m m' : MerkleTree) : Prop :=
  (m'.maxLevel = m.maxLevel ∧
      (m'.getLevel m'.maxLevel).length ≤ (m.getLevel m.maxLevel).length + 1) ∨
    (m'.maxLevel = m.maxLevel + 1 ∧ (m'.getLevel m'.maxLevel).length = 1)

theorem StepsTo.wf {m m' : MerkleTree} (h : StepsTo hashFunc m m') (hm : m.WF) : m'.WF := by
  rcases h with rfl | ⟨x, rfl⟩
  · exact hm
  · exact wf_update hashFunc hm x

theorem StepsTo.extends {m m' : MerkleTree} (h : StepsTo hashFunc m m') (hm : m.WF) :
    m.Extends m' := by
  rcases h with rfl | ⟨x, rfl⟩
  · exact Extends.refl _
  · exact extends_update hashFunc hm x

theorem StepsTo.oneStep {m m' : MerkleTree} (h : StepsTo hashFunc m m') (hm : m.WF) :
    OneStep m m' := by
  rcases h with rfl | ⟨x, rfl⟩
  · exact .inl ⟨rfl, by omega⟩
  · rcases update_growth hashFunc hm x with ⟨hmax, extra, hlen, hlev⟩ | ⟨hmax, hlen⟩
    · left
      refine ⟨hmax, ?_⟩
      rw [hmax, hlev, List.length_append]
      omega
    · right
      rw [hmax]
      exact ⟨rfl, hlen⟩

theorem StepsTo.maxDegree {m m' : MerkleTree} (h : StepsTo hashFunc m m') :
    m'.maxDegree = m.maxDegree := by
  rcases h with rfl | ⟨x, rfl⟩
  · rfl
  · exact updateLoop_maxDegree hashFunc _ _

end MerkleTree

/-! ## The results helper -/

namespace RangeQueryResultsHelper

variable {κ : Type} (hashFunc : Bytes → Bytes) (serializeKVReads : List (KVRead κ) → Bytes)

/-- `AddResult` with hashing either leaves the tree alone or updates it once. -/
theorem addResult_mt {helper : RangeQueryResultsHelper κ} {mt : MerkleTree}
    (h : helper.mt = some mt) (r : KVRead κ) :
    ∃ mt', (helper.addResult hashFunc serializeKVReads r).mt = some mt' ∧
      MerkleTree.StepsTo hashFunc mt mt' := by
  unfold addResult
  simp only [h]
  split
  · exact ⟨_, rfl, .inr ⟨_, rfl⟩⟩
  · exact ⟨mt, rfl, .inl rfl⟩

/-- The summary `Done` returns, if any, is that of the tree after at most one more update,
    closed by `merkleTree.done`. -/
theorem done_summary {helper : RangeQueryResultsHelper κ} {mt : MerkleTree}
    (h : helper.mt = some mt) {s : QueryReadsMerkleSummary}
    (hs : (helper.done hashFunc serializeKVReads).2 = some s) :
    ∃ mt', MerkleTree.StepsTo hashFunc mt mt' ∧ s = (mt'.done hashFunc).getSummery := by
  unfold done at hs
  simp only [h] at hs
  split at hs
  · cases hs
  · split at hs
    · simp only [Option.some.injEq] at hs
      exact ⟨_, .inr ⟨_, rfl⟩, hs.symm⟩
    · simp only [Option.some.injEq] at hs
      exact ⟨mt, .inl rfl, hs.symm⟩

end RangeQueryResultsHelper

section Queue

variable {κ : Type} (hashFunc : Bytes → Bytes) (serializeKVReads : List (KVRead κ) → Bytes)

/-- `AddResult` below the degree only queues the read. -/
theorem addResult_queue (pendingResults : List (KVRead κ)) (mt : MerkleTree) (d : Nat)
    (h : pendingResults.length < d) (r : KVRead κ) :
    RangeQueryResultsHelper.addResult hashFunc serializeKVReads ⟨pendingResults, some mt, d⟩ r =
      ⟨pendingResults ++ [r], some mt, d⟩ := by
  simp [RangeQueryResultsHelper.addResult, Nat.not_lt.2 (Nat.succ_le_of_lt h)]

/-- The read that takes the queue past the degree hashes the queue into the next leaf. -/
theorem addResult_process (pendingResults : List (KVRead κ)) (mt : MerkleTree) (d : Nat)
    (h : pendingResults.length = d) (r : KVRead κ) :
    RangeQueryResultsHelper.addResult hashFunc serializeKVReads ⟨pendingResults, some mt, d⟩ r =
      ⟨[], some (mt.update hashFunc (hashFunc (serializeKVReads (pendingResults ++ [r])))), d⟩ := by
  simp [RangeQueryResultsHelper.addResult, RangeQueryResultsHelper.processPendingResults, h]

end Queue

end Fabric.Ledger
