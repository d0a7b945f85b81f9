import Fabric.Lib.Chunks
import Fabric.Ledger.MerkleGrowth

/-
  The range-query Merkle summary against a batch definition.

  `referenceSummary` builds the summary in one pass: the results are cut into consecutive
  chunks of `maxDegree + 1` (the last one shorter) and each chunk's serialization is hashed;
  then, level after level, the hashes are cut the same way, each full chunk is combined and a
  trailing partial chunk is carried up (a single hash as it is, several combined), until at most
  `maxDegree` hashes remain (`climb`).

  The tree of `RangeQueryResultsHelper` builds the same thing incrementally, and what it
  holds after the leaves `L` is a function of `L` (`Represents`): level 1 holds the partial
  chunk of `L`, level 2 the partial chunk of the combined hashes of `L`'s full chunks, and so
  on (`heldLevels`), with `maxLevel` the highest of these levels. `update` appends a leaf the
  way `fillChunks` appends an element, carrying a full chunk up as one more element of the
  level above (`updateLoop_represents`), and `done` closes the partial chunks bottom-up, which
  is `climb` over all the leaves (`doneLoop_climb`, `done_summary_eq_climb`).

  `merkleSummary_spec` puts this together over `AddResult` and `Done`, with the shape of the
  tree after every call and the prefix stability of the summary from `MerkleGrowth`.
-/

namespace Fabric.Ledger

open List

/-! ## The reference -/

section Reference

variable (hashFunc : Bytes → Bytes) (maxDegree : Nat)

/-- What a chunk of one level gives the next in the reference: a full chunk its combined
    hash; a trailing partial chunk its single hash as it is, or the combined hash of several. -/
def chunkHash (c : List Bytes) : Bytes :=
  if c.length = maxDegree + 1 then computeCombinedHash hashFunc c
  else
    match c with
    | [h] => h
    | c => computeCombinedHash hashFunc c

/-- The next level of the reference. -/
def levelUp (hashes : List Bytes) : List Bytes :=
  (hashes.chunks maxDegree).map (chunkHash hashFunc maxDegree)

/-- The reference's climb from `level`: up while more than `maxDegree` hashes remain. -/
def climb (h2 : 2 ≤ maxDegree) (level : Nat) (hashes : List Bytes) : Nat × List Bytes :=
  if hashes.length ≤ maxDegree then (level, hashes)
  else climb h2 (level + 1) (levelUp hashFunc maxDegree hashes)
termination_by hashes.length
decreasing_by
  simp only [levelUp, List.length_map]
  exact List.length_chunks_lt (by omega) (by omega)

/-- The reference summary of the results: the chunks' hashes are the leaves of the climb. -/
def referenceSummary {κ : Type} (serializeKVReads : List (KVRead κ) → Bytes)
    (h2 : 2 ≤ maxDegree) (results : List (KVRead κ)) : QueryReadsMerkleSummary :=
  let leaves := (results.chunks maxDegree).map fun c => hashFunc (serializeKVReads c)
  let top := climb hashFunc maxDegree h2 leafLevel leaves
  { maxDegree := maxDegree, maxLevel := top.1, maxLevelHashes := top.2 }

theorem climb_of_le {h2 : 2 ≤ maxDegree} {level : Nat} {hashes : List Bytes}
    (h : hashes.length ≤ maxDegree) : climb hashFunc maxDegree h2 level hashes = (level, hashes) := by
  rw [climb, if_pos h]

theorem climb_of_gt {h2 : 2 ≤ maxDegree} {level : Nat} {hashes : List Bytes}
    (h : maxDegree < hashes.length) :
    climb hashFunc maxDegree h2 level hashes =
      climb hashFunc maxDegree h2 (level + 1) (levelUp hashFunc maxDegree hashes) := by
  rw [climb, if_neg (by omega)]

theorem chunkHash_of_length_eq {c : List Bytes} (h : c.length = maxDegree + 1) :
    chunkHash hashFunc maxDegree c = computeCombinedHash hashFunc c := by
  unfold chunkHash
  rw [if_pos h]

theorem chunkHash_singleton (h2 : 2 ≤ maxDegree) (h : Bytes) :
    chunkHash hashFunc maxDegree [h] = h := by
  unfold chunkHash
  rw [if_neg (by simp; omega)]

theorem chunkHash_of_ne_singleton {c : List Bytes} (hc : ∀ h, c ≠ [h]) :
    chunkHash hashFunc maxDegree c = computeCombinedHash hashFunc c := by
  unfold chunkHash
  split
  · rfl
  · match c, hc with
    | [h], hc => exact absurd rfl (hc h)
    | [], _ => rfl
    | _ :: _ :: _, _ => rfl

/-- The climb ends with at most `maxDegree` hashes, and with some if it starts with some. -/
theorem climb_length (h2 : 2 ≤ maxDegree) (level : Nat) (hashes : List Bytes) :
    (climb hashFunc maxDegree h2 level hashes).2.length ≤ maxDegree ∧
      (hashes ≠ [] → (climb hashFunc maxDegree h2 level hashes).2 ≠ []) := by
  induction level, hashes using climb.induct hashFunc maxDegree h2 with
  | case1 level hashes hle =>
    rw [climb_of_le hashFunc maxDegree hle]
    exact ⟨hle, id⟩
  | case2 level hashes hgt ih =>
    rw [climb_of_gt hashFunc maxDegree (by omega)]
    refine ⟨ih.1, fun hne => ih.2 ?_⟩
    simpa [levelUp] using List.chunks_ne_nil hne

/-- From at most `maxDegree + 1` hashes the climb stops at once or makes one full chunk of them
    and stops one level up. -/
theorem climb_of_length_le_succ (h2 : 2 ≤ maxDegree) (level : Nat) {hashes : List Bytes}
    (h : hashes.length ≤ maxDegree + 1) :
    climb hashFunc maxDegree h2 level hashes =
      if hashes.length ≤ maxDegree then (level, hashes)
      else (level + 1, [computeCombinedHash hashFunc hashes]) := by
  split
  · exact climb_of_le hashFunc maxDegree ‹_›
  · rename_i hgt
    have hne : hashes ≠ [] := fun hnil => hgt (by simp [hnil])
    have hup : levelUp hashFunc maxDegree hashes = [computeCombinedHash hashFunc hashes] := by
      rw [levelUp, List.chunks_of_length_le h, if_neg hne, List.map_singleton,
        chunkHash_of_length_eq hashFunc maxDegree (by omega)]
    rw [climb_of_gt hashFunc maxDegree (by omega), hup,
      climb_of_le hashFunc maxDegree (by simp; omega)]

/-- The reference summary of some results has between one and `maxDegree` top hashes. -/
theorem length_referenceSummary {κ : Type} (serializeKVReads : List (KVRead κ) → Bytes)
    (h2 : 2 ≤ maxDegree) {results : List (KVRead κ)} (hne : results ≠ []) :
    1 ≤ (referenceSummary hashFunc maxDegree serializeKVReads h2 results).maxLevelHashes.length ∧
      (referenceSummary hashFunc maxDegree serializeKVReads h2 results).maxLevelHashes.length ≤
        maxDegree := by
  have hleaves : (results.chunks maxDegree).map (fun c => hashFunc (serializeKVReads c)) ≠ [] := by
    simpa using List.chunks_ne_nil hne
  obtain ⟨hle, hpos⟩ := climb_length hashFunc maxDegree h2 leafLevel
    ((results.chunks maxDegree).map fun c => hashFunc (serializeKVReads c))
  exact ⟨List.length_pos_iff.mpr (hpos hleaves), hle⟩

end Reference

/-! ## What the tree holds -/

section Held

variable (hashFunc : Bytes → Bytes) (d : Nat)

/-- The combined hashes of the full chunks of a level: what it has passed up. -/
def carried (hashes : List Bytes) : List Bytes :=
  (hashes.fillChunks d).1.map (computeCombinedHash hashFunc)

/-- The levels the tree holds after the hashes fed at its lowest level, from that level up:
    the partial chunk there, then the levels of what it has passed up. -/
def heldLevels (h2 : 2 ≤ d) (hashes : List Bytes) : List (List Bytes) :=
  (hashes.fillChunks d).2 ::
    if _h : (hashes.fillChunks d).1 = [] then [] else heldLevels h2 (carried hashFunc d hashes)
termination_by hashes.length
decreasing_by
  simp only [carried, List.length_map]
  exact List.length_fillChunks_fst_lt (by omega) _h

variable (h2 : 2 ≤ d)

theorem heldLevels_eq (hashes : List Bytes) :
    heldLevels hashFunc d h2 hashes = (hashes.fillChunks d).2 ::
      if (hashes.fillChunks d).1 = [] then [] else heldLevels hashFunc d h2 (carried hashFunc d hashes) := by
  rw [heldLevels]
  split <;> simp_all

theorem heldLevels_getD_zero (hashes : List Bytes) :
    (heldLevels hashFunc d h2 hashes).getD 0 [] = (hashes.fillChunks d).2 := by
  rw [heldLevels_eq]
  rfl

/-- Level `i + 1` is level `i` of what the lowest level has passed up; with nothing passed up
    both are empty. -/
theorem heldLevels_getD_succ (hashes : List Bytes) (i : Nat) :
    (heldLevels hashFunc d h2 hashes).getD (i + 1) [] =
      (heldLevels hashFunc d h2 (carried hashFunc d hashes)).getD i [] := by
  rw [heldLevels_eq]
  split
  · rename_i hfull
    have hcarried : carried hashFunc d hashes = [] := by simp [carried, hfull]
    rw [hcarried, heldLevels_eq]
    cases i <;> simp
  · simp

theorem length_heldLevels (hashes : List Bytes) :
    (heldLevels hashFunc d h2 hashes).length =
      if (hashes.fillChunks d).1 = [] then 1
      else (heldLevels hashFunc d h2 (carried hashFunc d hashes)).length + 1 := by
  rw [heldLevels_eq]
  split <;> simp

/-- The level above `S ++ T` in the reference, for a trailing `T` of at most one hash: what the
    full chunks of `S` passed up, then the hash of the partial chunk of `S` followed by `T`. -/
theorem levelUp_append {S T : List Bytes} (hT : T.length ≤ 1) :
    levelUp hashFunc d (S ++ T) = carried hashFunc d S ++
      if (S.fillChunks d).2 ++ T = [] then [] else [chunkHash hashFunc d ((S.fillChunks d).2 ++ T)] := by
  have hrest := List.length_fillChunks_snd_le d S
  have hfull := (List.fillChunks_spec d S).1
  rw [levelUp, List.chunks_append, List.chunks_of_length_le (by simp; omega), List.map_append,
    carried, List.map_congr_left fun c hc => chunkHash_of_length_eq hashFunc d (hfull c hc)]
  split <;> simp

theorem one_le_length_heldLevels (hashes : List Bytes) :
    1 ≤ (heldLevels hashFunc d h2 hashes).length := by
  rw [heldLevels_eq]
  simp

end Held

/-! ## The tree holds the levels of its leaves -/

section Tree

variable (hashFunc : Bytes → Bytes) (d : Nat) (h2 : 2 ≤ d)

namespace MerkleTree

/-- From level `base` up, the tree holds the levels of the hashes `L` fed at `base`, and its
    top level is the highest of them. -/
structure Represents (m : MerkleTree) (base : Nat) (L : List Bytes) : Prop where
  maxDegree_eq : m.maxDegree = d
  level_eq : ∀ i, m.getLevel (base + i) = (heldLevels hashFunc d h2 L).getD i []
  maxLevel_eq : m.maxLevel + 1 = base + (heldLevels hashFunc d h2 L).length

/-- The tree of `newMerkleTree` holds the levels of no hashes. -/
theorem represents_init : (⟨[], 1, d, h2⟩ : MerkleTree).Represents hashFunc d h2 leafLevel [] where
  maxDegree_eq := rfl
  level_eq i := by
    rw [heldLevels_eq]
    cases i <;> simp [getLevel]
  maxLevel_eq := by
    rw [length_heldLevels]
    simp [leafLevel]

/-- A level that has passed nothing up is the top level. -/
theorem maxLevel_eq_of_fillChunks_nil {m : MerkleTree} {base : Nat} {L : List Bytes}
    (htop : m.maxLevel + 1 = base + (heldLevels hashFunc d h2 L).length)
    (hfull : (L.fillChunks d).1 = []) : m.maxLevel = base := by
  rw [length_heldLevels, if_pos hfull] at htop
  omega

/-- The loop of `update` at `base`, where a hash `x` was just appended to the partial chunk of
    the hashes `L` fed there: the tree then holds the levels of `L ++ [x]` from `base` up, and
    the levels below `base` are as they were. The loop carries a full chunk up exactly when
    `fillChunks` closes it, and the carried hash is the next element of the level above. -/
theorem updateLoop_represents (m : MerkleTree) (base : Nat) :
    ∀ (L : List Bytes) (x : Bytes), m.maxDegree = d →
      (∀ i, m.getLevel (base + (i + 1)) = (heldLevels hashFunc d h2 L).getD (i + 1) []) →
      m.getLevel base = (L.fillChunks d).2 ++ [x] →
      m.maxLevel + 1 = base + (heldLevels hashFunc d h2 L).length →
      (m.updateLoop hashFunc base).Represents hashFunc d h2 base (L ++ [x]) ∧
        ∀ ℓ < base, (m.updateLoop hashFunc base).getLevel ℓ = m.getLevel ℓ := by
  induction m, base using updateLoop.induct hashFunc with
  | case1 m cur hle =>
    intro L x hd habove hbase htop
    rw [updateLoop_of_le hashFunc m cur hle]
    -- the hash joins the partial chunk, which does not overflow
    have hrest : (L.fillChunks d).2.length ≠ d := by
      rw [hbase, hd, List.length_append, List.length_singleton] at hle
      omega
    have hfill := List.fillChunks_append_of_ne hrest x
    have hcarried : carried hashFunc d (L ++ [x]) = carried hashFunc d L := by
      simp only [carried, hfill]
    refine ⟨⟨hd, fun i => ?_, ?_⟩, fun _ _ => rfl⟩
    · cases i with
      | zero => rw [heldLevels_getD_zero, hfill, Nat.add_zero]; exact hbase
      | succ i => rw [habove i, heldLevels_getD_succ, heldLevels_getD_succ, hcarried]
    · rw [htop, length_heldLevels hashFunc d h2 (L ++ [x]), length_heldLevels hashFunc d h2 L, hfill,
        hcarried]
  | case2 m cur hgt ih =>
    intro L x hd habove hbase htop
    have hgt' : m.maxDegree < (m.getLevel cur).length := by omega
    rw [updateLoop_of_gt hashFunc m cur hgt']
    -- the hash closes the partial chunk, whose combined hash goes one level up
    have hrest : (L.fillChunks d).2.length = d := by
      have := List.length_fillChunks_snd_le d L
      rw [hbase, hd, List.length_append, List.length_singleton] at hgt'
      omega
    have hfill := List.fillChunks_append_of_eq hrest x
    have hcarried : carried hashFunc d (L ++ [x]) =
        carried hashFunc d L ++ [computeCombinedHash hashFunc (m.getLevel cur)] := by
      simp only [carried, hfill, hbase, List.map_append, List.map_singleton]
    have hfull : ((L ++ [x]).fillChunks d).1 ≠ [] := by simp [hfill]
    obtain ⟨⟨hd', hlev, htop'⟩, hbelow⟩ :=
      ih (carried hashFunc d L) (computeCombinedHash hashFunc (m.getLevel cur))
        (by rw [carry_maxDegree, hd])
        (fun i => by
          rw [getLevel_carry, if_neg (by omega), if_neg (by omega), show cur + 1 + (i + 1) =
            cur + (i + 1 + 1) by omega, habove, heldLevels_getD_succ])
        (by rw [getLevel_carry, if_pos rfl, show cur + 1 = cur + (0 + 1) by rfl, habove,
          heldLevels_getD_succ, heldLevels_getD_zero])
        (by
          rw [carry_maxLevel]
          by_cases hnil : (L.fillChunks d).1 = []
          · -- nothing was passed up before: the carry opens the level above
            have hL := maxLevel_eq_of_fillChunks_nil hashFunc d h2 htop hnil
            have hc : carried hashFunc d L = [] := by simp [carried, hnil]
            rw [hc, length_heldLevels]
            simp
            omega
          · rw [length_heldLevels, if_neg hnil] at htop
            have := one_le_length_heldLevels hashFunc d h2 (carried hashFunc d L)
            omega)
    refine ⟨⟨hd', fun i => ?_, ?_⟩, fun ℓ hℓ => ?_⟩
    · cases i with
      | zero =>
        rw [show cur + 0 = cur from rfl, hbelow cur (by omega), getLevel_carry, if_neg (by omega),
          if_pos rfl, heldLevels_getD_zero, hfill]
      | succ i =>
        rw [show cur + (i + 1) = cur + 1 + i by omega, hlev, heldLevels_getD_succ, hcarried]
    · rw [length_heldLevels, if_neg hfull, hcarried]
      omega
    · rw [hbelow ℓ (by omega), getLevel_carry, if_neg (by omega), if_neg (by omega)]

/-- `update` feeds one more leaf at level 1. -/
theorem update_represents {m : MerkleTree} {L : List Bytes}
    (hm : m.Represents hashFunc d h2 leafLevel L) (x : Bytes) :
    (m.update hashFunc x).Represents hashFunc d h2 leafLevel (L ++ [x]) := by
  have hlev := hm.level_eq
  unfold update
  refine (updateLoop_represents hashFunc d h2 { m with tree := appendLevel m.tree leafLevel x }
    leafLevel L x hm.maxDegree_eq (fun i => ?_) ?_ hm.maxLevel_eq).1
  · simp only [getLevel, levelAt_appendLevel, if_neg (show leafLevel + (i + 1) ≠ leafLevel by
      simp)]
    exact hlev (i + 1)
  · have := hlev 0
    rw [heldLevels_getD_zero] at this
    simp only [getLevel, Nat.add_zero] at this
    simp [getLevel, this]

/-- Inside the loop of `done` at `cur`: level `cur` holds the partial chunk of the hashes `S`
    fed there followed by the at most one hash `T` closed from below, and the levels above
    hold the levels of `S`. -/
structure Closing (m : MerkleTree) (cur : Nat) (S T : List Bytes) : Prop where
  maxDegree_eq : m.maxDegree = d
  length_le : T.length ≤ 1
  level_eq : m.getLevel cur = (S.fillChunks d).2 ++ T
  above_eq : ∀ i, m.getLevel (cur + (i + 1)) = (heldLevels hashFunc d h2 S).getD (i + 1) []
  maxLevel_eq : m.maxLevel + 1 = cur + (heldLevels hashFunc d h2 S).length

theorem Represents.closing {m : MerkleTree} {base : Nat} {L : List Bytes}
    (hm : m.Represents hashFunc d h2 base L) : m.Closing hashFunc d h2 base L [] where
  maxDegree_eq := hm.maxDegree_eq
  length_le := by simp
  level_eq := by
    rw [List.append_nil, ← heldLevels_getD_zero hashFunc d h2]
    exact hm.level_eq 0
  above_eq i := hm.level_eq (i + 1)
  maxLevel_eq := hm.maxLevel_eq

/-- One pass of the loop of `done` below the top is one step of the reference's climb: level
    `cur` is closed into `T'` on level `cur + 1`, nothing for an empty level and its
    `chunkHash` otherwise, and the climb from `cur` over `S ++ T` is the climb from `cur + 1`
    over what `S` passed up followed by `T'`. -/
theorem Closing.close {m : MerkleTree} {cur : Nat} {S T : List Bytes}
    (hc : m.Closing hashFunc d h2 cur S T) (hlt : cur < m.maxLevel) (m' : MerkleTree)
    (T' : List Bytes) (hT' : T' = if (S.fillChunks d).2 ++ T = [] then []
      else [chunkHash hashFunc d ((S.fillChunks d).2 ++ T)])
    (hmax : m'.maxLevel = m.maxLevel) (hdeg : m'.maxDegree = m.maxDegree)
    (hlev : ∀ ℓ, cur < ℓ →
      m'.getLevel ℓ = if ℓ = cur + 1 then m.getLevel (cur + 1) ++ T' else m.getLevel ℓ) :
    m'.Closing hashFunc d h2 (cur + 1) (carried hashFunc d S) T' ∧
      climb hashFunc d h2 cur (S ++ T) =
        climb hashFunc d h2 (cur + 1) (carried hashFunc d S ++ T') := by
  -- below the top, `S` has passed something up
  have hfull : (S.fillChunks d).1 ≠ [] := by
    intro hnil
    have htop := hc.maxLevel_eq
    rw [length_heldLevels, if_pos hnil] at htop
    omega
  have hlen := length_heldLevels hashFunc d h2 S
  rw [if_neg hfull] at hlen
  refine ⟨⟨by rw [hdeg, hc.maxDegree_eq], by rw [hT']; split <;> simp, ?_, fun i => ?_, ?_⟩, ?_⟩
  · rw [hlev _ (by omega), if_pos rfl, show cur + 1 = cur + (0 + 1) from rfl, hc.above_eq,
      heldLevels_getD_succ, heldLevels_getD_zero]
  · rw [hlev _ (by omega), if_neg (by omega), show cur + 1 + (i + 1) = cur + (i + 1 + 1) by omega,
      hc.above_eq, heldLevels_getD_succ]
  · rw [hmax, hc.maxLevel_eq, hlen]
    omega
  · have hgt : d < (S ++ T).length := by
      have := List.lt_length_of_fillChunks_ne_nil hfull
      simp only [List.length_append]
      omega
    rw [climb_of_gt hashFunc d hgt, levelUp_append hashFunc d hc.length_le, hT']

/-- At the top the loop of `done` stops: level `cur` is the top level and holds all of `S`
    followed by `T`, at most `d + 1` hashes. -/
theorem Closing.top {m : MerkleTree} {cur : Nat} {S T : List Bytes}
    (hc : m.Closing hashFunc d h2 cur S T) (hge : ¬ cur < m.maxLevel) :
    m.maxLevel = cur ∧ m.getLevel cur = S ++ T ∧ (S ++ T).length ≤ d + 1 := by
  have htop := hc.maxLevel_eq
  have hone := one_le_length_heldLevels hashFunc d h2 S
  -- at the top, `S` has passed nothing up
  have hnil : (S.fillChunks d).1 = [] := by
    by_contra hne
    rw [length_heldLevels, if_neg hne] at htop
    have := one_le_length_heldLevels hashFunc d h2 (carried hashFunc d S)
    omega
  have hS := List.fillChunks_snd_of_fst_eq_nil hnil
  have hrest := List.length_fillChunks_snd_le d S
  rw [hS] at hrest
  have hT := hc.length_le
  refine ⟨by omega, by rw [hc.level_eq, hS], ?_⟩
  simp only [List.length_append]
  omega

/-- The loop of `done` from `cur` is the reference's climb from `cur` up to the top level,
    where it leaves at most `d + 1` hashes. -/
theorem doneLoop_climb (m : MerkleTree) (cur : Nat) :
    ∀ S T, m.Closing hashFunc d h2 cur S T →
      ((m.doneLoop hashFunc cur).getLevel m.maxLevel).length ≤ d + 1 ∧
        climb hashFunc d h2 cur (S ++ T) =
          climb hashFunc d h2 m.maxLevel ((m.doneLoop hashFunc cur).getLevel m.maxLevel) := by
  induction m, cur using doneLoop.induct hashFunc with
  | case1 m cur hlt hnil ih =>
    intro S T hc
    -- an empty level closes into nothing
    obtain ⟨hc', hclimb⟩ := hc.close hashFunc d h2 hlt m []
      (by rw [← hc.level_eq, hnil, if_pos rfl]) rfl rfl
      (fun ℓ _ => by by_cases hℓ : ℓ = cur + 1 <;> simp [hℓ])
    rw [hclimb, doneLoop, if_pos hlt, hnil]
    exact ih _ _ hc'
  | case2 m cur hlt h hone ih =>
    intro S T hc
    -- a single hash is carried up as it is
    obtain ⟨hc', hclimb⟩ := hc.close hashFunc d h2 hlt (m.closeLevel cur h) [h]
      (by rw [← hc.level_eq, hone, if_neg (List.cons_ne_nil _ _), chunkHash_singleton hashFunc d h2])
      rfl rfl (fun ℓ hℓ => by rw [getLevel_closeLevel, if_neg (show ℓ ≠ cur by omega)])
    rw [hclimb, doneLoop, if_pos hlt, hone]
    exact ih _ _ hc'
  | case3 m cur hlt hnil hone ih =>
    intro S T hc
    -- several hashes are combined
    obtain ⟨hc', hclimb⟩ := hc.close hashFunc d h2 hlt
      (m.closeLevel cur (computeCombinedHash hashFunc (m.getLevel cur)))
      [computeCombinedHash hashFunc (m.getLevel cur)]
      (by rw [← hc.level_eq, if_neg hnil, chunkHash_of_ne_singleton hashFunc d hone])
      rfl rfl (fun ℓ hℓ => by rw [getLevel_closeLevel, if_neg (show ℓ ≠ cur by omega)])
    rw [hclimb, doneLoop, if_pos hlt]
    split
    · contradiction
    · rename_i h' hh'
      exact absurd hh' (hone h')
    · exact ih _ _ hc'
  | case4 m cur hge =>
    intro S T hc
    obtain ⟨hmax, hlev, hlen⟩ := hc.top hashFunc d h2 hge
    rw [doneLoop_of_ge hashFunc m cur hge, hmax, hlev]
    exact ⟨hlen, rfl⟩

/-- Closed by `done`, a tree that holds the levels of the hashes `L` fed at the leaf level
    gives the summary of the reference's climb over `L`. -/
theorem done_summary_eq_climb {m : MerkleTree} {L : List Bytes}
    (hm : m.Represents hashFunc d h2 leafLevel L) :
    (m.done hashFunc).getSummery =
      { maxDegree := d, maxLevel := (climb hashFunc d h2 leafLevel L).1,
        maxLevelHashes := (climb hashFunc d h2 leafLevel L).2 } := by
  obtain ⟨hlen, hclimb⟩ := doneLoop_climb hashFunc d h2 m leafLevel L [] hm.closing
  have hmax := doneLoop_maxLevel hashFunc m leafLevel
  have hdeg : (m.doneLoop hashFunc leafLevel).maxDegree = d := by
    rw [doneLoop_maxDegree, hm.maxDegree_eq]
  rw [List.append_nil, climb_of_length_le_succ hashFunc d h2 _ hlen] at hclimb
  rw [hclimb]
  unfold done
  dsimp only
  split
  · -- the top level overflows: both make one combined hash a level up
    rename_i hgt
    rw [hmax, hdeg] at hgt
    rw [if_neg (by omega)]
    simp [getSummery, getLevel, hmax, hdeg]
  · rename_i hle
    rw [hmax, hdeg] at hle
    rw [if_pos (by omega)]
    simp [getSummery, hmax, hdeg]

/-- A tree that holds the levels of some hashes is not empty. -/
theorem Represents.isEmpty_eq_false {m : MerkleTree} {L : List Bytes}
    (hm : m.Represents hashFunc d h2 leafLevel L) (hL : L ≠ []) : m.isEmpty = false := by
  by_cases hfull : (L.fillChunks d).1 = []
  · -- one level, which holds all of `L`
    have hmax := maxLevel_eq_of_fillChunks_nil hashFunc d h2 hm.maxLevel_eq hfull
    have hlev := hm.level_eq 0
    rw [heldLevels_getD_zero, List.fillChunks_snd_of_fst_eq_nil hfull] at hlev
    simp only [Nat.add_zero] at hlev
    simp [isEmpty, hmax, hlev, hL]
  · have htop := hm.maxLevel_eq
    rw [length_heldLevels, if_neg hfull] at htop
    have := one_le_length_heldLevels hashFunc d h2 (carried hashFunc d L)
    have hne : m.maxLevel ≠ 1 := by
      simp only [leafLevel] at htop
      omega
    simp [isEmpty, hne]

end MerkleTree

end Tree

/-! ## The results helper against the reference -/

section Helper

variable {κ : Type} (hashFunc : Bytes → Bytes) (serializeKVReads : List (KVRead κ) → Bytes)
  (d : Nat) (h2 : 2 ≤ d)

open MerkleTree

/-- After `AddResult` of the reads `R` on a fresh helper, the reads past the last full chunk
    are pending and the tree holds the levels of the hashes of the full chunks. -/
theorem foldl_addResult_represents (R : List (KVRead κ)) :
    ∃ m, R.foldl (RangeQueryResultsHelper.addResult hashFunc serializeKVReads)
          ⟨[], some ⟨[], 1, d, h2⟩, d⟩ = ⟨(R.fillChunks d).2, some m, d⟩ ∧
      m.Represents hashFunc d h2 leafLevel
        ((R.fillChunks d).1.map fun c => hashFunc (serializeKVReads c)) := by
  induction R using List.reverseRecOn with
  | nil => exact ⟨_, rfl, represents_init hashFunc d h2⟩
  | append_singleton R r ih =>
    obtain ⟨m, hfold, hm⟩ := ih
    rw [List.foldl_append, hfold, List.foldl_cons, List.foldl_nil]
    by_cases hrest : (R.fillChunks d).2.length = d
    · -- the read fills the pending chunk, whose hash is the next leaf
      rw [addResult_process hashFunc serializeKVReads _ m d hrest,
        List.fillChunks_append_of_eq hrest, List.map_append, List.map_singleton]
      exact ⟨_, rfl, update_represents hashFunc d h2 hm _⟩
    · have hlt : (R.fillChunks d).2.length < d := by
        have := List.length_fillChunks_snd_le d R
        omega
      rw [addResult_queue hashFunc serializeKVReads _ m d hlt, List.fillChunks_append_of_ne hrest]
      exact ⟨m, rfl, hm⟩

/-- `Done` after `AddResult` of more than `d` reads on a fresh helper returns the reference
    summary of the reads. -/
theorem done_foldl_addResult {R : List (KVRead κ)} (hR : d < R.length) :
    ((R.foldl (RangeQueryResultsHelper.addResult hashFunc serializeKVReads)
      ⟨[], some ⟨[], 1, d, h2⟩, d⟩).done hashFunc serializeKVReads).2 =
      some (referenceSummary hashFunc d serializeKVReads h2 R) := by
  obtain ⟨m, hfold, hm⟩ := foldl_addResult_represents hashFunc serializeKVReads d h2 R
  -- more than `d` reads make a full chunk, so the tree is not empty
  have hfull : (R.fillChunks d).1 ≠ [] := by
    intro hnil
    have := List.length_fillChunks_snd_le d R
    rw [List.fillChunks_snd_of_fst_eq_nil hnil] at this
    omega
  have hempty := hm.isEmpty_eq_false hashFunc d h2 (by simpa using hfull)
  rw [hfold]
  simp only [RangeQueryResultsHelper.done, hempty]
  rw [if_neg Bool.false_ne_true]
  unfold referenceSummary
  dsimp only
  rw [List.chunks_eq_fillChunks]
  by_cases hrest : (R.fillChunks d).2 = []
  · -- no read is pending: the leaves are the hashes of the full chunks
    rw [if_neg (by simp [hrest]), if_pos hrest, List.append_nil,
      done_summary_eq_climb hashFunc d h2 hm]
  · -- the pending reads are hashed into the last leaf
    rw [if_pos (by simpa using hrest), if_neg hrest, List.map_append, List.map_singleton,
      done_summary_eq_climb hashFunc d h2 (update_represents hashFunc d h2 hm _)]

/-- Along `AddResult`s the tree stays well formed, keeps its degree and extends every tree
    before it. -/
theorem foldl_addResult_extends {helper : RangeQueryResultsHelper κ} {mt : MerkleTree}
    (hmt : helper.mt = some mt) (hwf : mt.WF) (R : List (KVRead κ)) :
    ∃ mt', (R.foldl (RangeQueryResultsHelper.addResult hashFunc serializeKVReads) helper).mt =
        some mt' ∧ mt'.WF ∧ mt.Extends mt' ∧ mt'.maxDegree = mt.maxDegree := by
  induction R generalizing helper mt with
  | nil => exact ⟨mt, hmt, hwf, Extends.refl mt, rfl⟩
  | cons r R ih =>
    obtain ⟨mt1, hmt1, hsteps⟩ :=
      RangeQueryResultsHelper.addResult_mt hashFunc serializeKVReads hmt r
    obtain ⟨mt', hmt', hwf', hext, hdeg⟩ := ih hmt1 (hsteps.wf hashFunc hwf)
    exact ⟨mt', hmt', hwf', (hsteps.extends hashFunc hwf).trans hext,
      hdeg.trans (hsteps.maxDegree hashFunc)⟩

end Helper

section Summary

variable {κ : Type} (hashFunc : Bytes → Bytes) (serializeKVReads : List (KVRead κ) → Bytes)

open MerkleTree

theorem merkleSummary_spec (maxDegree : Nat) (h2 : 2 ≤ maxDegree) (results : List (KVRead κ))
    (hn : maxDegree < results.length) :
    ∃ helper0, newRangeQueryResultsHelper true maxDegree = .ok helper0 ∧
      (∀ p, p <+: results → ∃ m,
        (p.foldl (RangeQueryResultsHelper.addResult hashFunc serializeKVReads) helper0).mt =
          some m ∧ ∀ ℓ, (m.getLevel ℓ).length ≤ maxDegree) ∧
      ∃ s, ((results.foldl (RangeQueryResultsHelper.addResult hashFunc serializeKVReads)
          helper0).done hashFunc serializeKVReads).2 = some s ∧
        1 ≤ s.maxLevelHashes.length ∧ s.maxLevelHashes.length ≤ maxDegree ∧
        s = referenceSummary hashFunc maxDegree serializeKVReads h2 results ∧
        ∀ p, p <+: results → ∀ s',
          (p.foldl (RangeQueryResultsHelper.addResult hashFunc serializeKVReads)
            helper0).getMerkleSummary = some s' →
          s'.maxLevel = s.maxLevel → s'.maxLevelHashes <+: s.maxLevelHashes := by
  have hnew : (newRangeQueryResultsHelper true maxDegree :
      Except String (RangeQueryResultsHelper κ)) =
      .ok ⟨[], some ⟨[], 1, maxDegree, h2⟩, maxDegree⟩ := by
    simp [newRangeQueryResultsHelper, newMerkleTree, h2, Except.map]
  have hmk : newMerkleTree maxDegree = .ok ⟨[], 1, maxDegree, h2⟩ := by
    simp [newMerkleTree, h2]
  have hwf0 := wf_newMerkleTree hmk
  have hmt0 : (⟨[], some ⟨[], 1, maxDegree, h2⟩, maxDegree⟩ : RangeQueryResultsHelper κ).mt =
      some ⟨[], 1, maxDegree, h2⟩ := rfl
  have hdone := done_foldl_addResult hashFunc serializeKVReads maxDegree h2 hn
  obtain ⟨hpos, hle⟩ := length_referenceSummary hashFunc maxDegree serializeKVReads h2
    (List.ne_nil_of_length_pos (by omega : 0 < results.length))
  refine ⟨_, hnew, fun p _ => ?_, _, hdone, hpos, hle, rfl, fun p hp s' hs' hlevel => ?_⟩
  · -- every tree on the way is well formed, of degree `maxDegree`
    obtain ⟨m, hm, hwf, -, hdeg⟩ := foldl_addResult_extends hashFunc serializeKVReads hmt0 hwf0 p
    exact ⟨m, hm, fun ℓ => (hwf.level_le ℓ).trans_eq hdeg⟩
  · -- the tree after the prefix extends the final tree, closed by `done`
    obtain ⟨q, rfl⟩ := hp
    obtain ⟨mp, hmp, hwfp, -, -⟩ := foldl_addResult_extends hashFunc serializeKVReads hmt0 hwf0 p
    obtain ⟨mf, hmf, hwff, hext, -⟩ :=
      foldl_addResult_extends hashFunc serializeKVReads hmp hwfp q
    rw [List.foldl_append] at hdone
    obtain ⟨mt', hsteps, hs⟩ :=
      RangeQueryResultsHelper.done_summary hashFunc serializeKVReads hmf hdone
    have hext' := hext.trans ((hsteps.extends hashFunc hwff).trans (extends_done hashFunc mt'))
    simp only [RangeQueryResultsHelper.getMerkleSummary, hmp, Option.map_some,
      Option.some.injEq] at hs'
    subst hs'
    rw [hs] at hlevel ⊢
    exact hext'.2 hlevel.symm

/-- Three reads at degree 2: `Done` returns the reference summary. -/
theorem merkleSummary_spec_three_reads :
    (2 : Nat) ≤ 2 ∧ 2 < ([⟨1, none⟩, ⟨2, none⟩, ⟨3, none⟩] : List (KVRead Nat)).length ∧
      ∃ helper0 : RangeQueryResultsHelper Nat, newRangeQueryResultsHelper true 2 = .ok helper0 ∧
        ∃ s, ((([⟨1, none⟩, ⟨2, none⟩, ⟨3, none⟩] : List (KVRead Nat)).foldl
            (RangeQueryResultsHelper.addResult id fun rs => rs.map fun r => r.key.toUInt8)
            helper0).done id (fun rs => rs.map fun r => r.key.toUInt8)).2 = some s ∧
          s = referenceSummary id 2 (fun rs => rs.map fun r => r.key.toUInt8) (by decide)
            [⟨1, none⟩, ⟨2, none⟩, ⟨3, none⟩] := by
  obtain ⟨helper0, hnew, -, s, hs, -, -, href, -⟩ :=
    merkleSummary_spec id (fun rs : List (KVRead Nat) => rs.map fun r => r.key.toUInt8) 2
      (by decide) [⟨1, none⟩, ⟨2, none⟩, ⟨3, none⟩] (by decide)
  exact ⟨by decide, by decide, helper0, hnew, s, hs, href⟩

end Summary

end Fabric.Ledger
