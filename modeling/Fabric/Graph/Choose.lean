import Fabric.Lib.Combinations

/-
  Subset enumeration of the policy graph (`common/graph/choose.go`).

  `chooseKoutOfN(n, k)` collects the index lists that `choose` appends to `subGroups`: a
  backtracking search over the indices `0..n-1` that first picks index `i` and then leaves
  it out, and gives up on a branch once fewer indices are left than it still needs. The
  recursion of the source has no bound of its own; here `choose` carries a fuel for its
  depth and returns `none` when the fuel runs out, so a call that never returns is one that
  is `none` for every fuel.

  For `0 ≤ k` every call returns within `n + 1` levels with the `k`-element sublists of
  `[0, …, n-1]` in lexicographic order (`choose_eq`, from the library enumeration
  `List.sublistsLenLex`; `chooseKoutOfN_spec` for `chooseKoutOfN`). For `k < 0` the test `targetAmount - len(currentSubGroup) >
  itemsLeftToPick` never holds along the branch that keeps picking, since both sides go
  down by one at each pick, and no length reaches `k`: the call never returns
  (`choose_eq_none_of_neg`).

  `CombinationsExceed` compares `big.Int.Binomial` with the threshold. `Binomial` and
  `MulRange` are those of `math/big` in go1.23.2, the version `go.mod` names: their
  arguments are `int64`, and `n - k + 1` wraps. For `0 ≤ k ≤ n < MaxInt64` the result is the
  binomial coefficient (`binomial_eq_choose`), which `CombinationsExceed` compares with the
  threshold (`combinationsExceed_spec`); for `k < 0` it is the quotient of two empty products,
  `1` (`binomial_of_neg`), so `CombinationsExceed(0, -1, 0)` holds
  (`chooseKoutOfN_negative_never_returns`);
  and at `n = MaxInt64` with `k` one of `0` and `n`, `n - k + 1` wraps to `MinInt64` and the
  product over `[MinInt64, MaxInt64]` is `0` (`binomial_maxValue`).
-/

namespace Fabric.Graph

open List

/-- `nat.mulRange(a, b)`: the product `a·(a+1)·…·b`, `1` for an empty range. The source
    multiplies the products of the two halves of the range; the product is the same. -/
def natMulRange (a b : Nat) : Nat := (List.range' a (b + 1 - a)).prod

/-- `Int.MulRange(a, b)`: the product of the integers in `[a, b]`. -/
def mulRange (a b : Int64) : Int :=
  if a > b then 1
  else if a ≤ 0 ∧ b ≥ 0 then 0
  else
    -- a range below zero: the product of the negated range, negative for an odd count
    let (neg, a, b) := if a < 0 then ((b - a) &&& 1 == 0, -b, -a) else (false, a, b)
    let abs : Int := natMulRange a.toUInt64.toNat b.toUInt64.toNat
    if neg then -abs else abs

/-- `Int.Binomial(n, k)`, with `int64` arguments and arithmetic. -/
def binomial (n k : Int64) : Int :=
  if k > n then 0
  else
    -- reduce the number of multiplications by reducing k
    let k := if k > n - k then n - k else k
    (mulRange (n - k + 1) n).tdiv (mulRange 1 k)

/-- `CombinationsExceed`; Go's `int` is 64 bits wide. -/
def combinationsExceed (n k threshold : Int64) : Bool :=
  if n < k then false else decide (binomial n k > threshold.toInt)

/-- `choose`, given the `subGroups` collected so far, with `fuel` for the depth of the
    recursion: `none` when the fuel runs out. -/
def choose : Nat → Int → Int → Int → List Int → List (List Int) → Option (List (List Int))
  | 0, _, _, _, _, _ => none
  | fuel + 1, n, targetAmount, i, currentSubGroup, subGroups =>
    if (currentSubGroup.length : Int) = targetAmount then some (subGroups ++ [currentSubGroup])
    else
      let itemsLeftToPick := n - i
      if targetAmount - currentSubGroup.length > itemsLeftToPick then some subGroups
      else do
        -- pick index `i`, then leave it out
        let subGroups ← choose fuel n targetAmount (i + 1) (currentSubGroup ++ [i]) subGroups
        choose fuel n targetAmount (i + 1) currentSubGroup subGroups

/-- `chooseKoutOfN`, with `fuel` for the depth of `choose`. -/
def chooseKoutOfN (fuel : Nat) (n k : Int) : Option (List (List Int)) :=
  choose fuel n k 0 [] []

/-! ## The indices left to pick -/

/-- The indices `i, i+1, …, n-1`. -/
def indices (i n : Int) : List Int := (List.range (n - i).toNat).map fun j : Nat => i + (j : Int)

theorem length_indices (i n : Int) : (indices i n).length = (n - i).toNat := by
  simp [indices]

theorem indices_of_lt {i n : Int} (h : i < n) : indices i n = i :: indices (i + 1) n := by
  have hlen : (n - i).toNat = (n - (i + 1)).toNat + 1 := by omega
  rw [indices, hlen, List.range_succ_eq_map, List.map_cons, List.map_map, indices]
  congr 1
  · omega
  · exact List.map_congr_left fun j _ => by simp; omega

theorem mem_indices {i n x : Int} : x ∈ indices i n ↔ i ≤ x ∧ x < n := by
  simp only [indices, List.mem_map, List.mem_range]
  constructor
  · rintro ⟨j, hj, rfl⟩
    omega
  · intro h
    exact ⟨(x - i).toNat, by omega, by omega⟩

theorem pairwise_lt_indices (i n : Int) : (indices i n).Pairwise (· < ·) := by
  simp only [indices, List.pairwise_map]
  exact List.pairwise_lt_range.imp fun h => by omega

/-! ## The recursion -/

/-- With `0 ≤ len(currentSubGroup) ≤ k` and enough fuel for the `n - i` indices left, `choose`
    appends to `subGroups` the current subgroup extended by each way of picking the
    remaining `k - len(currentSubGroup)` indices from `i, …, n-1`, in the search's order. -/
theorem choose_eq (n k : Int) (fuel : Nat) (i : Int) (currentSubGroup : List Int)
    (subGroups : List (List Int)) (hk : (currentSubGroup.length : Int) ≤ k) (hi : i ≤ n)
    (hfuel : (n - i).toNat < fuel) :
    choose fuel n k i currentSubGroup subGroups =
      some (subGroups ++ (sublistsLenLex (k - currentSubGroup.length).toNat (indices i n)).map
        (currentSubGroup ++ ·)) := by
  induction fuel generalizing i currentSubGroup subGroups with
  | zero => omega
  | succ fuel ih =>
    unfold choose
    by_cases hlen : (currentSubGroup.length : Int) = k
    · -- the subgroup is complete
      simp [hlen]
    · rw [if_neg hlen]
      dsimp only
      by_cases hgt : k - currentSubGroup.length > n - i
      · -- too few indices left: nothing is appended
        rw [if_pos hgt, sublistsLenLex_of_length_lt (by rw [length_indices]; omega)]
        simp
      · rw [if_neg hgt]
        have hin : i < n := by omega
        have hsucc : (k - currentSubGroup.length).toNat =
            (k - (currentSubGroup ++ [i]).length).toNat + 1 := by simp; omega
        have hpick := ih (i + 1) (currentSubGroup ++ [i]) subGroups (by simp; omega) (by omega)
          (by omega)
        rw [hpick, Option.bind_eq_bind, Option.bind_some,
          ih (i + 1) currentSubGroup _ hk (by omega) (by omega), indices_of_lt hin, hsucc,
          sublistsLenLex_succ_cons]
        simp only [List.length_append, List.length_singleton, List.map_append, List.map_map,
          List.append_assoc, Option.some.injEq, List.append_cancel_left_eq]
        congr 1

/-- For a negative `k`, a branch on which the test of `choose` fails keeps failing it on the
    next pick, and never completes: the recursion never returns. -/
theorem choose_eq_none_of_neg {n k : Int} (hk : k < 0) (fuel : Nat) (i : Int)
    (currentSubGroup : List Int) (subGroups : List (List Int))
    (hle : k - currentSubGroup.length ≤ n - i) :
    choose fuel n k i currentSubGroup subGroups = none := by
  induction fuel generalizing i currentSubGroup subGroups with
  | zero => rfl
  | succ fuel ih =>
    unfold choose
    rw [if_neg (by omega)]
    dsimp only
    rw [if_neg (by omega), ih (i + 1) (currentSubGroup ++ [i]) subGroups (by simp; omega)]
    rfl

/-! ## `chooseKoutOfN` and `CombinationsExceed` -/

/-- The lists of `k` indices below `n` that the enumeration returns are the strictly
    increasing ones. -/
theorem mem_sublistsLenLex_indices {n k : Int} (hk : 0 ≤ k) {s : List Int} :
    s ∈ sublistsLenLex k.toNat (indices 0 n) ↔
      s.Pairwise (· < ·) ∧ (∀ x ∈ s, 0 ≤ x ∧ x < n) ∧ (s.length : Int) = k := by
  rw [mem_sublistsLenLex, sublist_iff_pairwise_lt (pairwise_lt_indices 0 n)]
  have hsub : s ⊆ indices 0 n ↔ ∀ x ∈ s, 0 ≤ x ∧ x < n :=
    ⟨fun h x hx => mem_indices.mp (h hx), fun h x hx => mem_indices.mpr (h x hx)⟩
  have hlen : s.length = k.toNat ↔ (s.length : Int) = k := by omega
  rw [hsub, hlen, and_assoc]

theorem chooseKoutOfN_spec (n k : Int) (hn : 0 ≤ n) :
    (k < 0 → ∀ fuel, chooseKoutOfN fuel n k = none) ∧
      (0 ≤ k → ∃ res, (∀ fuel, n.toNat < fuel → chooseKoutOfN fuel n k = some res) ∧
        (∀ s, s ∈ res ↔ s.Pairwise (· < ·) ∧ (∀ x ∈ s, 0 ≤ x ∧ x < n) ∧ (s.length : Int) = k) ∧
        res.Nodup ∧ res.Pairwise (· < ·) ∧ res.length = n.toNat.choose k.toNat ∧
        (n < k → res = [])) := by
  refine ⟨fun hk fuel => choose_eq_none_of_neg hk fuel 0 [] [] (by simp; omega), fun hk => ?_⟩
  refine ⟨sublistsLenLex k.toNat (indices 0 n), fun fuel hfuel => ?_,
    fun s => mem_sublistsLenLex_indices hk,
    nodup_sublistsLenLex _ (pairwise_lt_indices 0 n).nodup,
    pairwise_lt_sublistsLenLex _ (pairwise_lt_indices 0 n), ?_, fun hnk => ?_⟩
  · rw [chooseKoutOfN, choose_eq n k fuel 0 [] [] (by simpa using hk) hn (by simpa using hfuel)]
    simp
  · rw [length_sublistsLenLex, length_indices, Int.sub_zero]
  · exact sublistsLenLex_of_length_lt (by rw [length_indices]; omega)

/-! ## `math/big`'s binomial -/

/-- The top `k` factors of `n!`. -/
theorem prod_range'_sub_add_one {n k : Nat} (hk : k ≤ n) :
    (List.range' (n - k + 1) k).prod = n.descFactorial k := by
  induction k with
  | zero => rfl
  | succ k ih =>
    -- one factor more, at the bottom: `n - k`
    have hrange : List.range' (n - (k + 1) + 1) (k + 1) =
        (n - k) :: List.range' (n - k + 1) k := by
      rw [List.range'_succ, show n - (k + 1) + 1 = n - k by omega]
    rw [hrange, List.prod_cons, ih (by omega), Nat.descFactorial_succ]

theorem natMulRange_sub_add_one {n k : Nat} (hk : k ≤ n) :
    natMulRange (n - k + 1) n = n.descFactorial k := by
  rw [natMulRange, show n + 1 - (n - k + 1) = k by omega, prod_range'_sub_add_one hk]

theorem natMulRange_one (k : Nat) : natMulRange 1 k = k.factorial := by
  rw [← Nat.descFactorial_self, ← natMulRange_sub_add_one le_rfl, Nat.sub_self]

/-- A range of positive integers: the product of the natural numbers in it. -/
theorem mulRange_of_pos {a b : Int64} (ha : 0 < a) :
    mulRange a b = natMulRange a.toInt.toNat b.toInt.toNat := by
  have ha' : 0 < a.toInt := by simpa using Int64.lt_iff_toInt_lt.mp ha
  unfold mulRange
  by_cases hab : a > b
  · -- the empty range
    have hb := Int64.lt_iff_toInt_lt.mp hab
    rw [if_pos hab, natMulRange, show b.toInt.toNat + 1 - a.toInt.toNat = 0 by omega]
    rfl
  · have hab' : a.toInt ≤ b.toInt := by
      rw [gt_iff_lt, Int64.lt_iff_toInt_lt] at hab
      omega
    have hb : 0 ≤ b := Int64.le_iff_toInt_le.mpr (by rw [Int64.toInt_zero]; omega)
    have hzero : ¬ (a ≤ 0 ∧ b ≥ 0) := fun h => by
      have := Int64.le_iff_toInt_le.mp h.1
      simp at this
      omega
    have hnotneg : ¬ a < 0 := fun h => by
      have := Int64.lt_iff_toInt_lt.mp h
      simp at this
      omega
    rw [if_neg hab, if_neg hzero]
    simp only [hnotneg, if_false, Bool.false_eq_true]
    rw [Int64.toNat_toUInt64_of_le (Int64.le_of_lt ha), Int64.toNat_toUInt64_of_le hb]
    rfl

section Binomial

variable {n k : Int64}

/-- While `n - k + 1` stays within `int64`, neither `n - k` nor `n - k + 1` wraps. -/
theorem toInt_sub_add_one (hlo : -2 ^ 63 ≤ n.toInt - k.toInt)
    (hhi : n.toInt - k.toInt < 2 ^ 63 - 1) :
    (n - k).toInt = n.toInt - k.toInt ∧ (n - k + 1).toInt = n.toInt - k.toInt + 1 := by
  have hsub : (n - k).toInt = n.toInt - k.toInt := by
    rw [Int64.toInt_sub]
    apply Int.bmod_eq_of_le <;> omega
  refine ⟨hsub, ?_⟩
  rw [Int64.toInt_add, hsub, Int64.toInt_one]
  apply Int.bmod_eq_of_le <;> omega

/-- For `0 ≤ j ≤ n < MaxInt64`, `n - j + 1` does not wrap, and the quotient `Binomial` takes is
    the binomial coefficient. -/
theorem mulRange_tdiv_mulRange (hj : 0 ≤ k.toInt) (hjn : k.toInt ≤ n.toInt)
    (hn : n.toInt < 2 ^ 63 - 1) :
    (mulRange (n - k + 1) n).tdiv (mulRange 1 k) = (n.toInt.toNat.choose k.toInt.toNat : Int) := by
  obtain ⟨-, hstart⟩ := toInt_sub_add_one (n := n) (k := k) (by omega) (by omega)
  have hpos : 0 < n - k + 1 := Int64.lt_iff_toInt_lt.mpr (by rw [hstart]; simp; omega)
  rw [mulRange_of_pos hpos, mulRange_of_pos (by decide), hstart, Int64.toInt_one,
    show (n.toInt - k.toInt + 1).toNat = n.toInt.toNat - k.toInt.toNat + 1 by omega,
    natMulRange_sub_add_one (by omega), show (1 : Int).toNat = 1 from rfl, natMulRange_one,
    Nat.choose_eq_descFactorial_div_factorial, Int.ofNat_tdiv]

/-- Below `MaxInt64`, `Binomial(n, k)` is the binomial coefficient for `0 ≤ k ≤ n`. -/
theorem binomial_eq_choose (hk : 0 ≤ k) (hkn : k ≤ n) (hn : n < Int64.maxValue) :
    binomial n k = (n.toInt.toNat.choose k.toInt.toNat : Int) := by
  have hk' : 0 ≤ k.toInt := by simpa using Int64.le_iff_toInt_le.mp hk
  have hkn' := Int64.le_iff_toInt_le.mp hkn
  have hn' : n.toInt < 2 ^ 63 - 1 := by
    rw [← Int64.toInt_maxValue, ← Int64.lt_iff_toInt_lt]
    exact hn
  obtain ⟨hsub, -⟩ := toInt_sub_add_one (n := n) (k := k) (by omega) (by omega)
  unfold binomial
  rw [if_neg (Int64.not_lt.mpr hkn)]
  dsimp only
  split
  · -- `k` reduced to `n - k`
    rw [mulRange_tdiv_mulRange (by omega) (by omega) hn', hsub,
      show (n.toInt - k.toInt).toNat = n.toInt.toNat - k.toInt.toNat by omega,
      Nat.choose_symm (by omega)]
  · exact mulRange_tdiv_mulRange hk' hkn' hn'

/-- For `k < 0 ≤ n` with `n - k < MaxInt64`, `Binomial(n, k)` is the quotient of two empty
    products, `1`. -/
theorem binomial_of_neg (hn : 0 ≤ n) (hk : k < 0) (hnk : n.toInt - k.toInt < 2 ^ 63 - 1) :
    binomial n k = 1 := by
  have hn' : 0 ≤ n.toInt := by simpa using Int64.le_iff_toInt_le.mp hn
  have hk' : k.toInt < 0 := by simpa using Int64.lt_iff_toInt_lt.mp hk
  obtain ⟨hsub, hstart⟩ := toInt_sub_add_one (by omega) hnk
  unfold binomial
  rw [if_neg (by rw [gt_iff_lt, Int64.lt_iff_toInt_lt]; omega),
    if_neg (by rw [gt_iff_lt, Int64.lt_iff_toInt_lt, hsub]; omega)]
  -- both ranges are empty
  dsimp only
  rw [mulRange, if_pos (by rw [gt_iff_lt, Int64.lt_iff_toInt_lt, hstart]; omega), mulRange,
    if_pos (by rw [gt_iff_lt, Int64.lt_iff_toInt_lt]; simp; omega)]
  rfl

/-- At `n = MaxInt64` and `k` one of `0` and `n`, `n - k + 1` wraps to `MinInt64`, and the range
    `[MinInt64, MaxInt64]` holds `0`. -/
theorem binomial_maxValue : binomial Int64.maxValue 0 = 0 ∧
    binomial Int64.maxValue Int64.maxValue = 0 := by
  decide

end Binomial

/-! ## `CombinationsExceed` -/

/-- Below `MaxInt64` and for `0 ≤ k`, `CombinationsExceed` compares the binomial coefficient. -/
theorem combinationsExceed_spec {n k : Int64} (hk : 0 ≤ k) (hn : n < Int64.maxValue)
    (threshold : Int64) :
    combinationsExceed n k threshold = true ↔
      k ≤ n ∧ (n.toInt.toNat.choose k.toInt.toNat : Int) > threshold.toInt := by
  unfold combinationsExceed
  by_cases hnk : n < k
  · simp [hnk, Int64.not_le.mpr hnk]
  · have hkn : k ≤ n := Int64.not_lt.mp hnk
    simp [hnk, hkn, binomial_eq_choose hk hkn hn]

/-- The test of the source: `CombinationsExceed(20, 5, 15503)` holds. -/
example : combinationsExceed 20 5 15503 = true := by decide

/-- `chooseKoutOfN(0, -1)` never returns, and `CombinationsExceed(0, -1, 0)` holds though no
    subset of `-1` elements exists. -/
theorem chooseKoutOfN_negative_never_returns :
    (∀ fuel, chooseKoutOfN fuel 0 (-1) = none) ∧ combinationsExceed 0 (-1) 0 = true := by
  refine ⟨(chooseKoutOfN_spec 0 (-1) le_rfl).1 (by decide), ?_⟩
  -- `Binomial(0, -1)` is the quotient of two empty products
  have hbin : binomial 0 (-1) = 1 := binomial_of_neg (by decide) (by decide) (by decide)
  rw [combinationsExceed, if_neg (by decide), hbin]
  decide

end Fabric.Graph
