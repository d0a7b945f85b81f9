import Mathlib

/-
  The `k`-element sublists of a list, in the order of a backtracking search that takes
  each element before it leaves it out.

  `sublistsLenLex k l` lists first the sublists that start with the head of `l`, then those
  that leave it out. It is a permutation of Mathlib's `sublistsLen k l`, which leaves the
  head out first (`sublistsLenLex_perm`), so it has the same members, the same length and
  no repeats over a list without repeats. Over a strictly increasing list its members are
  the strictly increasing lists of length `k` drawn from it (`sublist_iff_pairwise_lt`), and
  they come in lexicographic order (`pairwise_lt_sublistsLenLex`).
-/

namespace List

variable {α : Type}

/-- The `k`-element sublists of `l`: those that take the head, then those that leave it. -/
def sublistsLenLex : Nat → List α → List (List α)
  | 0, _ => [[]]
  | _ + 1, [] => []
  | k + 1, a :: l => (sublistsLenLex k l).map (a :: ·) ++ sublistsLenLex (k + 1) l

@[simp] theorem sublistsLenLex_zero (l : List α) : sublistsLenLex 0 l = [[]] := by
  cases l <;> rfl

@[simp] theorem sublistsLenLex_succ_nil (k : Nat) :
    sublistsLenLex (k + 1) ([] : List α) = [] := rfl

theorem sublistsLenLex_succ_cons (k : Nat) (a : α) (l : List α) :
    sublistsLenLex (k + 1) (a :: l) =
      (sublistsLenLex k l).map (a :: ·) ++ sublistsLenLex (k + 1) l := rfl

/-- The enumeration lists Mathlib's `sublistsLen` in another order. -/
theorem sublistsLenLex_perm (k : Nat) (l : List α) :
    (sublistsLenLex k l).Perm (sublistsLen k l) := by
  induction l generalizing k with
  | nil => cases k <;> simp [sublistsLen_succ_nil]
  | cons a l ih =>
    cases k with
    | zero => simp [sublistsLen_zero]
    | succ k =>
      rw [sublistsLenLex_succ_cons, sublistsLen_succ_cons]
      exact (((ih k).map _).append (ih (k + 1))).trans perm_append_comm

theorem mem_sublistsLenLex {k : Nat} {l s : List α} :
    s ∈ sublistsLenLex k l ↔ s.Sublist l ∧ s.length = k :=
  (sublistsLenLex_perm k l).mem_iff.trans mem_sublistsLen

theorem length_sublistsLenLex (k : Nat) (l : List α) :
    (sublistsLenLex k l).length = l.length.choose k :=
  (sublistsLenLex_perm k l).length_eq.trans (length_sublistsLen k l)

theorem nodup_sublistsLenLex (k : Nat) {l : List α} (hl : l.Nodup) :
    (sublistsLenLex k l).Nodup :=
  (sublistsLenLex_perm k l).nodup_iff.mpr (nodup_sublistsLen k hl)

theorem sublistsLenLex_of_length_lt {k : Nat} {l : List α} (h : l.length < k) :
    sublistsLenLex k l = [] :=
  eq_nil_of_length_eq_zero (by rw [length_sublistsLenLex, Nat.choose_eq_zero_of_lt h])

section Order

variable [LinearOrder α]

/-- Over a strictly increasing list, the sublists are the strictly increasing lists drawn
    from it. -/
theorem sublist_iff_pairwise_lt {s l : List α} (hl : l.Pairwise (· < ·)) :
    s.Sublist l ↔ s.Pairwise (· < ·) ∧ s ⊆ l := by
  constructor
  · intro h
    exact ⟨hl.sublist h, h.subset⟩
  · rintro ⟨hs, hsub⟩
    exact sublist_of_subperm_of_pairwise (subperm_of_subset hs.nodup hsub) hs hl

/-- Over a strictly increasing list, the enumeration is in lexicographic order. -/
theorem pairwise_lt_sublistsLenLex (k : Nat) {l : List α} (hl : l.Pairwise (· < ·)) :
    (sublistsLenLex k l).Pairwise (· < ·) := by
  induction l generalizing k with
  | nil => cases k <;> simp
  | cons a l ih =>
    rw [pairwise_cons] at hl
    cases k with
    | zero => simp
    | succ k =>
      rw [sublistsLenLex_succ_cons, pairwise_append]
      refine ⟨?_, ih (k + 1) hl.2, ?_⟩
      · -- taking the head keeps the order of the tails
        exact pairwise_map.mpr ((ih k hl.2).imp fun h => cons_lt_cons_iff.mpr (.inr ⟨rfl, h⟩))
      · -- a sublist that takes the head comes before every one that leaves it out, whose
        -- first element is greater than the head
        intro x hx y hy
        obtain ⟨x', -, rfl⟩ := mem_map.mp hx
        obtain ⟨hsub, hlen⟩ := mem_sublistsLenLex.mp hy
        obtain ⟨b, y', rfl⟩ := exists_cons_of_length_eq_add_one hlen
        exact cons_lt_cons_iff.mpr (.inl (hl.1 b (hsub.subset mem_cons_self)))

end Order

end List
