import Mathlib

/-
  Distinct choices from overlapping supplies.

  A demand asks each of several groups for a number of items, and each group has a supply
  of items it may give. A distinct choice takes, for every group, as many items as it asks
  from its supply, no item taken twice. Overlapping supplies make this a bipartite
  b-matching; the two facts used here bound it from both sides: a choice needs as many
  distinct supplied items as the demands add up to (`DistinctChoice.sum_le`), and supplies
  that do not overlap, each large enough, always allow one (`DistinctChoice.of_disjoint`).
-/

variable {G P : Type}

/-- A choice, for each entry of the demand, of as many items as it asks from its group's
    supply, with no item chosen twice. -/
def DistinctChoice (demand : List (G × Nat)) (supply : G → List P) : Prop :=
  ∃ choice : G × Nat → List P,
    (∀ e ∈ demand, (choice e).length = e.2 ∧ choice e ⊆ supply e.1) ∧
      (demand.flatMap choice).Nodup

namespace DistinctChoice

variable {demand : List (G × Nat)} {supply : G → List P}

/-- A distinct choice needs at least as many distinct supplied items as the demands add up
    to. -/
theorem sum_le [DecidableEq P] (h : DistinctChoice demand supply) :
    (demand.map Prod.snd).sum ≤ (demand.flatMap fun e => supply e.1).dedup.length := by
  obtain ⟨choice, hchoice, hnodup⟩ := h
  have hlen : (demand.flatMap choice).length = (demand.map Prod.snd).sum := by
    rw [List.length_flatMap]
    congr 1
    exact List.map_congr_left fun e he => (hchoice e he).1
  -- the chosen items are distinct supplied items
  have hsub : demand.flatMap choice ⊆ (demand.flatMap fun e => supply e.1).dedup := by
    intro p hp
    obtain ⟨e, he, hpe⟩ := List.mem_flatMap.mp hp
    exact List.mem_dedup.mpr (List.mem_flatMap.mpr ⟨e, he, (hchoice e he).2 hpe⟩)
  rw [← hlen]
  exact (List.subperm_of_subset hnodup hsub).length_le

/-- Groups asked once each, whose supplies hold no item twice and share none, each supply as
    large as its demand, allow a distinct choice: the first items of each supply. -/
theorem of_disjoint (hgroups : (demand.map Prod.fst).Nodup)
    (hsupply : ∀ e ∈ demand, (supply e.1).Nodup ∧ e.2 ≤ (supply e.1).length)
    (hdisjoint : ∀ e ∈ demand, ∀ e' ∈ demand, e.1 ≠ e'.1 → (supply e.1).Disjoint (supply e'.1)) :
    DistinctChoice demand supply := by
  refine ⟨fun e => (supply e.1).take e.2, fun e he => ⟨?_, ?_⟩, ?_⟩
  · rw [List.length_take]
    exact Nat.min_eq_left (hsupply e he).2
  · exact (List.take_sublist _ _).subset
  · rw [List.nodup_flatMap]
    refine ⟨fun e he => ((hsupply e he).1).sublist (List.take_sublist _ _), ?_⟩
    -- distinct entries ask distinct groups, whose supplies are disjoint
    have hne : demand.Pairwise fun e e' => e.1 ≠ e'.1 :=
      List.pairwise_map.mp (List.nodup_iff_pairwise_ne.mp hgroups)
    refine hne.imp_of_mem fun he he' hee' p hp hp' => ?_
    exact hdisjoint _ he _ he' hee' ((List.take_sublist _ _).subset hp)
      ((List.take_sublist _ _).subset hp')

end DistinctChoice
