import Fabric.Ledger.QueryExecutor
import Fabric.Lib.FoldM
import Mathlib

/-
  The combination of query executers (`core/ledger/kvledger/txmgmt/queryutil`): the range
  scan of a `QECombiner`, which lays the scans of several query executers over one another,
  the first executer with the highest priority, and merges them in key order.

  `itrCombiner` keeps a holder for each base iterator that still has items: the item the
  holder buffers (`kv`) and the items its iterator has still to return (`itr`). A `Next` call
  scans the holders for the smallest key (`selectLoop`); a holder whose key equals the smallest
  one of an earlier holder holds a stale value, and is moved on at once, and a holder whose
  iterator runs out is removed from the slice while the loop scans it. `Next` then returns the
  item of the holder of the smallest key, moves that holder on, and calls itself again when the
  item is a delete. `results` is what repeated `Next` calls return before the first nil.
  Errors of the base iterators, `Close` and logging are not modelled.

  Proved: when every base scan is strictly increasing in key, the combined scan returns, in
  strictly increasing key order, exactly the live items of the overlay of the scans
  (`firstItem`: for each key, its item in the first scan that has it), each with the
  combiner's namespace and that item's value (`getStateRangeScanIterator_results`).
  Underneath: the scan for the smallest key keeps the overlay and the order of every holder,
  and ends at the holder of a key below all others (`selectLoop_spec`); a `Next` that returns
  an item returns the least live key of the overlay and removes every key up to it
  (`next_some`), and one that returns nil leaves no live key (`next_none`).
-/

namespace Fabric.Ledger

variable {κ : Type}

/-- `itrHolder`: the items its iterator has still to return, and the item it buffers. -/
structure ItrHolder (κ : Type) where
  itr : List (VersionedKV κ)
  kv : VersionedKV κ

/-- `itrCombiner`, its `namespace` as `ns`. -/
structure ItrCombiner (κ : Type) where
  ns : Ns
  holders : List (ItrHolder κ)

/-- `newItrCombiner`: a holder for each base iterator that returns a first item. -/
def newItrCombiner (ns : Ns) (baseIterators : List (List (VersionedKV κ))) :
    ItrCombiner κ :=
  ⟨ns, baseIterators.filterMap fun itr =>
    match itr with
    | [] => none
    | res :: rest => some ⟨rest, res⟩⟩

/-- `itrHolder.moveToNext`: whether the iterator is exhausted, and the holder after the move;
    an exhausted holder keeps its item. -/
def ItrHolder.moveToNext (holder : ItrHolder κ) : Bool × ItrHolder κ :=
  match holder.itr with
  | [] => (true, holder)
  | res :: rest => (false, ⟨rest, res⟩)

/-- `moveItrAndRemoveIfExhausted`: move holder `i` on, and remove it from the slice when its
    iterator is exhausted. -/
def moveItrAndRemoveIfExhausted (holders : List (ItrHolder κ)) (i : Nat)
    (hi : i < holders.length) : Bool × List (ItrHolder κ) :=
  let moved := holders[i].moveToNext
  if moved.1 then (true, holders.eraseIdx i) else (false, holders.set i moved.2)

/-- What a move of holder `i` does: it removes an exhausted holder, and otherwise replaces it by
    the holder of its iterator's next item. -/
theorem moveItrAndRemoveIfExhausted_cases {holders holders' : List (ItrHolder κ)} {i : Nat}
    {hi : i < holders.length} {removed : Bool}
    (hm : moveItrAndRemoveIfExhausted holders i hi = (removed, holders')) :
    (removed = true ∧ holders[i].itr = [] ∧ holders' = holders.eraseIdx i) ∨
      (removed = false ∧ ∃ res rest, holders[i].itr = res :: rest ∧
        holders' = holders.set i ⟨rest, res⟩) := by
  unfold moveItrAndRemoveIfExhausted ItrHolder.moveToNext at hm
  cases hitr : holders[i].itr with
  | nil =>
    simp only [hitr, if_true, Prod.mk.injEq] at hm
    exact .inl ⟨hm.1.symm, rfl, hm.2.symm⟩
  | cons res rest =>
    simp only [hitr, Bool.false_eq_true, if_false, Prod.mk.injEq] at hm
    exact .inr ⟨hm.1.symm, res, rest, rfl, hm.2.symm⟩

theorem length_moveItrAndRemoveIfExhausted {holders holders' : List (ItrHolder κ)} {i : Nat}
    {hi : i < holders.length} {removed : Bool}
    (hm : moveItrAndRemoveIfExhausted holders i hi = (removed, holders')) :
    holders'.length + (if removed then 1 else 0) = holders.length := by
  rcases moveItrAndRemoveIfExhausted_cases hm with ⟨rfl, -, rfl⟩ | ⟨rfl, -, -, -, rfl⟩
  · rw [List.length_eraseIdx_of_lt hi, if_pos rfl]
    omega
  · simp

/-- The items the holders have still to serve, buffered ones included. -/
def pendingItems (holders : List (ItrHolder κ)) : Nat :=
  (holders.map fun holder => holder.itr.length + 1).sum

theorem pendingItems_moveItrAndRemoveIfExhausted {holders holders' : List (ItrHolder κ)}
    {i : Nat} {hi : i < holders.length} {removed : Bool}
    (hm : moveItrAndRemoveIfExhausted holders i hi = (removed, holders')) :
    pendingItems holders' + 1 = pendingItems holders := by
  have hsplit := congrArg pendingItems (FoldM.eq_take_append_getElem_cons_drop hi)
  simp only [pendingItems, List.map_append, List.map_cons, List.sum_append, List.sum_cons]
    at hsplit
  rcases moveItrAndRemoveIfExhausted_cases hm with ⟨-, hnil, rfl⟩ | ⟨-, res, rest, hcons, rfl⟩
  · rw [hnil] at hsplit
    simp only [pendingItems, List.eraseIdx_eq_take_drop_succ, List.map_append, List.sum_append]
    simp only [List.length_nil] at hsplit
    omega
  · rw [hcons] at hsplit
    simp only [pendingItems, List.set_eq_take_append_cons_drop, if_pos hi, List.map_append,
      List.map_cons, List.sum_append, List.sum_cons]
    simp only [List.length_cons] at hsplit
    omega

/-- What a holder has still to serve: its buffered item, then its iterator's. -/
def ItrHolder.items (holder : ItrHolder κ) : List (VersionedKV κ) := holder.kv :: holder.itr

/-- After a move, a holder is one of the others, or the moved one serving the rest of its
    iterator. -/
theorem mem_moveItr {holders holders' : List (ItrHolder κ)} {i : Nat} {hi : i < holders.length}
    {removed : Bool} (hm : moveItrAndRemoveIfExhausted holders i hi = (removed, holders'))
    {holder : ItrHolder κ} (hh : holder ∈ holders') :
    (∃ j ≠ i, holders[j]? = some holder) ∨ holder.items = holders[i].itr := by
  rcases moveItrAndRemoveIfExhausted_cases hm with ⟨-, -, rfl⟩ | ⟨-, res, rest, hcons, rfl⟩
  · exact .inl (List.mem_eraseIdx_iff_getElem?.mp hh)
  · rcases FoldM.eq_or_getElem?_of_mem_set hh with rfl | hj
    · exact .inr hcons.symm
    · exact .inl hj

/-! ## The selection loop and `Next` -/

section Next

variable [LinearOrder κ]

/-- The `for` loop of `Next` from index `i`, with the smallest key so far at
    `smallestHolderIndex`: the holders after the loop and the index of the smallest key. A holder
    whose key equals the smallest is moved on, and when it is removed the loop stays at `i`
    (`i--` before the loop's `i++`). -/
def selectLoop (holders : List (ItrHolder κ)) (smallestHolderIndex i : Nat)
    (hs : smallestHolderIndex < i) (hi : i ≤ holders.length) :
    { r : List (ItrHolder κ) × Nat // r.2 < r.1.length } :=
  if h : i < holders.length then
    let smallestKey := holders[smallestHolderIndex].kv.key
    let holderKey := holders[i].kv.key
    if holderKey = smallestKey then
      match hm : moveItrAndRemoveIfExhausted holders i h with
      | (true, holders') =>
        have hlen : holders'.length + 1 = holders.length := by
          simpa using length_moveItrAndRemoveIfExhausted hm
        selectLoop holders' smallestHolderIndex i hs (by omega)
      | (false, holders') =>
        have hlen : holders'.length = holders.length := by
          simpa using length_moveItrAndRemoveIfExhausted hm
        selectLoop holders' smallestHolderIndex (i + 1) (by omega) (by omega)
    else if holderKey < smallestKey then
      selectLoop holders i (i + 1) (by omega) h
    else
      selectLoop holders smallestHolderIndex (i + 1) (by omega) h
  else ⟨(holders, smallestHolderIndex), by dsimp only; omega⟩
termination_by holders.length - i
decreasing_by all_goals omega

theorem pendingItems_selectLoop (holders : List (ItrHolder κ)) (smallestHolderIndex i : Nat)
    (hs : smallestHolderIndex < i) (hi : i ≤ holders.length) :
    pendingItems (selectLoop holders smallestHolderIndex i hs hi).1.1 ≤ pendingItems holders := by
  fun_induction selectLoop holders smallestHolderIndex i hs hi with
  | case1 holders s i hs hi h smallestKey holderKey heq holders' hm hlen ih =>
    have := pendingItems_moveItrAndRemoveIfExhausted hm
    omega
  | case2 holders s i hs hi h smallestKey holderKey heq holders' hm hlen ih =>
    have := pendingItems_moveItrAndRemoveIfExhausted hm
    omega
  | case3 => assumption
  | case4 => assumption
  | case5 => exact Nat.le_refl _

/-- `Next`: the item of the holder with the smallest key, with that holder moved on; a delete
    is skipped by calling `Next` again. Without holders it returns nil. -/
def ItrCombiner.next (combiner : ItrCombiner κ) : Option (QueryResultKV κ) × ItrCombiner κ :=
  if h : combiner.holders.length = 0 then (none, combiner)
  else
    match hl : selectLoop combiner.holders 0 1 (by omega) (by omega) with
    | ⟨(holders, smallestHolderIndex), hs⟩ =>
      let kv := holders[smallestHolderIndex].kv
      match hm : moveItrAndRemoveIfExhausted holders smallestHolderIndex hs with
      | (_, holders') =>
        if kv.isDelete then ItrCombiner.next ⟨combiner.ns, holders'⟩
        else (some ⟨combiner.ns, kv.key, kv.vv.value⟩, ⟨combiner.ns, holders'⟩)
termination_by pendingItems combiner.holders
decreasing_by
  have hsel := pendingItems_selectLoop combiner.holders 0 1 (by omega) (by omega)
  have hmove := pendingItems_moveItrAndRemoveIfExhausted hm
  rw [hl] at hsel
  dsimp only at hsel ⊢
  omega

/-- A `Next` call that returns an item leaves fewer items to serve. -/
theorem pendingItems_next_lt {combiner combiner' : ItrCombiner κ} {r : QueryResultKV κ}
    (h : combiner.next = (some r, combiner')) :
    pendingItems combiner'.holders < pendingItems combiner.holders := by
  fun_induction ItrCombiner.next combiner with
  | case1 c hlen => cases h
  | case2 c hlen H s hs hl kv removed H' hm hdel ih =>
    have hsel := pendingItems_selectLoop c.holders 0 1 (by omega) (by omega)
    have hmove := pendingItems_moveItrAndRemoveIfExhausted hm
    rw [hl] at hsel
    have := ih h
    dsimp only at hsel this
    omega
  | case3 c hlen H s hs hl kv removed H' hm hdel =>
    cases h
    have hsel := pendingItems_selectLoop c.holders 0 1 (by omega) (by omega)
    have hmove := pendingItems_moveItrAndRemoveIfExhausted hm
    rw [hl] at hsel
    dsimp only at hsel ⊢
    omega

/-- What repeated `Next` calls return, up to the first nil. -/
def ItrCombiner.results (combiner : ItrCombiner κ) : List (QueryResultKV κ) :=
  match _h : combiner.next with
  | (none, _) => []
  | (some r, combiner') => r :: combiner'.results
termination_by pendingItems combiner.holders
decreasing_by exact pendingItems_next_lt _h

/-- A `QueryExecuter`, by the range scans it answers. -/
structure QueryExecuter (κ : Type) where
  getStateRangeScanIterator : Ns → κ → κ → List (VersionedKV κ)

/-- `QECombiner`: its executers in decreasing order of priority. -/
structure QECombiner (κ : Type) where
  queryExecuters : List (QueryExecuter κ)

/-- `QECombiner.GetStateRangeScanIterator`: the executers' range scans, combined. -/
def QECombiner.getStateRangeScanIterator (c : QECombiner κ) (ns : Ns) (startKey endKey : κ) :
    ItrCombiner κ :=
  newItrCombiner ns (c.queryExecuters.map fun qe => qe.getStateRangeScanIterator ns startKey endKey)

end Next

/-! ## The overlay of the scans -/

section Overlay

variable [LinearOrder κ]

/-- The overlay of scans, the first with the highest priority: the item of `key` in the first
    scan that has it. Laying the scans over one another from the lowest priority to the highest
    gives this map. -/
def firstItem (scans : List (List (VersionedKV κ))) (key : κ) : Option (VersionedKV κ) :=
  scans.findSome? fun scan => scan.find? fun kv => kv.key = key

/-- The overlay of what the holders have still to serve. -/
def pendingOverlay (holders : List (ItrHolder κ)) : κ → Option (VersionedKV κ) :=
  firstItem (holders.map ItrHolder.items)

/-- Every holder serves its items in strictly increasing key order. -/
def HoldersSorted (holders : List (ItrHolder κ)) : Prop :=
  ∀ holder ∈ holders, holder.items.Pairwise fun a b => a.key < b.key

/-- The holder at `s` buffers a key below those of all other holders before index `i`. -/
def SmallestBefore (holders : List (ItrHolder κ)) (s i : Nat) : Prop :=
  ∀ j < i, j ≠ s → ∀ a ∈ holders[s]?, ∀ b ∈ holders[j]?, a.kv.key < b.kv.key

theorem key_of_firstItem {scans : List (List (VersionedKV κ))} {k : κ} {kv : VersionedKV κ}
    (h : firstItem scans k = some kv) : kv.key = k := by
  obtain ⟨scan, -, hscan⟩ := List.exists_of_findSome?_eq_some h
  simpa using List.find?_some hscan

theorem mem_of_firstItem {scans : List (List (VersionedKV κ))} {k : κ} {kv : VersionedKV κ}
    (h : firstItem scans k = some kv) : ∃ scan ∈ scans, kv ∈ scan := by
  obtain ⟨scan, hmem, hscan⟩ := List.exists_of_findSome?_eq_some h
  exact ⟨scan, hmem, List.mem_of_find?_eq_some hscan⟩

/-- A sorted holder buffers the least key it has to serve. -/
theorem key_le_of_mem_items {holder : ItrHolder κ}
    (hsorted : holder.items.Pairwise fun a b => a.key < b.key) {x : VersionedKV κ}
    (hx : x ∈ holder.items) : holder.kv.key ≤ x.key := by
  rcases List.mem_cons.mp hx with rfl | hx
  · exact le_rfl
  · exact (List.rel_of_pairwise_cons hsorted hx).le

/-- A sorted holder has nothing to serve below its buffered key. -/
theorem find?_items_of_lt {holder : ItrHolder κ}
    (hsorted : holder.items.Pairwise fun a b => a.key < b.key) {k : κ} (hk : k < holder.kv.key) :
    holder.items.find? (fun kv => kv.key = k) = none := by
  rw [List.find?_eq_none]
  intro x hx hxk
  have := key_le_of_mem_items hsorted hx
  simp only [decide_eq_true_eq] at hxk
  exact absurd hk (not_lt.mpr (hxk ▸ this))

end Overlay

/-! ## What a move does -/

section Move

variable [LinearOrder κ] {holders holders' : List (ItrHolder κ)} {i : Nat}
  {hi : i < holders.length} {removed : Bool}

theorem HoldersSorted.moveItr (hsorted : HoldersSorted holders)
    (hm : moveItrAndRemoveIfExhausted holders i hi = (removed, holders')) :
    HoldersSorted holders' := by
  rcases moveItrAndRemoveIfExhausted_cases hm with ⟨-, -, rfl⟩ | ⟨-, res, rest, hcons, rfl⟩
  · exact fun holder hh => hsorted holder (List.mem_of_mem_eraseIdx hh)
  · intro holder hh
    rcases List.mem_or_eq_of_mem_set hh with hh | rfl
    · exact hsorted holder hh
    · -- the new holder serves the tail of what holder `i` served
      have h := hsorted _ (List.getElem_mem hi)
      rw [ItrHolder.items, hcons] at h
      exact h.of_cons

/-- A move leaves every key but the moved one as the overlay had it. -/
theorem pendingOverlay_moveItr_of_ne
    (hm : moveItrAndRemoveIfExhausted holders i hi = (removed, holders')) {k : κ}
    (hk : holders[i].kv.key ≠ k) : pendingOverlay holders' k = pendingOverlay holders k := by
  unfold pendingOverlay firstItem
  rcases moveItrAndRemoveIfExhausted_cases hm with ⟨-, hnil, rfl⟩ | ⟨-, res, rest, hcons, rfl⟩
  · rw [← List.eraseIdx_map]
    exact FoldM.findSome?_eraseIdx_of_before (by simpa using hi)
      (.inl (by simp [ItrHolder.items, hnil, hk]))
  · rw [List.map_set]
    exact FoldM.findSome?_set_of_before (by simpa using hi)
      (.inl (by simp [ItrHolder.items, hcons, hk]))

/-- A move leaves a key as the overlay had it when a holder before the moved one has it. -/
theorem pendingOverlay_moveItr_of_before
    (hm : moveItrAndRemoveIfExhausted holders i hi = (removed, holders')) {k : κ}
    (hfound : (((holders.map ItrHolder.items).take i).findSome? fun scan =>
      scan.find? fun kv => kv.key = k).isSome) :
    pendingOverlay holders' k = pendingOverlay holders k := by
  unfold pendingOverlay firstItem
  rcases moveItrAndRemoveIfExhausted_cases hm with ⟨-, -, rfl⟩ | ⟨-, res, rest, -, rfl⟩
  · rw [← List.eraseIdx_map]
    exact FoldM.findSome?_eraseIdx_of_before (by simpa using hi) (.inr hfound)
  · rw [List.map_set]
    exact FoldM.findSome?_set_of_before (by simpa using hi) (.inr hfound)

/-- Moving a holder whose key ties with that of an earlier holder keeps the overlay: the tied
    item was a stale value. -/
theorem pendingOverlay_moveItr_of_tie
    (hm : moveItrAndRemoveIfExhausted holders i hi = (removed, holders')) {s : Nat} (hsi : s < i)
    {hs : s < holders.length} (htie : holders[i].kv.key = holders[s].kv.key) :
    pendingOverlay holders' = pendingOverlay holders := by
  funext k
  by_cases hk : holders[i].kv.key = k
  · apply pendingOverlay_moveItr_of_before hm
    rw [List.findSome?_isSome_iff]
    refine ⟨holders[s].items, ?_, ?_⟩
    · rw [List.mem_take_iff_getElem]
      exact ⟨s, by simp; omega, by simp⟩
    · simp [ItrHolder.items, ← htie, hk]
  · exact pendingOverlay_moveItr_of_ne hm hk

/-- A move of holder `i` past a key that ties with the smallest one keeps holder `s` below all
    holders the loop has passed, the next one included when holder `i` stays. -/
theorem SmallestBefore.moveItr {s : Nat} (hsmall : SmallestBefore holders s i) (hsi : s < i)
    {hs : s < holders.length} (hsorted : HoldersSorted holders)
    (htie : holders[i].kv.key = holders[s].kv.key)
    (hm : moveItrAndRemoveIfExhausted holders i hi = (removed, holders')) :
    SmallestBefore holders' s (if removed then i else i + 1) := by
  intro j hj hjs a ha b hb
  rcases moveItrAndRemoveIfExhausted_cases hm with ⟨rfl, -, rfl⟩ | ⟨rfl, res, rest, hcons, rfl⟩
  · rw [List.getElem?_eraseIdx_of_lt hsi] at ha
    rw [List.getElem?_eraseIdx_of_lt (by simpa using hj)] at hb
    exact hsmall j (by simpa using hj) hjs a ha b hb
  · rw [List.getElem?_set_ne (by omega)] at ha
    by_cases hji : j = i
    · -- the moved holder now buffers the next item of its iterator, above the tied key
      subst hji
      rw [List.getElem?_set_self hi, Option.mem_def, Option.some.injEq] at hb
      rw [List.getElem?_eq_getElem hs, Option.mem_def, Option.some.injEq] at ha
      subst ha hb
      have h := hsorted _ (List.getElem_mem hi)
      rw [ItrHolder.items, hcons] at h
      exact htie ▸ List.rel_of_pairwise_cons h List.mem_cons_self
    · rw [List.getElem?_set_ne (Ne.symm hji)] at hb
      exact hsmall j (by simp at hj; omega) hjs a ha b hb

theorem SmallestBefore.succ_of_lt {s : Nat} (hsmall : SmallestBefore holders s i)
    {hs : s < holders.length} (hlt : holders[i].kv.key < holders[s].kv.key) :
    SmallestBefore holders i (i + 1) := by
  intro j hj hji a ha b hb
  rw [List.getElem?_eq_getElem hi, Option.mem_def, Option.some.injEq] at ha
  subst ha
  by_cases hjs : j = s
  · subst hjs
    rw [List.getElem?_eq_getElem hs, Option.mem_def, Option.some.injEq] at hb
    exact hb ▸ hlt
  · exact hlt.trans (hsmall j (by omega) hjs _ (List.getElem?_eq_getElem hs) b hb)

theorem SmallestBefore.succ_of_gt {s : Nat} (hsmall : SmallestBefore holders s i)
    {hs : s < holders.length} (hgt : holders[s].kv.key < holders[i].kv.key) :
    SmallestBefore holders s (i + 1) := by
  intro j hj hjs a ha b hb
  by_cases hji : j = i
  · subst hji
    rw [List.getElem?_eq_getElem hi, Option.mem_def, Option.some.injEq] at hb
    rw [List.getElem?_eq_getElem hs, Option.mem_def, Option.some.injEq] at ha
    exact ha ▸ hb ▸ hgt
  · exact hsmall j (by omega) hjs a ha b hb

end Move

/-! ## The selection loop -/

section Select

variable [LinearOrder κ]

/-- What the selection loop ends with: holders in order, serving the overlay the loop started
    from, with the holder at `s` below all others. -/
structure Selected (holders H : List (ItrHolder κ)) (s : Nat) : Prop where
  sorted : HoldersSorted H
  overlay : pendingOverlay H = pendingOverlay holders
  smallest : SmallestBefore H s H.length

theorem selectLoop_spec (holders : List (ItrHolder κ)) (s i : Nat) (hs : s < i)
    (hi : i ≤ holders.length) (hsorted : HoldersSorted holders)
    (hsmall : SmallestBefore holders s i) :
    Selected holders (selectLoop holders s i hs hi).1.1 (selectLoop holders s i hs hi).1.2 := by
  fun_induction selectLoop holders s i hs hi with
  | case1 holders s i hs hi h smallestKey holderKey heq holders' hm hlen ih =>
    have hsm := hsmall.moveItr hs hsorted heq hm
    have hov := pendingOverlay_moveItr_of_tie hm hs heq
    have ⟨hsorted', hov', hsmall'⟩ := ih (hsorted.moveItr hm) (by simpa using hsm)
    exact ⟨hsorted', hov'.trans hov, hsmall'⟩
  | case2 holders s i hs hi h smallestKey holderKey heq holders' hm hlen ih =>
    have hsm := hsmall.moveItr hs hsorted heq hm
    have hov := pendingOverlay_moveItr_of_tie hm hs heq
    have ⟨hsorted', hov', hsmall'⟩ := ih (hsorted.moveItr hm) (by simpa using hsm)
    exact ⟨hsorted', hov'.trans hov, hsmall'⟩
  | case3 holders s i hs hi h smallestKey holderKey hne hlt ih =>
    exact ih hsorted (hsmall.succ_of_lt hlt)
  | case4 holders s i hs hi h smallestKey holderKey hne hnlt ih =>
    exact ih hsorted (hsmall.succ_of_gt (lt_of_le_of_ne (not_lt.mp hnlt) (Ne.symm hne)))
  | case5 holders s i hs hi h =>
    exact ⟨hsorted, rfl, by simpa [show holders.length = i by omega] using hsmall⟩

end Select

/-! ## One call of `Next` -/

section Pick

variable [LinearOrder κ] {holders H H' : List (ItrHolder κ)} {s : Nat} {hs : s < H.length}
  {removed : Bool}

/-- No holder before the one the loop ends at has its key. -/
theorem Selected.take_findSome?_eq_none (hsel : Selected holders H s) :
    ((H.map ItrHolder.items).take s).findSome? (fun scan =>
      scan.find? fun kv => kv.key = H[s].kv.key) = none := by
  rw [List.findSome?_eq_none_iff]
  intro scan hscan
  obtain ⟨j, hj, rfl⟩ := List.mem_take_iff_getElem.mp hscan
  have hjH : j < H.length := by simp at hj; omega
  rw [List.getElem_map]
  apply find?_items_of_lt (hsel.sorted _ (List.getElem_mem hjH))
  exact hsel.smallest j hjH (by simp at hj; omega) _ (List.getElem?_eq_getElem hs) _
    (List.getElem?_eq_getElem hjH)

/-- The holder the loop ends at buffers the overlay's item of its key. -/
theorem Selected.overlay_smallest (hsel : Selected holders H s) :
    pendingOverlay holders H[s].kv.key = some H[s].kv := by
  have hsm : s < (H.map ItrHolder.items).length := by simpa using hs
  rw [← hsel.overlay, pendingOverlay, firstItem, ← List.take_append_drop s (H.map _),
    List.findSome?_append, hsel.take_findSome?_eq_none, Option.none_or,
    List.drop_eq_getElem_cons hsm, List.getElem_map]
  simp [ItrHolder.items]

/-- The holder the loop ends at buffers the least key of the overlay. -/
theorem Selected.le_of_overlay (hsel : Selected holders H s) {k : κ} {kv : VersionedKV κ}
    (h : pendingOverlay holders k = some kv) : H[s].kv.key ≤ k := by
  rw [← hsel.overlay] at h
  obtain ⟨scan, hscan, hkv⟩ := mem_of_firstItem h
  obtain ⟨holder, hholder, rfl⟩ := List.mem_map.mp hscan
  obtain ⟨j, hj⟩ := List.mem_iff_getElem?.mp hholder
  have hle := key_le_of_mem_items (hsel.sorted holder hholder) hkv
  rw [← key_of_firstItem h]
  by_cases hjs : j = s
  · subst hjs
    rw [List.getElem?_eq_getElem hs, Option.some.injEq] at hj
    exact hj ▸ hle
  · have hjH : j < H.length := (List.getElem?_eq_some_iff.mp hj).1
    exact (hsel.smallest j hjH hjs _ (List.getElem?_eq_getElem hs) _ hj).le.trans hle

/-- Moving the holder the loop ends at takes its key out of the overlay and keeps the rest. -/
theorem Selected.overlay_moveItr (hsel : Selected holders H s)
    (hm : moveItrAndRemoveIfExhausted H s hs = (removed, H')) :
    pendingOverlay H' = fun k => if k = H[s].kv.key then none else pendingOverlay holders k := by
  funext k
  split_ifs with hk
  · subst hk
    rw [pendingOverlay, firstItem, List.findSome?_eq_none_iff]
    intro scan hscan
    obtain ⟨holder, hholder, rfl⟩ := List.mem_map.mp hscan
    have hsorted := hsel.sorted.moveItr hm holder hholder
    rcases mem_moveItr hm hholder with ⟨j, hjs, hj⟩ | hrest
    · -- another holder buffers a greater key
      have hjH : j < H.length := (List.getElem?_eq_some_iff.mp hj).1
      exact find?_items_of_lt hsorted
        (hsel.smallest j hjH hjs _ (List.getElem?_eq_getElem hs) _ hj)
    · -- the moved holder serves only keys above its old one
      have h := hsel.sorted _ (List.getElem_mem hs)
      rw [ItrHolder.items, List.pairwise_cons] at h
      rw [hrest, List.find?_eq_none]
      intro x hx hxk
      simp only [decide_eq_true_eq] at hxk
      exact absurd (h.1 x hx) (by rw [hxk]; exact lt_irrefl _)
  · rw [← hsel.overlay]
    exact pendingOverlay_moveItr_of_ne hm (Ne.symm hk)

end Pick

/-! ## Repeated calls of `Next` -/

section Serve

variable [LinearOrder κ]

/-- `kv` is a live item of the overlay `F`. -/
def LiveIn (F : κ → Option (VersionedKV κ)) (kv : VersionedKV κ) : Prop :=
  F kv.key = some kv ∧ kv.isDelete = false

/-- What a `Next` call that returns the key of `kv` does to the overlay `F`, leaving `F'`: `kv` is
    the least live item of `F`, and the call removes every key up to it. -/
structure Serves (F F' : κ → Option (VersionedKV κ)) (kv : VersionedKV κ) : Prop where
  live : LiveIn F kv
  below : ∀ k kv', F k = some kv' → k < kv.key → kv'.isDelete = true
  after : F' = fun k => if k ≤ kv.key then none else F k

/-- The least key of an overlay, when live, is served, and its removal is what is left. -/
theorem Serves.of_least {F : κ → Option (VersionedKV κ)} {kv : VersionedKV κ}
    (hlive : LiveIn F kv) (hleast : ∀ k kv', F k = some kv' → kv.key ≤ k) :
    Serves F (fun k => if k = kv.key then none else F k) kv := by
  refine ⟨hlive, fun k kv' h hlt => absurd (hleast k kv' h) (not_le.mpr hlt), ?_⟩
  funext k
  by_cases hk : k = kv.key
  · simp [hk]
  · by_cases hle : k ≤ kv.key
    · -- nothing of the overlay lies below its least key
      cases hF : F k with
      | none => simp [hk, hle]
      | some kv' => exact absurd (lt_of_le_of_ne hle hk) (not_lt.mpr (hleast k kv' hF))
    · simp [hk, hle]

/-- Skipping the least key of an overlay, a delete, does not change what is served next. -/
theorem Serves.skip {F F' : κ → Option (VersionedKV κ)} {kvd kv : VersionedKV κ}
    (hd : F kvd.key = some kvd) (hdel : kvd.isDelete = true)
    (hleast : ∀ k kv', F k = some kv' → kvd.key ≤ k)
    (h : Serves (fun k => if k = kvd.key then none else F k) F' kv) : Serves F F' kv := by
  have hne : kv.key ≠ kvd.key := by
    intro he
    have := h.live.1
    simp [he] at this
  have hF : F kv.key = some kv := by simpa [hne] using h.live.1
  have hlt : kvd.key < kv.key := lt_of_le_of_ne (hleast _ _ hF) (Ne.symm hne)
  refine ⟨⟨hF, h.live.2⟩, fun k kv' hk hkl => ?_, ?_⟩
  · by_cases hkd : k = kvd.key
    · subst hkd
      rw [hd, Option.some.injEq] at hk
      exact hk ▸ hdel
    · exact h.below k kv' (by simpa [hkd] using hk) hkl
  · rw [h.after]
    funext k
    by_cases hle : k ≤ kv.key
    · simp [hle]
    · have hkd : k ≠ kvd.key := fun he => hle (he ▸ hlt.le)
      simp [hle, hkd]

/-- An item is live before a call that serves `kv` if and only if it is `kv` or live after. -/
theorem Serves.liveIn_iff {F F' : κ → Option (VersionedKV κ)} {kv : VersionedKV κ}
    (h : Serves F F' kv) {x : VersionedKV κ} : LiveIn F x ↔ x = kv ∨ LiveIn F' x := by
  rw [h.after]
  constructor
  · rintro ⟨hx, hlive⟩
    rcases lt_trichotomy x.key kv.key with hlt | heq | hgt
    · exact absurd (h.below _ _ hx hlt) (by simp [hlive])
    · -- one key has one item in the overlay
      left
      have := h.live.1
      rw [← heq, hx, Option.some.injEq] at this
      exact this
    · exact .inr ⟨by simp [not_le.mpr hgt, hx], hlive⟩
  · rintro (rfl | ⟨hx, hlive⟩)
    · exact h.live
    · by_cases hle : x.key ≤ kv.key
      · simp [hle] at hx
      · exact ⟨by simpa [hle] using hx, hlive⟩

theorem Serves.lt_of_liveIn {F F' : κ → Option (VersionedKV κ)} {kv x : VersionedKV κ}
    (h : Serves F F' kv) (hx : LiveIn F' x) : kv.key < x.key := by
  have := hx.1
  rw [h.after] at this
  by_contra hle
  simp [not_lt.mp hle] at this

/-- A `Next` call that returns an item serves the least live item of the overlay, with the
    combiner's namespace and the item's value, and keeps the holders in order. -/
theorem next_some {combiner combiner' : ItrCombiner κ} {r : QueryResultKV κ}
    (hsorted : HoldersSorted combiner.holders) (h : combiner.next = (some r, combiner')) :
    ∃ kv, Serves (pendingOverlay combiner.holders) (pendingOverlay combiner'.holders) kv ∧
      r = ⟨combiner.ns, kv.key, kv.vv.value⟩ ∧ combiner'.ns = combiner.ns ∧
      HoldersSorted combiner'.holders := by
  fun_induction ItrCombiner.next combiner with
  | case1 c hlen => cases h
  | case2 c hlen H s hs hl kv removed H' hm hdel ih =>
    have hsel := selectLoop_spec c.holders 0 1 (by omega) (by omega) hsorted
      (fun j hj hj0 => absurd (by omega) hj0)
    rw [hl] at hsel
    obtain ⟨kv', hserves, hr, hns, hsorted'⟩ := ih (hsel.sorted.moveItr hm) h
    refine ⟨kv', ?_, hr, hns, hsorted'⟩
    rw [hsel.overlay_moveItr hm] at hserves
    exact hserves.skip hsel.overlay_smallest hdel (fun k kv' hk => hsel.le_of_overlay hk)
  | case3 c hlen H s hs hl kv removed H' hm hdel =>
    cases h
    have hsel := selectLoop_spec c.holders 0 1 (by omega) (by omega) hsorted
      (fun j hj hj0 => absurd (by omega) hj0)
    rw [hl] at hsel
    refine ⟨H[s].kv, ?_, rfl, rfl, hsel.sorted.moveItr hm⟩
    rw [hsel.overlay_moveItr hm]
    exact Serves.of_least ⟨hsel.overlay_smallest, by simpa using hdel⟩
      (fun k kv' hk => hsel.le_of_overlay hk)

/-- A `Next` call that returns nil leaves no live item in the overlay. -/
theorem next_none {combiner combiner' : ItrCombiner κ} (hsorted : HoldersSorted combiner.holders)
    (h : combiner.next = (none, combiner')) (kv : VersionedKV κ) :
    ¬ LiveIn (pendingOverlay combiner.holders) kv := by
  fun_induction ItrCombiner.next combiner with
  | case1 c hlen =>
    rw [List.length_eq_zero_iff.mp hlen]
    rintro ⟨hkv, -⟩
    cases hkv
  | case2 c hlen H s hs hl kvs removed H' hm hdel ih =>
    have hsel := selectLoop_spec c.holders 0 1 (by omega) (by omega) hsorted
      (fun j hj hj0 => absurd (by omega) hj0)
    rw [hl] at hsel
    have ih' := ih (hsel.sorted.moveItr hm) h
    rw [hsel.overlay_moveItr hm] at ih'
    rintro ⟨hkv, hlive⟩
    by_cases hk : kv.key = H[s].kv.key
    · -- the least key held a delete
      have hdel' : H[s].kv.isDelete = true := hdel
      rw [hk, hsel.overlay_smallest, Option.some.injEq] at hkv
      rw [← hkv, hdel'] at hlive
      cases hlive
    · exact ih' ⟨by simpa [hk] using hkv, hlive⟩
  | case3 c hlen H s hs hl kvs removed H' hm hdel => cases h

/-- Repeated `Next` calls return the live items of the overlay, in strictly increasing key
    order, each with the combiner's namespace and its value. -/
theorem results_spec (combiner : ItrCombiner κ) (hsorted : HoldersSorted combiner.holders) :
    combiner.results.Pairwise (fun a b => a.key < b.key) ∧
      ∀ r, r ∈ combiner.results ↔ ∃ kv, LiveIn (pendingOverlay combiner.holders) kv ∧
        r = ⟨combiner.ns, kv.key, kv.vv.value⟩ := by
  fun_induction ItrCombiner.results combiner with
  | case1 c c' h =>
    refine ⟨List.Pairwise.nil, fun r => ⟨fun hr => absurd hr List.not_mem_nil, ?_⟩⟩
    rintro ⟨kv, hkv, -⟩
    exact absurd hkv (next_none hsorted h kv)
  | case2 c r c' h ih =>
    obtain ⟨kv, hserves, rfl, hns, hsorted'⟩ := next_some hsorted h
    obtain ⟨hpair, hmem⟩ := ih hsorted'
    rw [hns] at hmem
    refine ⟨List.pairwise_cons.mpr ⟨fun x hx => ?_, hpair⟩, fun x => ?_⟩
    · -- everything served later has a greater key
      obtain ⟨kv', hkv', rfl⟩ := (hmem x).mp hx
      exact hserves.lt_of_liveIn hkv'
    · rw [List.mem_cons, hmem]
      constructor
      · rintro (rfl | ⟨kv', hkv', rfl⟩)
        · exact ⟨kv, hserves.live, rfl⟩
        · exact ⟨kv', hserves.liveIn_iff.mpr (.inr hkv'), rfl⟩
      · rintro ⟨kv', hkv', rfl⟩
        rcases hserves.liveIn_iff.mp hkv' with rfl | hkv'
        · exact .inl rfl
        · exact .inr ⟨kv', hkv', rfl⟩

end Serve

/-! ## The combined range scan -/

section Combiner

variable [LinearOrder κ]

/-- The holders of a new combiner serve the overlay of the base scans. -/
theorem pendingOverlay_newItrCombiner (ns : Ns) (scans : List (List (VersionedKV κ))) :
    pendingOverlay (newItrCombiner ns scans).holders = firstItem scans := by
  funext k
  induction scans with
  | nil => rfl
  | cons scan scans ih =>
    -- an empty scan gets no holder and has no item
    cases scan with
    | nil => simpa [newItrCombiner, pendingOverlay, firstItem, List.findSome?_cons] using ih
    | cons res rest =>
      simp only [newItrCombiner, pendingOverlay, firstItem, List.filterMap_cons, List.map_cons,
        List.findSome?_cons, ItrHolder.items] at ih ⊢
      rw [ih]

theorem holdersSorted_newItrCombiner (ns : Ns) {scans : List (List (VersionedKV κ))}
    (hsorted : ∀ scan ∈ scans, scan.Pairwise fun a b => a.key < b.key) :
    HoldersSorted (newItrCombiner ns scans).holders := by
  intro holder hholder
  obtain ⟨scan, hscan, hsome⟩ := List.mem_filterMap.mp hholder
  cases scan with
  | nil => cases hsome
  | cons res rest =>
    cases hsome
    exact hsorted _ hscan

theorem getStateRangeScanIterator_results (c : QECombiner κ) (ns : Ns) (startKey endKey : κ)
    (hsorted : ∀ qe ∈ c.queryExecuters,
      (qe.getStateRangeScanIterator ns startKey endKey).Pairwise fun a b => a.key < b.key) :
    (c.getStateRangeScanIterator ns startKey endKey).results.Pairwise
        (fun a b => a.key < b.key) ∧
      ∀ r, r ∈ (c.getStateRangeScanIterator ns startKey endKey).results ↔
        ∃ kv, firstItem (c.queryExecuters.map fun qe =>
            qe.getStateRangeScanIterator ns startKey endKey) kv.key = some kv ∧
          kv.isDelete = false ∧ r = ⟨ns, kv.key, kv.vv.value⟩ := by
  unfold QECombiner.getStateRangeScanIterator
  have hscans : ∀ scan ∈ c.queryExecuters.map (fun qe =>
      qe.getStateRangeScanIterator ns startKey endKey), scan.Pairwise fun a b => a.key < b.key := by
    simpa using hsorted
  obtain ⟨hpair, hmem⟩ := results_spec _ (holdersSorted_newItrCombiner ns hscans)
  refine ⟨hpair, fun r => ?_⟩
  rw [hmem, pendingOverlay_newItrCombiner]
  simp only [LiveIn, and_assoc]
  rfl

/-- Two executers: the first holds key `1` and deletes key `3`, the second holds keys `2` and
    `3`. The combined scan returns key `2`, and not key `3`, which the second executer still
    holds. -/
theorem getStateRangeScanIterator_results_two_executers :
    let c : QECombiner Nat :=
      ⟨[⟨fun _ _ _ => [⟨"ns", 1, ⟨some [1], [], ⟨1, 0⟩⟩⟩, ⟨"ns", 3, ⟨none, [], ⟨1, 1⟩⟩⟩]⟩,
        ⟨fun _ _ _ => [⟨"ns", 2, ⟨some [2], [], ⟨0, 0⟩⟩⟩, ⟨"ns", 3, ⟨some [3], [], ⟨0, 1⟩⟩⟩]⟩]⟩
    (∀ qe ∈ c.queryExecuters,
        (qe.getStateRangeScanIterator "ns" 0 4).Pairwise fun a b => a.key < b.key) ∧
      ⟨"ns", 2, some [2]⟩ ∈ (c.getStateRangeScanIterator "ns" 0 4).results ∧
      ∀ r ∈ (c.getStateRangeScanIterator "ns" 0 4).results, r.key ≠ 3 := by
  intro c
  have hsorted : ∀ qe ∈ c.queryExecuters,
      (qe.getStateRangeScanIterator "ns" 0 4).Pairwise fun a b => a.key < b.key := by
    decide
  have hspec := getStateRangeScanIterator_results c "ns" 0 4 hsorted
  refine ⟨hsorted, (hspec.2 _).mpr ⟨⟨"ns", 2, ⟨some [2], [], ⟨0, 0⟩⟩⟩, by decide, rfl, rfl⟩, ?_⟩
  intro r hr h3
  obtain ⟨kv, hkv, hlive, rfl⟩ := (hspec.2 r).mp hr
  -- the first executer's delete of key `3` hides the second executer's value
  have hfirst : firstItem (c.queryExecuters.map fun qe => qe.getStateRangeScanIterator "ns" 0 4) 3 =
      some ⟨"ns", 3, ⟨none, [], ⟨1, 1⟩⟩⟩ := by
    decide
  rw [show kv.key = 3 from h3, hfirst, Option.some.injEq] at hkv
  rw [← hkv] at hlive
  cases hlive

end Combiner

end Fabric.Ledger
