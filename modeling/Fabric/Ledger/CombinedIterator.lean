import Fabric.Ledger.StateDB

/-
  `combinedIterator` (`core/ledger/kvledger/txmgmt/validation/combined_iterator.go`): the
  view of a key range of the committed state with the writes of the preceding valid
  transactions of the block laid over it, used to re-run range queries at validation.

  The two underlying iterators are the lists of results they have still to return
  (`dbItr`, `updatesItr`), with the current item of each (`dbItem`, `updatesItem`). A
  `Next` call returns the smaller current key, the update when both sides hold the same
  key, and skips deletes; once both sides are exhausted it serves `endKey` once if asked
  to. `results` is what repeated `Next` calls return before the first nil.

  Repeated `Next` calls perform a merge of the two scans (`mergeItems`,
  `results_eq_mergeItems`), return nil for good after the first nil (`next_of_next_none`),
  and so return exactly the live keys in range of the batch laid over the committed state, in
  increasing order, each with its value in that overlay, then the live end key if asked for
  (`newCombinedIterator_next_overlay`).
-/

namespace Fabric.Ledger

variable {κ : Type} [LinearOrder κ]

/-- `combinedIterator`. -/
structure CombinedIterator (κ : Type) [LinearOrder κ] where
  ns : Ns
  db : VersionedDB κ
  updates : UpdateBatch (Ns × κ)
  endKey : κ
  includeEndKey : Bool
  dbItr : List (VersionedKV κ)
  updatesItr : List (VersionedKV κ)
  dbItem : Option (VersionedKV κ)
  updatesItem : Option (VersionedKV κ)
  endKeyServed : Bool

/-- `newCombinedIterator`: open both range scans and read the first item of each. -/
def newCombinedIterator [OrderBot κ] (db : VersionedDB κ) (updates : UpdateBatch (Ns × κ)) (ns : Ns)
    (startKey endKey : κ) (includeEndKey : Bool) : CombinedIterator κ :=
  let dbItr := db.getStateRangeScanIterator ns startKey endKey
  let updatesItr := updates.rangeScan ns startKey endKey
  { ns, db, updates, endKey, includeEndKey
    dbItr := dbItr.tail, updatesItr := updatesItr.tail
    dbItem := dbItr.head?, updatesItem := updatesItr.head?
    endKeyServed := false }

/-- `compareKeys`: a nil item sorts after every key. -/
def compareKeys : Option (VersionedKV κ) → Option (VersionedKV κ) → Ordering
  | none, none => .eq
  | none, some _ => .gt
  | some _, none => .lt
  | some item1, some item2 => compare item1.key item2.key

namespace CombinedIterator

/-- `itr.dbItem, err = itr.dbItr.Next()`. -/
def moveDB (itr : CombinedIterator κ) : CombinedIterator κ :=
  { itr with dbItem := itr.dbItr.head?, dbItr := itr.dbItr.tail }

/-- `itr.updatesItem, err = itr.updatesItr.Next()`. -/
def moveUpdates (itr : CombinedIterator κ) : CombinedIterator κ :=
  { itr with updatesItem := itr.updatesItr.head?, updatesItr := itr.updatesItr.tail }

/-- The `switch compResult` of `Next`: the selected item and the iterator after the side
    (or both sides) that supplied it moved on. -/
def selectNext (itr : CombinedIterator κ) : Option (VersionedKV κ) × CombinedIterator κ :=
  match compareKeys itr.dbItem itr.updatesItem with
  | .lt => (itr.dbItem, itr.moveDB)
  | .eq => (itr.updatesItem, itr.moveDB.moveUpdates)
  | .gt => (itr.updatesItem, itr.moveUpdates)

/-- The end key's value: from the updates if they touch it, else from the db. -/
def endKeyValue (itr : CombinedIterator κ) : Option VersionedValue :=
  match itr.updates.get (itr.ns, itr.endKey) with
  | some vv => some vv
  | none => itr.db.getState itr.ns itr.endKey

/-- `serveEndKeyIfNeeded`: the end key, once, unless it is absent or deleted. Only its value
    and version are copied. -/
def serveEndKeyIfNeeded (itr : CombinedIterator κ) :
    Option (VersionedKV κ) × CombinedIterator κ :=
  if !itr.includeEndKey || itr.endKeyServed then (none, itr)
  else
    let served := { itr with endKeyServed := true }
    match itr.endKeyValue with
    | none => (none, served)
    | some vv =>
      let vkv : VersionedKV κ := ⟨itr.ns, itr.endKey, ⟨vv.value, [], vv.version⟩⟩
      if vkv.isDelete then (none, served) else (some vkv, served)

/-- The items the two underlying iterators still hold, current items included. -/
def pending (itr : CombinedIterator κ) : Nat :=
  itr.dbItr.length + itr.updatesItr.length + (if itr.dbItem.isSome then 1 else 0) +
    (if itr.updatesItem.isSome then 1 else 0)

theorem isSome_of_compareKeys_lt {a b : Option (VersionedKV κ)} (h : compareKeys a b = .lt) :
    a.isSome := by
  cases a <;> cases b <;> simp_all [compareKeys]

theorem isSome_of_compareKeys_gt {a b : Option (VersionedKV κ)} (h : compareKeys a b = .gt) :
    b.isSome := by
  cases a <;> cases b <;> simp_all [compareKeys]

theorem isSome_of_compareKeys_eq {a b : Option (VersionedKV κ)} (h : compareKeys a b = .eq)
    (hn : ¬ (a.isNone && b.isNone) = true) : a.isSome ∧ b.isSome := by
  cases a <;> cases b <;> simp_all [compareKeys]

theorem pending_moveDB (itr : CombinedIterator κ) (h : itr.dbItem.isSome) :
    itr.moveDB.pending + 1 = itr.pending := by
  cases hl : itr.dbItr <;> simp_all [moveDB, pending] <;> omega

theorem pending_moveUpdates (itr : CombinedIterator κ) (h : itr.updatesItem.isSome) :
    itr.moveUpdates.pending + 1 = itr.pending := by
  cases hl : itr.updatesItr <;> simp_all [moveUpdates, pending]; omega

theorem pending_selectNext_lt (itr : CombinedIterator κ)
    (h : ¬ (itr.dbItem.isNone && itr.updatesItem.isNone) = true) :
    itr.selectNext.2.pending < itr.pending := by
  unfold selectNext
  split <;> dsimp only
  · rename_i hc
    have := pending_moveDB itr (isSome_of_compareKeys_lt hc)
    omega
  · rename_i hc
    obtain ⟨hd, hu⟩ := isSome_of_compareKeys_eq hc h
    have h1 := pending_moveDB itr hd
    have h2 := pending_moveUpdates itr.moveDB (by simpa [moveDB] using hu)
    omega
  · rename_i hc
    have := pending_moveUpdates itr (isSome_of_compareKeys_gt hc)
    omega

/-- `Next`. The selected item is never nil (`compareKeys` puts the non-nil side first), so
    the last branch, a nil dereference in Go, is not reached. -/
def next (itr : CombinedIterator κ) : Option (VersionedKV κ) × CombinedIterator κ :=
  if _h : itr.dbItem.isNone && itr.updatesItem.isNone then itr.serveEndKeyIfNeeded
  else
    match _hs : itr.selectNext with
    | (some item, itr') => if item.isDelete then itr'.next else (some item, itr')
    | (none, itr') => (none, itr')
termination_by itr.pending
decreasing_by
  have := pending_selectNext_lt itr _h
  rw [_hs] at this
  exact this

/-- Whether `serveEndKeyIfNeeded` may still return the end key. -/
def endKeyPending (itr : CombinedIterator κ) : Nat :=
  if itr.includeEndKey && !itr.endKeyServed then 1 else 0

/-- What `Next` can still return: two per pending item, one for the end key. -/
def budget (itr : CombinedIterator κ) : Nat := 2 * itr.pending + itr.endKeyPending

theorem selectNext_flags (itr : CombinedIterator κ) :
    itr.selectNext.2.includeEndKey = itr.includeEndKey ∧
      itr.selectNext.2.endKeyServed = itr.endKeyServed := by
  unfold selectNext
  split <;> simp [moveDB, moveUpdates]

/-- `serveEndKeyIfNeeded` returns an item only the first time, when asked to. -/
theorem serveEndKeyIfNeeded_some {itr itr' : CombinedIterator κ} {item : VersionedKV κ}
    (h : itr.serveEndKeyIfNeeded = (some item, itr')) :
    itr.includeEndKey = true ∧ itr.endKeyServed = false ∧
      itr' = { itr with endKeyServed := true } := by
  unfold serveEndKeyIfNeeded at h
  by_cases hc : (!itr.includeEndKey || itr.endKeyServed) = true
  · simp [hc] at h
  · rw [if_neg hc] at h
    simp only [Bool.or_eq_true, Bool.not_eq_true', not_or, Bool.not_eq_false] at hc
    refine ⟨hc.1, by simpa using hc.2, ?_⟩
    cases hv : itr.endKeyValue with
    | none => simp [hv] at h
    | some vv =>
      by_cases hd : (⟨itr.ns, itr.endKey, ⟨vv.value, [], vv.version⟩⟩ : VersionedKV κ).isDelete
      · simp [hv, hd] at h
      · simp only [hv, hd, Bool.false_eq_true, if_false, Prod.mk.injEq] at h
        exact h.2.symm

theorem budget_serveEndKeyIfNeeded {itr itr' : CombinedIterator κ} {item : VersionedKV κ}
    (h : itr.serveEndKeyIfNeeded = (some item, itr')) : itr'.budget < itr.budget := by
  obtain ⟨hinc, hserved, rfl⟩ := serveEndKeyIfNeeded_some h
  simp [budget, pending, endKeyPending, hinc, hserved]

/-- A `Next` call that returns an item lowers the budget. -/
theorem budget_next {itr itr' : CombinedIterator κ} {item : VersionedKV κ}
    (h : itr.next = (some item, itr')) : itr'.budget < itr.budget := by
  fun_induction next itr with
  | case1 itr hnone => exact budget_serveEndKeyIfNeeded h
  | case2 itr hnone item0 itr0 hs hdel ih =>
    have hlt := pending_selectNext_lt itr hnone
    have hfl := selectNext_flags itr
    rw [hs] at hlt hfl
    dsimp only at hlt hfl
    have := ih h
    simp only [budget, endKeyPending, hfl.1, hfl.2] at this ⊢
    omega
  | case3 itr hnone item0 itr0 hs hdel =>
    cases h
    have hlt := pending_selectNext_lt itr hnone
    have hfl := selectNext_flags itr
    rw [hs] at hlt hfl
    dsimp only at hlt hfl
    simp only [budget, endKeyPending, hfl.1, hfl.2]
    omega
  | case4 itr hnone itr0 hs => cases h

/-- The results repeated `Next` calls return before the first nil. -/
def results (itr : CombinedIterator κ) : List (VersionedKV κ) :=
  match _h : itr.next with
  | (none, _) => []
  | (some item, itr') => item :: itr'.results
termination_by itr.budget
decreasing_by exact budget_next _h

theorem results_of_next_none {itr itr' : CombinedIterator κ} (h : itr.next = (none, itr')) :
    itr.results = [] := by
  rw [results]
  split <;> simp_all

theorem results_of_next_some {itr itr' : CombinedIterator κ} {item : VersionedKV κ}
    (h : itr.next = (some item, itr')) : itr.results = item :: itr'.results := by
  rw [results]
  split <;> simp_all

/-! ## Reading the committed state alone -/

/-- What `serveEndKeyIfNeeded` returns: the end key's live value, once, if asked for. -/
theorem serveEndKeyIfNeeded_fst (itr : CombinedIterator κ) :
    itr.serveEndKeyIfNeeded.1 =
      if itr.includeEndKey && !itr.endKeyServed then
        (itr.endKeyValue.map fun vv => (⟨itr.ns, itr.endKey, ⟨vv.value, [], vv.version⟩⟩ :
          VersionedKV κ)).filter fun vkv => !vkv.isDelete
      else none := by
  unfold serveEndKeyIfNeeded
  by_cases hc : itr.includeEndKey && !itr.endKeyServed
  · have hc' : ¬ (!itr.includeEndKey || itr.endKeyServed) = true := by
      revert hc
      cases itr.includeEndKey <;> cases itr.endKeyServed <;> simp
    rw [if_neg hc', if_pos hc]
    cases itr.endKeyValue with
    | none => rfl
    | some vv => by_cases hd : (⟨itr.ns, itr.endKey, ⟨vv.value, [], vv.version⟩⟩ :
        VersionedKV κ).isDelete <;> simp [hd, Option.filter]
  · have hc' : (!itr.includeEndKey || itr.endKeyServed) = true := by
      revert hc
      cases itr.includeEndKey <;> cases itr.endKeyServed <;> simp
    rw [if_pos hc', if_neg hc]

theorem serveEndKeyIfNeeded_moveDB (itr : CombinedIterator κ) :
    itr.moveDB.serveEndKeyIfNeeded.1 = itr.serveEndKeyIfNeeded.1 := by
  simp only [serveEndKeyIfNeeded_fst]
  rfl

theorem next_of_exhausted (itr : CombinedIterator κ) (hd : itr.dbItem = none)
    (hu : itr.updatesItem = none) : itr.next = itr.serveEndKeyIfNeeded := by
  rw [next, dif_pos (by simp [hd, hu])]

/-- With no update pending, `Next` returns the current db item and moves the db side on. -/
theorem next_of_dbItem (itr : CombinedIterator κ) {d : VersionedKV κ}
    (hd : itr.dbItem = some d) (hu : itr.updatesItem = none) (hdel : d.isDelete = false) :
    itr.next = (some d, itr.moveDB) := by
  have hs : itr.selectNext = (some d, itr.moveDB) := by
    simp [selectNext, compareKeys, hd, hu]
  rw [next, dif_neg (by simp [hd])]
  split
  · rename_i item itr' hs'
    rw [hs, Prod.mk.injEq, Option.some.injEq] at hs'
    obtain ⟨rfl, rfl⟩ := hs'
    simp [hdel]
  · rename_i itr' hs'
    rw [hs] at hs'
    cases hs'

/-- With both sides exhausted, the combined iterator returns the end key, if it serves it. -/
theorem results_of_exhausted (itr : CombinedIterator κ) (hd : itr.dbItem = none)
    (hu : itr.updatesItem = none) : itr.results = itr.serveEndKeyIfNeeded.1.toList := by
  have hnext := next_of_exhausted itr hd hu
  cases hs : itr.serveEndKeyIfNeeded with
  | mk first itr' =>
    cases first with
    | none => simp [results_of_next_none (hnext.trans hs)]
    | some item =>
      -- the end key is served once; the call after it finds it served
      obtain ⟨-, -, rfl⟩ := serveEndKeyIfNeeded_some hs
      have hnext' := next_of_exhausted { itr with endKeyServed := true } hd hu
      have hnone : ({ itr with endKeyServed := true } : CombinedIterator κ).serveEndKeyIfNeeded =
          (none, { itr with endKeyServed := true }) := by
        simp [serveEndKeyIfNeeded]
      simp [results_of_next_some (hnext.trans hs), results_of_next_none (hnext'.trans hnone)]

/-- With the updates exhausted, the combined iterator returns the rest of the db scan, then
    the end key if it is to be served. -/
theorem results_of_updates_exhausted (L : List (VersionedKV κ)) (itr : CombinedIterator κ)
    (hitem : itr.dbItem = L.head?) (hitr : itr.dbItr = L.tail) (hu : itr.updatesItem = none)
    (hdel : ∀ d ∈ L, d.isDelete = false) :
    itr.results = L ++ itr.serveEndKeyIfNeeded.1.toList := by
  induction L generalizing itr with
  | nil => rw [results_of_exhausted itr hitem hu, List.nil_append]
  | cons d L ih =>
    have hnext := next_of_dbItem itr hitem hu (hdel d (List.mem_cons_self ..))
    rw [results_of_next_some hnext, ih itr.moveDB (by simp [moveDB, hitr]) (by simp [moveDB, hitr]) hu
      (fun d' hd' => hdel d' (List.mem_cons_of_mem _ hd')), serveEndKeyIfNeeded_moveDB]
    rfl

end CombinedIterator

/-- Over an empty update batch the combined iterator returns the db scan, then the end key's
    committed entry when it is to be included. -/
theorem results_newCombinedIterator_empty [OrderBot κ] (db : VersionedDB κ) (ns : Ns)
    (startKey endKey : κ) (includeEndKey : Bool) :
    (newCombinedIterator db UpdateBatch.empty ns startKey endKey includeEndKey).results =
      db.getStateRangeScanIterator ns startKey endKey ++
        if includeEndKey then
          ((db.getState ns endKey).map fun vv =>
            (⟨ns, endKey, ⟨vv.value, [], vv.version⟩⟩ : VersionedKV κ)).toList
        else [] := by
  rw [CombinedIterator.results_of_updates_exhausted _ _ rfl rfl (by simp [newCombinedIterator])
    (VersionedDB.isDelete_of_mem_getStateRangeScanIterator db ns startKey endKey),
    CombinedIterator.serveEndKeyIfNeeded_fst]
  congr 1
  cases includeEndKey with
  | false => rfl
  | true =>
    -- the end key is read from the db, where no value is a delete
    simp only [newCombinedIterator, CombinedIterator.endKeyValue, UpdateBatch.get_empty,
      Bool.not_false, Bool.and_self, if_true]
    cases hv : db.getState ns endKey with
    | none => rfl
    | some vv =>
      have := VersionedDB.getState_value_isSome hv
      simp [Option.filter, VersionedKV.isDelete, Option.isNone_iff_eq_none,
        Option.isSome_iff_ne_none.1 this]

/-! ## The merge of the two sides -/

/-- An item ahead of the rest, unless it is a delete. -/
def consLive (item : VersionedKV κ) (rest : List (VersionedKV κ)) : List (VersionedKV κ) :=
  if item.isDelete then rest else item :: rest

/-- What repeated `Next` calls return from the items the db side and the updates side still
    hold: the smaller key first, the update where both hold a key, deletes skipped. -/
def mergeItems : List (VersionedKV κ) → List (VersionedKV κ) → List (VersionedKV κ)
  | [], [] => []
  | d :: ds, [] => consLive d (mergeItems ds [])
  | [], u :: us => consLive u (mergeItems [] us)
  | d :: ds, u :: us =>
    match compare d.key u.key with
    | .lt => consLive d (mergeItems ds (u :: us))
    | .eq => consLive u (mergeItems ds us)
    | .gt => consLive u (mergeItems (d :: ds) us)

omit [LinearOrder κ] in
@[simp] theorem mem_consLive {x item : VersionedKV κ} {rest : List (VersionedKV κ)} :
    x ∈ consLive item rest ↔ (x = item ∧ item.isDelete = false) ∨ x ∈ rest := by
  unfold consLive
  cases h : item.isDelete <;> simp

omit [LinearOrder κ] in
theorem consLive_append (item : VersionedKV κ) (rest tail : List (VersionedKV κ)) :
    consLive item rest ++ tail = consLive item (rest ++ tail) := by
  unfold consLive
  split <;> rfl

/-- The merge returns items of the two sides. -/
theorem mem_of_mem_mergeItems {x : VersionedKV κ} :
    ∀ {ds us : List (VersionedKV κ)}, x ∈ mergeItems ds us → x ∈ ds ∨ x ∈ us := by
  intro ds us
  induction ds, us using mergeItems.induct with
  | case1 => simp [mergeItems]
  | case2 d ds ih =>
    rw [mergeItems, mem_consLive]
    rintro (⟨rfl, -⟩ | hx)
    · simp
    · rcases ih hx with hx | hx <;> simp_all
  | case3 u us ih =>
    rw [mergeItems, mem_consLive]
    rintro (⟨rfl, -⟩ | hx)
    · simp
    · rcases ih hx with hx | hx <;> simp_all
  | case4 d ds u us hc ih =>
    rw [mergeItems, hc, mem_consLive]
    rintro (⟨rfl, -⟩ | hx)
    · simp
    · rcases ih hx with hx | hx <;> simp [hx]
  | case5 d ds u us hc ih =>
    rw [mergeItems, hc, mem_consLive]
    rintro (⟨rfl, -⟩ | hx)
    · simp
    · rcases ih hx with hx | hx <;> simp [hx]
  | case6 d ds u us hc ih =>
    rw [mergeItems, hc, mem_consLive]
    rintro (⟨rfl, -⟩ | hx)
    · simp
    · rcases ih hx with hx | hx <;> simp_all

omit [LinearOrder κ] in
theorem pairwise_consLive {R : VersionedKV κ → VersionedKV κ → Prop} {item : VersionedKV κ}
    {rest : List (VersionedKV κ)} (hlt : ∀ y ∈ rest, R item y) (hrest : rest.Pairwise R) :
    (consLive item rest).Pairwise R := by
  unfold consLive
  split
  · exact hrest
  · exact List.pairwise_cons.mpr ⟨hlt, hrest⟩

/-- A key below both sides' keys is below the keys of their merge. -/
theorem lt_of_mem_mergeItems {k : κ} {ds us : List (VersionedKV κ)}
    (hds : ∀ d ∈ ds, k < d.key) (hus : ∀ u ∈ us, k < u.key) :
    ∀ y ∈ mergeItems ds us, k < y.key := fun y hy =>
  (mem_of_mem_mergeItems hy).elim (hds y) (hus y)

/-- Merging two sides with increasing keys returns increasing keys. -/
theorem mergeItems_sorted :
    ∀ {ds us : List (VersionedKV κ)}, ds.Pairwise (fun a b => a.key < b.key) →
      us.Pairwise (fun a b => a.key < b.key) →
      (mergeItems ds us).Pairwise (fun a b => a.key < b.key) := by
  intro ds us
  induction ds, us using mergeItems.induct with
  | case1 => simp [mergeItems]
  | case2 d ds ih =>
    intro hds hus
    rw [List.pairwise_cons] at hds
    rw [mergeItems]
    exact pairwise_consLive (lt_of_mem_mergeItems hds.1 (by simp)) (ih hds.2 hus)
  | case3 u us ih =>
    intro hds hus
    rw [List.pairwise_cons] at hus
    rw [mergeItems]
    exact pairwise_consLive (lt_of_mem_mergeItems (by simp) hus.1) (ih hds hus.2)
  | case4 d ds u us hc ih =>
    -- the db item comes first: it is below the update and everything after both
    intro hds hus
    have hdu : d.key < u.key := compare_lt_iff_lt.mp hc
    have hus' := hus
    rw [List.pairwise_cons] at hds hus'
    rw [mergeItems, hc]
    refine pairwise_consLive (lt_of_mem_mergeItems hds.1 ?_) (ih hds.2 hus)
    intro y hy
    rcases List.mem_cons.mp hy with rfl | hy
    · exact hdu
    · exact lt_trans hdu (hus'.1 y hy)
  | case5 d ds u us hc ih =>
    -- the update stands for both items of its key
    intro hds hus
    have hdu : d.key = u.key := compare_eq_iff_eq.mp hc
    rw [List.pairwise_cons] at hds hus
    rw [mergeItems, hc]
    exact pairwise_consLive (lt_of_mem_mergeItems (fun y hy => hdu ▸ hds.1 y hy) hus.1)
      (ih hds.2 hus.2)
  | case6 d ds u us hc ih =>
    intro hds hus
    have hud : u.key < d.key := compare_gt_iff_gt.mp hc
    have hds' := hds
    rw [List.pairwise_cons] at hds' hus
    rw [mergeItems, hc]
    refine pairwise_consLive (lt_of_mem_mergeItems ?_ hus.1) (ih hds hus.2)
    intro y hy
    rcases List.mem_cons.mp hy with rfl | hy
    · exact hud
    · exact lt_trans hud (hds'.1 y hy)

/-- The items of the merge of two sides with increasing keys: the live updates, and the live
    db items whose key no update holds. -/
theorem mem_mergeItems {x : VersionedKV κ} :
    ∀ {ds us : List (VersionedKV κ)}, ds.Pairwise (fun a b => a.key < b.key) →
      us.Pairwise (fun a b => a.key < b.key) →
      (x ∈ mergeItems ds us ↔
        x.isDelete = false ∧ (x ∈ us ∨ (x ∈ ds ∧ ∀ u ∈ us, u.key ≠ x.key))) := by
  intro ds us
  induction ds, us using mergeItems.induct with
  | case1 => simp [mergeItems]
  | case2 d ds ih =>
    intro hds hus
    rw [List.pairwise_cons] at hds
    rw [mergeItems, mem_consLive, ih hds.2 hus]
    grind
  | case3 u us ih =>
    intro hds hus
    rw [List.pairwise_cons] at hus
    rw [mergeItems, mem_consLive, ih hds hus.2]
    grind
  | case4 d ds u us hc ih =>
    intro hds hus
    have hdu : d.key < u.key := compare_lt_iff_lt.mp hc
    have hus' := hus
    rw [List.pairwise_cons] at hds hus'
    -- no update holds the db item's key
    have hfresh : ∀ y ∈ u :: us, y.key ≠ d.key := by
      intro y hy
      rcases List.mem_cons.mp hy with rfl | hy
      · exact ne_of_gt hdu
      · exact ne_of_gt (lt_trans hdu (hus'.1 y hy))
    rw [mergeItems, hc, mem_consLive, ih hds.2 hus]
    grind
  | case5 d ds u us hc ih =>
    intro hds hus
    have hdu : d.key = u.key := compare_eq_iff_eq.mp hc
    have hus' := hus
    rw [List.pairwise_cons] at hds hus'
    -- the db item is shadowed; the later db items are above the update's key
    have hds_above : ∀ y ∈ ds, y.key ≠ u.key := fun y hy => ne_of_gt (hdu ▸ hds.1 y hy)
    have hus_above : ∀ y ∈ us, y.key ≠ u.key := fun y hy => ne_of_gt (hus'.1 y hy)
    rw [mergeItems, hc, mem_consLive, ih hds.2 hus'.2]
    grind
  | case6 d ds u us hc ih =>
    intro hds hus
    have hud : u.key < d.key := compare_gt_iff_gt.mp hc
    have hus' := hus
    rw [List.pairwise_cons] at hds hus'
    -- the update is below every db item's key
    have hbelow : ∀ y ∈ d :: ds, u.key ≠ y.key := by
      intro y hy
      rcases List.mem_cons.mp hy with rfl | hy
      · exact ne_of_lt hud
      · exact ne_of_lt (lt_trans hud (hds.1 y hy))
    rw [mergeItems, hc, mem_consLive, ih (List.pairwise_cons.mpr hds) hus'.2]
    grind

/-! ## Repeated `Next` calls -/

namespace CombinedIterator

theorem serveEndKeyIfNeeded_moveUpdates (itr : CombinedIterator κ) :
    itr.moveUpdates.serveEndKeyIfNeeded.1 = itr.serveEndKeyIfNeeded.1 := by
  simp only [serveEndKeyIfNeeded_fst]
  rfl

/-- Iterators whose next `Next` calls agree return the same results. -/
theorem results_congr {itr itr' : CombinedIterator κ} (h : itr.next = itr'.next) :
    itr.results = itr'.results := by
  cases hn : itr'.next with
  | mk item itr'' =>
    cases item with
    | none => rw [results_of_next_none (h.trans hn), results_of_next_none hn]
    | some item => rw [results_of_next_some (h.trans hn), results_of_next_some hn]

/-- One step of the merge: the selected item, unless it is a delete, ahead of the results of
    the iterator it leaves. -/
theorem results_of_selectNext {itr itr' : CombinedIterator κ} {item : VersionedKV κ}
    (hn : ¬(itr.dbItem.isNone && itr.updatesItem.isNone) = true)
    (hs : itr.selectNext = (some item, itr')) : itr.results = consLive item itr'.results := by
  have hnext : itr.next = if item.isDelete then itr'.next else (some item, itr') := by
    rw [next, dif_neg hn]
    split
    · rename_i item0 itr0 hs'
      rw [hs, Prod.mk.injEq, Option.some.injEq] at hs'
      obtain ⟨rfl, rfl⟩ := hs'
      rfl
    · rename_i itr0 hs'
      rw [hs] at hs'
      cases hs'
  unfold consLive
  split
  · next hdel => exact results_congr (by rw [hnext, if_pos hdel])
  · next hdel => exact results_of_next_some (by rw [hnext, if_neg hdel])

/-- Repeated `Next` calls return the merge of what the two sides hold, then the end key if
    it is to be served. -/
theorem results_eq_mergeItems :
    ∀ (ds us : List (VersionedKV κ)) (itr : CombinedIterator κ),
      itr.dbItem = ds.head? → itr.dbItr = ds.tail → itr.updatesItem = us.head? →
      itr.updatesItr = us.tail →
      itr.results = mergeItems ds us ++ itr.serveEndKeyIfNeeded.1.toList := by
  intro ds us
  induction ds, us using mergeItems.induct with
  | case1 =>
    intro itr hd _ hu _
    rw [results_of_exhausted itr hd hu, mergeItems, List.nil_append]
  | case2 d ds ih =>
    intro itr hd hdi hu hui
    have hs : itr.selectNext = (some d, itr.moveDB) := by
      simp [selectNext, compareKeys, hd, hu]
    rw [results_of_selectNext (by simp [hd]) hs,
      ih itr.moveDB (by simp [moveDB, hdi]) (by simp [moveDB, hdi]) hu hui,
      serveEndKeyIfNeeded_moveDB, mergeItems, consLive_append]
  | case3 u us ih =>
    intro itr hd hdi hu hui
    have hs : itr.selectNext = (some u, itr.moveUpdates) := by
      simp [selectNext, compareKeys, hd, hu]
    rw [results_of_selectNext (by simp [hu]) hs,
      ih itr.moveUpdates hd hdi (by simp [moveUpdates, hui]) (by simp [moveUpdates, hui]),
      serveEndKeyIfNeeded_moveUpdates, mergeItems, consLive_append]
  | case4 d ds u us hc ih =>
    intro itr hd hdi hu hui
    have hs : itr.selectNext = (some d, itr.moveDB) := by
      simp [selectNext, compareKeys, hd, hu, hc]
    rw [results_of_selectNext (by simp [hd]) hs,
      ih itr.moveDB (by simp [moveDB, hdi]) (by simp [moveDB, hdi]) hu hui,
      serveEndKeyIfNeeded_moveDB, mergeItems, hc, consLive_append]
  | case5 d ds u us hc ih =>
    intro itr hd hdi hu hui
    have hs : itr.selectNext = (some u, itr.moveDB.moveUpdates) := by
      simp [selectNext, compareKeys, hd, hu, hc]
    rw [results_of_selectNext (by simp [hd]) hs,
      ih itr.moveDB.moveUpdates (by simp [moveDB, moveUpdates, hdi])
        (by simp [moveDB, moveUpdates, hdi]) (by simp [moveDB, moveUpdates, hui])
        (by simp [moveDB, moveUpdates, hui]),
      serveEndKeyIfNeeded_moveUpdates, serveEndKeyIfNeeded_moveDB, mergeItems, hc,
      consLive_append]
  | case6 d ds u us hc ih =>
    intro itr hd hdi hu hui
    have hs : itr.selectNext = (some u, itr.moveUpdates) := by
      simp [selectNext, compareKeys, hd, hu, hc]
    rw [results_of_selectNext (by simp [hd]) hs,
      ih itr.moveUpdates hd hdi (by simp [moveUpdates, hui]) (by simp [moveUpdates, hui]),
      serveEndKeyIfNeeded_moveUpdates, mergeItems, hc, consLive_append]

/-- `serveEndKeyIfNeeded` that returns nothing leaves an iterator that returns nothing again,
    with the same current items. -/
theorem serveEndKeyIfNeeded_none {itr itr' : CombinedIterator κ}
    (h : itr.serveEndKeyIfNeeded = (none, itr')) :
    itr'.serveEndKeyIfNeeded = (none, itr') ∧ itr'.dbItem = itr.dbItem ∧
      itr'.updatesItem = itr.updatesItem := by
  unfold serveEndKeyIfNeeded at h
  by_cases hc : (!itr.includeEndKey || itr.endKeyServed) = true
  · -- nothing to serve: the iterator is unchanged
    rw [if_pos hc, Prod.mk.injEq] at h
    obtain ⟨-, rfl⟩ := h
    exact ⟨by rw [serveEndKeyIfNeeded, if_pos hc], rfl, rfl⟩
  · rw [if_neg hc] at h
    have hitr' : itr' = { itr with endKeyServed := true } := by
      split at h
      · exact (Prod.mk.inj h).2.symm
      · dsimp only at h
        split at h
        · exact (Prod.mk.inj h).2.symm
        · cases h
    subst hitr'
    exact ⟨by simp [serveEndKeyIfNeeded], rfl, rfl⟩

/-- Unless both sides are exhausted, `selectNext` selects an item. -/
theorem selectNext_fst_isSome (itr : CombinedIterator κ)
    (hn : ¬(itr.dbItem.isNone && itr.updatesItem.isNone) = true) :
    itr.selectNext.1.isSome := by
  unfold selectNext
  split
  · next hc => exact isSome_of_compareKeys_lt hc
  · next hc => exact (isSome_of_compareKeys_eq hc hn).2
  · next hc => exact isSome_of_compareKeys_gt hc

/-- After a `Next` call that returns nothing, every further call returns nothing. -/
theorem next_of_next_none {itr itr' : CombinedIterator κ} (h : itr.next = (none, itr')) :
    itr'.next = (none, itr') := by
  fun_induction next itr with
  | case1 itr hnone =>
    obtain ⟨hserve, hd, hu⟩ := serveEndKeyIfNeeded_none h
    simp only [Bool.and_eq_true, Option.isNone_iff_eq_none] at hnone
    rw [next_of_exhausted itr' (hd.trans hnone.1) (hu.trans hnone.2), hserve]
  | case2 itr hnone item0 itr0 hs hdel ih => exact ih h
  | case3 itr hnone item0 itr0 hs hdel => cases h
  | case4 itr hnone itr0 hs =>
    -- `selectNext` selects an item here
    have := selectNext_fst_isSome itr hnone
    rw [hs] at this
    cases this

/-- What the `i`-th of repeated `Next` calls returns, counting from `0`. -/
def nthNext : Nat → CombinedIterator κ → Option (VersionedKV κ)
  | 0, itr => itr.next.1
  | i + 1, itr => nthNext i itr.next.2

theorem nthNext_of_next_none {itr itr' : CombinedIterator κ} (h : itr.next = (none, itr')) :
    ∀ i, itr.nthNext i = none
  | 0 => by rw [nthNext, h]
  | i + 1 => by
    rw [nthNext, h]
    exact nthNext_of_next_none (next_of_next_none h) i

/-- The `i`-th `Next` call returns the `i`-th result, and nil past the results. -/
theorem nthNext_eq_getElem?_results :
    ∀ (i : Nat) (itr : CombinedIterator κ), itr.nthNext i = itr.results[i]?
  | i, itr => by
    cases hn : itr.next with
    | mk item itr' =>
      cases item with
      | none => rw [nthNext_of_next_none hn, results_of_next_none hn, List.getElem?_nil]
      | some item =>
        rw [results_of_next_some hn]
        cases i with
        | zero => rw [nthNext, hn, List.getElem?_cons_zero]
        | succ i => rw [nthNext, hn, List.getElem?_cons_succ, nthNext_eq_getElem?_results i itr']

end CombinedIterator

/-! ## The overlay view -/

/-- The state of `ns` with the batch laid over the committed state: the batch's entry where it
    touches the key, the db's otherwise. -/
def overlay (db : VersionedDB κ) (updates : UpdateBatch (Ns × κ)) (ns : Ns) (k : κ) :
    Option VersionedValue :=
  match updates.get (ns, k) with
  | some vv => some vv
  | none => db.getState ns k

/-- The end key with its value and version, if it is live in the overlay. -/
def liveEndKey (db : VersionedDB κ) (updates : UpdateBatch (Ns × κ)) (ns : Ns) (endKey : κ) :
    Option (VersionedKV κ) :=
  ((overlay db updates ns endKey).filter fun vv => vv.value.isSome).map fun vv =>
    ⟨ns, endKey, ⟨vv.value, [], vv.version⟩⟩

/-- An item of the merge of the two scans is a live key of the overlay in range, with its
    overlay value. -/
theorem mem_mergeItems_scans [OrderBot κ] (db : VersionedDB κ) (updates : UpdateBatch (Ns × κ))
    (ns : Ns) (startKey endKey : κ) (item : VersionedKV κ) :
    item ∈ mergeItems (db.getStateRangeScanIterator ns startKey endKey)
        (updates.rangeScan ns startKey endKey) ↔
      item.ns = ns ∧ inRange startKey endKey item.key = true ∧
        overlay db updates ns item.key = some item.vv ∧ item.vv.value.isSome = true := by
  rw [mem_mergeItems (db.getStateRangeScanIterator_sorted ns startKey endKey)
    (updates.rangeScan_sorted ns startKey endKey), UpdateBatch.mem_rangeScan,
    VersionedDB.mem_getStateRangeScanIterator]
  have hlive : item.isDelete = false ↔ item.vv.value.isSome = true := by
    simp [VersionedKV.isDelete]
  rw [hlive, overlay]
  cases hget : updates.get (ns, item.key) with
  | none =>
    -- no update holds the key: the db item stands
    have hfree : ∀ u ∈ updates.rangeScan ns startKey endKey, u.key ≠ item.key := by
      intro u hu hk
      rw [UpdateBatch.mem_rangeScan] at hu
      rw [← hk, hu.2.2] at hget
      cases hget
    simp only [reduceCtorEq, and_false, false_or]
    constructor
    · rintro ⟨hl, ⟨hns, hin, hdb⟩, -⟩
      exact ⟨hns, hin, hdb, hl⟩
    · rintro ⟨hns, hin, hdb, hl⟩
      exact ⟨hl, ⟨hns, hin, hdb⟩, hfree⟩
  | some vv =>
    -- the update shadows the db item
    constructor
    · rintro ⟨hl, (⟨hns, hin, hvv⟩ | ⟨⟨hns, hin, -⟩, hfree⟩)⟩
      · exact ⟨hns, hin, hvv, hl⟩
      · exact absurd rfl (hfree ⟨ns, item.key, vv⟩
          ((UpdateBatch.mem_rangeScan _ _ _ _ _).mpr ⟨rfl, hin, hget⟩))
    · rintro ⟨hns, hin, hvv, hl⟩
      exact ⟨hl, Or.inl ⟨hns, hin, hvv⟩⟩

theorem newCombinedIterator_next_overlay [OrderBot κ] (db : VersionedDB κ)
    (updates : UpdateBatch (Ns × κ)) (ns : Ns) (startKey endKey : κ) (includeEndKey : Bool) :
    ∃ L : List (VersionedKV κ),
      (∀ i, (newCombinedIterator db updates ns startKey endKey includeEndKey).nthNext i =
        (L ++ if includeEndKey then (liveEndKey db updates ns endKey).toList else [])[i]?) ∧
      L.Pairwise (fun a b => a.key < b.key) ∧
      ∀ item, item ∈ L ↔ item.ns = ns ∧ inRange startKey endKey item.key = true ∧
        overlay db updates ns item.key = some item.vv ∧ item.vv.value.isSome = true := by
  refine ⟨mergeItems (db.getStateRangeScanIterator ns startKey endKey)
      (updates.rangeScan ns startKey endKey), fun i => ?_,
    mergeItems_sorted (db.getStateRangeScanIterator_sorted ns startKey endKey)
      (updates.rangeScan_sorted ns startKey endKey),
    mem_mergeItems_scans db updates ns startKey endKey⟩
  rw [CombinedIterator.nthNext_eq_getElem?_results,
    CombinedIterator.results_eq_mergeItems _ _ _ rfl rfl rfl rfl,
    CombinedIterator.serveEndKeyIfNeeded_fst]
  -- the end key is served from the overlay, unless it is a delete
  congr 2
  cases includeEndKey with
  | false => rfl
  | true =>
    have hvalue : (newCombinedIterator db updates ns startKey endKey true).endKeyValue =
        overlay db updates ns endKey := rfl
    rw [hvalue]
    simp only [newCombinedIterator, Bool.not_false, Bool.and_self, if_true, liveEndKey,
      Option.filter_map]
    simp [Function.comp_def, VersionedKV.isDelete]

end Fabric.Ledger
