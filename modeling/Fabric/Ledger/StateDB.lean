import Fabric.Ledger.Version
import Fabric.Lib.GoMap
import Mathlib

/-
  The state database as the validator sees it (`core/ledger/kvledger/txmgmt/statedb`).

  `UpdateBatch` is the Go map of pending writes, keyed by a composite key, each entry the
  latest `VersionedValue` written (a nil value is a delete). `VersionedDB` is the committed
  state behind the `statedb.VersionedDB` interface: per namespace, the stored entries in
  increasing key order, a range scan returning those in `[startKey, endKey)`. The
  implementations of that interface (LevelDB, CouchDB) are not modelled here; a scan is the
  interface's documented result.

  Keys live in a type with a linear order and a least element `⊥`, which plays the Go empty
  string: an `endKey` of `""` means "no upper bound" (`nsIterator`, `GetStateRangeScanIterator`).
-/

namespace Fabric.Ledger

/-- Namespace and collection names: Go strings compared only for equality. -/
abbrev Ns := String

/-- `statedb.VersionedValue`. A nil `Value` marks a delete in an update batch; a nil
    `Metadata` is the empty byte string. -/
structure VersionedValue where
  value : Option Bytes
  metadata : Bytes
  version : Height
  deriving DecidableEq, Repr

/-- `statedb.VersionedKV`: a composite key (namespace, key) with its versioned value. -/
structure VersionedKV (κ : Type) where
  ns : Ns
  key : κ
  vv : VersionedValue
  deriving DecidableEq, Repr

/-- `isDelete`. -/
def VersionedKV.isDelete {κ : Type} (item : VersionedKV κ) : Bool := item.vv.value.isNone

/-! ## Update batches -/

/-- `statedb.UpdateBatch` (and `privacyenabledstate.UpdateMap`): a finite map from composite
    keys to the latest value written, without repeated keys. -/
structure UpdateBatch (K : Type) [DecidableEq K] where
  entries : List (K × VersionedValue)
  nodup : (entries.map Prod.fst).Nodup

namespace UpdateBatch

variable {K : Type} [DecidableEq K]

/-- `NewUpdateBatch`. -/
def empty : UpdateBatch K := ⟨[], List.nodup_nil⟩

/-- `Get`: the latest entry for a key, nil if the batch does not touch it. -/
def get (batch : UpdateBatch K) (k : K) : Option VersionedValue := batch.entries.lookup k

/-- `Exists`. -/
def «exists» (batch : UpdateBatch K) (k : K) : Bool := (batch.get k).isSome

/-- `Update`: record `vv` as the latest entry for `k`. -/
def update (batch : UpdateBatch K) (k : K) (vv : VersionedValue) : UpdateBatch K :=
  ⟨(k, vv) :: batch.entries.filter (fun e => e.1 != k),
    GoMap.nodup_cons_filter _ k vv batch.nodup⟩

/-- `PutValAndMetadata`: a nil value panics. -/
def putValAndMetadata (batch : UpdateBatch K) (k : K) (value : Option Bytes) (metadata : Bytes)
    (version : Height) : Except Failure (UpdateBatch K) :=
  match value with
  | none => .error (.panic "Nil value not allowed. Instead call \x27Delete\x27 function")
  | some v => .ok (batch.update k ⟨some v, metadata, version⟩)

/-- `Delete`: a nil value, nil metadata. -/
def delete (batch : UpdateBatch K) (k : K) (version : Height) : UpdateBatch K :=
  batch.update k ⟨none, [], version⟩

/-- The batch as the Go map it is. -/
def toGoMap (batch : UpdateBatch K) : GoMap K VersionedValue := ⟨batch.entries, batch.nodup⟩

theorem get_eq_toGoMap (batch : UpdateBatch K) (k : K) : batch.get k = batch.toGoMap.get? k := rfl

@[simp] theorem get_empty (k : K) : (empty : UpdateBatch K).get k = none := rfl

@[simp] theorem get_update (batch : UpdateBatch K) (k k' : K) (vv : VersionedValue) :
    (batch.update k vv).get k' = if k' = k then some vv else batch.get k' :=
  GoMap.get?_insert batch.toGoMap k k' vv

@[simp] theorem get_delete (batch : UpdateBatch K) (k k' : K) (version : Height) :
    (batch.delete k version).get k' = if k' = k then some ⟨none, [], version⟩ else batch.get k' :=
  get_update batch k k' _

@[simp] theorem exists_iff (batch : UpdateBatch K) (k : K) :
    batch.exists k = true ↔ (batch.get k).isSome := Iff.rfl

end UpdateBatch

/-! ## Range scans and the committed state -/

/-- Go strings in byte order, the empty string first. -/
instance instOrderBotString : OrderBot String where
  bot := ""
  bot_le s := by
    apply le_of_not_gt
    intro h
    rw [String.lt_iff_toList_lt, String.toList_empty] at h
    exact List.not_lt_nil _ h

/-! ### Lists sorted by key -/

section Sorted

variable {κ β : Type} [LinearOrder κ]

/-- In a list with strictly increasing keys, the entries below the `i`-th key are the first
    `i`. -/
theorem filter_lt_getElem_eq_take (F : List (κ × β)) (hF : F.Pairwise fun a b => a.1 < b.1)
    (i : Nat) (hi : i < F.length) :
    F.filter (fun y => decide (y.1 < F[i].1)) = F.take i := by
  induction F generalizing i with
  | nil => simp at hi
  | cons a F ih =>
    rw [List.pairwise_cons] at hF
    cases i with
    | zero =>
      -- nothing lies below the first key
      rw [List.getElem_cons_zero, List.take_zero, List.filter_cons_of_neg (by simp),
        List.filter_eq_nil_iff]
      intro y hy
      simpa using le_of_lt (hF.1 y hy)
    | succ j =>
      have hj : j < F.length := by simpa using hi
      rw [List.getElem_cons_succ, List.take_succ_cons,
        List.filter_cons_of_pos (by simpa using hF.1 _ (List.getElem_mem hj)), ih hF.2 j hj]

/-- In a list with strictly increasing keys, looking up the key of an entry finds it. -/
theorem lookup_of_mem_sorted (S : List (κ × β)) (hS : S.Pairwise fun a b => a.1 < b.1)
    {p : κ × β} (hp : p ∈ S) : S.lookup p.1 = some p.2 := by
  induction S with
  | nil => simp at hp
  | cons a S ih =>
    rw [List.pairwise_cons] at hS
    rcases List.mem_cons.1 hp with rfl | hp
    · rw [List.lookup_cons]
      simp
    · have hne : (p.1 == a.1) = false := by
        simpa using ne_of_gt (hS.1 p hp)
      rw [List.lookup_cons, hne]
      exact ih hS.2 hp

end Sorted

/-! ### The committed state -/

section Committed

variable {κ : Type} [LinearOrder κ]

/-- The committed state of a `statedb.VersionedDB`: per namespace, the stored keys in
    increasing order with their values. A stored value is never nil: deletes remove keys. -/
structure VersionedDB (κ : Type) [LinearOrder κ] where
  state : Ns → List (κ × VersionedValue)
  sorted : ∀ ns, (state ns).Pairwise fun a b => a.1 < b.1
  value_isSome : ∀ ns e, e ∈ state ns → e.2.value.isSome

namespace VersionedDB

/-- `GetState`. -/
def getState (db : VersionedDB κ) (ns : Ns) (key : κ) : Option VersionedValue :=
  (db.state ns).lookup key

/-- `GetVersion`. -/
def getVersion (db : VersionedDB κ) (ns : Ns) (key : κ) : Option Height :=
  (db.getState ns key).map VersionedValue.version

/-- A stored value is never a delete. -/
theorem getState_value_isSome {db : VersionedDB κ} {ns : Ns} {key : κ} {vv : VersionedValue}
    (h : db.getState ns key = some vv) : vv.value.isSome := by
  obtain ⟨l₁, l₂, hl, -⟩ := List.lookup_eq_some_iff.1 h
  exact db.value_isSome ns (key, vv) (by rw [hl]; simp)

/-- `GetState` of a stored key returns its stored value. -/
theorem getState_of_mem (db : VersionedDB κ) {ns : Ns} {e : κ × VersionedValue}
    (he : e ∈ db.state ns) : db.getState ns e.1 = some e.2 :=
  lookup_of_mem_sorted _ (db.sorted ns) he

end VersionedDB

end Committed

/-! ### Range scans -/

section Scans

variable {κ : Type} [LinearOrder κ] [OrderBot κ]

/-- Whether `k` lies in `[startKey, endKey)`; an `endKey` of `⊥` (the empty string) means no
    upper bound, and a `startKey` of `⊥` no lower one. -/
def inRange (startKey endKey k : κ) : Bool :=
  decide (startKey ≤ k) && (endKey == ⊥ || decide (k < endKey))

/-- Below a key `x ≠ ⊥` that is in range, being in range up to `x` is being in the range
    and below `x`. -/
theorem inRange_iff_of_lt {startKey endKey x : κ} (hx : x ≠ ⊥)
    (hin : inRange startKey endKey x = true) (k : κ) :
    inRange startKey x k = (decide (k < x) && inRange startKey endKey k) := by
  simp only [inRange, beq_iff_eq, Bool.and_eq_true, decide_eq_true_eq, Bool.or_eq_true] at hin
  rw [Bool.eq_iff_iff]
  simp only [inRange, Bool.and_eq_true, decide_eq_true_eq, Bool.or_eq_true, beq_iff_eq, hx,
    false_or]
  constructor
  · rintro ⟨hs, hk⟩
    exact ⟨hk, hs, hin.2.imp id (lt_trans hk)⟩
  · rintro ⟨hk, hs, -⟩
    exact ⟨hs, hk⟩

/-- `UpdateBatch.GetRangeScanIterator`: the entries of namespace `ns` whose keys are in
    range, in increasing key order (`util.GetSortedKeys`, then `sort.SearchStrings` for
    both bounds in `newNsIterator`). -/
def UpdateBatch.rangeScan (batch : UpdateBatch (Ns × κ)) (ns : Ns) (startKey endKey : κ) :
    List (VersionedKV κ) :=
  ((batch.entries.filter fun e => e.1.1 == ns && inRange startKey endKey e.1.2).map
      fun e => (⟨ns, e.1.2, e.2⟩ : VersionedKV κ)).mergeSort
    fun a b => decide (a.key ≤ b.key)

@[simp] theorem UpdateBatch.rangeScan_empty (ns : Ns) (startKey endKey : κ) :
    (UpdateBatch.empty : UpdateBatch (Ns × κ)).rangeScan ns startKey endKey = [] := by
  simp [UpdateBatch.rangeScan, UpdateBatch.empty]

/-- The updates scan returns the batch's entries of `ns` in range, each with its value. -/
theorem UpdateBatch.mem_rangeScan (batch : UpdateBatch (Ns × κ)) (ns : Ns) (startKey endKey : κ)
    (item : VersionedKV κ) :
    item ∈ batch.rangeScan ns startKey endKey ↔
      item.ns = ns ∧ inRange startKey endKey item.key = true ∧
        batch.get (ns, item.key) = some item.vv := by
  simp only [UpdateBatch.rangeScan, List.mem_mergeSort, List.mem_map, List.mem_filter,
    Bool.and_eq_true, beq_iff_eq]
  constructor
  · rintro ⟨e, ⟨he, hns, hin⟩, rfl⟩
    refine ⟨rfl, hin, ?_⟩
    rw [UpdateBatch.get_eq_toGoMap, ← hns]
    exact GoMap.get?_of_mem batch.toGoMap he
  · rintro ⟨hns, hin, hget⟩
    rw [UpdateBatch.get_eq_toGoMap] at hget
    exact ⟨((ns, item.key), item.vv), ⟨GoMap.mem_entries_of_get? hget, rfl, hin⟩, by rw [← hns]⟩

/-- The updates scan returns its keys in increasing order: sorted, and the batch holds each
    composite key once. -/
theorem UpdateBatch.rangeScan_sorted (batch : UpdateBatch (Ns × κ)) (ns : Ns)
    (startKey endKey : κ) :
    (batch.rangeScan ns startKey endKey).Pairwise fun a b => a.key < b.key := by
  have hle : (batch.rangeScan ns startKey endKey).Pairwise fun a b => decide (a.key ≤ b.key) :=
    List.pairwise_mergeSort
      (fun _ _ _ hab hbc => by
        simp only [decide_eq_true_eq] at hab hbc ⊢
        exact le_trans hab hbc)
      (fun a b => by simpa using le_total a.key b.key) _
  -- the batch holds each key of `ns` once
  have hne : (batch.rangeScan ns startKey endKey).Pairwise fun a b => a.key ≠ b.key := by
    refine ((List.mergeSort_perm _ _).pairwise_iff (fun h => Ne.symm h)).mpr ?_
    rw [List.pairwise_map]
    have hfst := (List.pairwise_map.mp batch.nodup).filter
      (fun e => e.1.1 == ns && inRange startKey endKey e.1.2)
    refine hfst.imp_of_mem fun hx hy hxy hkey => hxy ?_
    simp only [List.mem_filter, Bool.and_eq_true, beq_iff_eq] at hx hy
    exact Prod.ext (hx.2.1.trans hy.2.1.symm) hkey
  exact (hle.and hne).imp fun h => lt_of_le_of_ne (by simpa using h.1) h.2

namespace VersionedDB

/-- `GetStateRangeScanIterator`: the stored entries of `ns` with keys in
    `[startKey, endKey)`, in increasing key order. -/
def getStateRangeScanIterator (db : VersionedDB κ) (ns : Ns) (startKey endKey : κ) :
    List (VersionedKV κ) :=
  ((db.state ns).filter fun e => inRange startKey endKey e.1).map fun e => ⟨ns, e.1, e.2⟩

theorem isDelete_of_mem_getStateRangeScanIterator (db : VersionedDB κ) (ns : Ns)
    (startKey endKey : κ) :
    ∀ d ∈ db.getStateRangeScanIterator ns startKey endKey, d.isDelete = false := by
  intro d hd
  simp only [getStateRangeScanIterator, List.mem_map, List.mem_filter] at hd
  obtain ⟨e, ⟨he, -⟩, rfl⟩ := hd
  simpa [VersionedKV.isDelete] using db.value_isSome ns e he

/-- A scan returns its keys in increasing order. -/
theorem getStateRangeScanIterator_sorted (db : VersionedDB κ) (ns : Ns) (startKey endKey : κ) :
    (db.getStateRangeScanIterator ns startKey endKey).Pairwise fun a b => a.key < b.key :=
  List.pairwise_map.mpr ((db.sorted ns).filter _)

/-- A scan returns the stored entries of `ns` in range, each with its stored value. -/
theorem mem_getStateRangeScanIterator (db : VersionedDB κ) (ns : Ns) (startKey endKey : κ)
    (item : VersionedKV κ) :
    item ∈ db.getStateRangeScanIterator ns startKey endKey ↔
      item.ns = ns ∧ inRange startKey endKey item.key = true ∧
        db.getState ns item.key = some item.vv := by
  simp only [getStateRangeScanIterator, List.mem_map, List.mem_filter]
  constructor
  · rintro ⟨e, ⟨he, hin⟩, rfl⟩
    exact ⟨rfl, hin, db.getState_of_mem he⟩
  · rintro ⟨hns, hin, hget⟩
    -- the stored entry is the one the lookup finds
    obtain ⟨l₁, l₂, hl, -⟩ := List.lookup_eq_some_iff.1 hget
    refine ⟨(item.key, item.vv), ⟨by rw [hl]; simp, hin⟩, ?_⟩
    rw [← hns]

/-- Re-scanning up to, and excluding, the key of the `i`-th result of a scan returns its first
    `i` results: the keys below it in the range are exactly those before it. -/
theorem getStateRangeScanIterator_take (db : VersionedDB κ) (ns : Ns) (startKey endKey : κ)
    (i : Nat) (hi : i < (db.getStateRangeScanIterator ns startKey endKey).length)
    (hbot : (db.getStateRangeScanIterator ns startKey endKey)[i].key ≠ ⊥) :
    db.getStateRangeScanIterator ns startKey (db.getStateRangeScanIterator ns startKey endKey)[i].key =
      (db.getStateRangeScanIterator ns startKey endKey).take i := by
  set F := (db.state ns).filter fun e => inRange startKey endKey e.1 with hF
  have hiF : i < F.length := by simpa [getStateRangeScanIterator, hF] using hi
  have hx : (db.getStateRangeScanIterator ns startKey endKey)[i].key = F[i].1 := by
    simp [getStateRangeScanIterator, hF]
  rw [hx] at hbot ⊢
  have hin : inRange startKey endKey F[i].1 = true := (List.mem_filter.1 (List.getElem_mem hiF)).2
  -- below the `i`-th key, the range up to it is the original range
  have hfilter : ((db.state ns).filter fun e => inRange startKey F[i].1 e.1) =
      F.filter fun y => decide (y.1 < F[i].1) := by
    simp only [hF, List.filter_filter]
    exact List.filter_congr fun y _ => inRange_iff_of_lt hbot hin y.1
  simp only [getStateRangeScanIterator]
  rw [hfilter, filter_lt_getElem_eq_take F ((db.sorted ns).filter _) i hiF, List.map_take]

end VersionedDB

end Scans

end Fabric.Ledger
