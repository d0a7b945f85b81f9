import Fabric.Lib.LevelDB
import Fabric.Ledger.Version

/-
  A database handle over a shared LevelDB (`common/ledger/util/leveldbhelper`).

  Several databases of a peer share one LevelDB: a handle puts its name and the separator
  `0x00` in front of each of its keys (`constructLevelKey`), and its iterator strips them again
  at the first `0x00` (`retrieveAppKey`). An iterator asked for no end key ends at the name
  followed by `0x01` (`lastKeyIndicator`). `UpdateBatch.Put` panics on a nil value; values here
  are byte strings, never nil.

  A handle whose name holds no `0x00` sees its keys as a database of its own: `view` lists its
  bindings, names stripped, in increasing key order. A range iterator of the handle runs over
  the view's bindings of the range (`items_getIterator`): its first `Next` lands on the first
  of them, whose key `Key` returns with the name stripped (`next_getIterator`), or returns
  false when there is none (`next_getIterator_of_nil`).
-/

namespace Fabric.LevelDBHelper

open LevelDB
open Fabric.Ledger (Bytes)

/-- `dbNameKeySep`. -/
def dbNameKeySep : Bytes := [0x00]

/-- `lastKeyIndicator`. -/
def lastKeyIndicator : UInt8 := 0x01

/-- `constructLevelKey`. -/
def constructLevelKey (dbName key : Bytes) : Bytes := dbName ++ dbNameKeySep ++ key

/-- `retrieveAppKey`: what follows the first `0x00`; none where there is none, and
    `bytes.SplitN(levelKey, dbNameKeySep, 2)[1]` is out of range. -/
def retrieveAppKey (levelKey : Bytes) : Option Bytes :=
  match levelKey.findIdx? (· == 0x00) with
  | some i => some (levelKey.drop (i + 1))
  | none => none

/-- `DBHandle.Get`: the value of the key in the handle's database, nil when absent. -/
def DBHandle.get (db : DB) (dbName key : Bytes) : Option Bytes :=
  db.get? (constructLevelKey dbName key)

/-- `UpdateBatch`: the batch of the shared database, keys under the handle's name. -/
structure UpdateBatch where
  dbName : Bytes
  leveldbBatch : List Op

/-- `DBHandle.NewUpdateBatch`. -/
def newUpdateBatch (dbName : Bytes) : UpdateBatch := ⟨dbName, []⟩

/-- `UpdateBatch.Put`. -/
def UpdateBatch.put (b : UpdateBatch) (key value : Bytes) : UpdateBatch :=
  { b with leveldbBatch := b.leveldbBatch ++ [.put (constructLevelKey b.dbName key) value] }

/-- `UpdateBatch.Delete`. -/
def UpdateBatch.delete (b : UpdateBatch) (key : Bytes) : UpdateBatch :=
  { b with leveldbBatch := b.leveldbBatch ++ [.delete (constructLevelKey b.dbName key)] }

/-- `DBHandle.WriteBatch`: an empty batch writes nothing. -/
def writeBatch (db : DB) (batch : UpdateBatch) : DB :=
  if batch.leveldbBatch.isEmpty then db else db.write batch.leveldbBatch

/-- Puts of several keys, each with its value, in order. -/
theorem foldl_put_map {α : Type} (key value : α → Bytes) : ∀ (l : List α) (b : UpdateBatch),
    l.foldl (fun b a => b.put (key a) (value a)) b =
      { b with leveldbBatch := b.leveldbBatch ++
          l.map fun a => .put (constructLevelKey b.dbName (key a)) (value a) }
  | [], b => by simp
  | a :: l, b => by
    rw [List.foldl_cons, foldl_put_map key value l]
    simp [UpdateBatch.put]

/-- Puts of several keys with one value, in order. -/
theorem foldl_put (value : Bytes) (keys : List Bytes) (b : UpdateBatch) :
    keys.foldl (fun b key => b.put key value) b =
      { b with leveldbBatch := b.leveldbBatch ++
          keys.map fun key => .put (constructLevelKey b.dbName key) value } :=
  foldl_put_map id (fun _ => value) keys b

/-- An empty batch writes nothing, as `Write` of it would. -/
theorem writeBatch_eq_write (db : DB) (batch : UpdateBatch) :
    writeBatch db batch = db.write batch.leveldbBatch := by
  unfold writeBatch
  split
  · rename_i h
    rw [List.isEmpty_iff.mp h, DB.write_nil]
  · rfl

/-- `leveldbhelper.Iterator`: the iterator of the shared database, under the handle's name. -/
structure Iterator where
  dbName : Bytes
  iterator : Iter

/-- The end key `GetIterator` gives the shared database: with no end key, the last byte of
    `constructLevelKey(dbName, nil)`, the separator, is replaced by `lastKeyIndicator`. -/
def levelEndKey (dbName : Bytes) : Option Bytes → Bytes
  | some endKey => constructLevelKey dbName endKey
  | none => (constructLevelKey dbName []).set dbName.length lastKeyIndicator

/-- `DBHandle.GetIterator`: the keys from `startKey` on, below `endKey` (nil is none). -/
def getIterator (db : DB) (dbName startKey : Bytes) (endKey : Option Bytes) : Iterator :=
  ⟨dbName, db.newIterator (constructLevelKey dbName startKey) (levelEndKey dbName endKey)⟩

/-- `Iterator.Key`: the key under the cursor, its name stripped. -/
def Iterator.key (itr : Iterator) : Option Bytes := itr.iterator.item? >>= fun e => retrieveAppKey e.1

/-- `Iterator.Value`. -/
def Iterator.value (itr : Iterator) : Option Bytes := itr.iterator.item?.map Prod.snd

/-- `Iterator.Next`. -/
def Iterator.next (itr : Iterator) : Bool × Iterator :=
  let (b, it) := itr.iterator.next
  (b, { itr with iterator := it })

/-- `Iterator.Last`, of the embedded iterator. -/
def Iterator.last (itr : Iterator) : Bool × Iterator :=
  let (b, it) := itr.iterator.last
  (b, { itr with iterator := it })

/-- `Iterator.Prev`, of the embedded iterator. -/
def Iterator.prev (itr : Iterator) : Bool × Iterator :=
  let (b, it) := itr.iterator.prev
  (b, { itr with iterator := it })

/-- `Iterator.Seek`: the first key at or above the given one, under the handle's name. -/
def Iterator.seek (itr : Iterator) (key : Bytes) : Bool × Iterator :=
  let (b, it) := itr.iterator.seek (constructLevelKey itr.dbName key)
  (b, { itr with iterator := it })

/-- `[]byte(s)`: the bytes of a Go string, the keys a caller builds from strings. -/
def goBytes (s : String) : Bytes := s.toByteArray.data.toList

theorem goBytes_inj {s t : String} (h : goBytes s = goBytes t) : s = t :=
  String.toByteArray_inj.mp (ByteArray.ext (Array.toList_inj.mp h))

/-! ## The handle's own database -/

/-- The bindings under the handle's name, the name stripped, in increasing key order. -/
def view (db : DB) (dbName : Bytes) : List (Bytes × Bytes) :=
  db.entries.filterMap fun e =>
    if (dbName ++ dbNameKeySep).isPrefixOf e.1 then some (e.1.drop (dbName.length + 1), e.2)
    else none

/-- Whether a key lies in `[startKey, endKey)`, a nil end key bounding nothing. -/
def InRange (startKey : Bytes) (endKey : Option Bytes) (key : Bytes) : Prop :=
  startKey ≤ key ∧ ∀ e ∈ endKey, key < e

instance (startKey : Bytes) (endKey : Option Bytes) (key : Bytes) :
    Decidable (InRange startKey endKey key) :=
  match endKey with
  | some e => decidable_of_iff (startKey ≤ key ∧ key < e) (by simp [InRange])
  | none => decidable_of_iff (startKey ≤ key) (by simp [InRange])

theorem inRange_some_iff {startKey endKey key : Bytes} :
    InRange startKey (some endKey) key ↔ startKey ≤ key ∧ key < endKey := by
  simp [InRange]

theorem levelEndKey_none (dbName : Bytes) : levelEndKey dbName none = dbName ++ [0x01] := by
  simp [levelEndKey, constructLevelKey, dbNameKeySep, lastKeyIndicator]

/-- A raw key lies in the range of a handle's iterator exactly when it is a key of the handle
    in the range. -/
theorem mem_levelRange_iff {dbName startKey r : Bytes} {endKey : Option Bytes} :
    (constructLevelKey dbName startKey ≤ r ∧ r < levelEndKey dbName endKey) ↔
      ∃ key, r = constructLevelKey dbName key ∧ InRange startKey endKey key := by
  cases endKey with
  | some endKey =>
    simp only [levelEndKey, constructLevelKey, InRange]
    constructor
    · rintro ⟨hle, hlt⟩
      obtain ⟨key, rfl⟩ := List.prefix_of_le_of_lt hle hlt
      exact ⟨key, rfl, List.append_left_le_iff.mp hle,
        fun e he => by cases he; exact List.append_left_lt_iff.mp hlt⟩
    · rintro ⟨key, rfl, hs, he⟩
      exact ⟨List.append_left_le_iff.mpr hs, List.append_left_lt_iff.mpr (he endKey rfl)⟩
  | none =>
    rw [levelEndKey_none]
    simp only [constructLevelKey, dbNameKeySep, InRange]
    constructor
    · rintro ⟨hle, hlt⟩
      obtain ⟨rest, rfl⟩ :=
        List.prefix_of_le_of_lt (show dbName ++ (0x00 :: startKey) ≤ r by simpa using hle) hlt
      -- behind the name: at least `0x00 :: startKey`, below `[0x01]`, so `0x00` and a key
      have hle' : [0x00] ++ startKey ≤ rest := List.append_left_le_iff.mp (by simpa using hle)
      have hlt' : rest < [0x01] := List.append_left_lt_iff.mp hlt
      cases rest with
      | nil => exact absurd (List.nil_lt_cons _ _) hle'
      | cons b key =>
        have hb : b = 0x00 := by
          rcases List.cons_lt_cons_iff.mp hlt' with h | ⟨-, h⟩
          · rw [UInt8.lt_iff_toNat_lt] at h
            exact UInt8.toNat_inj.mp (by simp at h ⊢; omega)
          · exact absurd h (List.not_lt_nil _)
        subst hb
        exact ⟨key, by simp, List.append_left_le_iff.mp (show [0x00] ++ startKey ≤ [0x00] ++ key from hle'),
          by simp⟩
    · rintro ⟨key, rfl, hs, -⟩
      refine ⟨List.append_left_le_iff.mpr hs, ?_⟩
      rw [List.append_assoc]
      exact List.append_left_lt_iff.mpr (List.cons_lt_cons_iff.mpr (.inl (by decide)))

theorem isPrefixOf_constructLevelKey (dbName key : Bytes) :
    (dbName ++ dbNameKeySep).isPrefixOf (constructLevelKey dbName key) = true :=
  List.isPrefixOf_iff_prefix.mpr (List.prefix_append _ _)

theorem drop_constructLevelKey (dbName key : Bytes) :
    (constructLevelKey dbName key).drop (dbName.length + 1) = key := by
  simp [constructLevelKey, dbNameKeySep]

/-- A binding of the view is a binding of the shared database under the name. -/
theorem mem_view {db : DB} {dbName key value : Bytes} :
    (key, value) ∈ view db dbName ↔ (constructLevelKey dbName key, value) ∈ db.entries := by
  simp only [view, List.mem_filterMap]
  constructor
  · rintro ⟨⟨r, v⟩, hr, h⟩
    split at h
    · rename_i hp
      obtain ⟨rest, rfl⟩ := List.isPrefixOf_iff_prefix.mp hp
      obtain ⟨rfl, rfl⟩ := Prod.mk.inj (Option.some.inj h)
      simpa [constructLevelKey, dbNameKeySep] using hr
    · cases h
  · intro h
    exact ⟨_, h, by simp [isPrefixOf_constructLevelKey, drop_constructLevelKey]⟩

/-- The view is in increasing key order: the name in front keeps the order of what follows. -/
theorem sorted_view (db : DB) (dbName : Bytes) : Sorted (view db dbName) := by
  unfold view
  refine List.Pairwise.filterMap _ ?_ db.sorted
  intro a b hab a' ha' b' hb'
  split at ha'
  · split at hb'
    · rename_i hpa hpb
      obtain ⟨ka, ha⟩ := List.isPrefixOf_iff_prefix.mp hpa
      obtain ⟨kb, hb⟩ := List.isPrefixOf_iff_prefix.mp hpb
      obtain rfl := (Option.some.inj ha').symm
      obtain rfl := (Option.some.inj hb').symm
      rw [← ha, ← hb] at hab ⊢
      simpa [dbNameKeySep, List.append_left_lt_iff] using hab
    · cases hb'
  · cases ha'

/-- `Get` reads the view. -/
theorem get_eq_lookup_view (db : DB) (dbName key : Bytes) :
    DBHandle.get db dbName key = (view db dbName).lookup key := by
  apply Option.ext
  intro value
  rw [DBHandle.get, ← DB.mem_entries_iff, ← mem_view, (sorted_view db dbName).lookup_eq_some_iff]

theorem get_eq_some_iff {db : DB} {dbName key value : Bytes} :
    DBHandle.get db dbName key = some value ↔ (key, value) ∈ view db dbName := by
  rw [get_eq_lookup_view, (sorted_view db dbName).lookup_eq_some_iff]

/-- After a batch of puts of distinct keys under the handle's name, a key holds the value put,
    or, when the batch does not put it, what it held. -/
theorem get_write_puts_eq_some_iff {db : DB} {dbName : Bytes} {entries : List (Bytes × Bytes)}
    (hnodup : (entries.map Prod.fst).Nodup) {key value : Bytes} :
    DBHandle.get (db.write (entries.map fun e => .put (constructLevelKey dbName e.1) e.2)) dbName
        key = some value ↔
      (key, value) ∈ entries ∨ key ∉ entries.map Prod.fst ∧ DBHandle.get db dbName key = some value := by
  have hlevel := @DB.get?_write_puts_eq_some_iff (constructLevelKey dbName key) value db
    (entries.map fun e => (constructLevelKey dbName e.1, e.2))
    (by simpa [List.map_map, Function.comp_def] using
      hnodup.map (f := constructLevelKey dbName) fun k k' h => List.append_cancel_left h)
  simp only [List.map_map, Function.comp_def] at hlevel
  rw [DBHandle.get, DBHandle.get, hlevel]
  simp [constructLevelKey]

/-- A handle's range iterator runs over the view's bindings of the range, under the name. -/
theorem items_getIterator (db : DB) (dbName startKey : Bytes) (endKey : Option Bytes) :
    (getIterator db dbName startKey endKey).iterator.items =
      ((view db dbName).filter (fun e => decide (InRange startKey endKey e.1))).map
        (fun e => (constructLevelKey dbName e.1, e.2)) := by
  apply Sorted.eq_of_mem_iff (db.sorted_range _ _)
  · -- the name in front keeps the order
    refine List.pairwise_map.mpr ((sorted_view db dbName).filter _ |>.imp ?_)
    intro a b hab
    simpa [constructLevelKey, List.append_left_lt_iff] using hab
  · rintro ⟨r, v⟩
    simp only [DB.mem_range, List.mem_map, List.mem_filter,
      decide_eq_true_eq, mem_levelRange_iff]
    constructor
    · rintro ⟨hr, key, rfl, hin⟩
      exact ⟨(key, v), ⟨mem_view.mpr hr, hin⟩, rfl⟩
    · rintro ⟨⟨key, v'⟩, ⟨hmem, hin⟩, h⟩
      obtain ⟨rfl, rfl⟩ := Prod.mk.inj h
      exact ⟨mem_view.mp hmem, key, rfl, hin⟩

/-- Behind a name without `0x00`, `retrieveAppKey` finds the key. -/
theorem retrieveAppKey_constructLevelKey {dbName : Bytes} (h : 0x00 ∉ dbName) (key : Bytes) :
    retrieveAppKey (constructLevelKey dbName key) = some key := by
  have hfind : (constructLevelKey dbName key).findIdx? (· == 0x00) = some dbName.length := by
    rw [constructLevelKey, dbNameKeySep, List.append_assoc, List.singleton_append]
    exact List.findIdx?_append_cons_of_not_mem h key
  simp [retrieveAppKey, hfind, drop_constructLevelKey]

/-- On a binding of the handle, `Key` strips the name and `Value` reads the value. -/
theorem key_value_of_item {itr : Iterator} (h : 0x00 ∉ itr.dbName) {key value : Bytes}
    (hitem : itr.iterator.item? = some (constructLevelKey itr.dbName key, value)) :
    itr.key = some key ∧ itr.value = some value := by
  simp [Iterator.key, Iterator.value, hitem, retrieveAppKey_constructLevelKey h]

section FirstNext

variable {db : DB} {dbName startKey : Bytes} {endKey : Option Bytes}

/-- The first `Next` of a handle's range iterator lands on the first binding of the range. -/
theorem next_getIterator (h : 0x00 ∉ dbName) {e : Bytes × Bytes} {rest : List (Bytes × Bytes)}
    (hfirst : (view db dbName).filter (fun e => decide (InRange startKey endKey e.1)) = e :: rest) :
    ∃ itr, (getIterator db dbName startKey endKey).next = (true, itr) ∧
      itr.key = some e.1 ∧ itr.value = some e.2 := by
  set it := (getIterator db dbName startKey endKey).iterator with hit
  have hget : getIterator db dbName startKey endKey = ⟨dbName, it⟩ := rfl
  have hpos : it.pos = 0 := rfl
  have hitems : it.items = (constructLevelKey dbName e.1, e.2) ::
      rest.map (fun e => (constructLevelKey dbName e.1, e.2)) := by
    rw [hit, items_getIterator, hfirst, List.map_cons]
  have hlt : it.pos < it.items.length := by simp [hpos, hitems]
  refine ⟨⟨dbName, { it with pos := it.pos + 1 }⟩, ?_, key_value_of_item h ?_⟩
  · rw [hget, Iterator.next, Iter.next_of_lt hlt]
  · rw [@Iter.item?_of_pos { it with pos := it.pos + 1 } 0 (by simpa [hpos] using hlt) (by simp [hpos])]
    simp [hitems]

/-- With no binding in the range, the first `Next` returns false. -/
theorem next_getIterator_of_nil
    (hnil : (view db dbName).filter (fun e => decide (InRange startKey endKey e.1)) = []) :
    (getIterator db dbName startKey endKey).next.1 = false := by
  set it := (getIterator db dbName startKey endKey).iterator with hit
  have hget : getIterator db dbName startKey endKey = ⟨dbName, it⟩ := rfl
  have hitems : it.items = [] := by rw [hit, items_getIterator, hnil, List.map_nil]
  have hpos : it.pos = 0 := rfl
  rw [hget, Iterator.next, Iter.next_of_eq (by simp [hpos, hitems])]

end FirstNext

end Fabric.LevelDBHelper
