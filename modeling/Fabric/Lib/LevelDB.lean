import Fabric.Lib.ByteOrder

/-
  A LevelDB database and its iterators, as goleveldb presents them to a client.

  A database holds bindings of byte strings in increasing key order (`DB`); `put`, `delete`
  and a batch of them (`write`, applied in order) change it, and `get?` reads a key. An
  iterator over the keys in `[start, limit)` is the list of those bindings with a cursor
  (`Iter`): before the first binding (position `0`), at the `i`-th (position `i + 1`), or past
  the last (position `length + 1`). `Next` from before the first goes to the first; `Prev`
  from past the last goes to the last, as `Last` does; a failed `Seek` ends past the last.
  Deletion markers, sequence numbers and the storage levels underneath are not modelled: a
  read sees the bindings of the last write.

  Proved: `get?` after `put`, `delete` and `write`, and which keys a batch of puts binds
  (`isSome_get?_write_of_puts`); a binding is held exactly when `get?`
  returns it (`mem_entries_iff`); a range holds exactly the bindings of its keys
  (`mem_range`), in increasing order (`sorted_range`); and one lemma per cursor move, which
  the scans built on this library chain by induction.
-/

namespace LevelDB

/-- Bindings in strictly increasing key order. -/
def Sorted (entries : List (List UInt8 × List UInt8)) : Prop :=
  entries.Pairwise (fun a b => a.1 < b.1)

/-- `Put` into sorted bindings: replace the binding of the key, or insert it in order. -/
def insertSorted (k v : List UInt8) : List (List UInt8 × List UInt8) → List (List UInt8 × List UInt8)
  | [] => [(k, v)]
  | (k', v') :: rest =>
    if k < k' then (k, v) :: (k', v') :: rest
    else if k = k' then (k, v) :: rest
    else (k', v') :: insertSorted k v rest

section Insert

variable {k v : List UInt8}

theorem lookup_cons_ite (q k' v' : List UInt8) (rest : List (List UInt8 × List UInt8)) :
    ((k', v') :: rest).lookup q = if q = k' then some v' else rest.lookup q := by
  by_cases h : q = k'
  · simp [h]
  · simp [List.lookup_cons, beq_false_of_ne h, h]

theorem insertSorted_of_lt {k' v' : List UInt8} {rest : List (List UInt8 × List UInt8)}
    (h : k < k') : insertSorted k v ((k', v') :: rest) = (k, v) :: (k', v') :: rest := by
  simp [insertSorted, h]

theorem insertSorted_self {v' : List UInt8} {rest : List (List UInt8 × List UInt8)} :
    insertSorted k v ((k, v') :: rest) = (k, v) :: rest := by
  simp [insertSorted, List.lt_irrefl]

theorem insertSorted_of_gt {k' v' : List UInt8} {rest : List (List UInt8 × List UInt8)}
    (h : k' < k) : insertSorted k v ((k', v') :: rest) = (k', v') :: insertSorted k v rest := by
  have hlt : ¬ k < k' := List.lt_asymm h
  have hne : k ≠ k' := fun e => List.lt_irrefl k (e ▸ h)
  simp [insertSorted, hlt, hne]

theorem mem_insertSorted {e : List UInt8 × List UInt8} :
    ∀ {entries : List (List UInt8 × List UInt8)},
      e ∈ insertSorted k v entries → e = (k, v) ∨ e ∈ entries
  | [], h => by simpa [insertSorted] using h
  | (k', v') :: rest, h => by
    rcases Std.lt_trichotomy k k' with hlt | rfl | hgt
    · rw [insertSorted_of_lt hlt] at h
      simpa using h
    · rw [insertSorted_self] at h
      rcases List.mem_cons.mp h with h | h
      · exact .inl h
      · exact .inr (List.mem_cons_of_mem _ h)
    · rw [insertSorted_of_gt hgt] at h
      rcases List.mem_cons.mp h with h | h
      · exact .inr (h ▸ List.mem_cons_self)
      · rcases mem_insertSorted h with h | h
        · exact .inl h
        · exact .inr (List.mem_cons_of_mem _ h)

theorem sorted_insertSorted : ∀ {entries : List (List UInt8 × List UInt8)},
    Sorted entries → Sorted (insertSorted k v entries)
  | [], _ => List.pairwise_singleton _ _
  | (k', v') :: rest, h => by
    obtain ⟨hk', hrest⟩ := List.pairwise_cons.mp h
    rcases Std.lt_trichotomy k k' with hlt | rfl | hgt
    · -- in front: below `k'`, hence below every key after it
      rw [insertSorted_of_lt hlt]
      refine List.Pairwise.cons (fun e he => ?_) h
      rcases List.mem_cons.mp he with rfl | he
      · exact hlt
      · exact List.lt_trans hlt (hk' e he)
    · rw [insertSorted_self]
      exact List.Pairwise.cons hk' hrest
    · -- further on: above `k'`
      rw [insertSorted_of_gt hgt]
      refine List.Pairwise.cons (fun e he => ?_) (sorted_insertSorted hrest)
      rcases mem_insertSorted he with rfl | he
      · exact hgt
      · exact hk' e he

theorem lookup_insertSorted (q : List UInt8) : ∀ entries : List (List UInt8 × List UInt8),
    (insertSorted k v entries).lookup q = if q = k then some v else entries.lookup q
  | [] => by by_cases hq : q = k <;> simp [insertSorted, hq]
  | (k', v') :: rest => by
    rcases Std.lt_trichotomy k k' with hlt | rfl | hgt
    · rw [insertSorted_of_lt hlt, lookup_cons_ite]
    · rw [insertSorted_self, lookup_cons_ite, lookup_cons_ite]
      by_cases hq : q = k <;> simp [hq]
    · rw [insertSorted_of_gt hgt, lookup_cons_ite, lookup_cons_ite, lookup_insertSorted q rest]
      have hne : k' ≠ k := fun e => List.lt_irrefl k (e ▸ hgt)
      by_cases hq : q = k
      · subst hq
        simp [Ne.symm hne]
      · simp [hq]

end Insert

namespace Sorted

variable {entries entries' : List (List UInt8 × List UInt8)}

/-- In sorted bindings, a key is bound to one value, the one `lookup` returns. -/
theorem lookup_eq_some_iff (h : Sorted entries) {key value : List UInt8} :
    entries.lookup key = some value ↔ (key, value) ∈ entries := by
  induction entries with
  | nil => simp
  | cons e rest ih =>
    obtain ⟨he, hrest⟩ := List.pairwise_cons.mp h
    obtain ⟨k', v'⟩ := e
    rw [List.mem_cons, lookup_cons_ite]
    by_cases hk : key = k'
    · subst hk
      -- a later binding of `key` would lie above it
      have hnot : (key, value) ∉ rest := fun hw => List.lt_irrefl key (he (key, value) hw)
      simp [hnot, eq_comm]
    · simp [hk, ih hrest]

/-- Sorted bindings are determined by what they hold. -/
theorem eq_of_mem_iff (h : Sorted entries) (h' : Sorted entries')
    (hmem : ∀ e, e ∈ entries ↔ e ∈ entries') : entries = entries' := by
  induction entries generalizing entries' with
  | nil =>
    cases entries' with
    | nil => rfl
    | cons e' _ => exact absurd ((hmem e').mpr List.mem_cons_self) (List.not_mem_nil)
  | cons e rest ih =>
    cases entries' with
    | nil => exact absurd ((hmem e).mp List.mem_cons_self) (List.not_mem_nil)
    | cons e' rest' =>
      obtain ⟨he, hrest⟩ := List.pairwise_cons.mp h
      obtain ⟨he', hrest'⟩ := List.pairwise_cons.mp h'
      -- the heads are the least keys of both, so they are the same binding
      have hee' : e = e' := by
        rcases List.mem_cons.mp ((hmem e).mp List.mem_cons_self) with h1 | h1
        · exact h1
        rcases List.mem_cons.mp ((hmem e').mpr List.mem_cons_self) with h2 | h2
        · exact h2.symm
        exact absurd (List.lt_trans (he' e h1) (he e' h2)) (List.lt_irrefl _)
      subst hee'
      refine congrArg _ (ih hrest hrest' fun x => ?_)
      constructor
      · intro hx
        rcases List.mem_cons.mp ((hmem x).mp (List.mem_cons_of_mem _ hx)) with rfl | hx'
        · exact absurd (he x hx) (List.lt_irrefl _)
        · exact hx'
      · intro hx
        rcases List.mem_cons.mp ((hmem x).mpr (List.mem_cons_of_mem _ hx)) with rfl | hx'
        · exact absurd (he' x hx) (List.lt_irrefl _)
        · exact hx'

end Sorted

/-- A database: its bindings, in strictly increasing key order. -/
structure DB where
  entries : List (List UInt8 × List UInt8)
  sorted : Sorted entries

/-- A batch operation. -/
inductive Op
  | put (key value : List UInt8)
  | delete (key : List UInt8)
  deriving DecidableEq, Repr

/-- An iterator: the bindings of its range and the cursor, `0` before the first binding,
    `i + 1` at the `i`-th, `length + 1` past the last. -/
structure Iter where
  items : List (List UInt8 × List UInt8)
  pos : Nat

namespace DB

/-- A new database. -/
def empty : DB := ⟨[], List.Pairwise.nil⟩

/-- `Get`: the value bound to the key, if any. -/
def get? (db : DB) (key : List UInt8) : Option (List UInt8) := db.entries.lookup key

/-- `Put`. -/
def put (db : DB) (key value : List UInt8) : DB :=
  ⟨insertSorted key value db.entries, sorted_insertSorted db.sorted⟩

/-- `Delete`. -/
def delete (db : DB) (key : List UInt8) : DB :=
  ⟨db.entries.filter (fun e => e.1 != key), db.sorted.filter _⟩

/-- One operation of a batch. -/
def apply (db : DB) : Op → DB
  | .put key value => db.put key value
  | .delete key => db.delete key

/-- `Write` of a batch: its operations in order. -/
def write (db : DB) (batch : List Op) : DB := batch.foldl apply db

/-- The bindings of the keys in `[start, limit)`, in increasing key order. -/
def range (db : DB) (start limit : List UInt8) : List (List UInt8 × List UInt8) :=
  db.entries.filter fun e => decide (start ≤ e.1) && decide (e.1 < limit)

@[simp] theorem get?_empty (key : List UInt8) : empty.get? key = none := rfl

@[simp] theorem get?_put (db : DB) (key value q : List UInt8) :
    (db.put key value).get? q = if q = key then some value else db.get? q :=
  lookup_insertSorted q db.entries

theorem lookup_filter_ne (key q : List UInt8) : ∀ entries : List (List UInt8 × List UInt8),
    (entries.filter (fun e => e.1 != key)).lookup q = if q = key then none else entries.lookup q
  | [] => by simp
  | (k', v') :: rest => by
    have ih := lookup_filter_ne key q rest
    rw [List.filter_cons, lookup_cons_ite]
    by_cases hk : k' = key
    · -- the binding of `key` is dropped
      subst hk
      rw [if_neg (by simp), ih]
      by_cases hq : q = k' <;> simp [hq]
    · have hkeep : (k' != key) = true := by simpa using hk
      rw [if_pos hkeep, lookup_cons_ite, ih]
      by_cases hq : q = key
      · subst hq
        simp [Ne.symm hk]
      · simp [hq]

@[simp] theorem get?_delete (db : DB) (key q : List UInt8) :
    (db.delete key).get? q = if q = key then none else db.get? q :=
  lookup_filter_ne key q db.entries

@[simp] theorem write_nil (db : DB) : db.write [] = db := rfl

theorem write_cons (db : DB) (op : Op) (batch : List Op) :
    db.write (op :: batch) = (db.apply op).write batch := rfl

/-- After a batch of puts, a key is bound when it was or when the batch puts it. -/
theorem isSome_get?_write_of_puts {q : List UInt8} : ∀ {db : DB} {batch : List Op},
    (∀ op ∈ batch, ∃ key value, op = .put key value) →
      (((db.write batch).get? q).isSome ↔ (db.get? q).isSome ∨ ∃ value, Op.put q value ∈ batch)
  | _, [], _ => by simp
  | db, op :: batch, h => by
    obtain ⟨key, value, rfl⟩ := h op List.mem_cons_self
    rw [write_cons, isSome_get?_write_of_puts fun op hop => h op (List.mem_cons_of_mem _ hop)]
    simp only [apply, get?_put, List.mem_cons, Op.put.injEq]
    by_cases hq : q = key
    · subst hq
      simp
    · simp [hq]

/-- After a batch of puts of distinct keys, a key holds the value put, or, when the batch does
    not put it, what it held. -/
theorem get?_write_puts_eq_some_iff {q v : List UInt8} :
    ∀ {db : DB} {entries : List (List UInt8 × List UInt8)}, (entries.map Prod.fst).Nodup →
      ((db.write (entries.map fun e => .put e.1 e.2)).get? q = some v ↔
        (q, v) ∈ entries ∨ q ∉ entries.map Prod.fst ∧ db.get? q = some v)
  | _, [], _ => by simp
  | db, (k, v') :: entries, h => by
    obtain ⟨hk, hnodup⟩ := List.nodup_cons.mp h
    rw [List.map_cons, write_cons, get?_write_puts_eq_some_iff hnodup]
    by_cases hq : q = k
    · -- the later puts are of other keys
      subst hq
      have hnot : (q, v) ∉ entries := fun hmem => hk (List.mem_map.mpr ⟨_, hmem, rfl⟩)
      simp [apply, hnot, hk, eq_comm]
    · simp [apply, hq]

/-- A binding is held exactly when `get?` returns it: keys are not repeated. -/
theorem mem_entries_iff (db : DB) {key value : List UInt8} :
    (key, value) ∈ db.entries ↔ db.get? key = some value :=
  (db.sorted.lookup_eq_some_iff).symm

theorem mem_range (db : DB) {start limit : List UInt8} {e : List UInt8 × List UInt8} :
    e ∈ db.range start limit ↔ e ∈ db.entries ∧ start ≤ e.1 ∧ e.1 < limit := by
  simp [range]

theorem sorted_range (db : DB) (start limit : List UInt8) : Sorted (db.range start limit) :=
  db.sorted.filter _

/-- A new iterator over the keys in `[start, limit)`, before the first of them. -/
def newIterator (db : DB) (start limit : List UInt8) : Iter := ⟨db.range start limit, 0⟩

end DB

namespace Iter

/-- The binding under the cursor (`Key` and `Value`), none off the bindings. -/
def item? (it : Iter) : Option (List UInt8 × List UInt8) :=
  if it.pos = 0 then none else it.items[it.pos - 1]?

/-- `Next`: the cursor moves on; true when it lands on a binding. -/
def next (it : Iter) : Bool × Iter :=
  if it.pos ≤ it.items.length then (decide (it.pos < it.items.length), { it with pos := it.pos + 1 })
  else (false, it)

/-- `Last`: the cursor moves to the last binding, or before the first when there is none. -/
def last (it : Iter) : Bool × Iter :=
  if it.items = [] then (false, { it with pos := 0 }) else (true, { it with pos := it.items.length })

/-- `Prev`: the cursor moves back; past the last binding this is `Last`. -/
def prev (it : Iter) : Bool × Iter :=
  if it.pos = 0 then (false, it)
  else if it.items.length < it.pos then it.last
  else (decide (1 < it.pos), { it with pos := it.pos - 1 })

/-- `Seek`: the cursor moves to the first binding at or above the key, or past the last. -/
def seek (it : Iter) (key : List UInt8) : Bool × Iter :=
  match it.items.findIdx? (fun e => decide (key ≤ e.1)) with
  | some i => (true, { it with pos := i + 1 })
  | none => (false, { it with pos := it.items.length + 1 })

variable {it : Iter}

theorem item?_of_pos {i : Nat} (h : i < it.items.length) (hpos : it.pos = i + 1) :
    it.item? = some it.items[i] := by
  simp [item?, hpos, h]

theorem next_of_lt (h : it.pos < it.items.length) :
    it.next = (true, { it with pos := it.pos + 1 }) := by
  simp [next, h, Nat.le_of_lt h]

theorem next_of_eq (h : it.pos = it.items.length) :
    it.next = (false, { it with pos := it.items.length + 1 }) := by
  simp [next, h]

theorem prev_of_gt (hne : it.items ≠ []) (h : it.items.length < it.pos) :
    it.prev = (true, { it with pos := it.items.length }) := by
  have hpos : it.pos ≠ 0 := by omega
  simp [prev, last, hpos, h, hne]

theorem prev_of_gt_nil (hnil : it.items = []) (h : it.items.length < it.pos) :
    it.prev = (false, { it with pos := 0 }) := by
  have hpos : it.pos ≠ 0 := by omega
  simp [prev, last, hpos, hnil]

theorem prev_of_le (h1 : 1 < it.pos) (h2 : it.pos ≤ it.items.length) :
    it.prev = (true, { it with pos := it.pos - 1 }) := by
  have hpos : it.pos ≠ 0 := by omega
  simp [prev, hpos, h1, Nat.not_lt.mpr h2]

theorem prev_of_one (h1 : it.pos = 1) (h2 : 1 ≤ it.items.length) :
    it.prev = (false, { it with pos := 0 }) := by
  simp [prev, h1, Nat.not_lt.mpr h2]

theorem prev_of_zero (h : it.pos = 0) : it.prev = (false, it) := by
  simp [prev, h]

/-- From past the `m`-th binding, `Prev` lands on it; from past the last this is `Last`. -/
theorem prev_of_succ {m : Nat} (h1 : 1 ≤ m) (h2 : m ≤ it.items.length) (hpos : it.pos = m + 1) :
    it.prev = (true, { it with pos := m }) := by
  rcases Nat.lt_or_eq_of_le h2 with hlt | heq
  · rw [prev_of_le (by omega) (by omega), hpos, Nat.add_sub_cancel]
  · have hne : it.items ≠ [] := by
      intro hnil
      rw [hnil] at heq
      simp at heq
      omega
    rw [prev_of_gt hne (by omega), heq]

/-- Before the second binding, `Prev` finds none. -/
theorem prev_fst_of_le_one (h : it.pos ≤ 1) : it.prev.1 = false := by
  rcases Nat.le_one_iff_eq_zero_or_eq_one.mp h with h0 | h1
  · rw [prev_of_zero h0]
  · by_cases hnil : it.items = []
    · rw [prev_of_gt_nil hnil (by simp [hnil, h1])]
    · rw [prev_of_one h1 (List.length_pos_iff.mpr hnil)]

theorem next_eq_true_iff {it' : Iter} :
    it.next = (true, it') ↔ it.pos < it.items.length ∧ it' = { it with pos := it.pos + 1 } := by
  unfold next
  split
  · simp [eq_comm]
  · simp only [Prod.mk.injEq, Bool.false_eq_true, false_and, false_iff, not_and]
    intro h
    omega

/-- A loop `for itr.Next() { ... }` whose body reads the binding under the cursor and may
    fail: the last state of the body, or its first failure. -/
def forEach {σ ε : Type} (body : σ → List UInt8 × List UInt8 → Except ε σ) (it : Iter)
    (acc : σ) : Except ε σ :=
  match _h : it.next with
  | (true, it') =>
    match it'.item? with
    | some e =>
      match body acc e with
      | .ok acc' => forEach body it' acc'
      | .error err => .error err
    | none => .ok acc
  | (false, _) => .ok acc
termination_by it.items.length + 1 - it.pos
decreasing_by
  obtain ⟨hlt, rfl⟩ := next_eq_true_iff.mp _h
  simp only
  omega

/-- The loop visits the bindings after the cursor, in order. -/
theorem forEach_eq_foldlM {σ ε : Type} (body : σ → List UInt8 × List UInt8 → Except ε σ) :
    ∀ (n : Nat) (it : Iter) (acc : σ), it.items.length - it.pos = n →
      forEach body it acc = (it.items.drop it.pos).foldlM body acc
  | 0, it, acc, hn => by
    -- no binding is left after the cursor: `Next` returns false
    have hfalse : it.next.1 = false := by
      unfold next
      split
      · simp only [decide_eq_false_iff_not]
        omega
      · rfl
    rw [forEach, List.drop_of_length_le (by omega)]
    split
    · rename_i it' h
      rw [h] at hfalse
      simp at hfalse
    · rfl
  | n + 1, it, acc, hn => by
    have hlt : it.pos < it.items.length := by omega
    have hnext := next_of_lt hlt
    have hitem : ({ it with pos := it.pos + 1 } : Iter).item? = some it.items[it.pos] :=
      @item?_of_pos { it with pos := it.pos + 1 } it.pos hlt rfl
    rw [forEach, List.drop_eq_getElem_cons hlt, List.foldlM_cons]
    split
    · rename_i it' h
      rw [hnext] at h
      obtain rfl := (Prod.mk.inj h).2
      rw [hitem]
      simp only
      cases hb : body acc it.items[it.pos] with
      | error err => rfl
      | ok acc' =>
        simp only [bind, Except.bind]
        exact forEach_eq_foldlM body n _ acc' (by simp; omega)
    · rename_i h
      rw [hnext] at h
      simp at h

/-- `Last` and then `Next` put the cursor past the last binding, or before the first of
    none. -/
theorem last_next (it : Iter) :
    (if it.last.1 then it.last.2.next.2 else it.last.2) =
      if it.items = [] then { it with pos := 0 } else { it with pos := it.items.length + 1 } := by
  by_cases hnil : it.items = []
  · simp [last, hnil]
  · simp [last, hnil, next]

end Iter

end LevelDB
