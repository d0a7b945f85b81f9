import Mathlib

/-
  Go maps as association lists.

  A `GoMap K V` holds its entries without repeated keys. Go leaves the iteration order of a
  map unspecified, and the models built on this library iterate `entries` in list order;
  that is faithful where each step of a loop over a map touches only what belongs to the
  entry it visits. A loop whose result depends on the order takes a `RangeOrder`, any
  permutation of the entries, as a parameter. The fold lemmas here say so: a loop whose step at the entry of `k` changes
  the result at `k`'s own place only (`get?_foldl_local`, `get?_foldl_image`) ends with a
  result that each entry determines on its own.
-/

/-- A Go map: entries without repeated keys. -/
structure GoMap (K V : Type) [DecidableEq K] where
  entries : List (K × V)
  nodup : (entries.map Prod.fst).Nodup

namespace GoMap

variable {K V : Type} [DecidableEq K]

/-- `make(map[K]V)`. -/
def empty : GoMap K V := ⟨[], List.nodup_nil⟩

/-- `v, ok := m[k]`: the value, if the key is present. -/
def get? (m : GoMap K V) (k : K) : Option V := m.entries.lookup k

/-- `_, ok := m[k]`. -/
def contains (m : GoMap K V) (k : K) : Bool := (m.get? k).isSome

theorem nodup_cons_filter (entries : List (K × V)) (k : K) (v : V)
    (h : (entries.map Prod.fst).Nodup) :
    (((k, v) :: entries.filter (fun e => e.1 != k)).map Prod.fst).Nodup := by
  rw [List.map_cons, List.nodup_cons]
  constructor
  · simp
  · exact (List.filter_sublist.map Prod.fst).nodup h

/-- `m[k] = v`. -/
def insert (m : GoMap K V) (k : K) (v : V) : GoMap K V :=
  ⟨(k, v) :: m.entries.filter (fun e => e.1 != k), nodup_cons_filter _ k v m.nodup⟩

/-- `delete(m, k)`. -/
def erase (m : GoMap K V) (k : K) : GoMap K V :=
  ⟨m.entries.filter (fun e => e.1 != k), (List.filter_sublist.map Prod.fst).nodup m.nodup⟩

theorem lookup_filter_ne (entries : List (K × V)) (k q : K) (h : q ≠ k) :
    (entries.filter (fun e => e.1 != k)).lookup q = entries.lookup q := by
  induction entries with
  | nil => rfl
  | cons e es ih =>
    obtain ⟨a, b⟩ := e
    by_cases hak : a = k
    · -- the dropped entry is not the one `q` looks up
      subst hak
      have hqa : (q == a) = false := by simpa using h
      rw [List.filter_cons_of_neg (by simp), ih, List.lookup_cons, hqa]
    · rw [List.filter_cons_of_pos (by simpa using hak), List.lookup_cons, List.lookup_cons, ih]

theorem lookup_filter_self (entries : List (K × V)) (k : K) :
    (entries.filter (fun e => e.1 != k)).lookup k = none := by
  rw [List.lookup_eq_none_iff]
  intro p hp
  simp only [List.mem_filter, bne_iff_ne, ne_eq] at hp
  simpa using Ne.symm hp.2

@[simp] theorem get?_empty (k : K) : (empty : GoMap K V).get? k = none := rfl

@[simp] theorem get?_insert (m : GoMap K V) (k q : K) (v : V) :
    (m.insert k v).get? q = if q = k then some v else m.get? q := by
  by_cases h : q = k
  · subst h
    simp [insert, get?]
  · have hne : (q == k) = false := by simpa using h
    simp [insert, get?, List.lookup_cons, hne, h, lookup_filter_ne _ _ _ h]

@[simp] theorem get?_erase (m : GoMap K V) (k q : K) :
    (m.erase k).get? q = if q = k then none else m.get? q := by
  by_cases h : q = k
  · subst h
    simp [erase, get?, lookup_filter_self]
  · simp [erase, get?, h, lookup_filter_ne _ _ _ h]

@[simp] theorem contains_iff (m : GoMap K V) (k : K) :
    m.contains k = true ↔ (m.get? k).isSome := Iff.rfl

/-- Writing a key already present leaves the keys present as they were. -/
theorem isSome_get?_insert_of_isSome {m : GoMap K V} {k : K} (hk : (m.get? k).isSome) (v : V)
    (q : K) : ((m.insert k v).get? q).isSome = (m.get? q).isSome := by
  by_cases h : q = k
  · subst h
    simp [hk]
  · simp [h]

/-- The value of an entry is the value its key looks up. -/
theorem get?_of_mem (m : GoMap K V) {k : K} {v : V} (h : (k, v) ∈ m.entries) :
    m.get? k = some v := by
  obtain ⟨entries, nodup⟩ := m
  simp only [get?] at h ⊢
  induction entries with
  | nil => simp at h
  | cons e es ih =>
    obtain ⟨a, b⟩ := e
    rw [List.map_cons, List.nodup_cons] at nodup
    rcases List.mem_cons.1 h with heq | h
    · obtain ⟨rfl, rfl⟩ := Prod.mk.inj heq
      simp
    · have hmem : k ∈ es.map Prod.fst := List.mem_map_of_mem h
      have hne : (k == a) = false := by
        simpa using fun heq : k = a => nodup.1 (heq ▸ hmem)
      rw [List.lookup_cons, hne]
      exact ih nodup.2 h

/-- A key that looks up a value has that entry. -/
theorem mem_entries_of_get? {m : GoMap K V} {k : K} {v : V} (h : m.get? k = some v) :
    (k, v) ∈ m.entries := by
  obtain ⟨l₁, l₂, hl, -⟩ := List.lookup_eq_some_iff.1 h
  rw [hl]
  simp

/-! ## The size of a map -/

/-- `len(m)`. -/
def size (m : GoMap K V) : Nat := m.entries.length

@[simp] theorem size_empty : (empty : GoMap K V).size = 0 := rfl

/-- A map's entries are the entry of a present key and the entries of the map without it. -/
theorem entries_perm_erase {m : GoMap K V} {k : K} {v : V} (h : m.get? k = some v) :
    m.entries.Perm ((k, v) :: (m.erase k).entries) := by
  obtain ⟨entries, nodup⟩ := m
  simp only [get?, erase] at h ⊢
  induction entries with
  | nil => simp at h
  | cons e es ih =>
    obtain ⟨a, b⟩ := e
    rw [List.map_cons, List.nodup_cons] at nodup
    by_cases hak : a = k
    · -- the first entry is the one of `k`, and no later entry has its key
      subst hak
      simp only [List.lookup_cons, beq_self_eq_true, Option.some.injEq] at h
      subst h
      have hrest : es.filter (fun e => e.1 != a) = es := by
        rw [List.filter_eq_self]
        intro e he
        have hmem : e.1 ∈ es.map Prod.fst := List.mem_map_of_mem he
        simpa using fun heq : e.1 = a => nodup.1 (heq ▸ hmem)
      rw [List.filter_cons_of_neg (by simp), hrest]
    · have hne : (k == a) = false := by simpa using Ne.symm hak
      rw [List.lookup_cons, hne] at h
      rw [List.filter_cons_of_pos (by simpa using hak)]
      exact ((ih nodup.2 h).cons _).trans (List.Perm.swap _ _ _)

theorem size_erase {m : GoMap K V} {k : K} {v : V} (h : m.get? k = some v) :
    (m.erase k).size + 1 = m.size := by
  simp [size, (entries_perm_erase h).length_eq]

/-- Inserting an absent key puts its entry in front of the others. -/
theorem entries_insert_of_get?_eq_none {m : GoMap K V} {k : K} (h : m.get? k = none) (v : V) :
    (m.insert k v).entries = (k, v) :: m.entries := by
  simp only [insert, List.cons.injEq, true_and]
  rw [List.filter_eq_self]
  intro e he
  have hget := get?_of_mem m he
  simpa using fun heq : e.1 = k => by rw [heq, h] at hget; cases hget

theorem size_insert_of_get?_eq_none {m : GoMap K V} {k : K} (h : m.get? k = none) (v : V) :
    (m.insert k v).size = m.size + 1 := by
  simp [size, entries_insert_of_get?_eq_none h]

/-- In a list with duplicate-free keys, at most one entry has a given key. -/
theorem length_filter_fst_le_one {α β : Type} [DecidableEq α] (l : List (α × β))
    (h : (l.map Prod.fst).Nodup) (a : α) : (l.filter fun e => e.1 = a).length ≤ 1 := by
  induction l with
  | nil => simp
  | cons e l ih =>
    rw [List.map_cons, List.nodup_cons] at h
    by_cases he : e.1 = a
    · -- `e` is the entry of `a`: no later one is
      have hnil : (l.filter fun e => e.1 = a) = [] := by
        rw [List.filter_eq_nil_iff]
        intro x hx hxa
        have hmem : x.1 ∈ l.map Prod.fst := List.mem_map_of_mem hx
        exact h.1 (he ▸ (of_decide_eq_true hxa) ▸ hmem)
      simp [he, hnil]
    · simpa [List.filter_cons, he] using ih h.2

/-- A list of at most one element starts where it ends. -/
theorem head?_eq_getLast?_of_length_le_one {α : Type} (l : List α) (h : l.length ≤ 1) :
    l.head? = l.getLast? := by
  match l, h with
  | [], _ => rfl
  | [_], _ => rfl

/-! ## A map of lists -/

/-- The items of the lists a map holds, entry after entry. -/
def items {α : Type} (m : GoMap K (List α)) : List α := m.entries.flatMap (·.2)

/-- Deleting an absent key changes nothing. -/
theorem entries_erase_of_get?_eq_none {m : GoMap K V} {k : K} (h : m.get? k = none) :
    (m.erase k).entries = m.entries := by
  simp only [erase]
  rw [List.filter_eq_self]
  intro e he
  have hget := get?_of_mem m he
  simpa using fun heq : e.1 = k => by rw [heq, h] at hget; cases hget

theorem items_insert {α : Type} (m : GoMap K (List α)) (k : K) (l : List α) :
    (m.insert k l).items = l ++ (m.erase k).items := by
  simp [items, insert, erase]

/-- A map's items are those of one key, then those of the others. -/
theorem items_perm_erase {α : Type} (m : GoMap K (List α)) (k : K) :
    m.items.Perm ((m.get? k).getD [] ++ (m.erase k).items) := by
  cases h : m.get? k with
  | none => simp [items, entries_erase_of_get?_eq_none h]
  | some l =>
    have hperm := (entries_perm_erase h).flatMap_right (fun e => e.2)
    simpa [items] using hperm

/-- An item of a map of lists is in the list of some key. -/
theorem mem_items {α : Type} {m : GoMap K (List α)} {a : α} :
    a ∈ m.items ↔ ∃ k, a ∈ (m.get? k).getD [] := by
  simp only [items, List.mem_flatMap]
  constructor
  · rintro ⟨⟨k, l⟩, hkl, ha⟩
    exact ⟨k, by rw [get?_of_mem m hkl]; exact ha⟩
  · rintro ⟨k, hk⟩
    cases h : m.get? k with
    | none => simp [h] at hk
    | some l =>
      rw [h, Option.getD_some] at hk
      exact ⟨(k, l), mem_entries_of_get? h, hk⟩

/-- Writing a key a list that, with `taken`, makes up what it held: the items, with `taken`,
    are those before. -/
theorem items_insert_perm {α : Type} (m : GoMap K (List α)) (k : K) {l taken : List α}
    (hl : (taken ++ l).Perm ((m.get? k).getD [])) :
    (taken ++ (m.insert k l).items).Perm m.items := by
  rw [items_insert, ← List.append_assoc]
  exact ((hl.append_right _).trans (items_perm_erase m k).symm)

/-! ## Loops over a map -/

/-- Looking a key up is finding its entry. -/
theorem find?_some_fst (l : List (K × V)) (q : K) :
    l.find? (fun e => decide (some e.1 = some q)) = (l.lookup q).map (fun v => (q, v)) := by
  simp only [Option.some.injEq]
  induction l with
  | nil => rfl
  | cons e l ih =>
    obtain ⟨k, v⟩ := e
    by_cases h : k = q
    · subst h
      simp
    · have hne : (q == k) = false := by simpa using Ne.symm h
      simp [List.lookup_cons, hne, h, ih]

/-- A loop that rewrites, at each element, the entry of its key from what was there: a key
    ends with the elements of that key folded over its first value. -/
theorem get?_foldl_modify {α : Type} (key : α → K) (step : Option V → α → V) (l : List α)
    (m : GoMap K V) (q : K) :
    (l.foldl (fun m a => m.insert (key a) (step (m.get? (key a)) a)) m).get? q =
      (l.filter fun a => key a = q).foldl (fun o a => some (step o a)) (m.get? q) := by
  induction l generalizing m with
  | nil => rfl
  | cons a l ih =>
    rw [List.foldl_cons, ih, List.filter_cons]
    by_cases h : key a = q
    · -- this element writes `q`: the fold of `q`'s elements starts from its value
      subst h
      simp
    · have hq : q ≠ key a := Ne.symm h
      simp [h, hq]

/-- After a loop of writes, a key holds what it held before or what some element wrote. -/
theorem get?_foldl_insert {α : Type} (key : α → K) (val : α → V) (l : List α) (m : GoMap K V)
    {q : K} {v : V} (h : (l.foldl (fun m a => m.insert (key a) (val a)) m).get? q = some v) :
    m.get? q = some v ∨ ∃ a ∈ l, key a = q ∧ val a = v := by
  induction l generalizing m with
  | nil => exact Or.inl h
  | cons a l ih =>
    rcases ih _ h with h | ⟨a', ha', hk, hv⟩
    · rw [get?_insert] at h
      split at h
      · next hq => exact Or.inr ⟨a, List.mem_cons_self, hq.symm, Option.some.inj h⟩
      · exact Or.inl h
    · exact Or.inr ⟨a', List.mem_cons_of_mem a ha', hk, hv⟩

/-- After a loop of writes under distinct keys, each element's key holds what it wrote. -/
theorem get?_foldl_insert_of_mem {α : Type} (key : α → K) (val : α → V) {l : List α}
    (hl : (l.map key).Nodup) {a : α} (ha : a ∈ l) (m : GoMap K V) :
    (l.foldl (fun m a => m.insert (key a) (val a)) m).get? (key a) = some (val a) := by
  induction l generalizing m with
  | nil => simp at ha
  | cons b l ih =>
    rw [List.map_cons, List.nodup_cons] at hl
    rw [List.foldl_cons]
    rcases List.mem_cons.1 ha with rfl | ha
    · -- the later writes are under other keys
      have hfresh : l.filter (fun b => key b = key a) = [] :=
        List.filter_eq_nil_iff.2 fun b hb heq => hl.1 (by
          rw [← of_decide_eq_true heq]
          exact List.mem_map_of_mem hb)
      have hfold := get?_foldl_modify key (fun _ a => val a) l (m.insert (key a) (val a)) (key a)
      rw [hfresh] at hfold
      simpa using hfold
    · exact ih hl.2 ha _

section Folds

variable {A P W : Type} [DecidableEq P]

omit [DecidableEq K] in
/-- A loop over entries with distinct keys whose step at the entry of `k` changes what `read`
    sees at the place `ι k` alone, as `φ` of the entry and of what was there, different keys
    owning different places: each place ends with what its one entry made of it. -/
theorem read_foldl_image (read : A → P → Option W) (ι : K → Option P)
    (hι : ∀ k k' p, ι k = some p → ι k' = some p → k = k')
    (g : A → K × V → A) (φ : K → V → Option W → Option W)
    (hg : ∀ acc k v p,
      read (g acc (k, v)) p = if ι k = some p then φ k v (read acc p) else read acc p)
    (l : List (K × V)) (hl : (l.map Prod.fst).Nodup) (acc : A) (p : P) :
    read (l.foldl g acc) p =
      match l.find? (fun e => ι e.1 = some p) with
      | some e => φ e.1 e.2 (read acc p)
      | none => read acc p := by
  induction l generalizing acc with
  | nil => rfl
  | cons e l ih =>
    obtain ⟨k, v⟩ := e
    rw [List.map_cons, List.nodup_cons] at hl
    rw [List.foldl_cons, ih hl.2, List.find?_cons]
    by_cases hp : ι k = some p
    · -- this entry owns `p`: no later entry does
      have hnone : l.find? (fun e => ι e.1 = some p) = none := by
        rw [List.find?_eq_none]
        intro e he hep
        have hk : e.1 = k := hι _ _ p (by simpa using hep) hp
        have hmem : e.1 ∈ l.map Prod.fst := List.mem_map_of_mem he
        exact hl.1 (hk ▸ hmem)
      simp [hnone, hg, hp]
    · cases l.find? (fun e => ι e.1 = some p) <;> simp [hg, hp]

omit [DecidableEq K] in
/-- `read_foldl_image` for a step that may fail: on a run that returns, each place ends with
    what its one entry made of it. -/
theorem read_foldlM_image {ε : Type} (read : A → P → Option W) (ι : K → Option P)
    (hι : ∀ k k' p, ι k = some p → ι k' = some p → k = k')
    (g : A → K × V → Except ε A) (φ : K → V → Option W → Option W)
    (hg : ∀ acc k v acc', g acc (k, v) = .ok acc' → ∀ p,
      read acc' p = if ι k = some p then φ k v (read acc p) else read acc p)
    (l : List (K × V)) (hl : (l.map Prod.fst).Nodup) (acc r : A)
    (hr : l.foldlM g acc = .ok r) (p : P) :
    read r p =
      match l.find? (fun e => ι e.1 = some p) with
      | some e => φ e.1 e.2 (read acc p)
      | none => read acc p := by
  induction l generalizing acc with
  | nil =>
    cases hr
    rfl
  | cons e l ih =>
    obtain ⟨k, v⟩ := e
    rw [List.map_cons, List.nodup_cons] at hl
    rw [List.foldlM_cons] at hr
    cases hstep : g acc (k, v) with
    | error err =>
      rw [hstep] at hr
      cases hr
    | ok acc' =>
      rw [hstep] at hr
      rw [ih hl.2 acc' hr, List.find?_cons]
      by_cases hp : ι k = some p
      · have hnone : l.find? (fun e => ι e.1 = some p) = none := by
          rw [List.find?_eq_none]
          intro e he hep
          have hk : e.1 = k := hι _ _ p (by simpa using hep) hp
          have hmem : e.1 ∈ l.map Prod.fst := List.mem_map_of_mem he
          exact hl.1 (hk ▸ hmem)
        simp [hnone, hg acc k v acc' hstep p, hp]
      · cases l.find? (fun e => ι e.1 = some p) <;> simp [hg acc k v acc' hstep p, hp]

/-- A loop over the entries of a map whose step at the entry of `k` changes what `read`
    sees at `k` alone: each key ends with what its own entry made of it. -/
theorem read_foldl_entries (read : A → K → Option W) (g : A → K × V → A)
    (φ : K → V → Option W → Option W)
    (hg : ∀ acc k v q, read (g acc (k, v)) q = if k = q then φ k v (read acc q) else read acc q)
    (m : GoMap K V) (acc : A) (q : K) :
    read (m.entries.foldl g acc) q =
      match m.get? q with
      | some v => φ q v (read acc q)
      | none => read acc q := by
  have hg' : ∀ acc k v p,
      read (g acc (k, v)) p = if some k = some p then φ k v (read acc p) else read acc p := by
    intro acc k v p
    simpa using hg acc k v p
  rw [read_foldl_image read some (fun _ _ _ h h' => Option.some.inj (h.trans h'.symm)) g φ hg'
    m.entries m.nodup acc q, find?_some_fst]
  simp only [get?]
  cases m.entries.lookup q <;> rfl

end Folds

/-! ## The order of a range loop -/

/-- An order in which `for k, v := range m` may visit the entries of a map. -/
structure RangeOrder (K V : Type) [DecidableEq K] where
  visit : GoMap K V → List (K × V)
  perm : ∀ m, (visit m).Perm m.entries

/-- Visiting the entries in list order. -/
def RangeOrder.inOrder : RangeOrder K V := ⟨fun m => m.entries, fun _ => List.Perm.refl _⟩

theorem RangeOrder.mem_visit (o : RangeOrder K V) (m : GoMap K V) {e : K × V} :
    e ∈ o.visit m ↔ e ∈ m.entries :=
  (o.perm m).mem_iff

theorem RangeOrder.visit_eq_nil (o : RangeOrder K V) (m : GoMap K V) :
    o.visit m = [] ↔ m.entries = [] := by
  rw [← List.length_eq_zero_iff, (o.perm m).length_eq, List.length_eq_zero_iff]

end GoMap
