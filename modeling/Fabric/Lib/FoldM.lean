import Mathlib

/-
  Loops of fallible steps: `List.foldlM` in `Option` and in `Except`.

  A Go loop that can stop early (a nil dereference, an error return, a panic) is a fold of a
  step that returns `none` or `.error`. An invariant that every returning step keeps holds at
  the end of every loop that returns (`option_inv`, `except_inv`); a failure that no step
  reaches from a state of the invariant ends no loop (`except_ne_error`), and a loop fails only as
  a step fails from such a state (`except_error`); and on a loop that
  returns, every step returned (`forall_mem_of_except_ok`). The invariants may rely on a
  property of each item the loop visits. A loop whose steps all return runs as the pure loop
  of their results (`foldlM_eq_ok_foldl`); one whose steps all hand back the state they start
  from returns that state (`foldlM_eq_ok_self`); and a map of them returns a result for each item
  (`mapM_eq_ok_forall₂`).

  A loop that writes an item unless it equals the one before it (`skipRepeat`) writes the
  items that `destutter'` keeps (`foldl_skipRepeat`). Over items in an antisymmetric order,
  above the initial one, that is every item but the initial one, once
  (`mem_tail_destutter'`, `nodup_tail_destutter'`).

  A loop that stops at the first item passing a test (`List.find?`) finds the one item that
  passes it (`find?_eq_some_of_unique`). A loop that stops at the first item giving a result
  (`List.findSome?`) gives the same result after item `i` is replaced or removed, when the edit
  does not change what item `i` gives or an item before it already gives a result
  (`findSome?_set_of_before`, `findSome?_eraseIdx_of_before`). Replacing item `i` replaces its
  image under `filterMap`, up to order (`filterMap_set_perm`), and its weight in a sum of weights
  (`sum_map_set_add`); writing it back changes nothing (`set_eq_self_of_getElem?`). In a list
  whose items' keys, where they have one, do not repeat, an item is found by its key
  (`index_eq_of_nodup_filterMap`).
-/

namespace FoldM

variable {σ α ε : Type}

/-- A loop of steps that each keep an invariant keeps it, up to the step that fails. -/
theorem option_inv {P : σ → Prop} {f : σ → α → Option σ}
    (hf : ∀ s a s', P s → f s a = some s' → P s') :
    ∀ (l : List α) (s s' : σ), P s → l.foldlM f s = some s' → P s'
  | [], s, s', hs, h => by
    obtain rfl := Option.some.inj h
    exact hs
  | a :: l, s, s', hs, h => by
    rw [List.foldlM_cons] at h
    cases hfa : f s a with
    | none => simp [hfa] at h
    | some s₁ =>
      simp only [hfa, Option.bind_eq_bind, Option.bind_some] at h
      exact option_inv hf l s₁ s' (hf s a s₁ hs hfa) h

/-- A loop of steps that each keep an invariant keeps it, up to the step that fails. -/
theorem except_inv {P : σ → Prop} {Q : α → Prop}
    {f : σ → α → Except ε σ} (hf : ∀ s a s', P s → Q a → f s a = .ok s' → P s') :
    ∀ (l : List α) (s s' : σ), P s → (∀ a ∈ l, Q a) → l.foldlM f s = .ok s' → P s'
  | [], s, s', hs, _, h => by
    obtain rfl : s = s' := Except.ok.inj h
    exact hs
  | a :: l, s, s', hs, hl, h => by
    rw [List.foldlM_cons] at h
    cases hfa : f s a with
    | error e => simp [hfa, bind, Except.bind] at h
    | ok s₁ =>
      simp only [hfa, bind, Except.bind] at h
      exact except_inv hf l s₁ s' (hf s a s₁ hs (hl a List.mem_cons_self) hfa)
        (fun a ha => hl a (List.mem_cons_of_mem _ ha)) h

/-- A loop of steps that keep an invariant, none of which fails with `e` from a state where it
    holds, never fails with `e`. -/
theorem except_ne_error {P : σ → Prop} {Q : α → Prop}
    {f : σ → α → Except ε σ} {e : ε} (hf : ∀ s a s', P s → Q a → f s a = .ok s' → P s')
    (hne : ∀ s a, P s → Q a → f s a ≠ .error e) :
    ∀ (l : List α) (s : σ), P s → (∀ a ∈ l, Q a) → l.foldlM f s ≠ .error e
  | [], _, _, _ => by simp [pure, Except.pure]
  | a :: l, s, hs, hl => by
    rw [List.foldlM_cons]
    cases hfa : f s a with
    | error e' =>
      simp only [bind, Except.bind]
      intro h
      exact hne s a hs (hl a List.mem_cons_self) (hfa ▸ h ▸ rfl)
    | ok s₁ =>
      simp only [bind, Except.bind]
      exact except_ne_error hf hne l s₁ (hf s a s₁ hs (hl a List.mem_cons_self) hfa)
        (fun a ha => hl a (List.mem_cons_of_mem _ ha))

/-- A loop of steps that keep an invariant fails only as a step fails from a state where it
    holds. -/
theorem except_error {P : σ → Prop} {Q : α → Prop} {R : ε → Prop}
    {f : σ → α → Except ε σ} (hf : ∀ s a s', P s → Q a → f s a = .ok s' → P s')
    (hR : ∀ s a e, P s → Q a → f s a = .error e → R e) :
    ∀ (l : List α) (s : σ) (e : ε), P s → (∀ a ∈ l, Q a) → l.foldlM f s = .error e → R e
  | [], _, _, _, _, h => by cases h
  | a :: l, s, e, hs, hl, h => by
    rw [List.foldlM_cons] at h
    cases hfa : f s a with
    | error e' =>
      simp only [hfa, bind, Except.bind, Except.error.injEq] at h
      exact h ▸ hR s a e' hs (hl a List.mem_cons_self) hfa
    | ok s₁ =>
      simp only [hfa, bind, Except.bind] at h
      exact except_error hf hR l s₁ e (hf s a s₁ hs (hl a List.mem_cons_self) hfa)
        (fun a ha => hl a (List.mem_cons_of_mem _ ha)) h

/-- On a loop of a failing step that returns, every step returned. -/
theorem forall_mem_of_except_ok (g : σ → α → Except ε σ) (Q : α → Prop)
    (hQ : ∀ acc a r, g acc a = .ok r → Q a) (l : List α) (acc r : σ)
    (hr : l.foldlM g acc = .ok r) : ∀ a ∈ l, Q a := by
  induction l generalizing acc with
  | nil => simp
  | cons a l ih =>
    rw [List.foldlM_cons] at hr
    cases hstep : g acc a with
    | error err =>
      rw [hstep] at hr
      cases hr
    | ok acc' =>
      rw [hstep] at hr
      intro b hb
      rcases List.mem_cons.1 hb with rfl | hb
      · exact hQ acc b acc' hstep
      · exact ih acc' hr b hb

/-- A loop whose steps all return runs as the loop of their results. -/
theorem foldlM_eq_ok_foldl {f : σ → α → Except ε σ} {g : σ → α → σ} :
    ∀ (l : List α) (s : σ), (∀ s, ∀ a ∈ l, f s a = .ok (g s a)) →
      l.foldlM f s = .ok (l.foldl g s)
  | [], _, _ => rfl
  | a :: l, s, h => by
    rw [List.foldlM_cons, h s a List.mem_cons_self, List.foldl_cons]
    exact foldlM_eq_ok_foldl l (g s a) fun s b hb => h s b (List.mem_cons_of_mem _ hb)

/-- A loop whose steps all return the state they start from returns it. -/
theorem foldlM_eq_ok_self {f : σ → α → Except ε σ} {s : σ} :
    ∀ (l : List α), (∀ a ∈ l, f s a = .ok s) → l.foldlM f s = .ok s
  | [], _ => rfl
  | a :: l, h => by
    rw [List.foldlM_cons, h a List.mem_cons_self]
    exact foldlM_eq_ok_self l fun b hb => h b (List.mem_cons_of_mem _ hb)

/-- A map of steps that all return, each with a property of its item, returns their results. -/
theorem mapM_eq_ok_forall₂ {β : Type} {f : α → Except ε β} {P : α → β → Prop} :
    ∀ {l : List α}, (∀ a ∈ l, ∃ b, f a = .ok b ∧ P a b) →
      ∃ bs, l.mapM f = .ok bs ∧ List.Forall₂ P l bs
  | [], _ => ⟨[], rfl, .nil⟩
  | a :: l, h => by
    obtain ⟨b, hb, hP⟩ := h a List.mem_cons_self
    obtain ⟨bs, hbs, hall⟩ := mapM_eq_ok_forall₂ fun a' ha' => h a' (List.mem_cons_of_mem _ ha')
    refine ⟨b :: bs, ?_, .cons hP hall⟩
    rw [List.mapM_cons, hb]
    simp only [bind, Except.bind, hbs]
    rfl

/-- A search finds the one item that passes its test. -/
theorem find?_eq_some_of_unique {p : α → Bool} {l : List α} {a : α} (ha : a ∈ l) (hp : p a)
    (hu : ∀ x ∈ l, p x → x = a) : l.find? p = some a := by
  obtain ⟨x, hx⟩ := Option.isSome_iff_exists.mp (List.find?_isSome.mpr ⟨a, ha, hp⟩)
  rw [hx, hu x (List.mem_of_find?_eq_some hx) (List.find?_some hx)]

/-! ## First results under an edit of one item -/

/-- A list cut at item `i`. -/
theorem eq_take_append_getElem_cons_drop {l : List α} {i : Nat} (hi : i < l.length) :
    l = l.take i ++ l[i] :: l.drop (i + 1) := by
  rw [List.getElem_cons_drop, List.take_append_drop]

/-- Replacing item `i` leaves the first result as it is when the new item gives what the old one
    gave, or when an item before `i` gives one. -/
theorem findSome?_set_of_before {β : Type} {f : α → Option β} {l : List α} {i : Nat}
    (hi : i < l.length) {a : α} (h : f a = f l[i] ∨ ((l.take i).findSome? f).isSome) :
    (l.set i a).findSome? f = l.findSome? f := by
  conv_rhs => rw [eq_take_append_getElem_cons_drop hi]
  rw [List.set_eq_take_append_cons_drop, if_pos hi, List.findSome?_append, List.findSome?_append]
  rcases h with h | h
  · simp only [List.findSome?_cons, h]
  · obtain ⟨b, hb⟩ := Option.isSome_iff_exists.mp h
    simp only [hb, Option.some_or]

/-- Removing item `i` leaves the first result as it is when the item gives none, or when an item
    before `i` gives one. -/
theorem findSome?_eraseIdx_of_before {β : Type} {f : α → Option β} {l : List α} {i : Nat}
    (hi : i < l.length) (h : f l[i] = none ∨ ((l.take i).findSome? f).isSome) :
    (l.eraseIdx i).findSome? f = l.findSome? f := by
  conv_rhs => rw [eq_take_append_getElem_cons_drop hi]
  rw [List.eraseIdx_eq_take_drop_succ, List.findSome?_append, List.findSome?_append]
  rcases h with h | h
  · simp only [List.findSome?_cons, h]
  · obtain ⟨b, hb⟩ := Option.isSome_iff_exists.mp h
    simp only [hb, Option.some_or]

/-- An item of a list with item `i` replaced is the new item or an item at another index. -/
theorem eq_or_getElem?_of_mem_set {l : List α} {i : Nat} {a x : α} (hx : x ∈ l.set i a) :
    x = a ∨ ∃ j ≠ i, l[j]? = some x := by
  obtain ⟨j, hj⟩ := List.mem_iff_getElem?.mp hx
  rw [List.getElem?_set] at hj
  by_cases hij : i = j
  · rw [if_pos hij] at hj
    split at hj
    · exact .inl (Option.some.inj hj).symm
    · cases hj
  · rw [if_neg hij] at hj
    exact .inr ⟨j, Ne.symm hij, hj⟩

/-- A list that is part of one without repeats, up to order, has none. -/
theorem nodup_of_subperm {l₁ l₂ : List α} (h : l₁.Subperm l₂) (hd : l₂.Nodup) : l₁.Nodup := by
  obtain ⟨l, hperm, hsub⟩ := h
  exact hperm.nodup_iff.mp (hd.sublist hsub)

theorem filterMap_cons_eq_toList_append {β : Type} (f : α → Option β) (a : α) (l : List α) :
    (a :: l).filterMap f = (f a).toList ++ l.filterMap f := by
  cases h : f a <;> simp [h]

/-- Replacing item `i` replaces its image under `filterMap`, up to order. -/
theorem filterMap_set_perm {β : Type} (f : α → Option β) :
    ∀ {l : List α} {i : Nat} {y : α}, l[i]? = some y → ∀ x : α,
      ((l.set i x).filterMap f ++ (f y).toList).Perm (l.filterMap f ++ (f x).toList)
  | [], _, _, h, _ => by cases h
  | z :: l, 0, y, h, x => by
    cases h
    simp only [List.set_cons_zero, filterMap_cons_eq_toList_append, List.append_assoc]
    -- the old item's image and the new one's change places around the rest
    exact (List.perm_append_comm_assoc _ _ _).trans
      ((List.perm_append_comm.append_left _).trans (List.perm_append_comm_assoc _ _ _).symm)
  | z :: l, i + 1, y, h, x => by
    simp only [List.set_cons_succ, filterMap_cons_eq_toList_append, List.append_assoc]
    exact (filterMap_set_perm f (l := l) h x).append_left _

/-- Replacing item `i` replaces its weight in the sum of the weights. -/
theorem sum_map_set_add (w : α → Nat) :
    ∀ {l : List α} {i : Nat} {y : α}, l[i]? = some y → ∀ x : α,
      ((l.set i x).map w).sum + w y = (l.map w).sum + w x
  | [], _, _, h, _ => by cases h
  | z :: l, 0, y, h, x => by
    cases h
    simp only [List.set_cons_zero, List.map_cons, List.sum_cons]
    omega
  | z :: l, i + 1, y, h, x => by
    have ih := sum_map_set_add w (l := l) h x
    simp only [List.set_cons_succ, List.map_cons, List.sum_cons]
    omega

/-- Writing item `i` back leaves the list as it is. -/
theorem set_eq_self_of_getElem? {l : List α} {i : Nat} {a : α} (h : l[i]? = some a) :
    l.set i a = l := by
  apply List.ext_getElem?
  intro j
  rw [List.getElem?_set]
  split
  · rename_i hij
    subst hij
    rw [if_pos (List.getElem?_eq_some_iff.mp h).1, h]
  · rfl

/-- Two items of one key, in a list whose keys do not repeat, stand at one place. -/
theorem index_eq_of_nodup_filterMap {β : Type} {f : α → Option β} :
    ∀ {l : List α}, (l.filterMap f).Nodup → ∀ {i j : Nat} {a a' : α} {x : β},
      l[i]? = some a → l[j]? = some a' → f a = some x → f a' = some x → i = j
  | [], _, _, _, _, _, _, hi, _, _, _ => by cases hi
  | _ :: _, _, 0, 0, _, _, _, _, _, _, _ => rfl
  | _ :: l, hnd, 0, j + 1, _, a', _, hi, hj, ha, ha' => by
    -- the head has the key, and so has an item after it
    cases hi
    rw [List.filterMap_cons_some ha, List.nodup_cons] at hnd
    exact absurd (List.mem_filterMap.mpr ⟨a', List.mem_of_getElem? (l := l) (i := j) hj, ha'⟩) hnd.1
  | _ :: l, hnd, i + 1, 0, a, _, _, hi, hj, ha, ha' => by
    cases hj
    rw [List.filterMap_cons_some ha', List.nodup_cons] at hnd
    exact absurd (List.mem_filterMap.mpr ⟨a, List.mem_of_getElem? (l := l) (i := i) hi, ha⟩) hnd.1
  | y :: l, hnd, i + 1, j + 1, _, _, _, hi, hj, ha, ha' => by
    have htail : (l.filterMap f).Nodup :=
      hnd.sublist ((List.sublist_cons_self y l).filterMap f)
    rw [index_eq_of_nodup_filterMap htail hi hj ha ha']

/-! ## Skipping repeats -/

section SkipRepeats

theorem destutter'_eq_cons_tail {R : α → α → Prop} [DecidableRel R] :
    ∀ (l : List α) (a : α), l.destutter' R a = a :: (l.destutter' R a).tail
  | [], _ => rfl
  | x :: l, a => by
    by_cases h : R a x
    · rw [List.destutter'_cons_pos _ h]
      rfl
    · rw [List.destutter'_cons_neg _ h]
      exact destutter'_eq_cons_tail l a

variable [DecidableEq α]

/-- One pass of a loop that writes an item unless it is the one before it: the last item seen
    and what was written. -/
def skipRepeat (s : α × List α) (x : α) : α × List α :=
  if s.1 = x then s else (x, s.2 ++ [x])

/-- The loop writes each item that differs from the one before it, the first compared with
    the initial item. -/
theorem foldl_skipRepeat : ∀ (l : List α) (a : α) (w : List α),
    (l.foldl skipRepeat (a, w)).2 = w ++ (l.destutter' (· ≠ ·) a).tail
  | [], _, _ => by simp
  | x :: l, a, w => by
    rw [List.foldl_cons, skipRepeat]
    by_cases hax : a = x
    · subst hax
      rw [if_pos rfl, List.destutter'_cons_neg _ (by simp)]
      exact foldl_skipRepeat l a w
    · rw [if_neg hax, List.destutter'_cons_pos _ hax, List.tail_cons, foldl_skipRepeat l x,
        destutter'_eq_cons_tail l x]
      simp

variable {r : α → α → Prop} [Std.Antisymm r] {l : List α} {a : α}

/-- Over items in an antisymmetric order, the items kept are the distinct ones
    (`List.Pairwise.destutter_eq_dedup`). -/
theorem destutter'_eq_dedup (h : (a :: l).Pairwise r) :
    l.destutter' (· ≠ ·) a = (a :: l).dedup := by
  rw [← List.destutter_cons']
  exact h.destutter_eq_dedup

theorem nodup_tail_destutter' (h : (a :: l).Pairwise r) :
    (l.destutter' (· ≠ ·) a).tail.Nodup := by
  have hn := List.nodup_dedup (a :: l)
  rw [← destutter'_eq_dedup h, destutter'_eq_cons_tail] at hn
  exact (List.nodup_cons.mp hn).2

theorem mem_tail_destutter' (h : (a :: l).Pairwise r) {x : α} :
    x ∈ (l.destutter' (· ≠ ·) a).tail ↔ x ∈ l ∧ x ≠ a := by
  have hn := List.nodup_dedup (a :: l)
  rw [← destutter'_eq_dedup h, destutter'_eq_cons_tail] at hn
  -- the initial item is kept in front, so it is not among the others
  have ha := (List.nodup_cons.mp hn).1
  have hmem : x ∈ l.destutter' (· ≠ ·) a ↔ x = a ∨ x ∈ l := by
    rw [destutter'_eq_dedup h, List.mem_dedup, List.mem_cons]
  rw [destutter'_eq_cons_tail, List.mem_cons] at hmem
  constructor
  · intro hx
    have hxa : x ≠ a := fun e => ha (e ▸ hx)
    exact ⟨(hmem.mp (.inr hx)).resolve_left hxa, hxa⟩
  · rintro ⟨hx, hxa⟩
    exact (hmem.mpr (.inr hx)).resolve_left hxa

end SkipRepeats

end FoldM
