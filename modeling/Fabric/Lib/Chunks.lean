import Mathlib

/-
  Cutting a list into consecutive chunks of `d + 1` elements, the last one shorter.

  `chunks d l` cuts from the front. `fillChunks d l` fills the chunks element by element, as a
  loop that appends to a pending chunk and closes it once it holds `d + 1` elements: it returns
  the full chunks and the pending rest. The two agree (`chunks_eq_fillChunks`): the chunks are
  the full ones followed by the rest, if any. Appending one element either extends the rest or
  closes it into a full chunk (`fillChunks_append_singleton`), which is how an incremental
  algorithm over a growing list sees the chunks.
-/

namespace List

variable {α : Type}

/-- Consecutive chunks of `d + 1` elements, the last one shorter. -/
def chunks (d : Nat) : List α → List (List α)
  | [] => []
  | x :: xs => (x :: xs).take (d + 1) :: chunks d ((x :: xs).drop (d + 1))
termination_by l => l.length
decreasing_by simp only [List.length_drop, List.length_cons]; omega

/-- One element more for the chunk being filled, which is closed once it holds `d + 1`. -/
def chunkStep (d : Nat) (acc : List (List α) × List α) (x : α) : List (List α) × List α :=
  if acc.2.length = d then (acc.1 ++ [acc.2 ++ [x]], []) else (acc.1, acc.2 ++ [x])

/-- The full chunks of `d + 1` elements and the pending rest, filled from the front. -/
def fillChunks (d : Nat) (l : List α) : List (List α) × List α :=
  l.foldl (chunkStep d) ([], [])

@[simp] theorem chunks_nil (d : Nat) : chunks d ([] : List α) = [] := by
  rw [chunks]

@[simp] theorem fillChunks_nil (d : Nat) : fillChunks d ([] : List α) = ([], []) := rfl

theorem fillChunks_append_singleton (d : Nat) (l : List α) (x : α) :
    fillChunks d (l ++ [x]) = chunkStep d (fillChunks d l) x := by
  simp [fillChunks, List.foldl_append]

/-- An element appended to a partial chunk that is not yet full joins it. -/
theorem fillChunks_append_of_ne {d : Nat} {l : List α} (h : (l.fillChunks d).2.length ≠ d)
    (x : α) :
    (l ++ [x]).fillChunks d = ((l.fillChunks d).1, (l.fillChunks d).2 ++ [x]) := by
  rw [fillChunks_append_singleton, chunkStep, if_neg h]

/-- An element that fills the partial chunk closes it. -/
theorem fillChunks_append_of_eq {d : Nat} {l : List α} (h : (l.fillChunks d).2.length = d)
    (x : α) :
    (l ++ [x]).fillChunks d =
      ((l.fillChunks d).1 ++ [(l.fillChunks d).2 ++ [x]], []) := by
  rw [fillChunks_append_singleton, chunkStep, if_pos h]

/-- The full chunks hold `d + 1` elements each, the rest at most `d`, and together they are
    the list. -/
theorem fillChunks_spec (d : Nat) (l : List α) :
    (∀ c ∈ (fillChunks d l).1, c.length = d + 1) ∧ (fillChunks d l).2.length ≤ d ∧
      (fillChunks d l).1.flatten ++ (fillChunks d l).2 = l := by
  induction l using List.reverseRecOn with
  | nil => simp
  | append_singleton l x ih =>
    obtain ⟨hfull, hrest, hflat⟩ := ih
    rw [fillChunks_append_singleton, chunkStep]
    split
    · -- the pending chunk is closed
      rename_i hlen
      refine ⟨fun c hc => ?_, by simp, ?_⟩
      · rcases List.mem_append.mp hc with hc | hc
        · exact hfull c hc
        · rw [List.mem_singleton.mp hc, List.length_append, hlen, List.length_singleton]
      · conv_rhs => rw [← hflat]
        simp
    · refine ⟨hfull, by simp; omega, ?_⟩
      conv_rhs => rw [← hflat]
      simp

theorem length_fillChunks_snd_le (d : Nat) (l : List α) : (fillChunks d l).2.length ≤ d :=
  (fillChunks_spec d l).2.1

/-- Chunks of `d + 1` elements in front are cut off as they are. -/
theorem chunks_flatten_append (d : Nat) {F : List (List α)} (hF : ∀ c ∈ F, c.length = d + 1)
    (b : List α) : chunks d (F.flatten ++ b) = F ++ chunks d b := by
  induction F with
  | nil => simp
  | cons c F ih =>
    have hc := hF c List.mem_cons_self
    obtain ⟨x, xs, rfl⟩ := List.exists_cons_of_length_eq_add_one hc
    rw [List.flatten_cons, List.append_assoc, List.cons_append, chunks, ← List.cons_append,
      List.take_append_of_le_length (by omega), List.take_of_length_le (by omega),
      List.drop_append_of_le_length (by omega), List.drop_of_length_le (by omega),
      List.nil_append, ih fun c hc => hF c (List.mem_cons_of_mem _ hc), List.cons_append]

/-- A list of at most `d + 1` elements is one chunk, or none if it is empty. -/
theorem chunks_of_length_le {d : Nat} {l : List α} (h : l.length ≤ d + 1) :
    chunks d l = if l = [] then [] else [l] := by
  cases l with
  | nil => simp
  | cons x xs =>
    rw [chunks, List.take_of_length_le h, List.drop_of_length_le h, chunks_nil]
    simp

/-- The chunks are the full ones, then the rest if it is not empty. -/
theorem chunks_eq_fillChunks (d : Nat) (l : List α) :
    chunks d l = (fillChunks d l).1 ++ if (fillChunks d l).2 = [] then [] else [(fillChunks d l).2] := by
  obtain ⟨hfull, hrest, hflat⟩ := fillChunks_spec d l
  conv_lhs => rw [← hflat]
  rw [chunks_flatten_append d hfull, chunks_of_length_le (by omega)]

/-- Past the full chunks of `l`, the chunks of `l ++ t` are those of the rest of `l` followed by
    `t`. -/
theorem chunks_append (d : Nat) (l t : List α) :
    chunks d (l ++ t) = (fillChunks d l).1 ++ chunks d ((fillChunks d l).2 ++ t) := by
  obtain ⟨hfull, -, hflat⟩ := fillChunks_spec d l
  conv_lhs => rw [← hflat]
  rw [List.append_assoc, chunks_flatten_append d hfull]

/-- The length of full chunks laid end to end. -/
theorem length_flatten_of_length_eq {d : Nat} {F : List (List α)}
    (hF : ∀ c ∈ F, c.length = d + 1) : F.flatten.length = F.length * (d + 1) := by
  induction F with
  | nil => simp
  | cons c F ih =>
    rw [List.flatten_cons, List.length_append, hF c List.mem_cons_self,
      ih fun c hc => hF c (List.mem_cons_of_mem _ hc), List.length_cons, Nat.succ_mul]
    omega

/-- With chunks of at least two elements, there are fewer full chunks than elements, unless
    there are none. -/
theorem length_fillChunks_fst_lt {d : Nat} (hd : 1 ≤ d) {l : List α}
    (hne : (fillChunks d l).1 ≠ []) : (fillChunks d l).1.length < l.length := by
  obtain ⟨hfull, -, hflat⟩ := fillChunks_spec d l
  have hlen := congrArg List.length hflat
  rw [List.length_append, length_flatten_of_length_eq hfull] at hlen
  have hpos : 0 < (fillChunks d l).1.length := List.length_pos_iff.mpr hne
  have : (fillChunks d l).1.length * 2 ≤ (fillChunks d l).1.length * (d + 1) :=
    Nat.mul_le_mul_left _ (by omega)
  omega

/-- A list longer than `d` with `1 ≤ d` has fewer chunks than elements. -/
theorem length_chunks_lt {d : Nat} (hd : 1 ≤ d) {l : List α} (h : d < l.length) :
    (chunks d l).length < l.length := by
  obtain ⟨hfull, hrest, hflat⟩ := fillChunks_spec d l
  have hne : (fillChunks d l).1 ≠ [] := by
    intro h0
    rw [h0, List.flatten_nil, List.nil_append] at hflat
    rw [← hflat] at h
    omega
  have hlen := congrArg List.length hflat
  rw [List.length_append, length_flatten_of_length_eq hfull] at hlen
  have hpos : 0 < (fillChunks d l).1.length := List.length_pos_iff.mpr hne
  have : (fillChunks d l).1.length * 2 ≤ (fillChunks d l).1.length * (d + 1) :=
    Nat.mul_le_mul_left _ (by omega)
  rw [chunks_eq_fillChunks]
  split
  · simp; omega
  · rename_i hr
    have : 0 < (fillChunks d l).2.length := List.length_pos_iff.mpr hr
    simp; omega

/-- A list with a full chunk has more than `d` elements. -/
theorem lt_length_of_fillChunks_ne_nil {d : Nat} {l : List α} (h : (fillChunks d l).1 ≠ []) :
    d < l.length := by
  obtain ⟨hfull, -, hflat⟩ := fillChunks_spec d l
  have hlen := congrArg List.length hflat
  rw [List.length_append, length_flatten_of_length_eq hfull] at hlen
  have hpos : 0 < (fillChunks d l).1.length := List.length_pos_iff.mpr h
  have : d + 1 ≤ (fillChunks d l).1.length * (d + 1) := Nat.le_mul_of_pos_left _ hpos
  omega

/-- Without a full chunk the rest is the whole list. -/
theorem fillChunks_snd_of_fst_eq_nil {d : Nat} {l : List α} (h : (fillChunks d l).1 = []) :
    (fillChunks d l).2 = l := by
  have hflat := (fillChunks_spec d l).2.2
  rwa [h, List.flatten_nil, List.nil_append] at hflat

theorem chunks_ne_nil {d : Nat} {l : List α} (h : l ≠ []) : chunks d l ≠ [] := by
  cases l with
  | nil => exact absurd rfl h
  | cons x xs => rw [chunks]; exact List.cons_ne_nil _ _

end List
