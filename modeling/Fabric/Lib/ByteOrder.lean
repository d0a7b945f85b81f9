import Mathlib

/-
  The order of byte strings, and numbers written big-endian.

  Keys of an ordered key-value store compare as Go's `bytes.Compare` does: byte by byte, a
  proper prefix first. That is core Lean's order on lists (`List.Lex (· < ·)`), so keys here
  are `List UInt8` under `<`. Two facts about it carry the key layouts built on it: after
  equal-length heads, two strings compare as their heads and then as their tails
  (`append_lt_append_iff`), and the strings between `s` and `s ++ [0xff]` are the extensions
  of `s` that do not go on with `0xff` (`le_and_lt_append_ff_iff`). A name without a
  separator byte, followed by it, is read back at the separator (`append_cons_inj_of_not_mem`,
  `findIdx?_append_cons_of_not_mem`). Go's three-way comparisons are `threeWay`, and an
  encoding that keeps the order and is injective keeps them (`threeWay_map`).

  `split w n` writes the `w` low bytes of `n` most significant first, as Go's
  `binary.BigEndian.PutUint64` does for `w = 8`, and `combine` reads them back
  (`binary.BigEndian.Uint64`). Proved: the round trip (`combine_split`, `split_combine`); two
  splits of one width compare as the numbers (`split_lt_split_iff`); and below `256^b` the
  high bytes are zeros (`split_add`), the first significant one being the first of
  `split (byteLength n) n` (`head_split_byteLength_ne_zero`). The bytes of `256^w - 1 - n` are
  those of `n` taken from `255` (`split_sub`).
-/

/-! ## Lexicographic order -/

namespace List

/-- Strings without a separator byte, each followed by it, split alike. -/
theorem append_cons_inj_of_not_mem {α : Type} {c : α} :
    ∀ {a b x y : List α}, c ∉ a → c ∉ b → a ++ c :: x = b ++ c :: y → a = b ∧ x = y
  | [], [], _, _, _, _, h => ⟨rfl, (cons.inj h).2⟩
  | [], _ :: _, _, _, _, hb, h => absurd ((cons.inj h).1 ▸ mem_cons_self) hb
  | _ :: _, [], _, _, ha, _, h => absurd ((cons.inj h).1.symm ▸ mem_cons_self) ha
  | d :: a, e :: b, _, _, ha, hb, h => by
    rw [cons_append, cons_append] at h
    obtain ⟨rfl, htail⟩ := cons.inj h
    obtain ⟨rfl, rfl⟩ :=
      append_cons_inj_of_not_mem (mt (mem_cons_of_mem _) ha) (mt (mem_cons_of_mem _) hb) htail
    exact ⟨rfl, rfl⟩

/-- The first separator in a name without one, followed by it, is at the name's length. -/
theorem findIdx?_append_cons_of_not_mem {α : Type} [BEq α] [LawfulBEq α] {c : α} {a : List α}
    (ha : c ∉ a) (x : List α) : (a ++ c :: x).findIdx? (· == c) = some a.length := by
  have hnone : a.findIdx? (· == c) = none := by
    rw [findIdx?_eq_none_iff]
    intro y hy
    have : y ≠ c := fun hyc => ha (hyc ▸ hy)
    simpa using this
  simp [findIdx?_append, hnone, findIdx?_cons]

variable {α : Type} [LT α]

/-- Strings with heads of one length compare as the heads, then as the tails. -/
theorem append_lt_append_iff [Std.Irrefl (α := α) (· < ·)] :
    ∀ {a b : List α} (r r' : List α), a.length = b.length →
      (a ++ r < b ++ r' ↔ a < b ∨ a = b ∧ r < r')
  | [], [], r, r', _ => by simp
  | x :: a, y :: b, r, r', hl => by
    have ih := append_lt_append_iff (a := a) (b := b) r r' (by simpa using hl)
    simp only [cons_append, cons_lt_cons_iff, ih, cons.injEq]
    constructor
    · rintro (hxy | ⟨rfl, (hab | ⟨rfl, hr⟩)⟩)
      · exact .inl (.inl hxy)
      · exact .inl (.inr ⟨rfl, hab⟩)
      · exact .inr ⟨⟨rfl, rfl⟩, hr⟩
    · rintro ((hxy | ⟨rfl, hab⟩) | ⟨⟨rfl, rfl⟩, hr⟩)
      · exact .inl hxy
      · exact .inr ⟨rfl, .inl hab⟩
      · exact .inr ⟨rfl, .inr ⟨rfl, hr⟩⟩

/-- Behind a common head, strings compare as what follows it. -/
theorem append_left_lt_iff [Std.Irrefl (α := α) (· < ·)] {p r r' : List α} :
    p ++ r < p ++ r' ↔ r < r' := by
  rw [append_lt_append_iff r r' rfl]
  simp [List.lt_irrefl]

theorem append_left_le_iff [Std.Irrefl (α := α) (· < ·)] {p r r' : List α} :
    p ++ r ≤ p ++ r' ↔ r ≤ r' := by
  rw [← List.not_lt, ← List.not_lt, append_left_lt_iff]

/-- A string between two extensions of `p` extends `p`. -/
theorem prefix_of_le_of_lt [Std.Trichotomous (α := α) (· < ·)] :
    ∀ {p s e k : List α}, p ++ s ≤ k → k < p ++ e → p <+: k
  | [], _, _, _, _, _ => nil_prefix
  | _ :: _, _, _, [], hle, _ => absurd (nil_lt_cons _ _) hle
  | x :: p, s, e, y :: k, hle, hlt => by
    rw [cons_append, cons_lt_cons_iff] at hlt
    have hge : ¬ (y < x ∨ y = x ∧ k < p ++ s) := fun h => hle (cons_lt_cons_iff.mpr h)
    rcases hlt with hyx | ⟨rfl, hk⟩
    · exact absurd (.inl hyx) hge
    · have hsk : p ++ s ≤ k := fun h => hge (.inr ⟨rfl, h⟩)
      exact cons_prefix_cons.mpr ⟨rfl, prefix_of_le_of_lt hsk hk⟩

end List

namespace ByteOrder

/-- The keys from `s` up to `s ++ [0xff]`: `s` and its extensions that go on with a byte
    other than `0xff`. -/
theorem le_and_lt_append_ff_iff {s k : List UInt8} :
    s ≤ k ∧ k < s ++ [0xff] ↔ ∃ t, k = s ++ t ∧ ∀ b ∈ t.head?, b ≠ 0xff := by
  constructor
  · rintro ⟨hle, hlt⟩
    obtain ⟨t, rfl⟩ := List.prefix_of_le_of_lt (show s ++ [] ≤ k by simpa using hle) hlt
    refine ⟨t, rfl, fun b hb => ?_⟩
    cases t with
    | nil => simp at hb
    | cons x t =>
      obtain rfl : x = b := by simpa using hb
      rintro rfl
      -- past `s`, the key would go on with `0xff` and still be below `[0xff]`
      have h := (List.append_lt_append_iff (0xff :: t) [0xff] (rfl : s.length = s.length)).mp hlt
      rcases h with h | ⟨-, h⟩
      · exact List.lt_irrefl _ h
      · rcases List.cons_lt_cons_iff.mp h with h | ⟨-, h⟩
        · exact absurd h (by decide)
        · exact List.not_lt_nil _ h
  · rintro ⟨t, rfl, ht⟩
    refine ⟨List.prefix_append s t |>.le, List.append_left_lt ?_⟩
    cases t with
    | nil => exact List.nil_lt_cons _ _
    | cons x t =>
      have hx : x ≠ 0xff := ht x (by simp)
      refine List.cons_lt_cons_iff.mpr (.inl ?_)
      rw [UInt8.lt_iff_toNat_lt]
      have := x.toNat_lt
      have : x.toNat ≠ 255 := fun h => hx (UInt8.toNat_inj.mp (by simpa using h))
      simp
      omega

/-- The keys between two keys that start with the byte `c`: those that start with `c` and go on
    between the two rests. -/
theorem cons_le_and_lt_cons_iff {c d : UInt8} {x y t : List UInt8} :
    c :: x ≤ d :: t ∧ d :: t < c :: y ↔ d = c ∧ x ≤ t ∧ t < y := by
  constructor
  · rintro ⟨hle, hlt⟩
    rcases List.cons_lt_cons_iff.mp hlt with hdc | ⟨rfl, hty⟩
    · exact absurd (List.cons_lt_cons_iff.mpr (.inl hdc)) hle
    · exact ⟨rfl, fun h => hle (List.cons_lt_cons_iff.mpr (.inr ⟨rfl, h⟩)), hty⟩
  · rintro ⟨rfl, hxt, hty⟩
    refine ⟨fun h => ?_, List.cons_lt_cons_iff.mpr (.inr ⟨rfl, hty⟩)⟩
    rcases List.cons_lt_cons_iff.mp h with h | ⟨-, h⟩
    · exact UInt8.lt_irrefl _ h
    · exact hxt h

/-- A three-way comparison as Go returns it, `cmp.Compare` and, on byte slices,
    `bytes.Compare`: `-1`, `0` or `1` as `a` is below, equal to or above `b`. -/
def threeWay {α : Type} [LT α] [DecidableLT α] [DecidableEq α] (a b : α) : Int :=
  if a < b then -1 else if a = b then 0 else 1

/-- An encoding that is injective and keeps the strict order compares as what it encodes. -/
theorem threeWay_map {α β : Type} [LT α] [DecidableLT α] [DecidableEq α] [LT β] [DecidableLT β]
    [DecidableEq β] {f : α → β} (hlt : ∀ x y, f x < f y ↔ x < y) (hinj : ∀ x y, f x = f y ↔ x = y)
    (x y : α) : threeWay (f x) (f y) = threeWay x y := by
  unfold threeWay
  rw [if_congr (hlt x y) rfl rfl, if_congr (hinj x y) rfl rfl]

end ByteOrder

/-! ## Big-endian numbers -/

namespace BigEndian

/-- The `w` low bytes of `n`, most significant first. -/
def split : Nat → Nat → List UInt8
  | 0, _ => []
  | w + 1, n => (n / 256 ^ w % 256).toUInt8 :: split w n

/-- The number that bytes spell, most significant first. -/
def combine : List UInt8 → Nat
  | [] => 0
  | b :: bs => b.toNat * 256 ^ bs.length + combine bs

/-- The number of significant bytes of `n`: `0` for `0`. -/
def byteLength (n : Nat) : Nat := (Nat.digits 256 n).length

@[simp] theorem length_split (w n : Nat) : (split w n).length = w := by
  induction w with
  | zero => rfl
  | succ w ih => simp [split, ih]

theorem split_succ (w n : Nat) : split (w + 1) n = (n / 256 ^ w % 256).toUInt8 :: split w n := rfl

@[simp] theorem combine_nil : combine [] = 0 := rfl

theorem combine_cons (b : UInt8) (bs : List UInt8) :
    combine (b :: bs) = b.toNat * 256 ^ bs.length + combine bs := rfl

theorem toNat_toUInt8_mod (k : Nat) : (k % 256).toUInt8.toNat = k % 256 := by
  simp only [Nat.toUInt8_eq, UInt8.toNat_ofNat']
  omega

theorem combine_lt : ∀ bs : List UInt8, combine bs < 256 ^ bs.length
  | [] => by simp
  | b :: bs => by
    have hb : b.toNat + 1 ≤ 256 := b.toNat_lt
    have ih := combine_lt bs
    calc combine (b :: bs) = b.toNat * 256 ^ bs.length + combine bs := rfl
      _ < b.toNat * 256 ^ bs.length + 256 ^ bs.length := by omega
      _ = (b.toNat + 1) * 256 ^ bs.length := by ring
      _ ≤ 256 * 256 ^ bs.length := Nat.mul_le_mul_right _ hb
      _ = 256 ^ (b :: bs).length := by rw [List.length_cons, Nat.pow_succ, Nat.mul_comm]

/-- The bytes of `n` spell `n` below `256^w`. -/
theorem combine_split_eq_mod (w n : Nat) : combine (split w n) = n % 256 ^ w := by
  induction w with
  | zero => simp [split, Nat.mod_one]
  | succ w ih =>
    rw [split_succ, combine_cons, length_split, ih, toNat_toUInt8_mod, Nat.mod_pow_succ]
    ring

theorem combine_split {w n : Nat} (h : n < 256 ^ w) : combine (split w n) = n := by
  rw [combine_split_eq_mod, Nat.mod_eq_of_lt h]

/-- The `w` low bytes of `n` are those of `n % 256^w`. -/
theorem split_mod (w n : Nat) : split w (n % 256 ^ w) = split w n := by
  induction w generalizing n with
  | zero => rfl
  | succ w ih =>
    have hr : n % 256 ^ w < 256 ^ w := Nat.mod_lt _ (by positivity)
    have hdigit : n % 256 ^ (w + 1) / 256 ^ w % 256 = n / 256 ^ w % 256 := by
      rw [Nat.mod_pow_succ, Nat.add_mul_div_left _ _ (by positivity), Nat.div_eq_of_lt hr,
        Nat.zero_add, Nat.mod_mod]
    have hlow : split w (n % 256 ^ (w + 1)) = split w n := by
      rw [← ih (n % 256 ^ (w + 1)), Nat.mod_mod_of_dvd _ (Nat.pow_dvd_pow 256 (Nat.le_succ w)),
        ih]
    rw [split_succ, split_succ, hdigit, hlow]

/-- Bytes are the split of what they spell. -/
theorem split_combine : ∀ bs : List UInt8, split bs.length (combine bs) = bs
  | [] => rfl
  | b :: bs => by
    have hlt := combine_lt bs
    have hpos : 0 < 256 ^ bs.length := by positivity
    -- the head byte is `b`, and below it the bytes spell `combine bs`
    have hdigit : (b.toNat * 256 ^ bs.length + combine bs) / 256 ^ bs.length % 256 = b.toNat := by
      rw [Nat.add_comm, Nat.add_mul_div_right _ _ hpos, Nat.div_eq_of_lt hlt, Nat.zero_add,
        Nat.mod_eq_of_lt b.toNat_lt]
    have hlow : (b.toNat * 256 ^ bs.length + combine bs) % 256 ^ bs.length = combine bs := by
      rw [Nat.add_comm, Nat.add_mul_mod_self_right, Nat.mod_eq_of_lt hlt]
    rw [List.length_cons, combine_cons, split_succ, hdigit, ← split_mod, hlow, split_combine bs]
    simp

/-- A digit of place value `B` decides before what lies below it. -/
theorem mul_add_lt_mul_add_iff {B a a' r r' : Nat} (hr : r < B) (hr' : r' < B) :
    a * B + r < a' * B + r' ↔ a < a' ∨ a = a' ∧ r < r' := by
  constructor
  · intro h
    rcases Nat.lt_trichotomy a a' with hlt | rfl | hgt
    · exact .inl hlt
    · exact .inr ⟨rfl, by omega⟩
    · have : (a' + 1) * B ≤ a * B := Nat.mul_le_mul_right B hgt
      rw [Nat.succ_mul] at this
      omega
  · rintro (hlt | ⟨rfl, hlt⟩)
    · have : (a + 1) * B ≤ a' * B := Nat.mul_le_mul_right B hlt
      rw [Nat.succ_mul] at this
      omega
    · omega

theorem toUInt8_mod_lt_iff (x y : Nat) : (x % 256).toUInt8 < (y % 256).toUInt8 ↔ x % 256 < y % 256 := by
  rw [UInt8.lt_iff_toNat_lt, toNat_toUInt8_mod, toNat_toUInt8_mod]

theorem toUInt8_mod_inj (x y : Nat) : (x % 256).toUInt8 = (y % 256).toUInt8 ↔ x % 256 = y % 256 := by
  rw [← UInt8.toNat_inj, toNat_toUInt8_mod, toNat_toUInt8_mod]

/-- Two splits of one width compare as the numbers they keep. -/
theorem split_lt_split_iff_mod (w n m : Nat) : split w n < split w m ↔ n % 256 ^ w < m % 256 ^ w := by
  induction w with
  | zero => simp [split, Nat.mod_one]
  | succ w ih =>
    have hn : n % 256 ^ w < 256 ^ w := Nat.mod_lt _ (by positivity)
    have hm : m % 256 ^ w < 256 ^ w := Nat.mod_lt _ (by positivity)
    rw [split_succ, split_succ, List.cons_lt_cons_iff, toUInt8_mod_lt_iff, toUInt8_mod_inj, ih,
      Nat.mod_pow_succ, Nat.mod_pow_succ, Nat.add_comm (n % _), Nat.add_comm (m % _),
      Nat.mul_comm (256 ^ w), Nat.mul_comm (256 ^ w), mul_add_lt_mul_add_iff hn hm]

theorem split_lt_split_iff {w n m : Nat} (hn : n < 256 ^ w) (hm : m < 256 ^ w) :
    split w n < split w m ↔ n < m := by
  rw [split_lt_split_iff_mod, Nat.mod_eq_of_lt hn, Nat.mod_eq_of_lt hm]

/-- Below `256^b`, the bytes above the `b` low ones are zeros. -/
theorem split_add (a : Nat) {b n : Nat} (h : n < 256 ^ b) :
    split (a + b) n = List.replicate a 0 ++ split b n := by
  induction a with
  | zero => simp
  | succ a ih =>
    have hzero : n / 256 ^ (a + b) = 0 :=
      Nat.div_eq_of_lt (lt_of_lt_of_le h (Nat.pow_le_pow_right (by norm_num) (by omega)))
    rw [Nat.add_right_comm, split_succ, hzero, ih, List.replicate_succ, List.cons_append]
    rfl

theorem byteLength_le_iff {n k : Nat} : byteLength n ≤ k ↔ n < 256 ^ k :=
  Nat.digits_length_le_iff (by norm_num) n

theorem lt_byteLength_iff {n k : Nat} : k < byteLength n ↔ 256 ^ k ≤ n :=
  Nat.lt_digits_length_iff (by norm_num) n

theorem lt_pow_byteLength (n : Nat) : n < 256 ^ byteLength n := byteLength_le_iff.mp le_rfl

@[simp] theorem byteLength_zero : byteLength 0 = 0 := by simp [byteLength]

theorem byteLength_pos {n : Nat} (hn : 0 < n) : 0 < byteLength n :=
  lt_byteLength_iff.mpr (by simpa using Nat.one_le_iff_ne_zero.mpr hn.ne')

/-- The first of the significant bytes of a number other than `0` is not zero. -/
theorem head_split_byteLength_ne_zero {n : Nat} (hn : 0 < n) :
    ∃ d rest, split (byteLength n) n = d :: rest ∧ d ≠ 0 := by
  obtain ⟨k, hk⟩ : ∃ k, byteLength n = k + 1 := Nat.exists_eq_succ_of_ne_zero (byteLength_pos hn).ne'
  have hlo : 256 ^ k ≤ n := lt_byteLength_iff.mp (by omega)
  have hhi : n < 256 ^ k * 256 := by
    rw [← Nat.pow_succ, Nat.succ_eq_add_one, ← hk]
    exact lt_pow_byteLength n
  have hdigit : n / 256 ^ k % 256 = n / 256 ^ k :=
    Nat.mod_eq_of_lt (Nat.div_lt_of_lt_mul hhi)
  have hpos : 1 ≤ n / 256 ^ k := (Nat.le_div_iff_mul_le (by positivity)).mpr (by simpa using hlo)
  refine ⟨_, _, by rw [hk, split_succ], fun h => ?_⟩
  have := congrArg UInt8.toNat h
  rw [toNat_toUInt8_mod, hdigit] at this
  simp at this
  omega

/-- Taking each byte from `255` takes the number they spell from `256^w - 1`. -/
theorem combine_map_sub : ∀ bs : List UInt8,
    combine (bs.map (255 - ·)) = 256 ^ bs.length - 1 - combine bs
  | [] => rfl
  | b :: bs => by
    have hb : b.toNat < 256 := b.toNat_lt
    have hc := combine_lt bs
    have hsub : (255 - b).toNat = 255 - b.toNat := by
      rw [UInt8.toNat_sub_of_le _ _ (UInt8.le_iff_toNat_le.mpr (by simp; omega))]
      rfl
    have hbP : b.toNat * 256 ^ bs.length ≤ 255 * 256 ^ bs.length :=
      Nat.mul_le_mul_right _ (by omega)
    rw [List.map_cons, combine_cons, List.length_map, combine_map_sub bs, hsub, Nat.sub_mul,
      combine_cons, List.length_cons, Nat.pow_succ]
    generalize b.toNat * 256 ^ bs.length = x at *
    omega

/-- The `w` bytes of `256^w - 1 - n` are those of `n`, each taken from `255`. -/
theorem split_sub {w n : Nat} (h : n < 256 ^ w) :
    split w (256 ^ w - 1 - n) = (split w n).map (255 - ·) := by
  have hcomb := combine_map_sub (split w n)
  rw [length_split, combine_split h] at hcomb
  have hsplit := split_combine ((split w n).map (255 - ·))
  rwa [List.length_map, length_split, hcomb] at hsplit

end BigEndian
