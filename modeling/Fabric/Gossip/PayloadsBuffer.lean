import Mathlib
import Fabric.Lib.GoMap

/-
  The block reordering buffer of the state provider (`gossip/state/payloads_buffer.go`) and
  the goroutine that drains it (`GossipStateProviderImpl.deliverPayloads`, `state.go`).

  `Push` buffers a payload under its sequence number unless the number is below `Next()` or
  already buffered, and puts a token in the one-slot channel `Ready()` when the number is
  `Next()` and the channel is empty. `Pop` removes and returns the payload for `Next()`, if
  any, advances `Next()`, and empties the channel when the buffer has become empty. The
  consumer waits for a token, then calls `Pop` until it returns nil.

  Every method runs under the buffer's mutex, and taking a token is one channel receive, so an
  interleaving of the goroutines is a sequence of `Event`s: pushes from any goroutine, and
  the consumer's token takes and pops, each enabled only where the consumer's loop allows
  it. `Delivery` is the state of that system, with two histories that no code reads: the
  payloads pushed and the payloads `Pop` returned.

  Every run keeps `Delivery.Inv`: the returned payloads carry `n0, n0+1, …` in `uint64`
  arithmetic, every buffered payload sits under its own number at or above `Next()`, and the
  consumer never waits while the payload for `Next()` is buffered and the channel is empty
  (`Delivery.Inv.run`, `deliverPayloads_in_order`). The last holds because only `Pop` drains
  the channel and the consumer goes back to waiting only after a `Pop` found nothing for
  `Next()`; from then on a push for `Next()` finds the channel empty or full. `Next()` is a
  `uint64` and wraps after `2^64 - 1`; while it has not wrapped, each returned payload is the
  first one pushed with its number and none comes twice. Once it wraps, a number already
  turned away as stale is accepted again (`deliverPayloads_after_wrap`).
-/

namespace Fabric.Gossip.State

/-- `proto.Payload`: the sequence number the buffer orders by, and the rest (`Data`,
    `PrivateData`), which it only carries. -/
structure Payload (δ : Type) where
  seqNum : UInt64
  data : δ
  deriving DecidableEq, Repr

/-- `PayloadsBufferImpl`: the next expected number, the buffered payloads by number, and the
    number of tokens in `readyChan`, a channel of capacity one. -/
structure PayloadsBuffer (δ : Type) where
  next : UInt64
  buf : GoMap UInt64 (Payload δ)
  readyChan : Nat

section Buffer

variable {δ : Type}

/-- `NewPayloadsBuffer`. -/
def newPayloadsBuffer (next : UInt64) : PayloadsBuffer δ :=
  { next := next, buf := GoMap.empty, readyChan := 0 }

/-- `Push`. -/
def PayloadsBuffer.push (b : PayloadsBuffer δ) (payload : Payload δ) : PayloadsBuffer δ :=
  let seqNum := payload.seqNum
  if seqNum < b.next || b.buf.contains seqNum then b
  else
    let b := { b with buf := b.buf.insert seqNum payload }
    -- send notification that the next sequence has arrived
    if seqNum == b.next && b.readyChan == 0 then { b with readyChan := b.readyChan + 1 } else b

/-- `drainReadChannel`: empty the channel if the buffer is empty. -/
def PayloadsBuffer.drainReadChannel (b : PayloadsBuffer δ) : PayloadsBuffer δ :=
  if b.buf.size == 0 then { b with readyChan := 0 } else b

/-- `Pop`: the buffer after, and the payload for `Next()` (nil when there is none). -/
def PayloadsBuffer.pop (b : PayloadsBuffer δ) : PayloadsBuffer δ × Option (Payload δ) :=
  match b.buf.get? b.next with
  | some result =>
    let b := { b with buf := b.buf.erase b.next, next := b.next + 1 }
    (b.drainReadChannel, some result)
  | none => (b, none)

end Buffer

/-! ## The buffer and its consumer -/

/-- Where the loop of `deliverPayloads` is: waiting on `Ready()`, or calling `Pop`. -/
inductive Consumer
  | waiting
  | popping
  deriving DecidableEq, Repr

/-- One step of an interleaving. -/
inductive Event (δ : Type)
  /-- a `Push` from any goroutine -/
  | push (payload : Payload δ)
  /-- the consumer receives the token of `Ready()` -/
  | ready
  /-- the consumer calls `Pop` -/
  | pop

/-- The buffer, the consumer, and the histories of pushed and returned payloads. -/
structure Delivery (δ : Type) where
  buffer : PayloadsBuffer δ
  consumer : Consumer
  pushed : List (Payload δ)
  popped : List (Payload δ)

section Delivery

variable {δ : Type}

/-- The state when `NewPayloadsBuffer(n0)` is handed to the state provider. -/
def Delivery.init (n0 : UInt64) : Delivery δ :=
  { buffer := newPayloadsBuffer n0, consumer := .waiting, pushed := [], popped := [] }

/-- The state after an event, if the event can happen there: the consumer takes a token only
    while it waits and the channel holds one, and pops only after it has taken one, until a
    `Pop` returns nil. -/
def Delivery.step (d : Delivery δ) : Event δ → Option (Delivery δ)
  | .push payload =>
    some { d with buffer := d.buffer.push payload, pushed := d.pushed ++ [payload] }
  | .ready =>
    if d.consumer = .waiting ∧ 0 < d.buffer.readyChan then
      some { d with
        buffer := { d.buffer with readyChan := d.buffer.readyChan - 1 }, consumer := .popping }
    else none
  | .pop =>
    if d.consumer = .popping then
      match d.buffer.pop with
      | (b, some payload) => some { d with buffer := b, popped := d.popped ++ [payload] }
      | (b, none) => some { d with buffer := b, consumer := .waiting }
    else none

/-- The state after a sequence of events, if each can happen in turn. -/
def Delivery.run (d : Delivery δ) : List (Event δ) → Option (Delivery δ)
  | [] => some d
  | e :: es => (d.step e).bind (·.run es)

end Delivery

/-! ## The buffer's operations -/

section Operations

variable {δ : Type}

namespace PayloadsBuffer

/-- A stale or already buffered number leaves the buffer as it is. -/
theorem push_of_rejected {b : PayloadsBuffer δ} {payload : Payload δ}
    (h : payload.seqNum < b.next ∨ (b.buf.get? payload.seqNum).isSome) : b.push payload = b := by
  unfold push
  rw [if_pos (by simpa using h)]

/-- A new number at or above `Next()` is buffered, with a token if it is `Next()` and the
    channel is empty. -/
theorem push_of_accepted {b : PayloadsBuffer δ} {payload : Payload δ}
    (hnext : b.next ≤ payload.seqNum) (hnew : b.buf.get? payload.seqNum = none) :
    (b.push payload).next = b.next ∧ (b.push payload).buf = b.buf.insert payload.seqNum payload ∧
      (b.push payload).readyChan =
        if payload.seqNum = b.next ∧ b.readyChan = 0 then 1 else b.readyChan := by
  have hnlt : ¬ payload.seqNum < b.next := UInt64.not_lt.mpr hnext
  unfold push
  rw [if_neg (by simp [hnlt, hnew])]
  dsimp only
  split <;> simp_all

theorem pop_of_none {b : PayloadsBuffer δ} (h : b.buf.get? b.next = none) : b.pop = (b, none) := by
  unfold pop
  rw [h]

theorem pop_of_some {b : PayloadsBuffer δ} {p : Payload δ} (h : b.buf.get? b.next = some p) :
    b.pop.2 = some p ∧ b.pop.1.next = b.next + 1 ∧ b.pop.1.buf = b.buf.erase b.next ∧
      b.pop.1.readyChan ≤ b.readyChan := by
  unfold pop drainReadChannel
  rw [h]
  dsimp only
  split <;> simp

end PayloadsBuffer

/-- Below a greater number there is room for `a + 1` without wrapping. -/
theorem UInt64.succ_le_of_le_of_ne {a b : UInt64} (h : a ≤ b) (hne : b ≠ a) : a + 1 ≤ b := by
  have hne' : b.toNat ≠ a.toNat := fun heq => hne (UInt64.toNat_inj.mp heq)
  rw [UInt64.le_iff_toNat_le] at h
  rw [UInt64.le_iff_toNat_le, UInt64.toNat_add, UInt64.toNat_one]
  have := UInt64.toNat_lt b
  omega

/-- The payload is the first one pushed with its sequence number. -/
def FirstPushed (pushed : List (Payload δ)) (p : Payload δ) : Prop :=
  pushed.find? (fun q => q.seqNum == p.seqNum) = some p

theorem FirstPushed.append {pushed : List (Payload δ)} {p : Payload δ}
    (h : FirstPushed pushed p) (more : List (Payload δ)) : FirstPushed (pushed ++ more) p := by
  unfold FirstPushed at h ⊢
  rw [List.find?_append, h]
  rfl

theorem FirstPushed.mem {pushed : List (Payload δ)} {p : Payload δ} (h : FirstPushed pushed p) :
    p ∈ pushed :=
  List.mem_of_find?_eq_some h

/-- A payload whose number no earlier push carried is the first with it. -/
theorem firstPushed_append_self {pushed : List (Payload δ)} {p : Payload δ}
    (h : ∀ q ∈ pushed, q.seqNum ≠ p.seqNum) : FirstPushed (pushed ++ [p]) p := by
  unfold FirstPushed
  rw [List.find?_append, List.find?_eq_none.mpr (by simpa using h)]
  simp

end Operations

/-! ## The invariant -/

section Invariant

variable {δ : Type}

/-- What holds while `Next()` has not wrapped: every number pushed at or above `Next()` is
    buffered, and every payload buffered or returned is the first pushed with its number. -/
structure Delivery.FirstInv (d : Delivery δ) : Prop where
  pushed_buffered : ∀ q ∈ d.pushed, d.buffer.next ≤ q.seqNum →
    (d.buffer.buf.get? q.seqNum).isSome
  stored_first : ∀ k p, d.buffer.buf.get? k = some p → FirstPushed d.pushed p
  popped_first : ∀ p ∈ d.popped, FirstPushed d.pushed p

/-- The invariant of every run from `NewPayloadsBuffer(n0)`. -/
structure Delivery.Inv (n0 : UInt64) (d : Delivery δ) : Prop where
  readyChan_le : d.buffer.readyChan ≤ 1
  stored : ∀ k p, d.buffer.buf.get? k = some p →
    p.seqNum = k ∧ d.buffer.next ≤ k ∧ p ∈ d.pushed
  popped_pushed : ∀ p ∈ d.popped, p ∈ d.pushed
  next_toNat : d.buffer.next.toNat = (n0.toNat + d.popped.length) % 2 ^ 64
  popped_seqNum : d.popped.map (·.seqNum.toNat) =
    (List.range d.popped.length).map fun j => (n0.toNat + j) % 2 ^ 64
  no_lost_wakeup : d.consumer = .waiting → (d.buffer.buf.get? d.buffer.next).isSome →
    0 < d.buffer.readyChan
  first : n0.toNat + d.popped.length < 2 ^ 64 → d.FirstInv

namespace Delivery

theorem inv_init (n0 : UInt64) : (init n0 : Delivery δ).Inv n0 where
  readyChan_le := by simp [init, newPayloadsBuffer]
  stored := by simp [init, newPayloadsBuffer]
  popped_pushed := by simp [init]
  next_toNat := by simp [init, newPayloadsBuffer, Nat.mod_eq_of_lt (UInt64.toNat_lt n0)]
  popped_seqNum := by simp [init]
  no_lost_wakeup := by simp [init, newPayloadsBuffer]
  first _ := ⟨by simp [init], by simp [init, newPayloadsBuffer], by simp [init]⟩

/-- A rejected `Push` only records the payload. -/
theorem Inv.push_rejected {n0 : UInt64} {d : Delivery δ} (h : d.Inv n0) (payload : Payload δ)
    (hrej : payload.seqNum < d.buffer.next ∨ (d.buffer.buf.get? payload.seqNum).isSome) :
    Inv n0 { d with pushed := d.pushed ++ [payload] } where
  readyChan_le := h.readyChan_le
  stored k p hk := by
    obtain ⟨h1, h2, h3⟩ := h.stored k p hk
    exact ⟨h1, h2, List.mem_append_left _ h3⟩
  popped_pushed p hp := List.mem_append_left _ (h.popped_pushed p hp)
  next_toNat := h.next_toNat
  popped_seqNum := h.popped_seqNum
  no_lost_wakeup := h.no_lost_wakeup
  first hlt := by
    have hf := h.first hlt
    refine ⟨fun q hq hle => ?_, fun k p hk => (hf.stored_first k p hk).append _,
      fun p hp => (hf.popped_first p hp).append _⟩
    rcases List.mem_append.mp hq with hq | hq
    · exact hf.pushed_buffered q hq hle
    · -- the rejected number is buffered, as it is not stale
      rw [List.mem_singleton.mp hq] at hle ⊢
      exact hrej.resolve_left (UInt64.not_lt.mpr hle)

/-- An accepted `Push` buffers the first payload with its number. -/
theorem Inv.push_accepted {n0 : UInt64} {d : Delivery δ} (h : d.Inv n0) (payload : Payload δ)
    (hnext : d.buffer.next ≤ payload.seqNum) (hnew : d.buffer.buf.get? payload.seqNum = none) :
    Inv n0 { d with buffer := d.buffer.push payload, pushed := d.pushed ++ [payload] } := by
  obtain ⟨hn, hbuf, hready⟩ := PayloadsBuffer.push_of_accepted hnext hnew
  refine ⟨?_, fun k p hk => ?_, fun p hp => List.mem_append_left _ (h.popped_pushed p hp),
    by simp only [hn]; exact h.next_toNat, h.popped_seqNum, fun hw hk => ?_, fun hlt => ?_⟩
  · show (d.buffer.push payload).readyChan ≤ 1
    have := h.readyChan_le
    rw [hready]
    split <;> omega
  · simp only [hbuf, GoMap.get?_insert] at hk
    split at hk
    · -- the payload just buffered
      cases hk
      rename_i hks
      exact ⟨hks.symm, hn ▸ hks ▸ hnext, by simp⟩
    · obtain ⟨h1, h2, h3⟩ := h.stored k p hk
      exact ⟨h1, hn ▸ h2, List.mem_append_left _ h3⟩
  · -- a token is there, or is put there by this push
    simp only [hbuf, hn, GoMap.get?_insert] at hk
    show 0 < (d.buffer.push payload).readyChan
    rw [hready]
    split at hk
    · -- the push is for `Next()`: it adds a token to an empty channel
      rename_i hseq
      split
      · omega
      · rename_i hcond
        exact Nat.pos_of_ne_zero fun h0 => hcond ⟨hseq.symm, h0⟩
    · have := h.no_lost_wakeup hw hk
      split <;> omega
  · have hf := h.first hlt
    refine ⟨fun q hq hle => ?_, fun k p hk => ?_, fun p hp => (hf.popped_first p hp).append _⟩
    · simp only [hbuf, GoMap.get?_insert]
      split
      · rfl
      · rcases List.mem_append.mp hq with hq | hq
        · exact hf.pushed_buffered q hq (hn ▸ hle)
        · simp_all
    · simp only [hbuf, GoMap.get?_insert] at hk
      split at hk
      · -- no earlier push carried the number, or it would be buffered
        cases hk
        refine firstPushed_append_self fun q hq hseq => ?_
        have := hf.pushed_buffered q hq (hseq ▸ hnext)
        rw [hseq, hnew] at this
        cases this
      · exact (hf.stored_first k p hk).append _

/-- A token taken by the consumer. -/
theorem Inv.ready {n0 : UInt64} {d : Delivery δ} (h : d.Inv n0) :
    Inv n0 { d with
      buffer := { d.buffer with readyChan := d.buffer.readyChan - 1 }, consumer := .popping } where
  readyChan_le := by have := h.readyChan_le; dsimp only; omega
  stored := h.stored
  popped_pushed := h.popped_pushed
  next_toNat := h.next_toNat
  popped_seqNum := h.popped_seqNum
  no_lost_wakeup hw := by cases hw
  first hlt := by
    have hf := h.first hlt
    exact ⟨hf.pushed_buffered, hf.stored_first, hf.popped_first⟩

/-- A `Pop` that returns the payload for `Next()`. -/
theorem Inv.pop_some {n0 : UInt64} {d : Delivery δ} (h : d.Inv n0) (hc : d.consumer = .popping)
    {p : Payload δ} (hp : d.buffer.buf.get? d.buffer.next = some p) :
    Inv n0 { d with buffer := d.buffer.pop.1, popped := d.popped ++ [p] } := by
  obtain ⟨-, hn, hbuf, hready⟩ := PayloadsBuffer.pop_of_some hp
  obtain ⟨hseq, -, hmem⟩ := h.stored _ _ hp
  refine ⟨?_, fun k q hk => ?_, fun q hq => ?_, ?_, ?_, (fun hw => by rw [hc] at hw; cases hw),
    fun hlt => ?_⟩
  · show d.buffer.pop.1.readyChan ≤ 1
    have := h.readyChan_le
    omega
  · simp only [hbuf, GoMap.get?_erase] at hk
    split at hk
    · cases hk
    · obtain ⟨h1, h2, h3⟩ := h.stored k q hk
      rename_i hne
      exact ⟨h1, hn ▸ UInt64.succ_le_of_le_of_ne h2 hne, h3⟩
  · rcases List.mem_append.mp hq with hq | hq
    · exact h.popped_pushed q hq
    · rw [List.mem_singleton.mp hq]
      exact hmem
  · simp only [hn, UInt64.toNat_add, UInt64.toNat_one, h.next_toNat, List.length_append,
      List.length_singleton]
    omega
  · simp only [List.map_append, List.map_singleton, List.length_append, List.length_singleton,
      List.range_succ, h.popped_seqNum, hseq, h.next_toNat]
  · -- before the pop `Next()` had not wrapped either, and does not wrap now
    have hf := h.first (by simp at hlt; omega)
    have hnat : d.buffer.next.toNat + 1 < 2 ^ 64 := by
      simp only [List.length_append, List.length_singleton] at hlt
      rw [h.next_toNat, Nat.mod_eq_of_lt (by omega)]
      omega
    refine ⟨fun q hq hle => ?_, fun k q hk => ?_, fun q hq => ?_⟩
    · rw [hn, UInt64.le_iff_toNat_le, UInt64.toNat_add, UInt64.toNat_one,
        Nat.mod_eq_of_lt hnat] at hle
      have hne : q.seqNum ≠ d.buffer.next := fun heq => by rw [heq] at hle; omega
      simp only [hbuf, GoMap.get?_erase, if_neg hne]
      exact hf.pushed_buffered q hq (UInt64.le_iff_toNat_le.mpr (by omega))
    · simp only [hbuf, GoMap.get?_erase] at hk
      split at hk
      · cases hk
      · exact hf.stored_first k q hk
    · rcases List.mem_append.mp hq with hq | hq
      · exact hf.popped_first q hq
      · rw [List.mem_singleton.mp hq]
        exact hf.stored_first _ _ hp

/-- A `Pop` that returns nil sends the consumer back to wait, with nothing buffered for
    `Next()`. -/
theorem Inv.pop_none {n0 : UInt64} {d : Delivery δ} (h : d.Inv n0)
    (hp : d.buffer.buf.get? d.buffer.next = none) :
    Inv n0 { d with consumer := .waiting } where
  readyChan_le := h.readyChan_le
  stored := h.stored
  popped_pushed := h.popped_pushed
  next_toNat := h.next_toNat
  popped_seqNum := h.popped_seqNum
  no_lost_wakeup _ hk := by simp [hp] at hk
  first hlt := by
    have hf := h.first hlt
    exact ⟨hf.pushed_buffered, hf.stored_first, hf.popped_first⟩

/-- Every event keeps the invariant. -/
theorem Inv.step {n0 : UInt64} {d d' : Delivery δ} (h : d.Inv n0) {e : Event δ}
    (he : d.step e = some d') : d'.Inv n0 := by
  cases e with
  | push payload =>
    cases he
    by_cases hrej : payload.seqNum < d.buffer.next ∨ (d.buffer.buf.get? payload.seqNum).isSome
    · rw [PayloadsBuffer.push_of_rejected hrej]
      exact h.push_rejected payload hrej
    · simp only [not_or, Bool.not_eq_true, Option.isSome_eq_false_iff, Option.isNone_iff_eq_none]
        at hrej
      exact h.push_accepted payload (UInt64.not_lt.mp hrej.1) hrej.2
  | ready =>
    simp only [Delivery.step] at he
    split at he
    · cases he
      exact h.ready
    · cases he
  | pop =>
    simp only [Delivery.step] at he
    split at he
    · rename_i hc
      cases hget : d.buffer.buf.get? d.buffer.next with
      | none =>
        rw [PayloadsBuffer.pop_of_none hget] at he
        cases he
        exact h.pop_none hget
      | some p =>
        obtain ⟨h2, -⟩ := PayloadsBuffer.pop_of_some hget
        rcases hpop : d.buffer.pop with ⟨b, _ | q⟩
        · rw [hpop] at h2; cases h2
        · rw [hpop] at h2 he
          cases h2
          cases he
          have := h.pop_some hc hget
          rwa [hpop] at this
    · cases he

/-- Every run keeps the invariant. -/
theorem Inv.run {n0 : UInt64} {d : Delivery δ} (h : d.Inv n0) (events : List (Event δ))
    {d' : Delivery δ} (hrun : d.run events = some d') : d'.Inv n0 := by
  induction events generalizing d with
  | nil => cases hrun; exact h
  | cons e es ih =>
    simp only [Delivery.run] at hrun
    cases hstep : d.step e with
    | none => rw [hstep] at hrun; cases hrun
    | some d₁ =>
      rw [hstep, Option.bind_some] at hrun
      exact ih (h.step hstep) hrun

end Delivery

end Invariant

/-! ## Delivery in order -/

section Order

variable {δ : Type}

theorem deliverPayloads_in_order (n0 : UInt64) (events : List (Event δ)) (d : Delivery δ)
    (hrun : (Delivery.init n0).run events = some d) :
    d.popped.map (·.seqNum.toNat) =
        (List.range d.popped.length).map (fun j => (n0.toNat + j) % 2 ^ 64) ∧
      (∀ p ∈ d.popped, p ∈ d.pushed) ∧
      (∀ k p, d.buffer.buf.get? k = some p → p.seqNum = k ∧ d.buffer.next ≤ k) ∧
      ¬ (d.consumer = .waiting ∧ (d.buffer.buf.get? d.buffer.next).isSome ∧
        d.buffer.readyChan = 0) ∧
      (n0.toNat + d.popped.length < 2 ^ 64 →
        d.popped.map (·.seqNum.toNat) = List.range' n0.toNat d.popped.length ∧
          (∀ p ∈ d.popped, FirstPushed d.pushed p) ∧ d.popped.Nodup) := by
  have h := (Delivery.inv_init n0).run events hrun
  refine ⟨h.popped_seqNum, h.popped_pushed,
    fun k p hk => ⟨(h.stored k p hk).1, (h.stored k p hk).2.1⟩, ?_, fun hlt => ?_⟩
  · rintro ⟨hw, hk, h0⟩
    have := h.no_lost_wakeup hw hk
    omega
  · -- without a wrap the numbers are `n0, n0+1, …` as natural numbers, hence distinct
    have hrange : d.popped.map (·.seqNum.toNat) = List.range' n0.toNat d.popped.length := by
      rw [h.popped_seqNum, List.range'_eq_map_range]
      exact List.map_congr_left fun j hj => Nat.mod_eq_of_lt (by simp at hj; omega)
    refine ⟨hrange, (h.first hlt).popped_first, ?_⟩
    exact List.Nodup.of_map _ (hrange ▸ List.nodup_range')

/-- Pushes of `4`, `3` and the stale `2` from `Next() = 3`, then the consumer's loop. -/
def inOrderEvents : List (Event Nat) :=
  [.push ⟨4, 40⟩, .push ⟨3, 30⟩, .push ⟨2, 20⟩, .ready, .pop, .pop, .pop]

/-- The consumer gets `3` and `4`, in that order. -/
theorem deliverPayloads_in_order_inOrderEvents :
    ∃ d : Delivery Nat, (Delivery.init 3).run inOrderEvents = some d ∧
      d.popped.map (·.seqNum.toNat) = [3, 4] := by
  obtain ⟨d, hd⟩ : ∃ d : Delivery Nat, (Delivery.init 3).run inOrderEvents = some d := ⟨_, rfl⟩
  obtain ⟨hseq, -⟩ := deliverPayloads_in_order 3 inOrderEvents d hd
  have hlen : ((Delivery.init 3).run inOrderEvents).map (·.popped.length) = some 2 := by decide
  rw [hd, Option.map_some, Option.some.injEq] at hlen
  exact ⟨d, hd, by rw [hseq, hlen]; decide⟩

/-- From `Next() = 2^64 - 1`: a push of `0` is turned away as stale, `2^64 - 1` is pushed and
    popped, which wraps `Next()` to `0`, and a second push of `0` is then buffered and
    popped. -/
def wrapEvents : List (Event Nat) :=
  [.push ⟨0, 1⟩, .push ⟨18446744073709551615, 2⟩, .ready, .pop, .pop, .push ⟨0, 3⟩, .ready, .pop]

/-- After the wrap the consumer gets a payload numbered `0`, which is not the first pushed
    with that number. -/
theorem deliverPayloads_after_wrap :
    ((Delivery.init 18446744073709551615).run wrapEvents).map (·.popped) =
        some [⟨18446744073709551615, 2⟩, ⟨0, 3⟩] ∧
      ((Delivery.init 18446744073709551615).run wrapEvents).map
          (fun d => d.pushed.find? (fun q => q.seqNum == 0)) = some (some ⟨0, 1⟩) := by
  decide

end Order

end Fabric.Gossip.State
