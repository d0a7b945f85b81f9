import Fabric.Protoutil.Messages

/-
  The block cutter of the orderer (`orderer/common/blockcutter/blockcutter.go`) and the check of
  its batch size configuration (`OrdererConfig.validateBatchSize`,
  `common/channelconfig/orderer.go`).

  `Ordered` appends each message to the pending batch and cuts batches by three rules: a
  message larger than `PreferredMaxBytes` is isolated in a batch of its own, a message that
  would take the pending batch past `PreferredMaxBytes` first cuts it, and a pending batch of
  `MaxMessageCount` messages is cut. `Cut` returns the pending batch. The byte count of the
  pending batch is a `uint32`, and so is the size of a message.

  Proved, for every sequence of calls:
  * no message is lost, duplicated or reordered (`run_conserves`);
  * each `Ordered` call returns at most two batches, none empty, in one of the four shapes its
    comment lists (`ordered_shape`), at every receiver a run from a new one reaches
    (`blockCutter_run`);
  * with `PreferredMaxBytes` below `2^31`, the pending byte count is the sum of the pending
    messages' sizes and every batch `Ordered` returns is a single message or within
    `PreferredMaxBytes` and `MaxMessageCount` (`run_inv`, `ordered_batches_bounded`).
  The bound needs that hypothesis: with `PreferredMaxBytes` at least `2^31`, the sum of the
  pending byte count and a message's size can wrap around, and `Ordered` returns a batch of two
  messages of `2^32` bytes together (`ordered_batch_exceeds_preferredMaxBytes`).

  Time, metrics and the config fetcher are left out: the config is the `BatchSize` the calls
  are made with.
-/

namespace Fabric.Orderer

open Fabric.Protoutil

/-- `orderer.BatchSize`. -/
structure BatchSize where
  maxMessageCount : UInt32
  absoluteMaxBytes : UInt32
  preferredMaxBytes : UInt32
  deriving DecidableEq, Repr

/-- The errors of `validateBatchSize`, with the data each message prints. -/
inductive BatchSizeError
  /-- "Attempted to set the batch size max message count to an invalid value: 0" -/
  | maxMessageCount
  /-- "Attempted to set the batch size absolute max bytes to an invalid value: 0" -/
  | absoluteMaxBytes
  /-- "Attempted to set the batch size preferred max bytes to an invalid value: 0" -/
  | preferredMaxBytes
  /-- "Attempted to set the batch size preferred max bytes (%v) greater than the absolute max
      bytes (%v)." -/
  | preferredAboveAbsolute (preferred absolute : UInt32)
  deriving DecidableEq, Repr

/-- `OrdererConfig.validateBatchSize`. -/
def validateBatchSize (batchSize : BatchSize) : Except BatchSizeError Unit := do
  if batchSize.maxMessageCount = 0 then throw .maxMessageCount
  if batchSize.absoluteMaxBytes = 0 then throw .absoluteMaxBytes
  if batchSize.preferredMaxBytes = 0 then throw .preferredMaxBytes
  if batchSize.preferredMaxBytes > batchSize.absoluteMaxBytes then
    throw (.preferredAboveAbsolute batchSize.preferredMaxBytes batchSize.absoluteMaxBytes)

theorem validateBatchSize_eq_ok {batchSize : BatchSize} :
    validateBatchSize batchSize = .ok () ↔
      0 < batchSize.maxMessageCount.toNat ∧ 0 < batchSize.absoluteMaxBytes.toNat ∧
        0 < batchSize.preferredMaxBytes.toNat ∧
        batchSize.preferredMaxBytes.toNat ≤ batchSize.absoluteMaxBytes.toNat := by
  simp only [validateBatchSize, UInt32.lt_iff_toNat_lt, UInt32.toNat_zero, Nat.pos_iff_ne_zero,
    ← UInt32.toNat_inj]
  by_cases h1 : batchSize.maxMessageCount.toNat = 0
  · simp [h1, throw, throwThe, MonadExceptOf.throw, bind, Except.bind]
  by_cases h2 : batchSize.absoluteMaxBytes.toNat = 0
  · simp [h1, h2, throw, throwThe, MonadExceptOf.throw, bind, Except.bind]
  by_cases h3 : batchSize.preferredMaxBytes.toNat = 0
  · simp [h1, h2, h3, throw, throwThe, MonadExceptOf.throw, bind, Except.bind]
  by_cases h4 : batchSize.absoluteMaxBytes.toNat < batchSize.preferredMaxBytes.toNat
  · simp [h1, h2, h3, h4, throw, throwThe, MonadExceptOf.throw]
  · simp [h1, h2, h3, h4, pure, Except.pure]
    omega

/-- `messageSizeBytes`: the payload and signature lengths, as a `uint32`. -/
def messageSizeBytes (message : Envelope) : UInt32 :=
  (message.payload.length + message.signature.length).toUInt32

/-- `receiver`: the pending batch and its size in bytes. -/
structure Receiver where
  pendingBatch : List Envelope := []
  pendingBatchSizeBytes : UInt32 := 0
  deriving DecidableEq, Repr

/-- `Cut`: the pending batch, and the receiver with a new one. -/
def Receiver.cut (r : Receiver) : List Envelope × Receiver :=
  (r.pendingBatch, {})

/-- `Ordered`: the batches cut by the message, whether messages are left pending, and the new
    receiver. -/
def Receiver.ordered (batchSize : BatchSize) (r : Receiver) (msg : Envelope) :
    (List (List Envelope) × Bool) × Receiver :=
  let messageSizeBytes := messageSizeBytes msg
  if messageSizeBytes > batchSize.preferredMaxBytes then
    -- the message is isolated, after the pending batch if it has any messages
    let (messageBatches, r) :=
      if r.pendingBatch.length > 0 then ([r.cut.1], r.cut.2) else ([], r)
    ((messageBatches ++ [[msg]], false), r)
  else
    let messageWillOverflowBatchSizeBytes :=
      r.pendingBatchSizeBytes + messageSizeBytes > batchSize.preferredMaxBytes
    let (messageBatches, r) :=
      if messageWillOverflowBatchSizeBytes then ([r.cut.1], r.cut.2) else ([], r)
    let r : Receiver :=
      { pendingBatch := r.pendingBatch ++ [msg],
        pendingBatchSizeBytes := r.pendingBatchSizeBytes + messageSizeBytes }
    if r.pendingBatch.length.toUInt32 ≥ batchSize.maxMessageCount then
      ((messageBatches ++ [r.cut.1], false), r.cut.2)
    else ((messageBatches, true), r)

/-! ## What one call does -/

section

variable {batchSize : BatchSize} {r : Receiver} {msg : Envelope}

@[simp] theorem cut_fst (r : Receiver) : r.cut.1 = r.pendingBatch := rfl

@[simp] theorem cut_snd (r : Receiver) : r.cut.2 = {} := rfl

/-- The receiver after appending a message to its pending batch, before the count check. -/
def Receiver.enqueue (r : Receiver) (msg : Envelope) : Receiver :=
  { pendingBatch := r.pendingBatch ++ [msg],
    pendingBatchSizeBytes := r.pendingBatchSizeBytes + messageSizeBytes msg }

/-- The pending batch before a message is appended: cut first if the message would overflow
    it. -/
def Receiver.beforeEnqueue (batchSize : BatchSize) (r : Receiver) (msg : Envelope) :
    List (List Envelope) × Receiver :=
  if r.pendingBatchSizeBytes + messageSizeBytes msg > batchSize.preferredMaxBytes then
    ([r.pendingBatch], {})
  else ([], r)

/-- An isolated message: the pending batch if it has messages, then the message alone. -/
theorem ordered_of_gt (h : messageSizeBytes msg > batchSize.preferredMaxBytes) :
    r.ordered batchSize msg =
      (((if r.pendingBatch = [] then [] else [r.pendingBatch]) ++ [[msg]], false),
        if r.pendingBatch = [] then r else {}) := by
  unfold Receiver.ordered
  rw [if_pos h]
  by_cases hp : r.pendingBatch = []
  · simp [hp]
  · simp [hp, List.length_pos_iff]

/-- A message that fits: the overflow cut, the append, then the count check. -/
theorem ordered_of_le (h : ¬ messageSizeBytes msg > batchSize.preferredMaxBytes) :
    r.ordered batchSize msg =
      let (batches, r₁) := r.beforeEnqueue batchSize msg
      let r₂ := r₁.enqueue msg
      if r₂.pendingBatch.length.toUInt32 ≥ batchSize.maxMessageCount then
        ((batches ++ [r₂.pendingBatch], false), {})
      else ((batches, true), r₂) := by
  unfold Receiver.ordered Receiver.beforeEnqueue Receiver.enqueue
  rw [if_neg h]
  rfl

/-! ## No message is lost, duplicated or reordered -/

theorem beforeEnqueue_conserves (batchSize : BatchSize) (r : Receiver) (msg : Envelope) :
    (r.beforeEnqueue batchSize msg).1.flatten ++ (r.beforeEnqueue batchSize msg).2.pendingBatch =
      r.pendingBatch := by
  unfold Receiver.beforeEnqueue
  split <;> simp

/-- The batches of one `Ordered` call, then the pending batch, are the old pending batch and
    the message. -/
theorem ordered_conserves :
    (r.ordered batchSize msg).1.1.flatten ++ (r.ordered batchSize msg).2.pendingBatch =
      r.pendingBatch ++ [msg] := by
  by_cases h : messageSizeBytes msg > batchSize.preferredMaxBytes
  · rw [ordered_of_gt h]
    by_cases hp : r.pendingBatch = [] <;> simp [hp]
  · have hb := beforeEnqueue_conserves batchSize r msg
    rw [ordered_of_le h]
    rcases hbe : r.beforeEnqueue batchSize msg with ⟨batches, r₁⟩
    rw [hbe] at hb
    dsimp only at hb ⊢
    split <;> simp [Receiver.enqueue, ← hb]

/-! ## The shape of the batches `Ordered` returns -/

/-- An empty pending batch counts no bytes. -/
def Receiver.EmptyCountsZero (r : Receiver) : Prop :=
  r.pendingBatch = [] → r.pendingBatchSizeBytes = 0

theorem emptyCountsZero_ordered (hr : r.EmptyCountsZero) :
    (r.ordered batchSize msg).2.EmptyCountsZero := by
  by_cases h : messageSizeBytes msg > batchSize.preferredMaxBytes
  · rw [ordered_of_gt h]
    by_cases hp : r.pendingBatch = []
    · simpa [hp] using hr
    · simp [hp, Receiver.EmptyCountsZero]
  · rw [ordered_of_le h]
    rcases r.beforeEnqueue batchSize msg with ⟨batches, r₁⟩
    dsimp only
    split <;> simp [Receiver.EmptyCountsZero, Receiver.enqueue]

/-- The overflow cut never cuts an empty batch: with nothing pending, a message that fits
    cannot overflow. -/
theorem beforeEnqueue_ne_nil (hr : r.EmptyCountsZero)
    (h : ¬ messageSizeBytes msg > batchSize.preferredMaxBytes) :
    ∀ batch ∈ (r.beforeEnqueue batchSize msg).1, batch ≠ [] := by
  unfold Receiver.beforeEnqueue
  split
  · next hover =>
    intro batch hb hnil
    simp only [List.mem_singleton] at hb
    subst hb
    rw [hr hnil, UInt32.zero_add] at hover
    exact h hover
  · simp

theorem length_beforeEnqueue_le (batchSize : BatchSize) (r : Receiver) (msg : Envelope) :
    (r.beforeEnqueue batchSize msg).1.length ≤ 1 := by
  unfold Receiver.beforeEnqueue
  split <;> simp

/-- `Ordered` returns at most two batches, none of them empty, and the number of batches and
    whether messages are pending are one of `(0, true)`, `(1, true)`, `(1, false)`,
    `(2, false)`. -/
theorem ordered_shape (hr : r.EmptyCountsZero) :
    (∀ batch ∈ (r.ordered batchSize msg).1.1, batch ≠ []) ∧
      ((r.ordered batchSize msg).1.1.length, (r.ordered batchSize msg).1.2) ∈
        [(0, true), (1, true), (1, false), (2, false)] := by
  by_cases h : messageSizeBytes msg > batchSize.preferredMaxBytes
  · rw [ordered_of_gt h]
    by_cases hp : r.pendingBatch = [] <;> simp [hp]
  · have hne := beforeEnqueue_ne_nil hr h
    have hlen := length_beforeEnqueue_le batchSize r msg
    rw [ordered_of_le h]
    rcases hbe : r.beforeEnqueue batchSize msg with ⟨batches, r₁⟩
    rw [hbe] at hne hlen
    dsimp only at hne hlen ⊢
    -- zero or one batch before the count check, and one more if it cuts
    have hcases : batches.length = 0 ∨ batches.length = 1 := by omega
    split
    · refine ⟨?_, ?_⟩
      · intro batch hb
        rcases List.mem_append.mp hb with hb | hb
        · exact hne batch hb
        · simp only [List.mem_singleton] at hb
          simp [hb, Receiver.enqueue]
      · rcases hcases with hc | hc <;> simp [hc]
    · exact ⟨hne, by rcases hcases with hc | hc <;> simp [hc]⟩

end

/-! ## Runs of calls -/

/-- A call to the receiver. -/
inductive CutterCall
  | ordered (msg : Envelope)
  | cut

/-- The batches one call returns, and the receiver after it. -/
def Receiver.step (batchSize : BatchSize) (r : Receiver) : CutterCall → List (List Envelope) × Receiver
  | .ordered msg => ((r.ordered batchSize msg).1.1, (r.ordered batchSize msg).2)
  | .cut => ([r.cut.1], r.cut.2)

/-- The batches a sequence of calls returns, in call order, and the receiver after them. -/
def Receiver.run (batchSize : BatchSize) (r : Receiver) :
    List CutterCall → List (List Envelope) × Receiver
  | [] => ([], r)
  | call :: calls =>
    let (batches, r') := r.step batchSize call
    let (rest, r'') := r'.run batchSize calls
    (batches ++ rest, r'')

/-- The messages passed to `Ordered`, in call order. -/
def orderedMessages : List CutterCall → List Envelope
  | [] => []
  | .ordered msg :: calls => msg :: orderedMessages calls
  | .cut :: calls => orderedMessages calls

section

variable {batchSize : BatchSize}

theorem step_conserves (r : Receiver) (call : CutterCall) :
    (r.step batchSize call).1.flatten ++ (r.step batchSize call).2.pendingBatch =
      r.pendingBatch ++ orderedMessages [call] := by
  cases call with
  | ordered msg => exact ordered_conserves
  | cut => simp [Receiver.step, orderedMessages]

theorem orderedMessages_cons (call : CutterCall) (calls : List CutterCall) :
    orderedMessages (call :: calls) = orderedMessages [call] ++ orderedMessages calls := by
  cases call <;> rfl

/-- The batches of a run in call order, then the pending batch, are the pending batch the run
    started from and the messages passed to `Ordered`: no message is lost, duplicated or
    reordered. -/
theorem run_conserves (r : Receiver) (calls : List CutterCall) :
    (r.run batchSize calls).1.flatten ++ (r.run batchSize calls).2.pendingBatch =
      r.pendingBatch ++ orderedMessages calls := by
  induction calls generalizing r with
  | nil => simp [Receiver.run, orderedMessages]
  | cons call calls ih =>
    have hstep := @step_conserves batchSize r call
    simp only [Receiver.run, List.flatten_append, List.append_assoc]
    rw [ih, ← List.append_assoc, hstep, List.append_assoc, ← orderedMessages_cons]

theorem emptyCountsZero_step {r : Receiver} (hr : r.EmptyCountsZero) (call : CutterCall) :
    (r.step batchSize call).2.EmptyCountsZero := by
  cases call with
  | ordered msg => exact emptyCountsZero_ordered hr
  | cut => simp [Receiver.step, Receiver.EmptyCountsZero]

/-- Every receiver a run reaches from a new one has an empty pending batch only with a zero
    byte count. -/
theorem emptyCountsZero_run (r : Receiver) (hr : r.EmptyCountsZero) (calls : List CutterCall) :
    (r.run batchSize calls).2.EmptyCountsZero := by
  induction calls generalizing r with
  | nil => exact hr
  | cons call calls ih => exact ih _ (emptyCountsZero_step hr call)

end

/-- Every run of `Ordered` and `Cut` calls from a new receiver, under any batch size: the
    batches returned, in call order, then the pending batch, are the messages passed to
    `Ordered`; and at the receiver the run reaches, `Ordered` returns at most two batches, none
    empty, in one of the four shapes. -/
theorem blockCutter_run (batchSize : BatchSize) (calls : List CutterCall) (msg : Envelope) :
    (({} : Receiver).run batchSize calls).1.flatten ++
        (({} : Receiver).run batchSize calls).2.pendingBatch = orderedMessages calls ∧
      (∀ batch ∈ ((({} : Receiver).run batchSize calls).2.ordered batchSize msg).1.1,
        batch ≠ []) ∧
      (((({} : Receiver).run batchSize calls).2.ordered batchSize msg).1.1.length,
        ((({} : Receiver).run batchSize calls).2.ordered batchSize msg).1.2) ∈
        [(0, true), (1, true), (1, false), (2, false)] := by
  -- a new receiver counts no bytes, and every receiver a run reaches neither
  have hreached : (({} : Receiver).run batchSize calls).2.EmptyCountsZero :=
    emptyCountsZero_run {} (fun _ => rfl) calls
  have hconserves : (({} : Receiver).run batchSize calls).1.flatten ++
      (({} : Receiver).run batchSize calls).2.pendingBatch = [] ++ orderedMessages calls :=
    run_conserves {} calls
  rw [List.nil_append] at hconserves
  exact ⟨hconserves, ordered_shape hreached⟩

/-! ## The byte and count bounds -/

/-- The sum of the messages' sizes, without wrap-around. -/
def sizeSum (msgs : List Envelope) : Nat :=
  (msgs.map fun m => (messageSizeBytes m).toNat).sum

@[simp] theorem sizeSum_nil : sizeSum [] = 0 := rfl

@[simp] theorem sizeSum_append (l₁ l₂ : List Envelope) :
    sizeSum (l₁ ++ l₂) = sizeSum l₁ + sizeSum l₂ := by
  simp [sizeSum]

@[simp] theorem sizeSum_singleton (m : Envelope) : sizeSum [m] = (messageSizeBytes m).toNat := by
  simp [sizeSum]

/-- The receiver under a fixed config: the byte count is the sum of the pending messages'
    sizes, within `PreferredMaxBytes`, and fewer than `MaxMessageCount` messages are pending. -/
structure Receiver.Inv (batchSize : BatchSize) (r : Receiver) : Prop where
  sizeBytes_eq : r.pendingBatchSizeBytes.toNat = sizeSum r.pendingBatch
  sizeSum_le : sizeSum r.pendingBatch ≤ batchSize.preferredMaxBytes.toNat
  length_lt : r.pendingBatch.length < batchSize.maxMessageCount.toNat

/-- A batch `Ordered` may return: at most `MaxMessageCount` messages, and a single message or
    within `PreferredMaxBytes`. -/
def BatchWithin (batchSize : BatchSize) (batch : List Envelope) : Prop :=
  batch.length ≤ batchSize.maxMessageCount.toNat ∧
    (batch.length = 1 ∨ sizeSum batch ≤ batchSize.preferredMaxBytes.toNat)

section

variable {batchSize : BatchSize} {r : Receiver} {msg : Envelope}

theorem inv_empty (h : 0 < batchSize.maxMessageCount.toNat) : ({} : Receiver).Inv batchSize :=
  ⟨rfl, Nat.zero_le _, h⟩

theorem Receiver.Inv.emptyCountsZero (hr : r.Inv batchSize) : r.EmptyCountsZero := by
  intro hp
  have h := hr.sizeBytes_eq
  rw [hp, sizeSum_nil] at h
  exact UInt32.toNat_inj.mp h

theorem Receiver.Inv.maxMessageCount_pos (hr : r.Inv batchSize) : 0 < batchSize.maxMessageCount.toNat :=
  Nat.lt_of_le_of_lt (Nat.zero_le _) hr.length_lt

theorem Receiver.Inv.batchWithin (hr : r.Inv batchSize) : BatchWithin batchSize r.pendingBatch :=
  ⟨Nat.le_of_lt hr.length_lt, .inr hr.sizeSum_le⟩

/-- Below `2^31` the sum of a pending byte count and the size of a message that fits does not
    wrap around. -/
theorem toNat_add_messageSizeBytes (hP : batchSize.preferredMaxBytes.toNat < 2 ^ 31)
    (hr : r.Inv batchSize) (h : ¬ messageSizeBytes msg > batchSize.preferredMaxBytes) :
    (r.pendingBatchSizeBytes + messageSizeBytes msg).toNat =
      sizeSum r.pendingBatch + (messageSizeBytes msg).toNat := by
  rw [gt_iff_lt, UInt32.lt_iff_toNat_lt, Nat.not_lt] at h
  have hs := hr.sizeBytes_eq
  have hb := hr.sizeSum_le
  rw [UInt32.toNat_add, hs, Nat.mod_eq_of_lt (by omega)]

/-- Before the count check, the pending batch with the message appended keeps the byte
    invariant, and the batches cut before it are within bounds. -/
theorem inv_beforeEnqueue (hP : batchSize.preferredMaxBytes.toNat < 2 ^ 31)
    (hr : r.Inv batchSize) (h : ¬ messageSizeBytes msg > batchSize.preferredMaxBytes) :
    (∀ batch ∈ (r.beforeEnqueue batchSize msg).1, BatchWithin batchSize batch) ∧
      ((r.beforeEnqueue batchSize msg).2.enqueue msg).pendingBatchSizeBytes.toNat =
        sizeSum ((r.beforeEnqueue batchSize msg).2.enqueue msg).pendingBatch ∧
      sizeSum ((r.beforeEnqueue batchSize msg).2.enqueue msg).pendingBatch ≤
        batchSize.preferredMaxBytes.toNat ∧
      ((r.beforeEnqueue batchSize msg).2.enqueue msg).pendingBatch.length ≤
        batchSize.maxMessageCount.toNat := by
  have hm : (messageSizeBytes msg).toNat ≤ batchSize.preferredMaxBytes.toNat := by
    rw [gt_iff_lt, UInt32.lt_iff_toNat_lt, Nat.not_lt] at h
    exact h
  have hsum := toNat_add_messageSizeBytes hP hr h
  have hpos := hr.maxMessageCount_pos
  unfold Receiver.beforeEnqueue
  split
  · -- the pending batch is cut: the message starts a new one
    refine ⟨?_, ?_, ?_, ?_⟩
    · simpa using hr.batchWithin
    · simp [Receiver.enqueue]
    · simpa [Receiver.enqueue] using hm
    · simpa [Receiver.enqueue, Nat.succ_le_iff] using hpos
  · next hover =>
    rw [gt_iff_lt, UInt32.lt_iff_toNat_lt, Nat.not_lt, hsum] at hover
    simp only [List.not_mem_nil, false_imp_iff, implies_true, Receiver.enqueue, sizeSum_append,
      sizeSum_singleton, List.length_append, List.length_singleton, true_and]
    exact ⟨hsum, hover, hr.length_lt⟩

/-- `Ordered` keeps the invariant, and every batch it returns is within bounds. -/
theorem ordered_inv (hP : batchSize.preferredMaxBytes.toNat < 2 ^ 31) (hr : r.Inv batchSize) :
    (∀ batch ∈ (r.ordered batchSize msg).1.1, BatchWithin batchSize batch) ∧
      (r.ordered batchSize msg).2.Inv batchSize := by
  have hpos := hr.maxMessageCount_pos
  by_cases h : messageSizeBytes msg > batchSize.preferredMaxBytes
  · rw [ordered_of_gt h]
    have hone : BatchWithin batchSize [msg] := ⟨by simp; omega, .inl rfl⟩
    by_cases hp : r.pendingBatch = []
    · simp only [hp, if_true, List.nil_append, List.mem_singleton, forall_eq]
      exact ⟨hone, hr⟩
    · simp only [hp, if_false, List.mem_append, List.mem_singleton]
      refine ⟨?_, inv_empty hpos⟩
      rintro batch (rfl | rfl)
      · exact hr.batchWithin
      · exact hone
  · obtain ⟨hbefore, hbytes, hle, hlen⟩ := inv_beforeEnqueue hP hr h
    rw [ordered_of_le h]
    rcases hbe : r.beforeEnqueue batchSize msg with ⟨batches, r₁⟩
    rw [hbe] at hbefore hbytes hle hlen
    dsimp only at hbefore hbytes hle hlen ⊢
    split
    · -- the count check cuts the pending batch
      refine ⟨?_, inv_empty hpos⟩
      intro batch hb
      rcases List.mem_append.mp hb with hb | hb
      · exact hbefore batch hb
      · simp only [List.mem_singleton] at hb
        exact hb ▸ ⟨hlen, .inr hle⟩
    · next hcount =>
      -- below the count the length converts to `uint32` unchanged
      have hlt : (r₁.enqueue msg).pendingBatch.length < batchSize.maxMessageCount.toNat := by
        have hsmall := UInt32.toNat_lt batchSize.maxMessageCount
        rw [ge_iff_le, UInt32.le_iff_toNat_le, UInt32.toNat_ofNat',
          Nat.mod_eq_of_lt (by omega)] at hcount
        omega
      exact ⟨hbefore, hbytes, hle, hlt⟩

theorem step_inv (hP : batchSize.preferredMaxBytes.toNat < 2 ^ 31) (hr : r.Inv batchSize)
    (call : CutterCall) : (r.step batchSize call).2.Inv batchSize := by
  cases call with
  | ordered msg => exact (ordered_inv hP hr).2
  | cut => exact inv_empty hr.maxMessageCount_pos

/-- Under a config whose `PreferredMaxBytes` is below `2^31`, every receiver a run reaches
    keeps the invariant. -/
theorem run_inv (hP : batchSize.preferredMaxBytes.toNat < 2 ^ 31) (r : Receiver)
    (hr : r.Inv batchSize) (calls : List CutterCall) : (r.run batchSize calls).2.Inv batchSize := by
  induction calls generalizing r with
  | nil => exact hr
  | cons call calls ih => exact ih _ (step_inv hP hr call)

/-- Under a config accepted by `validateBatchSize` whose `PreferredMaxBytes` is below `2^31`,
    each `Ordered` call of a run from a new receiver returns batches within bounds. -/
theorem ordered_batches_bounded (hv : validateBatchSize batchSize = .ok ())
    (hP : batchSize.preferredMaxBytes.toNat < 2 ^ 31) (calls : List CutterCall) (msg : Envelope) :
    ∀ batch ∈ (((({} : Receiver).run batchSize calls).2).ordered batchSize msg).1.1,
      BatchWithin batchSize batch :=
  (ordered_inv hP (run_inv hP {} (inv_empty (validateBatchSize_eq_ok.mp hv).1) calls)).1

end

/-! ## The byte count wraps around -/

/-- A config that `validateBatchSize` accepts, with the largest byte limits. -/
def wideBatchSize : BatchSize :=
  { maxMessageCount := 2, absoluteMaxBytes := 4294967295, preferredMaxBytes := 4294967295 }

/-- Under `wideBatchSize`, two messages of `2^31` bytes each: the second wraps the pending byte
    count around to `0`, so no overflow cut is made, and the count cut returns both. -/
theorem ordered_ordered_wideBatchSize {m₁ m₂ : Envelope}
    (h₁ : messageSizeBytes m₁ = 2147483648) (h₂ : messageSizeBytes m₂ = 2147483648) :
    ((({} : Receiver).ordered wideBatchSize m₁).2.ordered wideBatchSize m₂).1 =
      ([[m₁, m₂]], false) := by
  simp [Receiver.ordered, h₁, h₂, wideBatchSize]

/-- A message of `2^31` payload bytes. -/
def halfEnvelope : Envelope := { payload := List.replicate (2 ^ 31) 0 }

theorem messageSizeBytes_halfEnvelope : messageSizeBytes halfEnvelope = 2147483648 := by
  -- the length is rewritten, never computed from the list
  have h : halfEnvelope.payload.length = 2 ^ 31 := List.length_replicate
  rw [messageSizeBytes, h]
  rfl

/-- Two messages of `2^31` bytes under `wideBatchSize`, which `validateBatchSize` accepts:
    `Ordered` returns them in one batch of `2^32` bytes, past `PreferredMaxBytes`. -/
theorem ordered_batch_exceeds_preferredMaxBytes :
    validateBatchSize wideBatchSize = .ok () ∧
      ((({} : Receiver).ordered wideBatchSize halfEnvelope).2.ordered wideBatchSize
          halfEnvelope).1 = ([[halfEnvelope, halfEnvelope]], false) ∧
      wideBatchSize.preferredMaxBytes.toNat < sizeSum [halfEnvelope, halfEnvelope] := by
  refine ⟨by decide, ordered_ordered_wideBatchSize messageSizeBytes_halfEnvelope
    messageSizeBytes_halfEnvelope, ?_⟩
  rw [sizeSum, List.map_cons, List.map_cons, List.map_nil, messageSizeBytes_halfEnvelope]
  decide

end Fabric.Orderer
