import Mathlib

/-
  Block delivery (`common/deliver/deliver.go`, `Handler.deliverBlocks`) over a file ledger
  (`common/ledger/blockledger/fileledger/impl.go`, `FileLedger.Iterator`).

  The ledger resolves the start position of a request to a block number and an iterator over
  the blocks from there; the handler resolves the stop position to a number itself, and then
  sends block after block until it sends the one numbered as the stop. Only a specified stop
  is checked against the start.

  The ledger may grow while the handler runs: `heights i` is its height when the handler makes
  its `i`-th pass through the loop, and the iterator's `Next` waits while the block it is to
  return is not there yet. A run is cut after `fuel` passes; `running` is a handler still in
  its loop (or waiting in `Next`). Block `b` of the ledger is numbered `b`.

  Proved: the blocks sent are consecutive from the start, none is the stop but the last, and
  the handler returns `SUCCESS` right after sending the stop (`deliverLoop_consecutive`). So
  with the stop at or after the start, nothing past the stop is sent
  (`deliverBlocks_sent_le_stop`), and once the ledger holds the stop, the handler returns
  `SUCCESS` with exactly the blocks from start to stop (`deliverBlocks_success`). With the stop
  before the start, which a newest stop allows, the handler never returns: from a `NextCommit`
  start and a `Newest` stop it sends every block the ledger gets
  (`deliverBlocks_nextCommit_newest_runs`).

  Access control, the context, the consenter's error channel, the content type of the blocks
  sent and send errors are left out: the request is authorised and every send succeeds.
-/

namespace Fabric.Deliver

/-- `ab.SeekPosition`, by the type it holds. -/
inductive SeekPosition
  | newest
  | oldest
  | specified (number : UInt64)
  | nextCommit
  deriving DecidableEq, Repr

/-- `ab.SeekInfo_SeekBehavior`. -/
inductive SeekBehavior
  | blockUntilReady
  | failIfNotReady
  deriving DecidableEq, Repr

/-- `ab.SeekInfo`; a nil position is `none`. -/
structure SeekInfo where
  start : Option SeekPosition
  stop : Option SeekPosition
  behavior : SeekBehavior := .blockUntilReady
  deriving DecidableEq, Repr

/-- The `cb.Status` codes `deliverBlocks` returns here. -/
inductive Status
  | success
  | badRequest
  | notFound
  deriving DecidableEq, Repr

/-- What the ledger's block store reports: its height, the last block of the snapshot it was
    bootstrapped from, and the first block its files can serve. -/
structure LedgerInfo where
  height : UInt64
  lastBlockInSnapshot : Option UInt64 := none
  firstPossibleBlockNumber : UInt64 := 0
  deriving DecidableEq, Repr

/-- `FileLedger.Iterator`: the number of the first block its iterator serves, or `none` for the
    `NotFoundErrorIterator`. -/
def LedgerInfo.iterator (fl : LedgerInfo) (startPosition : SeekPosition) : Option UInt64 :=
  let startingBlockNumber : Option UInt64 :=
    match startPosition with
    | .oldest => some 0
    | .newest =>
      let newestBlockNumber := fl.height - 1
      -- a ledger bootstrapped from a snapshot holds no block at the snapshot's last number
      if fl.lastBlockInSnapshot = some newestBlockNumber then some fl.height
      else some newestBlockNumber
    | .specified number => if number > fl.height then none else some number
    | .nextCommit => some fl.height
  match startingBlockNumber with
  | none => none
  -- `RetrieveBlocks` fails before the first block of the files
  | some n => if n < fl.firstPossibleBlockNumber then none else some n

/-- The stop number `deliverBlocks` resolves from the start number, or `none` when it answers
    `BAD_REQUEST`. A stop of type `NextCommit` leaves `stopNum` at `0`. -/
def resolveStop (fl : LedgerInfo) (start stop : SeekPosition) (number : UInt64) :
    Option UInt64 :=
  match stop with
  | .oldest => some number
  | .newest =>
    -- seeking only the newest block does not reevaluate the height
    if start = stop then some number else some (fl.height - 1)
  | .specified stopNum => if stopNum < number then none else some stopNum
  | .nextCommit => some 0

/-- The result of a run: a status returned, or the handler still running. -/
inductive Outcome
  | returned (status : Status)
  | running
  deriving DecidableEq, Repr

/-- The loop of `deliverBlocks` from its `i`-th pass, with the block the cursor returns next
    (`none` for the `NotFoundErrorIterator`) and `number`: the blocks sent, and the outcome. -/
def deliverLoop (behavior : SeekBehavior) (stopNum : UInt64) (heights : Nat → UInt64) :
    (fuel i : Nat) → Option UInt64 → UInt64 → List UInt64 × Outcome
  | 0, _, _, _ => ([], .running)
  | fuel + 1, i, cursor, number =>
    if behavior = .failIfNotReady ∧ number > heights i - 1 then ([], .returned .notFound)
    else
      match cursor with
      | none => ([], .returned .notFound)
      | some b =>
        -- `Next` waits until the ledger holds the block
        if b < heights i then
          if stopNum = b then ([b], .returned .success)
          else
            let (sent, outcome) :=
              deliverLoop behavior stopNum heights fuel (i + 1) (some (b + 1)) (number + 1)
            (b :: sent, outcome)
        else ([], .running)

/-- `deliverBlocks`, for an authorised request: the blocks sent, and the outcome. -/
def deliverBlocks (fl : LedgerInfo) (seekInfo : SeekInfo) (heights : Nat → UInt64)
    (fuel : Nat) : List UInt64 × Outcome :=
  match seekInfo.start, seekInfo.stop with
  | some start, some stop =>
    let cursor := fl.iterator start
    let number := cursor.getD 0
    match resolveStop fl start stop number with
    | none => ([], .returned .badRequest)
    | some stopNum => deliverLoop seekInfo.behavior stopNum heights fuel 0 cursor number
  | _, _ => ([], .returned .badRequest)

/-! ## The loop -/

section Loop

variable {behavior : SeekBehavior} {stopNum : UInt64} {heights : Nat → UInt64}

theorem toUInt64_succ (j : Nat) : (j + 1).toUInt64 = j.toUInt64 + 1 := by
  simp [Nat.toUInt64_eq, UInt64.ofNat_add]

theorem add_succ_toUInt64 (b : UInt64) (j : Nat) :
    b + (j + 1).toUInt64 = b + 1 + j.toUInt64 := by
  rw [toUInt64_succ]
  ac_rfl

/-- Below `2^64` the block `j` places past `b` is numbered `b + j`. -/
theorem toNat_add_toUInt64 (b : UInt64) {j : Nat} (h : b.toNat + j < 2 ^ 64) :
    (b + j.toUInt64).toNat = b.toNat + j := by
  rw [UInt64.toNat_add, UInt64.toNat_ofNat', Nat.mod_eq_of_lt (by omega : j < 2 ^ 64),
    Nat.mod_eq_of_lt h]

/-- Between `s` and `t` there are `t - s` blocks. -/
theorem add_toUInt64_sub {s t : UInt64} (hst : s.toNat ≤ t.toNat) :
    s + (t.toNat - s.toNat).toUInt64 = t := by
  have ht64 := UInt64.toNat_lt t
  apply UInt64.toNat_inj.mp
  rw [toNat_add_toUInt64 s (by omega)]
  omega

/-- The first `k + 1` blocks from `b` are `b` and the first `k` from `b + 1`. -/
theorem map_range_succ_add (b : UInt64) (k : Nat) :
    (List.range (k + 1)).map (fun j => b + j.toUInt64) =
      b :: (List.range k).map (fun j => b + 1 + j.toUInt64) := by
  rw [List.range_succ_eq_map, List.map_cons, List.map_map]
  simp only [Function.comp_def, add_succ_toUInt64]
  congr 1
  simp [Nat.toUInt64_eq]

/-- The blocks the loop sends are consecutive from the cursor's, none of them the stop but the
    last, and it returns `SUCCESS` only right after sending the stop. -/
theorem deliverLoop_consecutive :
    ∀ (fuel i : Nat) (b number : UInt64), ∃ k,
      (deliverLoop behavior stopNum heights fuel i (some b) number).1 =
          (List.range k).map (fun j => b + j.toUInt64) ∧
        ((deliverLoop behavior stopNum heights fuel i (some b) number).2 = .returned .success →
          0 < k ∧ stopNum = b + (k - 1).toUInt64) ∧
        ∀ j, j + 1 < k → stopNum ≠ b + j.toUInt64
  | 0, _, _, _ => ⟨0, rfl, by simp [deliverLoop], by simp⟩
  | fuel + 1, i, b, number => by
    unfold deliverLoop
    split
    · exact ⟨0, rfl, by simp, by simp⟩
    · dsimp only
      split
      · split
        · -- the stop is sent: the loop returns
          next hstop => exact ⟨1, by simp, fun _ => ⟨by omega, by simp [hstop]⟩, by simp⟩
        · next hstop =>
          obtain ⟨k, hsent, hsucc, hne⟩ :=
            deliverLoop_consecutive fuel (i + 1) (b + 1) (number + 1)
          refine ⟨k + 1, by rw [hsent, map_range_succ_add], ?_, ?_⟩
          · intro h
            obtain ⟨hk, hs⟩ := hsucc h
            refine ⟨by omega, ?_⟩
            rw [hs, show k + 1 - 1 = (k - 1) + 1 by omega, add_succ_toUInt64]
          · intro j hj
            cases j with
            | zero => simpa using hstop
            | succ j => rw [add_succ_toUInt64]; exact hne j (by omega)
      · exact ⟨0, rfl, by simp, by simp⟩

/-- A pass that finds the cursor's block in the ledger, and it is not the stop, sends it and
    carries on from the next block. -/
theorem deliverLoop_send {fuel i : Nat} {b number : UInt64} (hb : b < heights i)
    (hne : stopNum ≠ b) :
    deliverLoop .blockUntilReady stopNum heights (fuel + 1) i (some b) number =
      (b :: (deliverLoop .blockUntilReady stopNum heights fuel (i + 1) (some (b + 1))
          (number + 1)).1,
        (deliverLoop .blockUntilReady stopNum heights fuel (i + 1) (some (b + 1))
          (number + 1)).2) := by
  rw [deliverLoop, if_neg (by simp), if_pos hb, if_neg hne]

/-- A pass that does not find the cursor's block in the ledger waits. -/
theorem deliverLoop_wait {fuel i : Nat} {b number : UInt64} (hb : ¬b < heights i) :
    deliverLoop .blockUntilReady stopNum heights (fuel + 1) i (some b) number = ([], .running) := by
  rw [deliverLoop, if_neg (by simp), if_neg hb]

/-- A loop that finds each of its next `fuel` blocks in the ledger, none of them the stop,
    sends them all and is still running. -/
theorem deliverLoop_present :
    ∀ (fuel i : Nat) (b number : UInt64),
      (∀ j < fuel, b + j.toUInt64 < heights (i + j)) → (∀ j < fuel, stopNum ≠ b + j.toUInt64) →
      deliverLoop .blockUntilReady stopNum heights fuel i (some b) number =
        ((List.range fuel).map (fun j => b + j.toUInt64), .running)
  | 0, _, _, _, _, _ => rfl
  | fuel + 1, i, b, number, hpresent, hnostop => by
    have h0 : b < heights i := by simpa using hpresent 0 (by omega)
    have hs0 : stopNum ≠ b := by simpa using hnostop 0 (by omega)
    -- the rest of the run starts one block further on
    have hrest := deliverLoop_present fuel (i + 1) (b + 1) (number + 1)
      (fun j hj => by
        rw [← add_succ_toUInt64, show i + 1 + j = i + (j + 1) by omega]
        exact hpresent (j + 1) (by omega))
      (fun j hj => by rw [← add_succ_toUInt64]; exact hnostop (j + 1) (by omega))
    rw [deliverLoop_send h0 hs0, hrest, map_range_succ_add]

/-- A loop that finds its next blocks in the ledger up to the stop, `k` blocks on, sends them
    and returns `SUCCESS`, given the passes to get there. -/
theorem deliverLoop_reaches :
    ∀ (k fuel i : Nat) (b number : UInt64), k < fuel →
      (∀ j ≤ k, b + j.toUInt64 < heights (i + j)) → (∀ j < k, stopNum ≠ b + j.toUInt64) →
      stopNum = b + k.toUInt64 →
      deliverLoop .blockUntilReady stopNum heights fuel i (some b) number =
        ((List.range (k + 1)).map (fun j => b + j.toUInt64), .returned .success)
  | _, 0, _, _, _, hk, _, _, _ => absurd hk (Nat.not_lt_zero _)
  | 0, fuel + 1, i, b, number, _, hpresent, _, hstop => by
    have h0 : b < heights i := by simpa using hpresent 0 (Nat.le_refl 0)
    rw [deliverLoop, if_neg (by simp), if_pos h0, if_pos (by simpa using hstop)]
    simp [Nat.toUInt64_eq]
  | k + 1, fuel + 1, i, b, number, hk, hpresent, hnostop, hstop => by
    have h0 : b < heights i := by simpa using hpresent 0 (by omega)
    have hs0 : stopNum ≠ b := by simpa using hnostop 0 (by omega)
    have hrest := deliverLoop_reaches k fuel (i + 1) (b + 1) (number + 1) (by omega)
      (fun j hj => by
        rw [← add_succ_toUInt64, show i + 1 + j = i + (j + 1) by omega]
        exact hpresent (j + 1) (by omega))
      (fun j hj => by rw [← add_succ_toUInt64]; exact hnostop (j + 1) (by omega))
      (by rw [hstop, add_succ_toUInt64])
    rw [deliverLoop_send h0 hs0, hrest, map_range_succ_add b (k + 1)]

/-- A loop whose stop comes before its cursor never returns, whatever the ledger does. -/
theorem deliverLoop_running_of_lt :
    ∀ (fuel i : Nat) (b number : UInt64), stopNum.toNat < b.toNat → b.toNat + fuel < 2 ^ 64 →
      (deliverLoop .blockUntilReady stopNum heights fuel i (some b) number).2 = .running
  | 0, _, _, _, _, _ => rfl
  | fuel + 1, i, b, number, hlt, hwrap => by
    have hne : stopNum ≠ b := fun h => by rw [h] at hlt; omega
    have hb1 : (b + 1).toNat = b.toNat + 1 := by
      simpa using toNat_add_toUInt64 b (show b.toNat + 1 < 2 ^ 64 by omega)
    by_cases hb : b < heights i
    · rw [deliverLoop_send hb hne]
      exact deliverLoop_running_of_lt fuel (i + 1) (b + 1) (number + 1) (by omega) (by omega)
    · rw [deliverLoop_wait hb]

end Loop

/-! ## Requests -/

/-- A request with both positions, whose start the ledger serves: `deliverBlocks` runs the loop
    from the start with the stop it resolves. -/
theorem deliverBlocks_eq {fl : LedgerInfo} {seekInfo : SeekInfo} {start stop : SeekPosition}
    (hstart : seekInfo.start = some start) (hstop : seekInfo.stop = some stop) {s t : UInt64}
    (hs : fl.iterator start = some s) (ht : resolveStop fl start stop s = some t)
    (heights : Nat → UInt64) (fuel : Nat) :
    deliverBlocks fl seekInfo heights fuel =
      deliverLoop seekInfo.behavior t heights fuel 0 (some s) s := by
  simp [deliverBlocks, hstart, hstop, hs, ht]

/-- With the stop at or after the start, the blocks sent run from the start and none is past the
    stop; `SUCCESS` comes exactly when the stop has been sent. -/
theorem deliverBlocks_sent_le_stop {fl : LedgerInfo} {seekInfo : SeekInfo}
    {start stop : SeekPosition} (hstart : seekInfo.start = some start)
    (hstop : seekInfo.stop = some stop) {s t : UInt64} (hs : fl.iterator start = some s)
    (ht : resolveStop fl start stop s = some t) (hst : s.toNat ≤ t.toNat)
    (heights : Nat → UInt64) (fuel : Nat) :
    ∃ k, (deliverBlocks fl seekInfo heights fuel).1 =
        (List.range k).map (fun j => s + j.toUInt64) ∧ k ≤ t.toNat - s.toNat + 1 ∧
      ((deliverBlocks fl seekInfo heights fuel).2 = .returned .success →
        k = t.toNat - s.toNat + 1) := by
  rw [deliverBlocks_eq hstart hstop hs ht]
  obtain ⟨k, hsent, hsucc, hne⟩ := @deliverLoop_consecutive seekInfo.behavior t heights fuel 0 s s
  have ht64 := UInt64.toNat_lt t
  -- no block past the stop: the stop, `t - s` blocks on, would have ended the run
  have hk : k ≤ t.toNat - s.toNat + 1 := by
    by_contra hk
    exact hne (t.toNat - s.toNat) (by omega) (add_toUInt64_sub hst).symm
  refine ⟨k, hsent, hk, fun h => ?_⟩
  obtain ⟨hk0, hstopk⟩ := hsucc h
  have hk1 := congrArg UInt64.toNat hstopk
  rw [toNat_add_toUInt64 s (by omega)] at hk1
  omega

/-- Once the ledger holds the stop, a request whose stop is at or after its start returns
    `SUCCESS` with exactly the blocks from the start to the stop, given the passes to send them. -/
theorem deliverBlocks_success {fl : LedgerInfo} {seekInfo : SeekInfo}
    {start stop : SeekPosition} (hstart : seekInfo.start = some start)
    (hstop : seekInfo.stop = some stop) {s t : UInt64} (hs : fl.iterator start = some s)
    (ht : resolveStop fl start stop s = some t) (hst : s.toNat ≤ t.toNat)
    (hbehavior : seekInfo.behavior = .blockUntilReady) {heights : Nat → UInt64}
    (hheld : ∀ i, t < heights i) {fuel : Nat} (hfuel : t.toNat - s.toNat < fuel) :
    deliverBlocks fl seekInfo heights fuel =
      ((List.range (t.toNat - s.toNat + 1)).map (fun j => s + j.toUInt64), .returned .success) := by
  have ht64 := UInt64.toNat_lt t
  rw [deliverBlocks_eq hstart hstop hs ht, hbehavior]
  apply deliverLoop_reaches (t.toNat - s.toNat) fuel 0 s s hfuel
  · -- every block up to the stop is below the height
    intro j hj
    have hheld' := UInt64.lt_iff_toNat_lt.mp (hheld (0 + j))
    rw [UInt64.lt_iff_toNat_lt, toNat_add_toUInt64 s (by omega)]
    omega
  · intro j hj hstopj
    have := congrArg UInt64.toNat hstopj
    rw [toNat_add_toUInt64 s (by omega)] at this
    omega
  · exact (add_toUInt64_sub hst).symm

/-- A request whose stop comes before its start never returns, whatever the ledger does. -/
theorem deliverBlocks_running_of_stop_lt {fl : LedgerInfo} {seekInfo : SeekInfo}
    {start stop : SeekPosition} (hstart : seekInfo.start = some start)
    (hstop : seekInfo.stop = some stop) {s t : UInt64} (hs : fl.iterator start = some s)
    (ht : resolveStop fl start stop s = some t) (hts : t.toNat < s.toNat)
    (hbehavior : seekInfo.behavior = .blockUntilReady) (heights : Nat → UInt64) {fuel : Nat}
    (hwrap : s.toNat + fuel < 2 ^ 64) :
    (deliverBlocks fl seekInfo heights fuel).2 = .running := by
  rw [deliverBlocks_eq hstart hstop hs ht, hbehavior]
  exact deliverLoop_running_of_lt fuel 0 s s hts hwrap

/-- A request for the blocks from the next commit to the newest. -/
def nextCommitToNewest : SeekInfo :=
  { start := some .nextCommit, stop := some .newest }

/-- From a `NextCommit` start to a `Newest` stop, the stop resolves to the block before the
    start, and the handler never returns: it sends every block the ledger gets. -/
theorem deliverBlocks_nextCommit_newest_runs (fl : LedgerInfo) (hH : 1 ≤ fl.height.toNat)
    (hfirst : fl.firstPossibleBlockNumber ≤ fl.height) :
    fl.iterator .nextCommit = some fl.height ∧
      resolveStop fl .nextCommit .newest fl.height = some (fl.height - 1) ∧
      (∀ heights fuel, fl.height.toNat + fuel < 2 ^ 64 →
        (deliverBlocks fl nextCommitToNewest heights fuel).2 = .running) ∧
      ∀ n, fl.height.toNat + n < 2 ^ 64 →
        deliverBlocks fl nextCommitToNewest (fun _ => fl.height + n.toUInt64) n =
          ((List.range n).map (fun j => fl.height + j.toUInt64), .running) := by
  have hs : fl.iterator .nextCommit = some fl.height := by
    simp [LedgerInfo.iterator, UInt64.not_lt.mpr hfirst]
  have ht : resolveStop fl .nextCommit .newest fl.height = some (fl.height - 1) := by
    simp [resolveStop]
  have hsub : (fl.height - 1).toNat = fl.height.toNat - 1 := by
    rw [UInt64.toNat_sub_of_le _ _ (UInt64.le_iff_toNat_le.mpr (by simpa using hH))]
    simp
  refine ⟨hs, ht, fun heights fuel hwrap => ?_, fun n hwrap => ?_⟩
  · exact deliverBlocks_running_of_stop_lt rfl rfl hs ht (by omega) rfl heights hwrap
  · -- the ledger already holds the `n` blocks the passes can send
    rw [deliverBlocks_eq rfl rfl hs ht]
    apply deliverLoop_present n 0 fl.height fl.height
    · intro j hj
      rw [UInt64.lt_iff_toNat_lt, toNat_add_toUInt64 _ (by omega), toNat_add_toUInt64 _ hwrap]
      omega
    · intro j hj hstopj
      have := congrArg UInt64.toNat hstopj
      rw [toNat_add_toUInt64 _ (by omega), hsub] at this
      omega

theorem deliverBlocks_nextCommit_newest_runs_height_five :
    1 ≤ (5 : UInt64).toNat ∧ (0 : UInt64) ≤ 5 ∧
      (({ height := 5 } : LedgerInfo).iterator .nextCommit = some 5 ∧
        resolveStop { height := 5 } .nextCommit .newest 5 = some 4 ∧
        (∀ heights fuel, (5 : UInt64).toNat + fuel < 2 ^ 64 →
          (deliverBlocks { height := 5 } nextCommitToNewest heights fuel).2 = .running) ∧
        ∀ n, (5 : UInt64).toNat + n < 2 ^ 64 →
          deliverBlocks { height := 5 } nextCommitToNewest (fun _ => 5 + n.toUInt64) n =
            ((List.range n).map (fun j => 5 + j.toUInt64), .running)) :=
  ⟨by decide, by decide, deliverBlocks_nextCommit_newest_runs { height := 5 } (by decide) (by decide)⟩

end Fabric.Deliver
