import Mathlib

/-
  The message store of gossip (`gossip/gossip/msgstore/msgs.go`).

  The store holds messages with their creation time and an expired flag. `Add` drops the
  messages the new one invalidates, or refuses the new one if a held message invalidates it;
  `Purge` drops the messages a predicate selects; `expireMessages` marks as expired the
  messages older than the TTL and drops the expired ones older than twice the TTL. The store
  counts the expired messages it holds in `expiredCount`, and `Size()` is the number of held
  messages less that count.

  Only `expireMessages` changes `expiredCount`. It keeps the count right
  (`expireMessages_inv`), and `Add` and `Purge` never mark a message, so over every run the
  count is never below the number of expired messages held (`run_expiredHeld_le`) and
  `Size()` never exceeds `len(Get())`. When `Add` or `Purge` drops a message already marked
  expired, the count stays above it for good: `Size()` falls below `len(Get())`, and after
  the next expiry below `0` (`add_invalidating_expired_breaks_size`).

  `Add` and `Purge` cut messages out of the slice while they scan it. `addSlice` and
  `purgeSlice` are the loops as the source writes them, index by index, with the messages
  they pass to the invalidation trigger; they compute what the list loops `addLoop` and
  `filter` compute (`addSlice_eq_add`, `purgeSlice_eq_purge`). Under a consistent policy
  (`this` invalidates `that` iff `that` is invalidated by `this`, and invalidation is
  transitive) no run ever holds two messages one of which invalidates the other, and on
  such a store a refused `Add` has cut nothing: a message cut before the one that refuses
  the new message would be invalidated by that one (`messageStore_invalidation`).

  Time is a natural number of the clock's ticks, read where the source calls `time.Now()` or
  `time.Since`. The callbacks (invalidation trigger, expiry callback, external lock) do not
  change the store; `expiring` lists the messages `expireMessages` passes to its expiry
  callback, for the components whose state that callback changes. `CheckValid` only reads
  the store, so the runs of `StoreCall`s reach every store a sequence with `CheckValid`
  calls reaches.
-/

namespace Fabric.Gossip

/-- `common.InvalidationResult`: how a message affects another. -/
inductive InvalidationResult
  | messageNoAction
  | messageInvalidates
  | messageInvalidated
  deriving DecidableEq, Repr

/-- `msg`. -/
structure Msg (α : Type) where
  data : α
  created : Nat
  expired : Bool := false
  deriving DecidableEq, Repr

/-- `messageStoreImpl`, with its replacing policy. -/
structure MessageStore (α : Type) where
  pol : α → α → InvalidationResult
  messages : List (Msg α)
  msgTTL : Nat
  expiredCount : Int

section

variable {α : Type}

/-- `newMsgStore`, with the TTL of `NewMessageStoreExpirable`. -/
def newMsgStore (pol : α → α → InvalidationResult) (msgTTL : Nat) : MessageStore α :=
  { pol := pol, messages := [], msgTTL := msgTTL, expiredCount := 0 }

/-- The loop of `Add`: the held messages with those the new one invalidates dropped, and
    whether the new one is valid. At the first message that invalidates it the loop returns,
    the drops made so far kept. -/
def addLoop (pol : α → α → InvalidationResult) (message : α) :
    List (Msg α) → List (Msg α) × Bool
  | [] => ([], true)
  | m :: ms =>
    match pol message m.data with
    | .messageInvalidated => (m :: ms, false)
    | .messageInvalidates => addLoop pol message ms
    | .messageNoAction =>
      let (rest, valid) := addLoop pol message ms
      (m :: rest, valid)

/-- `Add`, at time `now`: whether the message was added, and the store after. -/
def MessageStore.add (s : MessageStore α) (message : α) (now : Nat) : Bool × MessageStore α :=
  let (messages, valid) := addLoop s.pol message s.messages
  if valid then (true, { s with messages := messages ++ [{ data := message, created := now }] })
  else (false, { s with messages := messages })

/-- `Purge`: drops the messages the predicate selects, if any. -/
def MessageStore.purge (s : MessageStore α) (shouldBePurged : α → Bool) : MessageStore α :=
  if s.messages.any (fun m => shouldBePurged m.data) then
    { s with messages := s.messages.filter (fun m => !shouldBePurged m.data) }
  else s

/-- The loop of `Add` as the source runs it over the slice `s.messages`. A message the new
    one invalidates is passed to `invTrigger` and cut out in place
    (`append(s.messages[:i], s.messages[i+1:]...)`, then `n--` and `i--`, so that the next
    pass reads the same index); a message that invalidates the new one ends the call. The
    bound `n` of the source is `len(s.messages)` throughout: it starts there and goes down
    with every cut. Returns the slice, the trigger's calls in order, and whether the loop
    ran to its end. -/
def addSliceLoop (pol : α → α → InvalidationResult) (message : α) (messages : List (Msg α))
    (i : Nat) (triggered : List α) : List (Msg α) × List α × Bool :=
  if h : i < messages.length then
    match pol message messages[i].data with
    | .messageInvalidated => (messages, triggered, false)
    | .messageInvalidates =>
      addSliceLoop pol message (messages.eraseIdx i) i (triggered ++ [messages[i].data])
    | .messageNoAction => addSliceLoop pol message messages (i + 1) triggered
  else (messages, triggered, true)
termination_by messages.length - i
decreasing_by
  · rw [List.length_eraseIdx_of_lt h]; omega
  · omega

/-- `Add` as the source runs it, at time `now`: whether the message was added, the store
    after, and the messages passed to `invTrigger`. A refused message leaves the cuts made
    before it in place. -/
def MessageStore.addSlice (s : MessageStore α) (message : α) (now : Nat) :
    Bool × MessageStore α × List α :=
  let (messages, triggered, valid) := addSliceLoop s.pol message s.messages 0 []
  if valid then
    (true, { s with messages := messages ++ [{ data := message, created := now }] }, triggered)
  else (false, { s with messages := messages }, triggered)

/-- The loop of `Purge` as the source runs it over the slice: a selected message is passed
    to `invTrigger` and cut out in place, and the next pass reads the same index. -/
def purgeSliceLoop (shouldBePurged : α → Bool) (messages : List (Msg α)) (i : Nat)
    (triggered : List α) : List (Msg α) × List α :=
  if h : i < messages.length then
    if !shouldBePurged messages[i].data then
      purgeSliceLoop shouldBePurged messages (i + 1) triggered
    else
      purgeSliceLoop shouldBePurged (messages.eraseIdx i) i (triggered ++ [messages[i].data])
  else (messages, triggered)
termination_by messages.length - i
decreasing_by
  · omega
  · rw [List.length_eraseIdx_of_lt h]; omega

/-- `Purge` as the source runs it: the store after, and the messages passed to
    `invTrigger`. `isPurgeNeeded` first checks that some message is selected. -/
def MessageStore.purgeSlice (s : MessageStore α) (shouldBePurged : α → Bool) :
    MessageStore α × List α :=
  if s.messages.any (fun m => shouldBePurged m.data) then
    let (messages, triggered) := purgeSliceLoop shouldBePurged s.messages 0 []
    ({ s with messages := messages }, triggered)
  else (s, [])

/-- `CheckValid`: no held message invalidates the message. -/
def MessageStore.checkValid (s : MessageStore α) (message : α) : Bool :=
  s.messages.all (fun m => s.pol message m.data != .messageInvalidated)

/-- `Size`. -/
def MessageStore.size (s : MessageStore α) : Int :=
  s.messages.length - s.expiredCount

/-- `Get`: the messages not marked expired. -/
def MessageStore.get (s : MessageStore α) : List α :=
  (s.messages.filter (fun m => !m.expired)).map Msg.data

/-- One message of the loop of `expireMessages`, at time `now`: the messages kept so far and
    the count. -/
def expireStep (msgTTL now : Nat) (acc : List (Msg α) × Int) (m : Msg α) : List (Msg α) × Int :=
  if !m.expired then
    if now - m.created > msgTTL then (acc.1 ++ [{ m with expired := true }], acc.2 + 1)
    else (acc.1 ++ [m], acc.2)
  else if now - m.created > msgTTL * 2 then (acc.1, acc.2 - 1)
  else (acc.1 ++ [m], acc.2)

/-- `expireMessages`, at time `now`. -/
def MessageStore.expireMessages (s : MessageStore α) (now : Nat) : MessageStore α :=
  let (messages, expiredCount) := s.messages.foldl (expireStep s.msgTTL now) ([], s.expiredCount)
  { s with messages := messages, expiredCount := expiredCount }

/-- The messages `expireMessages` marks expired at time `now` and passes to the expiry callback,
    in the store's order: those not yet marked and older than the TTL. -/
def MessageStore.expiring (s : MessageStore α) (now : Nat) : List α :=
  (s.messages.filter fun m => !m.expired && decide (now - m.created > s.msgTTL)).map Msg.data

/-- A held message, not yet marked, older than the TTL, is one the expiry passes to the
    callback. -/
theorem MessageStore.mem_expiring {s : MessageStore α} {stored : Msg α} {now : Nat}
    (hstored : stored ∈ s.messages) (hexpired : stored.expired = false)
    (hold : now - stored.created > s.msgTTL) : stored.data ∈ s.expiring now :=
  List.mem_map.mpr ⟨stored, List.mem_filter.mpr ⟨hstored, by simp [hexpired, hold]⟩, rfl⟩

/-- A call to the store. -/
inductive StoreCall (α : Type)
  | add (message : α) (now : Nat)
  | purge (shouldBePurged : α → Bool)
  | expire (now : Nat)

/-- The store after a call. -/
def MessageStore.step (s : MessageStore α) : StoreCall α → MessageStore α
  | .add message now => (s.add message now).2
  | .purge shouldBePurged => s.purge shouldBePurged
  | .expire now => s.expireMessages now

/-- The store after a sequence of calls. -/
def MessageStore.run (s : MessageStore α) : List (StoreCall α) → MessageStore α
  | [] => s
  | call :: calls => (s.step call).run calls

/-! ## The expired count -/

/-- The number of held messages marked expired. -/
def expiredHeld (messages : List (Msg α)) : Nat :=
  (messages.filter (·.expired)).length

@[simp] theorem expiredHeld_nil : expiredHeld ([] : List (Msg α)) = 0 := rfl

@[simp] theorem expiredHeld_append (l₁ l₂ : List (Msg α)) :
    expiredHeld (l₁ ++ l₂) = expiredHeld l₁ + expiredHeld l₂ := by
  simp [expiredHeld]

@[simp] theorem expiredHeld_cons (m : Msg α) (l : List (Msg α)) :
    expiredHeld (m :: l) = (if m.expired then 1 else 0) + expiredHeld l := by
  cases h : m.expired <;> simp [expiredHeld, h, Nat.add_comm]

/-- The bookkeeping the store keeps: `expiredCount` counts the expired messages held. -/
def MessageStore.Inv (s : MessageStore α) : Prop :=
  s.expiredCount = expiredHeld s.messages

/-- One message of the expiry loop adds to the count what it adds to the expired messages
    kept. -/
theorem expireStep_count (msgTTL now : Nat) (acc : List (Msg α) × Int) (m : Msg α) :
    (expireStep msgTTL now acc m).2 - expiredHeld (expireStep msgTTL now acc m).1 =
      acc.2 - expiredHeld acc.1 - (if m.expired then 1 else 0) := by
  unfold expireStep
  cases hm : m.expired
  · -- a live message: marked and counted, or kept as it is
    simp only [Bool.not_false, if_true]
    split <;> simp [hm]
  · -- an expired message: dropped and uncounted, or kept as it is
    simp only [Bool.not_true, Bool.false_eq_true, if_false]
    split <;> simp [hm] <;> omega

/-- The expiry loop keeps the difference between the count and the expired messages kept,
    less the expired messages it has passed. -/
theorem foldl_expireStep_count (msgTTL now : Nat) (l : List (Msg α)) (acc : List (Msg α) × Int) :
    (l.foldl (expireStep msgTTL now) acc).2 - expiredHeld (l.foldl (expireStep msgTTL now) acc).1 =
      acc.2 - expiredHeld acc.1 - expiredHeld l := by
  induction l generalizing acc with
  | nil => simp
  | cons m l ih =>
    rw [List.foldl_cons, ih, expireStep_count, expiredHeld_cons]
    split <;> omega

/-- `expireMessages` keeps the count right. -/
theorem expireMessages_inv {s : MessageStore α} (hs : s.Inv) (now : Nat) :
    (s.expireMessages now).Inv := by
  have h := foldl_expireStep_count s.msgTTL now s.messages ([], s.expiredCount)
  simp only [expiredHeld_nil, Int.natCast_zero, Int.sub_zero] at h
  unfold MessageStore.Inv at hs ⊢
  simp only [MessageStore.expireMessages]
  omega

/-- The loop of `Add` keeps a sublist of the held messages. -/
theorem addLoop_sublist (pol : α → α → InvalidationResult) (message : α) (l : List (Msg α)) :
    (addLoop pol message l).1.Sublist l := by
  induction l with
  | nil => exact List.Sublist.slnil
  | cons m ms ih =>
    unfold addLoop
    split
    · exact List.Sublist.refl _
    · exact ih.cons m
    · exact ih.cons_cons m

theorem expiredHeld_le_of_sublist {l₁ l₂ : List (Msg α)} (h : l₁.Sublist l₂) :
    expiredHeld l₁ ≤ expiredHeld l₂ :=
  (h.filter _).length_le

/-- `Add` leaves the count as it is and drops expired messages at most. -/
theorem add_expiredCount (s : MessageStore α) (message : α) (now : Nat) :
    (s.add message now).2.expiredCount = s.expiredCount ∧
      expiredHeld (s.add message now).2.messages ≤ expiredHeld s.messages := by
  have hsub := addLoop_sublist s.pol message s.messages
  unfold MessageStore.add
  rcases h : addLoop s.pol message s.messages with ⟨kept, valid⟩
  rw [h] at hsub
  cases valid
  · exact ⟨rfl, expiredHeld_le_of_sublist hsub⟩
  · refine ⟨rfl, ?_⟩
    simp only [if_true, expiredHeld_append, expiredHeld_cons, expiredHeld_nil]
    simpa using expiredHeld_le_of_sublist hsub

/-- `Purge` leaves the count as it is and drops expired messages at most. -/
theorem purge_expiredCount (s : MessageStore α) (shouldBePurged : α → Bool) :
    (s.purge shouldBePurged).expiredCount = s.expiredCount ∧
      expiredHeld (s.purge shouldBePurged).messages ≤ expiredHeld s.messages := by
  unfold MessageStore.purge
  split
  · exact ⟨rfl, expiredHeld_le_of_sublist List.filter_sublist⟩
  · exact ⟨rfl, Nat.le_refl _⟩

/-- No call makes the count fall below the expired messages held. -/
theorem step_expiredHeld_le {s : MessageStore α} (hs : expiredHeld s.messages ≤ s.expiredCount)
    (call : StoreCall α) :
    expiredHeld (s.step call).messages ≤ (s.step call).expiredCount := by
  cases call with
  | add message now =>
    obtain ⟨hc, hle⟩ := add_expiredCount s message now
    simp only [MessageStore.step, hc]
    omega
  | purge shouldBePurged =>
    obtain ⟨hc, hle⟩ := purge_expiredCount s shouldBePurged
    simp only [MessageStore.step, hc]
    omega
  | expire now =>
    -- the expiry loop keeps the surplus of the count over the expired messages
    have h := foldl_expireStep_count s.msgTTL now s.messages ([], s.expiredCount)
    simp only [expiredHeld_nil, Int.natCast_zero, Int.sub_zero] at h
    simp only [MessageStore.step, MessageStore.expireMessages]
    omega

/-- Over every run from a store whose count is right, the count is never below the expired
    messages held: `Size()` never exceeds `len(Get())`. -/
theorem run_expiredHeld_le (s : MessageStore α) (hs : s.Inv) (calls : List (StoreCall α)) :
    expiredHeld (s.run calls).messages ≤ (s.run calls).expiredCount ∧
      (s.run calls).size ≤ (s.run calls).get.length := by
  have hle : ∀ (t : MessageStore α), expiredHeld t.messages ≤ t.expiredCount →
      expiredHeld (t.run calls).messages ≤ (t.run calls).expiredCount := by
    induction calls with
    | nil => exact fun t ht => ht
    | cons call calls ih => exact fun t ht => ih _ (step_expiredHeld_le ht call)
  have h := hle s (Int.le_of_eq hs.symm)
  refine ⟨h, ?_⟩
  -- the held messages are the expired ones and those `Get` returns
  have hsplit : (s.run calls).messages.length =
      expiredHeld (s.run calls).messages + (s.run calls).get.length := by
    simp only [expiredHeld, MessageStore.get, List.length_map]
    exact List.length_eq_length_filter_add _
  simp only [MessageStore.size, hsplit]
  omega

end

/-! ## An expired message dropped by `Add` -/

/-- A policy that lets a greater number replace a smaller one. -/
def greaterReplaces (this that : Nat) : InvalidationResult :=
  if this > that then .messageInvalidates
  else if this < that then .messageInvalidated
  else .messageNoAction

/-- With a TTL of one tick: message `1` added at time `0` and expired at time `2`, then
    message `2` added at time `3`, which invalidates it. -/
def addAfterExpiry : Bool × MessageStore Nat :=
  (((newMsgStore greaterReplaces 1).add 1 0).2.expireMessages 2).add 2 3

/-- `Add` drops the expired message `1` without uncounting it: `Size()` is then `0` while
    `Get()` returns one message, and after message `2` expires at time `5`, `Size()` is `-1`. -/
theorem add_invalidating_expired_breaks_size :
    addAfterExpiry.1 = true ∧ addAfterExpiry.2.size = 0 ∧ addAfterExpiry.2.get = [2] ∧
      (addAfterExpiry.2.expireMessages 5).size = -1 ∧
      (addAfterExpiry.2.expireMessages 5).get = [] := by
  decide

/-! ## Invalidation over runs -/

section Invalidation

variable {α : Type}

/-- The messages the loop of `Add` passes to `invTrigger`, in order: those it drops before
    it ends. -/
def addLoopTriggered (pol : α → α → InvalidationResult) (message : α) :
    List (Msg α) → List α
  | [] => []
  | m :: ms =>
    match pol message m.data with
    | .messageInvalidated => []
    | .messageInvalidates => m.data :: addLoopTriggered pol message ms
    | .messageNoAction => addLoopTriggered pol message ms

/-- Cutting out index `i` keeps what lies before it and shifts what lies after. -/
theorem eraseIdx_take_drop {β : Type} {l : List β} {i : Nat} (h : i < l.length) :
    (l.eraseIdx i).take i = l.take i ∧ (l.eraseIdx i).drop i = l.drop (i + 1) := by
  rw [List.eraseIdx_eq_take_drop_succ]
  have hlen : (l.take i).length = i := List.length_take_of_le (by omega)
  constructor
  · rw [List.take_append_of_le_length (by omega), List.take_of_length_le (by omega)]
  · rw [List.drop_append_of_le_length (by omega), List.drop_of_length_le (by omega),
      List.nil_append]

/-- From index `i`, the loop over the slice keeps the first `i` messages and runs the loop
    of `Add` on the rest. -/
theorem addSliceLoop_eq (pol : α → α → InvalidationResult) (message : α)
    (messages : List (Msg α)) (i : Nat) (triggered : List α) (hi : i ≤ messages.length) :
    addSliceLoop pol message messages i triggered =
      (messages.take i ++ (addLoop pol message (messages.drop i)).1,
        triggered ++ addLoopTriggered pol message (messages.drop i),
        (addLoop pol message (messages.drop i)).2) := by
  induction messages, i, triggered using addSliceLoop.induct pol message with
  | case1 messages i triggered h hpol =>
    rw [addSliceLoop, dif_pos h, hpol, List.drop_eq_getElem_cons h]
    simp [addLoop, addLoopTriggered, hpol]
  | case2 messages i triggered h hpol ih =>
    obtain ⟨htake, hdrop⟩ := eraseIdx_take_drop h
    rw [addSliceLoop, dif_pos h, hpol, ih (by rw [List.length_eraseIdx_of_lt h]; omega),
      htake, hdrop, List.drop_eq_getElem_cons h]
    simp [addLoop, addLoopTriggered, hpol]
  | case3 messages i triggered h hpol ih =>
    rw [addSliceLoop, dif_pos h, hpol, ih (by omega), List.drop_eq_getElem_cons h,
      List.take_succ_eq_append_getElem h]
    simp only [addLoop, addLoopTriggered, hpol, List.append_assoc, List.singleton_append]
  | case4 messages i triggered h =>
    rw [addSliceLoop, dif_neg h]
    have hi' : i = messages.length := by omega
    subst hi'
    simp [addLoop, addLoopTriggered]

theorem purgeSliceLoop_eq (shouldBePurged : α → Bool) (messages : List (Msg α)) (i : Nat)
    (triggered : List α) (hi : i ≤ messages.length) :
    purgeSliceLoop shouldBePurged messages i triggered =
      (messages.take i ++ (messages.drop i).filter (fun m => !shouldBePurged m.data),
        triggered ++ ((messages.drop i).filter (fun m => shouldBePurged m.data)).map Msg.data) := by
  induction messages, i, triggered using purgeSliceLoop.induct shouldBePurged with
  | case1 messages i triggered h hkeep ih =>
    rw [purgeSliceLoop, dif_pos h, if_pos hkeep, ih (by omega), List.drop_eq_getElem_cons h,
      List.take_succ_eq_append_getElem h]
    simp only [Bool.not_eq_true'] at hkeep
    simp only [List.filter_cons, hkeep, Bool.not_false, if_true, List.append_assoc,
      List.singleton_append, Bool.false_eq_true, if_false]
  | case2 messages i triggered h hpurge ih =>
    obtain ⟨htake, hdrop⟩ := eraseIdx_take_drop h
    rw [purgeSliceLoop, dif_pos h, if_neg hpurge,
      ih (by rw [List.length_eraseIdx_of_lt h]; omega), htake, hdrop, List.drop_eq_getElem_cons h]
    simp only [Bool.not_eq_true', Bool.not_eq_false] at hpurge
    simp only [List.filter_cons, hpurge, Bool.not_true, Bool.false_eq_true, if_false, if_true,
      List.map_cons, List.append_assoc, List.singleton_append]
  | case3 messages i triggered h =>
    rw [purgeSliceLoop, dif_neg h]
    have hi' : i = messages.length := by omega
    subst hi'
    simp

/-- The loops over the slice compute what the list loops of the model compute. -/
theorem MessageStore.addSlice_eq_add (s : MessageStore α) (message : α) (now : Nat) :
    (s.addSlice message now).1 = (s.add message now).1 ∧
      (s.addSlice message now).2.1 = (s.add message now).2 ∧
      (s.addSlice message now).2.2 = addLoopTriggered s.pol message s.messages := by
  unfold addSlice add
  rw [addSliceLoop_eq _ _ _ 0 [] (Nat.zero_le _)]
  simp only [List.take_zero, List.drop_zero, List.nil_append]
  rcases addLoop s.pol message s.messages with ⟨kept, _ | _⟩ <;> simp

theorem MessageStore.purgeSlice_eq_purge (s : MessageStore α) (shouldBePurged : α → Bool) :
    (s.purgeSlice shouldBePurged).1 = s.purge shouldBePurged ∧
      (s.purgeSlice shouldBePurged).2 =
        (s.messages.filter (fun m => shouldBePurged m.data)).map Msg.data := by
  unfold purgeSlice purge
  split
  · rw [purgeSliceLoop_eq _ _ 0 [] (Nat.zero_le _)]
    simp
  · rename_i hnone
    simp only [Bool.not_eq_true, List.any_eq_false] at hnone
    simpa using hnone


/-- A replacing policy as `common.MessageReplacingPolicy` describes it: `this` invalidates
    `that` exactly when `that` is invalidated by `this`, and invalidation is transitive. -/
structure ConsistentPolicy (pol : α → α → InvalidationResult) : Prop where
  invalidates_iff : ∀ a b, pol a b = .messageInvalidates ↔ pol b a = .messageInvalidated
  trans : ∀ a b c, pol a b = .messageInvalidates → pol b c = .messageInvalidates →
    pol a c = .messageInvalidates

/-- No two held messages are such that one invalidates the other. -/
def NoInvalidation (pol : α → α → InvalidationResult) (messages : List (Msg α)) : Prop :=
  (messages.map Msg.data).Pairwise fun a b =>
    pol a b ≠ .messageInvalidates ∧ pol b a ≠ .messageInvalidates

theorem NoInvalidation.of_sublist {pol : α → α → InvalidationResult} {l l' : List (Msg α)}
    (h : NoInvalidation pol l) (hsub : (l'.map Msg.data).Sublist (l.map Msg.data)) :
    NoInvalidation pol l' :=
  List.Pairwise.sublist hsub h

/-- The loop of `Add` ends early exactly when a held message invalidates the new one. -/
theorem addLoop_snd_eq_false_iff (pol : α → α → InvalidationResult) (message : α)
    (l : List (Msg α)) :
    (addLoop pol message l).2 = false ↔ ∃ m ∈ l, pol message m.data = .messageInvalidated := by
  induction l with
  | nil => simp [addLoop]
  | cons m ms ih =>
    unfold addLoop
    split <;> simp_all

/-- A loop of `Add` that runs to its end drops, and reports, exactly the messages the new
    one invalidates. -/
theorem addLoop_of_valid (pol : α → α → InvalidationResult) (message : α) (l : List (Msg α))
    (hvalid : (addLoop pol message l).2 = true) :
    (addLoop pol message l).1 = l.filter (fun m => pol message m.data ≠ .messageInvalidates) ∧
      addLoopTriggered pol message l =
        (l.filter (fun m => pol message m.data = .messageInvalidates)).map Msg.data := by
  induction l with
  | nil => simp [addLoop, addLoopTriggered]
  | cons m ms ih =>
    cases hres : pol message m.data with
    | messageNoAction =>
      simp only [addLoop, hres] at hvalid
      obtain ⟨h1, h2⟩ := ih hvalid
      simp [addLoop, addLoopTriggered, hres, h1, h2]
    | messageInvalidates =>
      simp only [addLoop, hres] at hvalid
      obtain ⟨h1, h2⟩ := ih hvalid
      simp [addLoop, addLoopTriggered, hres, h1, h2]
    | messageInvalidated => simp [addLoop, hres] at hvalid

/-- Over a store with no mutual invalidation, a loop of `Add` that ends early has dropped
    nothing: a message dropped before the one that invalidates the new message would be
    invalidated by that one too. -/
theorem addLoop_of_invalid {pol : α → α → InvalidationResult} (hpol : ConsistentPolicy pol)
    (message : α) {l : List (Msg α)} (hl : NoInvalidation pol l)
    (hinvalid : (addLoop pol message l).2 = false) :
    (addLoop pol message l).1 = l ∧ addLoopTriggered pol message l = [] := by
  induction l with
  | nil => simp [addLoop] at hinvalid
  | cons m ms ih =>
    simp only [NoInvalidation, List.map_cons, List.pairwise_cons, List.mem_map] at hl
    obtain ⟨hm, hms⟩ := hl
    cases hres : pol message m.data with
    | messageNoAction =>
      simp only [addLoop, hres] at hinvalid
      obtain ⟨h1, h2⟩ := ih hms hinvalid
      simp [addLoop, addLoopTriggered, hres, h1, h2]
    | messageInvalidates =>
      -- a later message invalidates the new one, which invalidates `m`
      simp only [addLoop, hres] at hinvalid
      obtain ⟨m', hm', hinv'⟩ := (addLoop_snd_eq_false_iff pol message ms).mp hinvalid
      have h' := hpol.trans _ _ _ ((hpol.invalidates_iff _ _).mpr hinv') hres
      exact absurd h' (hm m'.data ⟨m', hm', rfl⟩).2
    | messageInvalidated => simp [addLoop, addLoopTriggered, hres]

/-- One message of the expiry loop keeps its data or drops it. -/
theorem expireStep_data (msgTTL now : Nat) (acc : List (Msg α) × Int) (m : Msg α) :
    (expireStep msgTTL now acc m).1.map Msg.data = acc.1.map Msg.data ++ [m.data] ∨
      (expireStep msgTTL now acc m).1.map Msg.data = acc.1.map Msg.data := by
  unfold expireStep
  split
  · split <;> simp
  · split <;> simp

/-- The expiry loop keeps a sublist of the data it passes. -/
theorem foldl_expireStep_data (msgTTL now : Nat) (l : List (Msg α))
    (acc : List (Msg α) × Int) :
    ∃ t, t.Sublist (l.map Msg.data) ∧
      (l.foldl (expireStep msgTTL now) acc).1.map Msg.data = acc.1.map Msg.data ++ t := by
  induction l generalizing acc with
  | nil => exact ⟨[], List.Sublist.slnil, by simp⟩
  | cons m l ih =>
    obtain ⟨t, ht, heq⟩ := ih (expireStep msgTTL now acc m)
    rw [List.foldl_cons, heq]
    rcases expireStep_data msgTTL now acc m with h | h <;> rw [h]
    · exact ⟨m.data :: t, ht.cons_cons _, by simp⟩
    · exact ⟨t, ht.cons _, rfl⟩

theorem MessageStore.purge_messages (s : MessageStore α) (shouldBePurged : α → Bool) :
    (s.purge shouldBePurged).messages = s.messages.filter (fun m => !shouldBePurged m.data) := by
  unfold purge
  split
  · rfl
  · rename_i hnone
    simp only [Bool.not_eq_true, List.any_eq_false] at hnone
    exact (List.filter_eq_self.mpr (by simpa using hnone)).symm

theorem MessageStore.step_pol (s : MessageStore α) (call : StoreCall α) :
    (s.step call).pol = s.pol := by
  cases call with
  | add message now => simp only [step, add]; split <;> rfl
  | purge shouldBePurged => simp only [step, purge]; split <;> rfl
  | expire now => rfl

/-- `Add` keeps the store free of mutual invalidation: the messages it keeps are held ones,
    and the new message neither invalidates them (those are dropped) nor is invalidated by
    them (else it is refused). -/
theorem MessageStore.add_noInvalidation {s : MessageStore α} (hpol : ConsistentPolicy s.pol)
    (hs : NoInvalidation s.pol s.messages) (message : α) (now : Nat) :
    NoInvalidation s.pol (s.add message now).2.messages := by
  have hsub := (addLoop_sublist s.pol message s.messages).map Msg.data
  have hvalid := addLoop_snd_eq_false_iff s.pol message s.messages
  have hkept := addLoop_of_valid s.pol message s.messages
  unfold add
  rcases h : addLoop s.pol message s.messages with ⟨kept, _ | _⟩
  · rw [h] at hsub
    exact hs.of_sublist hsub
  · rw [h] at hsub hvalid hkept
    simp only [if_true, NoInvalidation, List.map_append, List.map_cons, List.map_nil,
      List.pairwise_append, List.pairwise_singleton, List.mem_singleton]
    refine ⟨hs.of_sublist hsub, trivial, ?_⟩
    rintro a ha b rfl
    obtain ⟨m, hm, rfl⟩ := List.mem_map.mp ha
    have hk := (hkept rfl).1
    simp only at hk
    rw [hk, List.mem_filter, decide_eq_true_iff] at hm
    refine ⟨fun hinv => ?_, hm.2⟩
    -- the held message would invalidate the new one, which `Add` then refuses
    have := (hpol.invalidates_iff _ _).mp hinv
    simp only [Bool.true_eq_false, false_iff, not_exists, not_and] at hvalid
    exact hvalid m hm.1 this

theorem MessageStore.step_noInvalidation {s : MessageStore α} (hpol : ConsistentPolicy s.pol)
    (hs : NoInvalidation s.pol s.messages) (call : StoreCall α) :
    NoInvalidation (s.step call).pol (s.step call).messages := by
  rw [step_pol]
  cases call with
  | add message now => exact add_noInvalidation hpol hs message now
  | purge shouldBePurged =>
    simp only [step, purge_messages]
    exact hs.of_sublist (List.filter_sublist.map Msg.data)
  | expire now =>
    obtain ⟨t, ht, heq⟩ := foldl_expireStep_data s.msgTTL now s.messages ([], s.expiredCount)
    simp only [List.map_nil, List.nil_append] at heq
    simp only [step, expireMessages]
    exact hs.of_sublist (heq ▸ ht)

theorem MessageStore.run_noInvalidation {s : MessageStore α} (hpol : ConsistentPolicy s.pol)
    (hs : NoInvalidation s.pol s.messages) (calls : List (StoreCall α)) :
    (s.run calls).pol = s.pol ∧ NoInvalidation s.pol (s.run calls).messages := by
  induction calls generalizing s with
  | nil => exact ⟨rfl, hs⟩
  | cons call calls ih =>
    have hstep := step_noInvalidation hpol hs call
    have hpol' := step_pol s call
    rw [hpol'] at hstep
    obtain ⟨h1, h2⟩ := ih (hpol' ▸ hpol) (hpol' ▸ hstep)
    exact ⟨h1.trans hpol', hpol' ▸ h2⟩

theorem MessageStore.checkValid_eq_false_iff (s : MessageStore α) (message : α) :
    s.checkValid message = false ↔
      ∃ m ∈ s.messages, s.pol message m.data = .messageInvalidated := by
  simp [checkValid]

/-- `Add` refuses a message exactly when `CheckValid` does. -/
theorem MessageStore.addSlice_eq_false_iff (s : MessageStore α) (message : α) (now : Nat) :
    (s.addSlice message now).1 = false ↔ s.checkValid message = false := by
  rw [(s.addSlice_eq_add message now).1, checkValid_eq_false_iff,
    ← addLoop_snd_eq_false_iff]
  unfold add
  rcases addLoop s.pol message s.messages with ⟨kept, _ | _⟩ <;> simp

/-- On a store with no mutual invalidation, a refused message leaves the messages as they
    are and triggers nothing. -/
theorem MessageStore.addSlice_of_refused {s : MessageStore α} (hpol : ConsistentPolicy s.pol)
    (hs : NoInvalidation s.pol s.messages) (message : α) (now : Nat)
    (hrefused : (s.addSlice message now).1 = false) :
    (s.addSlice message now).2.1.messages = s.messages ∧ (s.addSlice message now).2.2 = [] := by
  obtain ⟨hvalid, hstore, htrig⟩ := s.addSlice_eq_add message now
  have hdrop := addLoop_of_invalid hpol message hs
  rw [hvalid] at hrefused
  rw [hstore, htrig]
  unfold add at hrefused ⊢
  rcases h : addLoop s.pol message s.messages with ⟨kept, _ | _⟩
  · rw [h] at hdrop
    obtain ⟨h1, h2⟩ := hdrop rfl
    simp only at h1
    simp [h1, h2]
  · simp [h] at hrefused

/-- An added message drops and triggers exactly the held messages it invalidates, and goes
    last. -/
theorem MessageStore.addSlice_of_added (s : MessageStore α) (message : α) (now : Nat)
    (hadded : (s.addSlice message now).1 = true) :
    (s.addSlice message now).2.1.messages =
        s.messages.filter (fun m => s.pol message m.data ≠ .messageInvalidates) ++
          [{ data := message, created := now }] ∧
      (s.addSlice message now).2.2 =
        (s.messages.filter (fun m => s.pol message m.data = .messageInvalidates)).map Msg.data := by
  obtain ⟨hvalid, hstore, htrig⟩ := s.addSlice_eq_add message now
  have hkept := addLoop_of_valid s.pol message s.messages
  rw [hvalid] at hadded
  rw [hstore, htrig]
  unfold add at hadded ⊢
  rcases h : addLoop s.pol message s.messages with ⟨kept, _ | _⟩
  · simp [h] at hadded
  · rw [h] at hkept
    obtain ⟨h1, h2⟩ := hkept rfl
    simp only at h1
    simp [h1, h2]

/-- `Purge` drops and triggers exactly the messages the predicate selects, in order. -/
theorem MessageStore.purgeSlice_spec (s : MessageStore α) (shouldBePurged : α → Bool) :
    (s.purgeSlice shouldBePurged).1.messages =
        s.messages.filter (fun m => !shouldBePurged m.data) ∧
      (s.purgeSlice shouldBePurged).2 =
        (s.messages.filter (fun m => shouldBePurged m.data)).map Msg.data := by
  obtain ⟨hpurge, hptrig⟩ := s.purgeSlice_eq_purge shouldBePurged
  exact ⟨by rw [hpurge, purge_messages], hptrig⟩

/-- The policy that lets a greater number replace a smaller one is consistent. -/
theorem greaterReplaces_consistent : ConsistentPolicy greaterReplaces where
  invalidates_iff a b := by
    unfold greaterReplaces
    split_ifs <;> simp
    all_goals omega
  trans a b c := by
    unfold greaterReplaces
    split_ifs <;> simp
    all_goals omega

end Invalidation

end Fabric.Gossip
