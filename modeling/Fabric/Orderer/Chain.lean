import Fabric.Orderer.BlockCutter
import Fabric.Orderer.BlockCreator

/-
  How the leader of an etcdraft chain orders the requests it is sent
  (`orderer/consensus/etcdraft/chain.go`: `ordered`, `isConfig`, `propose` and the loop of
  `run` that calls them).

  `ordered` reads the request's channel header. A config message is revalidated by
  `ProcessConfigMsg` if the config sequence advanced since it was validated; unless it evicts or
  rotates a consenter, in which case it is forwarded to the next leader, the block cutter's
  pending batch is cut and the message follows in a batch of its own. A normal message is
  revalidated by `ProcessNormalMsg` if the sequence advanced, and passed to the block cutter's
  `Ordered`. On the leader, each request is ordered with the chain as it is at that time, and
  the batch timer may cut the pending batch between requests; `propose` makes one block of each
  batch.

  Proved, for every sequence of requests and timer expiries from a block cutter that holds no
  config message (`leaderRun_isolates_config`): every batch has messages; a CONFIG envelope is
  alone in its batch, so its block has one transaction; the batches and then the pending batch
  are the accepted messages in arrival order, config messages in the form they are ordered in;
  and a message validated against an older config sequence is ordered only as its revalidation
  allows. The invariant that carries this is that the block cutter never holds a config message
  (`CutterInv`).

  The config processors, the config sequence, the batch size and the eviction check change as
  config blocks commit; each request carries the values it is ordered with. The abdication and
  forwarding that follow an eviction, metrics and logging are left out.
-/

namespace Fabric.Orderer

open Fabric.Protoutil
open Fabric.Ledger (Bytes)

/-- `orderer.SubmitRequest`: the fields `ordered` reads. -/
structure SubmitRequest where
  lastValidationSeq : UInt64
  payload : Envelope

/-- What a call of `ordered` reads of the chain: the support's config sequence and message
    processors, the `BatchSize` its block cutter reads, and `checkForEvictionNCertRotation`. -/
structure Chain where
  sequence : UInt64
  processConfigMsg : Envelope → Except String (Envelope × UInt64)
  processNormalMsg : Envelope → Except String UInt64
  batchSize : BatchSize
  checkForEvictionNCertRotation : Envelope → Bool

/-- The errors of `ordered`, with the data each message prints. -/
inductive OrderedError
  /-- "bad message: %s" -/
  | badMessage (err : ChannelHeaderError)
  /-- "bad config message: %s" -/
  | badConfigMessage (err : String)
  /-- "bad normal message: %s" -/
  | badNormalMessage (err : String)

/-- `isConfig`: whether the envelope's channel header is of type CONFIG. -/
def isConfig (env : Envelope) : Except ChannelHeaderError Bool := do
  let h ← channelHeader env
  return h.type == headerTypeConfig

/-- `ordered`: the batches to propose, whether messages are left pending, and the block cutter
    after the call. The `pending` flag Go returns beside an error is not read by the caller. -/
def Chain.ordered (c : Chain) (r : Receiver) (msg : SubmitRequest) :
    Except OrderedError ((List (List Envelope) × Bool) × Receiver) := do
  let seq := c.sequence
  let isconfig ← (isConfig msg.payload).mapError .badMessage
  if isconfig then
    let payload ← if msg.lastValidationSeq < seq then
        Prod.fst <$> (c.processConfigMsg msg.payload).mapError .badConfigMessage
      else pure msg.payload
    if c.checkForEvictionNCertRotation payload then
      -- forwarded to the next leader once this one abdicates, outside `ordered`
      return (([], false), r)
    let (batch, r) := r.cut
    let batches := if batch.length ≠ 0 then [batch] else []
    return ((batches ++ [[payload]], false), r)
  else
    if msg.lastValidationSeq < seq then
      discard <| (c.processNormalMsg msg.payload).mapError .badNormalMessage
    return r.ordered c.batchSize msg.payload

/-- An event of the leader's loop in `run` that reaches the block cutter. -/
inductive LeaderEvent
  /-- A request from `submitC`, ordered with the chain as it is at that time. -/
  | submit (c : Chain) (req : SubmitRequest)
  /-- The batch timer expires. -/
  | timer

/-- The batches the leader proposes on one event, and the block cutter after it. A request that
    `ordered` rejects is dropped; on a timer the pending batch is cut and proposed if it has
    messages. -/
def leaderStep (r : Receiver) : LeaderEvent → List (List Envelope) × Receiver
  | .submit c req =>
    match c.ordered r req with
    | .error _ => ([], r)
    | .ok ((batches, _), r') => (batches, r')
  | .timer =>
    let (batch, r') := r.cut
    if batch.length = 0 then ([], r') else ([batch], r')

/-- The batches proposed over a sequence of events, in order, and the block cutter after them. -/
def leaderRun (r : Receiver) : List LeaderEvent → List (List Envelope) × Receiver
  | [] => ([], r)
  | e :: es =>
    let (batches, r') := leaderStep r e
    let (rest, r'') := leaderRun r' es
    (batches ++ rest, r'')

/-! ## What the leader accepts -/

/-- The form in which the leader orders a request, or none if it does not: a request whose
    channel header cannot be read, or whose revalidation against an advanced config sequence
    fails, is rejected; a config message is ordered as `ProcessConfigMsg` returns it when it is
    revalidated, and not at all when it evicts or rotates a consenter. -/
def acceptedEnvelope (c : Chain) (req : SubmitRequest) : Option Envelope :=
  match isConfig req.payload with
  | .error _ => none
  | .ok false =>
    if req.lastValidationSeq < c.sequence then
      (c.processNormalMsg req.payload).toOption.map fun _ => req.payload
    else some req.payload
  | .ok true =>
    let env? :=
      if req.lastValidationSeq < c.sequence then
        (c.processConfigMsg req.payload).toOption.map Prod.fst
      else some req.payload
    env?.filter fun env => !c.checkForEvictionNCertRotation env

/-- The message an event hands to the block cutter, if any. -/
def LeaderEvent.accepted : LeaderEvent → Option Envelope
  | .submit c req => acceptedEnvelope c req
  | .timer => none

/-- How a message validated against an older config sequence is ordered: a config message in
    the form `ProcessConfigMsg` returns, a normal one as it is once `ProcessNormalMsg` accepts
    it. -/
def Revalidated (c : Chain) (req : SubmitRequest) (env : Envelope) : Prop :=
  (isConfig req.payload = .ok true ∧ ∃ seq, c.processConfigMsg req.payload = .ok (env, seq)) ∨
    (isConfig req.payload = .ok false ∧ env = req.payload ∧
      ∃ seq, c.processNormalMsg req.payload = .ok seq)

/-- A message the leader accepts is its request's payload, unless it was revalidated. -/
theorem acceptedEnvelope_spec {c : Chain} {req : SubmitRequest} {env : Envelope}
    (h : acceptedEnvelope c req = some env) :
    (req.lastValidationSeq < c.sequence → Revalidated c req env) ∧
      (¬ req.lastValidationSeq < c.sequence → env = req.payload) := by
  unfold acceptedEnvelope at h
  cases hc : isConfig req.payload with
  | error _ => simp [hc] at h
  | ok isconfig =>
    cases isconfig with
    | false =>
      simp only [hc] at h
      by_cases hs : req.lastValidationSeq < c.sequence
      · rw [if_pos hs] at h
        cases hn : c.processNormalMsg req.payload with
        | error _ => simp [hn, Except.toOption] at h
        | ok seq =>
          simp only [hn, Except.toOption, Option.map_some, Option.some.injEq] at h
          exact ⟨fun _ => .inr ⟨hc, h.symm, seq, hn⟩, fun hn' => absurd hs hn'⟩
      · rw [if_neg hs] at h
        exact ⟨fun hs' => absurd hs' hs, fun _ => (Option.some.inj h).symm⟩
    | true =>
      simp only [hc] at h
      obtain ⟨henv, -⟩ := Option.filter_eq_some_iff.mp h
      by_cases hs : req.lastValidationSeq < c.sequence
      · rw [if_pos hs] at henv
        cases hp : c.processConfigMsg req.payload with
        | error _ => simp [hp, Except.toOption] at henv
        | ok p =>
          simp only [hp, Except.toOption, Option.map_some, Option.some.injEq] at henv
          exact ⟨fun _ => .inl ⟨hc, p.2, by rw [hp, ← henv]⟩, fun hn' => absurd hs hn'⟩
      · rw [if_neg hs] at henv
        exact ⟨fun hs' => absurd hs' hs, fun _ => (Option.some.inj henv).symm⟩

/-! ## What one call does -/

section

variable {c : Chain} {r r' : Receiver} {msg : SubmitRequest}
  {res : List (List Envelope) × Bool}

/-- Everything a call of `ordered` that succeeds can do: forward a config message that evicts
    or rotates a consenter, order a config message after a cut of the pending batch, or pass a
    normal message to the block cutter. -/
theorem ordered_eq_ok (h : c.ordered r msg = .ok (res, r')) :
    (isConfig msg.payload = .ok true ∧ acceptedEnvelope c msg = none ∧ res = ([], false) ∧
        r' = r) ∨
      (∃ env, isConfig msg.payload = .ok true ∧ acceptedEnvelope c msg = some env ∧
        res = ((if r.pendingBatch = [] then [] else [r.pendingBatch]) ++ [[env]], false) ∧
        r' = {}) ∨
      (isConfig msg.payload = .ok false ∧ acceptedEnvelope c msg = some msg.payload ∧
        r.ordered c.batchSize msg.payload = (res, r')) := by
  unfold Chain.ordered at h
  cases hc : isConfig msg.payload with
  | error err => simp [hc, Except.mapError, bind, Except.bind] at h
  | ok isconfig =>
    cases isconfig with
    | false =>
      -- a normal message: revalidated if it is stale, then passed to `Ordered`
      have hacc : acceptedEnvelope c msg = if msg.lastValidationSeq < c.sequence then
          (c.processNormalMsg msg.payload).toOption.map fun _ => msg.payload
        else some msg.payload := by
        simp only [acceptedEnvelope, hc]
      refine .inr (.inr ⟨rfl, ?_⟩)
      by_cases hs : msg.lastValidationSeq < c.sequence
      · cases hn : c.processNormalMsg msg.payload with
        | error _ =>
          simp [hc, hs, hn, Except.mapError, bind, Except.bind, discard, Functor.mapConst,
            Except.map] at h
        | ok seq =>
          simp [hc, hs, hn, Except.mapError, bind, Except.bind, discard, Functor.mapConst,
            Except.map, pure, Except.pure] at h
          exact ⟨by simp [hacc, hs, hn, Except.toOption], h⟩
      · simp [hc, hs, Except.mapError, bind, Except.bind, pure, Except.pure] at h
        exact ⟨by simp [hacc, hs], h⟩
    | true =>
      -- a config message: revalidated if it is stale, then forwarded or ordered alone
      have hacc : acceptedEnvelope c msg = (if msg.lastValidationSeq < c.sequence then
          (c.processConfigMsg msg.payload).toOption.map Prod.fst
        else some msg.payload).filter fun env => !c.checkForEvictionNCertRotation env := by
        simp only [acceptedEnvelope, hc]
      obtain ⟨payload, hpay, h⟩ : ∃ payload, (if msg.lastValidationSeq < c.sequence then
            (c.processConfigMsg msg.payload).toOption.map Prod.fst
          else some msg.payload) = some payload ∧
          (if c.checkForEvictionNCertRotation payload then Except.ok (([], false), r)
            else Except.ok (((if r.pendingBatch = [] then [] else [r.pendingBatch]) ++ [[payload]],
              false), {})) = (.ok (res, r') : Except OrderedError _) := by
        by_cases hs : msg.lastValidationSeq < c.sequence
        · cases hp : c.processConfigMsg msg.payload with
          | error _ => simp [hc, hs, hp, Except.mapError, bind, Except.bind] at h
          | ok p =>
            simp [hc, hs, hp, Except.mapError, bind, Except.bind, pure, Except.pure] at h
            exact ⟨p.1, by simp [hs, Except.toOption], h⟩
        · simp [hc, hs, Except.mapError, bind, Except.bind, pure, Except.pure] at h
          exact ⟨msg.payload, by simp [hs], h⟩
      rw [hpay] at hacc
      by_cases he : c.checkForEvictionNCertRotation payload
      · simp only [he, if_true, Except.ok.injEq, Prod.mk.injEq] at h
        exact .inl ⟨rfl, by simp [hacc, he], h.1.symm, h.2.symm⟩
      · simp only [he, Bool.false_eq_true, if_false, Except.ok.injEq, Prod.mk.injEq] at h
        exact .inr (.inl ⟨payload, rfl, by simp [hacc, he], h.1.symm, h.2.symm⟩)

/-- `ordered` fails only on a request the leader does not accept: its channel header cannot be
    read, or its revalidation fails. -/
theorem acceptedEnvelope_of_ordered_error {err : OrderedError}
    (h : c.ordered r msg = .error err) : acceptedEnvelope c msg = none := by
  unfold Chain.ordered at h
  unfold acceptedEnvelope
  cases hc : isConfig msg.payload with
  | error _ => rfl
  | ok isconfig =>
    -- a message that is not stale is never rejected
    by_cases hs : msg.lastValidationSeq < c.sequence
    · cases isconfig with
      | false =>
        cases hn : c.processNormalMsg msg.payload with
        | error _ => simp [hs, Except.toOption]
        | ok seq =>
          simp [hc, hs, hn, Except.mapError, bind, Except.bind, discard, Functor.mapConst,
            Except.map, pure, Except.pure] at h
      | true =>
        cases hp : c.processConfigMsg msg.payload with
        | error _ => simp [hs, Except.toOption]
        | ok p =>
          simp [hc, hs, hp, Except.mapError, bind, Except.bind, pure, Except.pure] at h
          split at h <;> cases h
    · cases isconfig with
      | false => simp [hc, hs, Except.mapError, bind, Except.bind, pure, Except.pure] at h
      | true =>
        simp [hc, hs, Except.mapError, bind, Except.bind, pure, Except.pure] at h
        split at h <;> cases h
end

/-! ## The block cutter never holds a config message -/

/-- What every block cutter the leader reaches satisfies: an empty pending batch counts no
    bytes, and no pending message is a CONFIG envelope. -/
structure CutterInv (r : Receiver) : Prop where
  emptyCountsZero : r.EmptyCountsZero
  not_config : ∀ env ∈ r.pendingBatch, isConfig env ≠ .ok true

theorem cutterInv_empty : CutterInv {} :=
  ⟨fun _ => rfl, by simp⟩

/-- A batch the leader proposes: it has messages, and a CONFIG envelope in it is alone. -/
structure ProposedBatch (batch : List Envelope) : Prop where
  ne_nil : batch ≠ []
  config_alone : ∀ env ∈ batch, isConfig env = .ok true → batch = [env]

theorem proposedBatch_singleton (env : Envelope) : ProposedBatch [env] :=
  ⟨List.cons_ne_nil _ _, fun _ h _ => by rw [List.mem_singleton.mp h]⟩

theorem proposedBatch_of_not_config {batch : List Envelope} (hne : batch ≠ [])
    (h : ∀ env ∈ batch, isConfig env ≠ .ok true) : ProposedBatch batch :=
  ⟨hne, fun env hm hc => absurd hc (h env hm)⟩

/-- The leader turns the pending batch `r` into the batches `batches` and the pending batch
    `r'` while the messages `accepted` arrive: `r'` keeps the invariant, every batch is a
    `ProposedBatch`, and no message is lost, duplicated or reordered. -/
structure Orders (r : Receiver) (batches : List (List Envelope)) (r' : Receiver)
    (accepted : List Envelope) : Prop where
  inv : CutterInv r'
  proposed : ∀ batch ∈ batches, ProposedBatch batch
  conserves : batches.flatten ++ r'.pendingBatch = r.pendingBatch ++ accepted

section

variable {r : Receiver}

theorem Orders.refl (hr : CutterInv r) : Orders r [] r [] :=
  ⟨hr, by simp, by simp⟩

theorem Orders.trans {batches₁ batches₂ : List (List Envelope)} {r₁ r₂ : Receiver}
    {accepted₁ accepted₂ : List Envelope} (h₁ : Orders r batches₁ r₁ accepted₁)
    (h₂ : Orders r₁ batches₂ r₂ accepted₂) :
    Orders r (batches₁ ++ batches₂) r₂ (accepted₁ ++ accepted₂) := by
  refine ⟨h₂.inv, ?_, ?_⟩
  · intro batch hb
    rcases List.mem_append.mp hb with hb | hb
    · exact h₁.proposed batch hb
    · exact h₂.proposed batch hb
  · rw [List.flatten_append, List.append_assoc, h₂.conserves, ← List.append_assoc,
      h₁.conserves, List.append_assoc]

/-- A normal message passed to `Ordered`: the batches hold only the old pending messages and
    the message, so none is CONFIG. -/
theorem orders_ordered (hr : CutterInv r) (batchSize : BatchSize) {msg : Envelope}
    (hmsg : isConfig msg ≠ .ok true) :
    Orders r (r.ordered batchSize msg).1.1 (r.ordered batchSize msg).2 [msg] := by
  have hcons := @ordered_conserves batchSize r msg
  -- every message returned or left pending was pending or is the message
  have hfrom : ∀ env ∈ (r.ordered batchSize msg).1.1.flatten ++
      (r.ordered batchSize msg).2.pendingBatch, isConfig env ≠ .ok true := by
    intro env henv
    rw [hcons] at henv
    rcases List.mem_append.mp henv with henv | henv
    · exact hr.not_config env henv
    · rw [List.mem_singleton.mp henv]
      exact hmsg
  refine ⟨⟨emptyCountsZero_ordered hr.emptyCountsZero, ?_⟩, ?_, hcons⟩
  · exact fun env henv => hfrom env (List.mem_append_right _ henv)
  · intro batch hb
    refine proposedBatch_of_not_config ((ordered_shape hr.emptyCountsZero).1 batch hb) ?_
    exact fun env henv => hfrom env (List.mem_append_left _ (List.mem_flatten_of_mem hb henv))

/-- The pending batch cut and proposed before a config message, or on a timer. -/
theorem orders_cut (hr : CutterInv r) :
    Orders r (if r.pendingBatch = [] then [] else [r.pendingBatch]) {} [] := by
  refine ⟨cutterInv_empty, ?_, ?_⟩
  · intro batch hb
    split at hb
    · cases hb
    · next hne =>
      rw [List.mem_singleton.mp hb]
      exact proposedBatch_of_not_config hne hr.not_config
  · split <;> simp_all

/-- A config message ordered alone in a batch of its own. -/
theorem orders_alone (env : Envelope) : Orders {} [[env]] {} [env] :=
  ⟨cutterInv_empty, fun _ hb => by rw [List.mem_singleton.mp hb]; exact proposedBatch_singleton env,
    by simp⟩

/-- What one event of the leader's loop does, one case for each thing `ordered` can do. -/
theorem orders_leaderStep (hr : CutterInv r) (e : LeaderEvent) :
    Orders r (leaderStep r e).1 (leaderStep r e).2 e.accepted.toList := by
  cases e with
  | timer =>
    -- the timer cuts the pending batch and proposes it if it has messages
    have h := orders_cut hr
    by_cases hp : r.pendingBatch = []
    · simpa [leaderStep, LeaderEvent.accepted, hp] using h
    · simpa [leaderStep, LeaderEvent.accepted, hp] using h
  | submit c req =>
    simp only [leaderStep, LeaderEvent.accepted]
    cases ho : c.ordered r req with
    | error err =>
      rw [acceptedEnvelope_of_ordered_error ho]
      exact Orders.refl hr
    | ok res =>
      obtain ⟨⟨batches, pending⟩, r'⟩ := res
      rcases ordered_eq_ok ho with ⟨-, hacc, hres, rfl⟩ | ⟨env, -, hacc, hres, rfl⟩ |
        ⟨hc, hacc, hord⟩
      · -- forwarded on eviction: nothing is ordered
        rw [Prod.mk.injEq] at hres
        rw [hacc, hres.1]
        exact Orders.refl hr
      · -- a config message: the pending batch is cut, then the message goes alone
        rw [Prod.mk.injEq] at hres
        rw [hacc, hres.1]
        exact (orders_cut hr).trans (orders_alone env)
      · -- a normal message passed to `Ordered`
        have h := @orders_ordered r hr c.batchSize req.payload (by rw [hc]; simp)
        rw [hord] at h
        rw [hacc]
        exact h

theorem filterMap_accepted_cons (e : LeaderEvent) (events : List LeaderEvent) :
    (e :: events).filterMap LeaderEvent.accepted =
      e.accepted.toList ++ events.filterMap LeaderEvent.accepted := by
  rw [List.filterMap_cons]
  cases e.accepted <;> rfl

/-- A whole run of the leader's loop, by induction on the events: each step keeps the
    invariant, and `Orders` composes. -/
theorem orders_leaderRun (hr : CutterInv r) (events : List LeaderEvent) :
    Orders r (leaderRun r events).1 (leaderRun r events).2
      (events.filterMap LeaderEvent.accepted) := by
  induction events generalizing r with
  | nil => exact Orders.refl hr
  | cons e events ih =>
    have hstep := orders_leaderStep hr e
    rw [filterMap_accepted_cons]
    exact hstep.trans (ih hstep.inv)

/-! ## What the leader proposes -/

/-- The envelopes of a run's batches and pending batch that were not pending at its start come
    from accepted requests. -/
theorem mem_accepted_of_mem_leaderRun (hr : CutterInv r) {events : List LeaderEvent}
    {env : Envelope}
    (h : env ∈ (leaderRun r events).1.flatten ++ (leaderRun r events).2.pendingBatch) :
    env ∈ r.pendingBatch ∨
      ∃ c req, LeaderEvent.submit c req ∈ events ∧ acceptedEnvelope c req = some env := by
  rw [(orders_leaderRun hr events).conserves] at h
  rcases List.mem_append.mp h with h | h
  · exact .inl h
  · obtain ⟨e, he, hacc⟩ := List.mem_filterMap.mp h
    cases e with
    | submit c req => exact .inr ⟨c, req, he, hacc⟩
    | timer => cases hacc

/-- On the leader, from a block cutter that holds no config message, whatever requests arrive
    and whenever the batch timer expires: every batch proposed has messages; a CONFIG envelope
    is alone in its batch, whose block then holds that one transaction; the batches and then
    the pending batch are the accepted messages in arrival order, with no config message left
    pending; and every message of a batch was pending at the start or is the form in which a
    request was accepted, revalidated if it was validated against an older config sequence. -/
theorem leaderRun_isolates_config (sha256 : Bytes → Bytes) (blockHeaderHash : BlockHeader → Bytes)
    (bc : BlockCreator) (r : Receiver) (hr : CutterInv r) (events : List LeaderEvent) :
    let run := leaderRun r events
    (∀ batch ∈ run.1, batch ≠ []) ∧
      (∀ (i : Nat) batch, run.1[i]? = some batch → ∀ env ∈ batch, isConfig env = .ok true →
        batch = [env] ∧ ∃ block : Block, (bc.createNextBlocks sha256 blockHeaderHash run.1)[i]? =
          some block ∧ block.data = some ⟨[marshalEnvelope env]⟩) ∧
      run.1.flatten ++ run.2.pendingBatch = r.pendingBatch ++ events.filterMap LeaderEvent.accepted ∧
      (∀ env ∈ run.2.pendingBatch, isConfig env ≠ .ok true) ∧
      (∀ batch ∈ run.1, ∀ env ∈ batch, env ∈ r.pendingBatch ∨
        ∃ c req, LeaderEvent.submit c req ∈ events ∧ acceptedEnvelope c req = some env ∧
          (req.lastValidationSeq < c.sequence → Revalidated c req env) ∧
          (¬ req.lastValidationSeq < c.sequence → env = req.payload)) := by
  intro run
  have hrun := orders_leaderRun hr events
  refine ⟨fun batch hb => (hrun.proposed batch hb).ne_nil, ?_, hrun.conserves,
    hrun.inv.not_config, ?_⟩
  · intro i batch hi env henv hc
    have halone := (hrun.proposed batch (List.mem_of_getElem? hi)).config_alone env henv hc
    obtain ⟨block, hblock, hdata⟩ := data_createNextBlocks sha256 blockHeaderHash bc run.1 i batch hi
    refine ⟨halone, block, hblock, ?_⟩
    rw [hdata, halone, List.map_singleton]
  · intro batch hb env henv
    have hmem : env ∈ run.1.flatten ++ run.2.pendingBatch :=
      List.mem_append_left _ (List.mem_flatten_of_mem hb henv)
    rcases mem_accepted_of_mem_leaderRun hr hmem with h | ⟨c, req, he, hacc⟩
    · exact .inl h
    · exact .inr ⟨c, req, he, hacc, acceptedEnvelope_spec hacc⟩

/-- A normal request, then a stale config request that a chain at config sequence 1 revalidates
    unchanged, from a new block cutter. -/
theorem leaderRun_isolates_config_config_after_normal :
    let c : Chain := ⟨1, fun env => .ok (env, 1), fun _ => .ok 1, ⟨10, 100, 50⟩, fun _ => false⟩
    let events := [LeaderEvent.submit c ⟨1, plainEnvelope⟩, .submit c ⟨0, configEnvelope⟩]
    let bc : BlockCreator := ⟨[], 0⟩
    let run := leaderRun {} events
    CutterInv {} ∧
      (∀ batch ∈ run.1, batch ≠ []) ∧
      (∀ (i : Nat) batch, run.1[i]? = some batch → ∀ env ∈ batch, isConfig env = .ok true →
        batch = [env] ∧ ∃ block : Block, (bc.createNextBlocks id (fun _ => []) run.1)[i]? =
          some block ∧ block.data = some ⟨[marshalEnvelope env]⟩) ∧
      run.1.flatten ++ run.2.pendingBatch =
        ({} : Receiver).pendingBatch ++ events.filterMap LeaderEvent.accepted ∧
      (∀ env ∈ run.2.pendingBatch, isConfig env ≠ .ok true) ∧
      (∀ batch ∈ run.1, ∀ env ∈ batch, env ∈ ({} : Receiver).pendingBatch ∨
        ∃ c req, LeaderEvent.submit c req ∈ events ∧ acceptedEnvelope c req = some env ∧
          (req.lastValidationSeq < c.sequence → Revalidated c req env) ∧
          (¬ req.lastValidationSeq < c.sequence → env = req.payload)) :=
  ⟨cutterInv_empty, leaderRun_isolates_config id (fun _ => []) ⟨[], 0⟩ {} cutterInv_empty _⟩

end

end Fabric.Orderer
