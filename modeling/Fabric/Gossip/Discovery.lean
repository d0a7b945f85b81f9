import Fabric.Gossip.MsgStore
import Fabric.Lib.FoldM
import Fabric.Lib.GoMap

/-
  Membership in gossip discovery (`gossip/discovery/discovery_impl.go`).

  The discovery layer keeps, under one lock, the members it knows (`id2Member`), the last
  timestamp of each alive and each dead member, and the alive messages of each in two
  membership stores; beside them an alive message store expires old alive messages and calls
  back into discovery, under the discovery lock, to forget their peers. Three activities run
  concurrently: the goroutine handling messages from the network, the periodic check that
  moves silent members to the dead, and the expiry of the alive message store.

  The message-handling goroutine reads the maps in separate lock sections: `handleAliveMessage`
  asks whether the peer is known, then whether it is alive or dead, then its alive timestamp,
  and only then takes the write lock to learn the message. Each lock section is one step of
  the model (`Handler.step`); the periodic check and the store's expiry are one step each, so
  that a run is any interleaving of them (`Sys.run`).

  Proved: the bookkeeping of the maps holds after every step of every run whose membership
  responses carry no dead message about the peer itself (`run_inv`), and with it the goroutine
  never finds a member both alive and dead (`run_ne_bothAliveAndDead`). A dead message about
  the peer itself puts it in `id2Member` with no timestamp (`learnNewMembers_dead_self`). The
  store's expiry between the first two lock sections forgets the member the goroutine has just
  found known, and `handleAliveMessage` panics although the bookkeeping holds
  (`lastTS_after_expiry_panics`, `handleAliveMessage_known_not_found`).

  Endpoints are strings and the PKI-ID a type with decidable equality; signatures
  (`ValidateAliveMsg`) are taken as valid; the metadata of members, logging, forwarding and the
  membership responses the goroutine sends are left out.
-/

namespace Fabric.Gossip

/-! ## Messages and timestamps -/

/-- `gossip.PeerTime`. -/
structure PeerTime where
  incNum : Nat
  seqNum : Nat
  deriving DecidableEq, Repr

/-- The alive message of a signed gossip message, as membership reads it: the member's PKI-ID
    and endpoint, the timestamp, and the internal endpoint of its secret envelope, if it has
    one. -/
structure AliveMessage (PKIid : Type) where
  pkiId : PKIid
  endpoint : String
  timestamp : PeerTime
  secretEnvelope : Option String
  deriving DecidableEq, Repr

/-- `NetworkMember`, its metadata left out. -/
structure NetworkMember (PKIid : Type) where
  endpoint : String
  pkiId : PKIid
  internalEndpoint : String
  deriving DecidableEq, Repr

/-- `timestamp`: `incTime` is the incarnation number, which `tsToTime` stores in the
    nanoseconds that `same` and `before` read back. -/
structure Timestamp where
  incTime : Nat
  lastSeen : Nat
  seqNum : Nat
  deriving DecidableEq, Repr

/-- `same`. -/
def same (a : Timestamp) (b : PeerTime) : Bool :=
  a.incTime == b.incNum && a.seqNum == b.seqNum

/-- `before`. -/
def before (a : Timestamp) (b : PeerTime) : Bool :=
  (a.incTime == b.incNum && decide (a.seqNum < b.seqNum)) || decide (a.incTime < b.incNum)

/-- `compareTimestamps`. -/
def compareTimestamps (thisTS thatTS : PeerTime) : InvalidationResult :=
  if thisTS.incNum = thatTS.incNum then
    if thisTS.seqNum > thatTS.seqNum then .messageInvalidates else .messageInvalidated
  else if thisTS.incNum < thatTS.incNum then .messageInvalidated
  else .messageInvalidates

section

variable {PKIid : Type} [DecidableEq PKIid]

/-- `aliveInvalidationPolicy`: the policy of the alive message store. -/
def aliveInvalidationPolicy (thisMsg thatMsg : AliveMessage PKIid) : InvalidationResult :=
  if thisMsg.pkiId ≠ thatMsg.pkiId then .messageNoAction
  else compareTimestamps thisMsg.timestamp thatMsg.timestamp

/-- `protoext.InternalEndpoint` of a message's secret envelope: empty without one. -/
def AliveMessage.internalEndpoint (m : AliveMessage PKIid) : String :=
  m.secretEnvelope.getD ""

/-- The timestamp a message gives its member, seen at time `now`. -/
def AliveMessage.lastTS (m : AliveMessage PKIid) (now : Nat) : Timestamp :=
  ⟨m.timestamp.incNum, now, m.timestamp.seqNum⟩

/-! ## The membership state -/

/-- The state of `gossipDiscoveryImpl` that its lock guards, and the alive message store. -/
structure Discovery (PKIid : Type) [DecidableEq PKIid] where
  id2Member : GoMap PKIid (NetworkMember PKIid)
  aliveLastTS : GoMap PKIid Timestamp
  deadLastTS : GoMap PKIid Timestamp
  aliveMembership : GoMap PKIid (AliveMessage PKIid)
  deadMembership : GoMap PKIid (AliveMessage PKIid)
  msgStore : MessageStore (AliveMessage PKIid)

/-- The state of a new discovery layer: no members, and an empty alive message store whose
    TTL is `aliveExpirationTimeout * msgExpirationFactor`. -/
def newDiscovery (aliveMsgTTL : Nat) : Discovery PKIid :=
  { id2Member := .empty, aliveLastTS := .empty, deadLastTS := .empty,
    aliveMembership := .empty, deadMembership := .empty,
    msgStore := newMsgStore aliveInvalidationPolicy aliveMsgTTL }

namespace Discovery

section Sections

-- this peer's PKI-ID, the timeout after which a silent member is dead, and the bootstrap and
-- anchor peers that expiry never forgets
variable (self : PKIid) (aliveExpirationTimeout : Nat) (bootstrapPeers : List String)
  (isAnchorPeer : String → Bool)

/-- One alive member of `learnNewMembers`: its timestamp and message, unless it is this peer. -/
def learnAlive (d : Discovery PKIid) (now : Nat) (am : AliveMessage PKIid) : Discovery PKIid :=
  if am.pkiId = self then d
  else { d with aliveLastTS := d.aliveLastTS.insert am.pkiId (am.lastTS now),
                aliveMembership := d.aliveMembership.insert am.pkiId am }

/-- One dead member of `learnNewMembers`: its timestamp and message, unless it is this peer. -/
def learnDead (d : Discovery PKIid) (now : Nat) (dm : AliveMessage PKIid) : Discovery PKIid :=
  if dm.pkiId = self then d
  else { d with deadLastTS := d.deadLastTS.insert dm.pkiId (dm.lastTS now),
                deadMembership := d.deadMembership.insert dm.pkiId dm }

/-- The last loop of `learnNewMembers`: the member is updated in any case, keeping the internal
    endpoint it had. -/
def updateMember (d : Discovery PKIid) (m : AliveMessage PKIid) : Discovery PKIid :=
  let internalEndpoint := match d.id2Member.get? m.pkiId with
    | some prevNetMem => prevNetMem.internalEndpoint
    | none => m.internalEndpoint
  { d with id2Member := d.id2Member.insert m.pkiId ⟨m.endpoint, m.pkiId, internalEndpoint⟩ }

/-- `learnNewMembers`, at time `now`. -/
def learnNewMembers (d : Discovery PKIid) (aliveMembers deadMembers : List (AliveMessage PKIid))
    (now : Nat) : Discovery PKIid :=
  let d := aliveMembers.foldl (fun d am => learnAlive self d now am) d
  let d := deadMembers.foldl (fun d dm => learnDead self d now dm) d
  (aliveMembers ++ deadMembers).foldl updateMember d

/-- One message of `learnExistingMembers`, at time `now`; `none` is the nil dereference of a
    member no longer in `id2Member`. -/
def learnExisting (now : Nat) (d : Discovery PKIid) (m : AliveMessage PKIid) :
    Option (Discovery PKIid) := do
  -- the secret envelope's internal endpoint, if any, replaces the member's
  let internalEndpoint := match m.secretEnvelope, d.id2Member.get? m.pkiId with
    | some e, _ => e
    | none, some prevNetMem => prevNetMem.internalEndpoint
    | none, none => ""
  let member ← d.id2Member.get? m.pkiId
  let member := { member with endpoint := m.endpoint, internalEndpoint }
  let d := { d with id2Member := d.id2Member.insert m.pkiId member }
  -- "has already expired"
  if (d.deadLastTS.get? m.pkiId).isSome then return d
  match d.aliveLastTS.get? m.pkiId with
  | none => return d
  | some alive =>
    let alive : Timestamp :=
      { alive with incTime := m.timestamp.incNum, lastSeen := now, seqNum := m.timestamp.seqNum }
    let d := { d with aliveLastTS := d.aliveLastTS.insert m.pkiId alive }
    match d.aliveMembership.get? m.pkiId with
    | some _ => return { d with aliveMembership := d.aliveMembership.insert m.pkiId m }
    | none => return d

/-- `learnExistingMembers`, at time `now`. -/
def learnExistingMembers (d : Discovery PKIid) (aliveArr : List (AliveMessage PKIid)) (now : Nat) :
    Option (Discovery PKIid) :=
  aliveArr.foldlM (learnExisting now) d

/-- `resurrectMember`, at time `now`. -/
def resurrectMember (d : Discovery PKIid) (am : AliveMessage PKIid) (now : Nat) :
    Discovery PKIid :=
  let internalEndpoint := match am.secretEnvelope, d.id2Member.get? am.pkiId with
    | some e, _ => e
    | none, some prevNetMem => prevNetMem.internalEndpoint
    | none, none => ""
  { d with
    aliveLastTS := d.aliveLastTS.insert am.pkiId (am.lastTS now)
    id2Member := d.id2Member.insert am.pkiId ⟨am.endpoint, am.pkiId, internalEndpoint⟩
    deadLastTS := d.deadLastTS.erase am.pkiId
    deadMembership := d.deadMembership.erase am.pkiId
    aliveMembership := d.aliveMembership.insert am.pkiId am }

/-- `getDeadMembers`, at time `now`: the alive members not heard from for longer than the
    timeout. -/
def getDeadMembers (d : Discovery PKIid) (now : Nat) : List PKIid :=
  d.aliveLastTS.entries.filterMap fun e =>
    if now - e.2.lastSeen > aliveExpirationTimeout then some e.1 else none

/-- One member of `expireDeadMembers`: its timestamp and message move to the dead; `none` is the
    nil dereference of cloning a member missing from `id2Member`. -/
def expireDead (d : Discovery PKIid) (pkiID : PKIid) : Option (Discovery PKIid) :=
  match d.aliveLastTS.get? pkiID with
  | none => some d
  | some lastTS => do
    let _ ← d.id2Member.get? pkiID
    let d := { d with deadLastTS := d.deadLastTS.insert pkiID lastTS,
                      aliveLastTS := d.aliveLastTS.erase pkiID }
    match d.aliveMembership.get? pkiID with
    | some am => return { d with deadMembership := d.deadMembership.insert pkiID am,
                                 aliveMembership := d.aliveMembership.erase pkiID }
    | none => return d

/-- `expireDeadMembers`. -/
def expireDeadMembers (d : Discovery PKIid) (dead : List PKIid) : Option (Discovery PKIid) :=
  dead.foldlM expireDead d

/-- The expiration callback of the alive message store: it forgets the member of an expired
    alive message, unless the member is a bootstrap or an anchor peer. -/
def expireMsgCallback (d : Discovery PKIid) (msg : AliveMessage PKIid) : Discovery PKIid :=
  if msg.endpoint ∈ bootstrapPeers ∨ msg.internalEndpoint ∈ bootstrapPeers ∨
      isAnchorPeer msg.endpoint = true ∨ isAnchorPeer msg.internalEndpoint = true then d
  else
    { d with
      aliveMembership := d.aliveMembership.erase msg.pkiId
      deadMembership := d.deadMembership.erase msg.pkiId
      id2Member := d.id2Member.erase msg.pkiId
      deadLastTS := d.deadLastTS.erase msg.pkiId
      aliveLastTS := d.aliveLastTS.erase msg.pkiId }

/-- The store's `expireMessages` at time `now`, which calls the callback, under the discovery
    lock, on each message it marks expired. The callback does not touch the store, and the
    store's loop does not read the discovery maps, so the callbacks may run after the loop. -/
def expireStore (d : Discovery PKIid) (now : Nat) : Discovery PKIid :=
  (d.msgStore.expiring now).foldl (expireMsgCallback bootstrapPeers isAnchorPeer)
    { d with msgStore := d.msgStore.expireMessages now }

end Sections

end Discovery

/-! ## The message-handling goroutine -/

/-- What the message-handling goroutine has left to do of the message it received. -/
inductive Task (PKIid : Type)
  /-- an alive message: checked against the store, added to it, then handled -/
  | alive (m : AliveMessage PKIid)
  /-- the self information of a membership request, or an alive member of a membership
      response: checked against the store, then handled -/
  | member (m : AliveMessage PKIid)
  /-- a dead member of a membership response -/
  | dead (m : AliveMessage PKIid)
  deriving DecidableEq, Repr

/-- A message from the network, as `handleMsgFromComm` splits it. -/
inductive Received (PKIid : Type)
  | aliveMsg (m : AliveMessage PKIid)
  | memReq (selfInformation : AliveMessage PKIid)
  | memResp (alive dead : List (AliveMessage PKIid))
  deriving DecidableEq, Repr

/-- The tasks of a received message. -/
def Received.tasks : Received PKIid → List (Task PKIid)
  | .aliveMsg m => [.alive m]
  | .memReq selfInformation => [.member selfInformation]
  | .memResp alive dead => alive.map .member ++ dead.map .dead

/-- Where the goroutine is: at the next task, or before a lock section for a message, with the
    tasks after it. -/
inductive Handler (PKIid : Type)
  /-- between tasks; idle when none is left -/
  | next (rest : List (Task PKIid))
  /-- `handleAliveMessage`: is the member known? -/
  | known (m : AliveMessage PKIid) (rest : List (Task PKIid))
  /-- `handleAliveMessage`: is the member alive, is it dead? -/
  | lastTS (m : AliveMessage PKIid) (rest : List (Task PKIid))
  /-- `handleAliveMessage`: the member's alive timestamp -/
  | aliveTS (m : AliveMessage PKIid) (rest : List (Task PKIid))
  /-- `learnNewMembers` of the message as alive -/
  | learnNew (m : AliveMessage PKIid) (rest : List (Task PKIid))
  /-- `learnExistingMembers` of the message -/
  | learnExisting (m : AliveMessage PKIid) (rest : List (Task PKIid))
  /-- `resurrectMember` of the message -/
  | resurrect (m : AliveMessage PKIid) (rest : List (Task PKIid))
  /-- the dead loop of a membership response: is the member known? -/
  | deadKnown (m : AliveMessage PKIid) (rest : List (Task PKIid))
  /-- `learnNewMembers` of the message as dead -/
  | learnDead (m : AliveMessage PKIid) (rest : List (Task PKIid))
  deriving DecidableEq, Repr

/-- How the peer crashes. -/
inductive Panic
  /-- "Member %s is known but not found neither in alive nor in dead lastTS maps" -/
  | knownNotFound
  /-- "Member %s is both alive and dead at the same time" -/
  | bothAliveAndDead
  /-- the nil dereference of a member missing from `id2Member` -/
  | nilMember
  deriving DecidableEq, Repr

section Steps

variable (self : PKIid) (aliveExpirationTimeout : Nat) (bootstrapPeers : List String)
  (isAnchorPeer : String → Bool)

/-- The goroutine's next step at time `now`: one lock section of `handleMsgFromComm`. -/
def Handler.step (d : Discovery PKIid) (now : Nat) :
    Handler PKIid → Except Panic (Discovery PKIid × Handler PKIid)
  | .next [] => .ok (d, .next [])
  | .next (.alive m :: rest) =>
    -- the store's check, `isSentByMe`, and `Add` before `handleAliveMessage`
    if !d.msgStore.checkValid m || m.pkiId = self then .ok (d, .next rest)
    else .ok ({ d with msgStore := (d.msgStore.add m now).2 }, .known m rest)
  | .next (.member m :: rest) =>
    if !d.msgStore.checkValid m || m.pkiId = self then .ok (d, .next rest)
    else .ok (d, .known m rest)
  | .next (.dead m :: rest) =>
    if !d.msgStore.checkValid m then .ok (d, .next rest) else .ok (d, .deadKnown m rest)
  | .known m rest =>
    if (d.id2Member.get? m.pkiId).isSome then .ok (d, .lastTS m rest)
    else .ok (d, .learnNew m rest)
  | .lastTS m rest =>
    match d.aliveLastTS.get? m.pkiId, d.deadLastTS.get? m.pkiId with
    | none, none => .error .knownNotFound
    | some _, some _ => .error .bothAliveAndDead
    | none, some lastDeadTS =>
      if before lastDeadTS m.timestamp then .ok (d, .resurrect m rest) else .ok (d, .next rest)
    | some _, none => .ok (d, .aliveTS m rest)
  | .aliveTS m rest =>
    match d.aliveLastTS.get? m.pkiId with
    | some lastAliveTS =>
      if before lastAliveTS m.timestamp then .ok (d, .learnExisting m rest) else .ok (d, .next rest)
    | none => .ok (d, .next rest)
  | .learnNew m rest => .ok (d.learnNewMembers self [m] [] now, .next rest)
  | .learnExisting m rest =>
    match d.learnExistingMembers [m] now with
    | some d => .ok (d, .next rest)
    | none => .error .nilMember
  | .resurrect m rest => .ok (d.resurrectMember m now, .next rest)
  | .deadKnown m rest =>
    if (d.id2Member.get? m.pkiId).isSome then .ok (d, .next rest) else .ok (d, .learnDead m rest)
  | .learnDead m rest => .ok (d.learnNewMembers self [] [m] now, .next rest)

/-- The peer: the discovery state and where the message-handling goroutine is. -/
structure Sys (PKIid : Type) [DecidableEq PKIid] where
  discovery : Discovery PKIid
  handler : Handler PKIid

/-- One step of one of the three activities. -/
inductive Event (PKIid : Type)
  /-- a message from the network reaches the goroutine, when it is idle -/
  | receive (msg : Received PKIid)
  /-- the goroutine's next lock section, at time `now` -/
  | handle (now : Nat)
  /-- `periodicalCheckAlive` at time `now`: `getDeadMembers`, then `expireDeadMembers` -/
  | checkAlive (now : Nat)
  /-- the expiration routine of the alive message store, at time `now` -/
  | expireStore (now : Nat)

/-- The peer after one step. -/
def Sys.step (s : Sys PKIid) : Event PKIid → Except Panic (Sys PKIid)
  | .receive msg =>
    match s.handler with
    | .next [] => .ok { s with handler := .next msg.tasks }
    | _ => .ok s
  | .handle now => do
    let (discovery, handler) ← s.handler.step self s.discovery now
    pure ⟨discovery, handler⟩
  | .checkAlive now =>
    match s.discovery.expireDeadMembers
        (s.discovery.getDeadMembers aliveExpirationTimeout now) with
    | some discovery => .ok { s with discovery }
    | none => .error .nilMember
  | .expireStore now => .ok { s with discovery := s.discovery.expireStore bootstrapPeers isAnchorPeer now }

/-- The peer after a run of steps, or the panic that ends it. -/
def Sys.run (s : Sys PKIid) (events : List (Event PKIid)) : Except Panic (Sys PKIid) :=
  events.foldlM (Sys.step self aliveExpirationTimeout bootstrapPeers isAnchorPeer) s

end Steps

/-! ## The bookkeeping of the maps -/

/-- The bookkeeping at one PKI-ID: it is a member exactly when it has an alive or a dead
    timestamp, never both, and it has an alive or dead message exactly when it has a timestamp
    of that kind. -/
def EntryInv (member : Option (NetworkMember PKIid)) (alive dead : Option Timestamp)
    (aliveMsg deadMsg : Option (AliveMessage PKIid)) : Prop :=
  (member.isSome ↔ alive.isSome ∨ dead.isSome) ∧ ¬ (alive.isSome ∧ dead.isSome) ∧
    (aliveMsg.isSome ↔ alive.isSome) ∧ (deadMsg.isSome ↔ dead.isSome)

/-- The bookkeeping of the maps at every PKI-ID. -/
def Discovery.Inv (d : Discovery PKIid) : Prop :=
  ∀ id, EntryInv (d.id2Member.get? id) (d.aliveLastTS.get? id) (d.deadLastTS.get? id)
    (d.aliveMembership.get? id) (d.deadMembership.get? id)

theorem inv_newDiscovery (aliveMsgTTL : Nat) : (newDiscovery aliveMsgTTL : Discovery PKIid).Inv := by
  intro id
  simp [newDiscovery, EntryInv]

/-- A member without a timestamp is unknown. -/
theorem Discovery.Inv.unknown {d : Discovery PKIid} (hd : d.Inv) {id : PKIid}
    (h : d.id2Member.get? id = none) : d.aliveLastTS.get? id = none ∧ d.deadLastTS.get? id = none ∧
      d.aliveMembership.get? id = none ∧ d.deadMembership.get? id = none := by
  obtain ⟨hmem, -, halive, hdead⟩ := hd id
  simp only [h, Option.isSome_none, Bool.false_eq_true, false_iff, not_or] at hmem
  simp only [Option.not_isSome_iff_eq_none] at hmem
  rw [hmem.1, Option.isSome_none, Option.isSome_iff_ne_none] at halive
  rw [hmem.2, Option.isSome_none, Option.isSome_iff_ne_none] at hdead
  exact ⟨hmem.1, hmem.2, by simpa using halive, by simpa using hdead⟩

/-- The bookkeeping reads only which PKI-IDs each map holds. -/
theorem Discovery.Inv.of_isSome_eq {d : Discovery PKIid} (hd : d.Inv) (d' : Discovery PKIid)
    (h1 : ∀ id, (d'.id2Member.get? id).isSome = (d.id2Member.get? id).isSome)
    (h2 : ∀ id, (d'.aliveLastTS.get? id).isSome = (d.aliveLastTS.get? id).isSome)
    (h3 : ∀ id, (d'.deadLastTS.get? id).isSome = (d.deadLastTS.get? id).isSome)
    (h4 : ∀ id, (d'.aliveMembership.get? id).isSome = (d.aliveMembership.get? id).isSome)
    (h5 : ∀ id, (d'.deadMembership.get? id).isSome = (d.deadMembership.get? id).isSome) :
    d'.Inv := by
  intro id
  simpa only [EntryInv, h1, h2, h3, h4, h5] using hd id

namespace Discovery

variable {self : PKIid} {d : Discovery PKIid} {m : AliveMessage PKIid} {now : Nat}

theorem learnNewMembers_alive (self : PKIid) (d : Discovery PKIid) (m : AliveMessage PKIid)
    (now : Nat) : d.learnNewMembers self [m] [] now = updateMember (learnAlive self d now m) m :=
  rfl

theorem learnNewMembers_dead (self : PKIid) (d : Discovery PKIid) (m : AliveMessage PKIid)
    (now : Nat) : d.learnNewMembers self [] [m] now = updateMember (learnDead self d now m) m :=
  rfl

/-- Learning an unknown member, other than this peer, as alive keeps the bookkeeping. -/
theorem inv_learnNewMembers_alive (hd : d.Inv) (hnew : d.id2Member.get? m.pkiId = none)
    (hself : m.pkiId ≠ self) : (d.learnNewMembers self [m] [] now).Inv := by
  obtain ⟨-, hdead, -, hdeadMsg⟩ := hd.unknown hnew
  intro id
  rw [learnNewMembers_alive]
  by_cases h : id = m.pkiId
  · subst h
    simp [updateMember, learnAlive, hself, EntryInv, hdead, hdeadMsg]
  · simpa [updateMember, learnAlive, hself, h] using hd id

/-- Learning an unknown member, other than this peer, as dead keeps the bookkeeping. -/
theorem inv_learnNewMembers_dead (hd : d.Inv) (hnew : d.id2Member.get? m.pkiId = none)
    (hself : m.pkiId ≠ self) : (d.learnNewMembers self [] [m] now).Inv := by
  obtain ⟨halive, -, haliveMsg, -⟩ := hd.unknown hnew
  intro id
  rw [learnNewMembers_dead]
  by_cases h : id = m.pkiId
  · subst h
    simp [updateMember, learnDead, hself, EntryInv, halive, haliveMsg]
  · simpa [updateMember, learnDead, hself, h] using hd id

/-- A dead message about this peer itself makes it a member with no timestamp. -/
theorem learnNewMembers_dead_self (hd : d.Inv) (hnew : d.id2Member.get? self = none)
    (hm : m.pkiId = self) : ¬ (d.learnNewMembers self [] [m] now).Inv := by
  obtain ⟨halive, hdead, -, -⟩ := hd.unknown hnew
  intro h
  have := (h self).1
  simp [learnNewMembers_dead, updateMember, learnDead, hm, halive, hdead] at this

/-- A resurrected member is alive, with its message, and no longer dead. -/
theorem inv_resurrectMember (hd : d.Inv) : (d.resurrectMember m now).Inv := by
  intro id
  by_cases h : id = m.pkiId
  · subst h
    simp [resurrectMember, EntryInv]
  · simpa [resurrectMember, h] using hd id

/-- Updating a known member's data, timestamp and message keeps the bookkeeping: each write
    replaces a value already there. -/
theorem inv_learnExisting (hd : d.Inv) {d' : Discovery PKIid}
    (h : learnExisting now d m = some d') : d'.Inv := by
  cases hmem : d.id2Member.get? m.pkiId with
  | none => simp [learnExisting, hmem] at h
  | some member =>
    have hmem' : (d.id2Member.get? m.pkiId).isSome := by simp [hmem]
    simp only [learnExisting, hmem, bind, Option.bind] at h
    split at h
    · -- already dead: only the member's data
      obtain rfl := Option.some.inj h
      exact hd.of_isSome_eq _ (GoMap.isSome_get?_insert_of_isSome hmem' _) (fun _ => rfl)
        (fun _ => rfl) (fun _ => rfl) (fun _ => rfl)
    · split at h
      · obtain rfl := Option.some.inj h
        exact hd.of_isSome_eq _ (GoMap.isSome_get?_insert_of_isSome hmem' _) (fun _ => rfl)
          (fun _ => rfl) (fun _ => rfl) (fun _ => rfl)
      · -- alive: its timestamp, and its message if it has one
        rename_i halive
        have halive' : (d.aliveLastTS.get? m.pkiId).isSome := by simp [halive]
        split at h
        · rename_i hmsg
          have hmsg' : (d.aliveMembership.get? m.pkiId).isSome := by simp [hmsg]
          obtain rfl := Option.some.inj h
          exact hd.of_isSome_eq _ (GoMap.isSome_get?_insert_of_isSome hmem' _)
            (GoMap.isSome_get?_insert_of_isSome halive' _) (fun _ => rfl)
            (GoMap.isSome_get?_insert_of_isSome hmsg' _) (fun _ => rfl)
        · obtain rfl := Option.some.inj h
          exact hd.of_isSome_eq _ (GoMap.isSome_get?_insert_of_isSome hmem' _)
            (GoMap.isSome_get?_insert_of_isSome halive' _) (fun _ => rfl) (fun _ => rfl)
            (fun _ => rfl)

theorem inv_learnExistingMembers (hd : d.Inv) {aliveArr : List (AliveMessage PKIid)}
    {d' : Discovery PKIid} (h : d.learnExistingMembers aliveArr now = some d') : d'.Inv :=
  @FoldM.option_inv _ _ Discovery.Inv _ (fun _ _ _ hd h => inv_learnExisting hd h) aliveArr d d'
    hd h

/-- Moving an alive member to the dead keeps the bookkeeping: its timestamp and its message
    move together. -/
theorem inv_expireDead (hd : d.Inv) {pkiID : PKIid} {d' : Discovery PKIid}
    (h : d.expireDead pkiID = some d') : d'.Inv := by
  cases halive : d.aliveLastTS.get? pkiID with
  | none =>
    simp only [expireDead, halive, Option.some.injEq] at h
    exact h ▸ hd
  | some lastTS =>
    obtain ⟨hmem, -, hmsg, -⟩ := hd pkiID
    simp only [halive, Option.isSome_some, true_or, iff_true] at hmem hmsg
    obtain ⟨member, hmember⟩ := Option.isSome_iff_exists.mp hmem
    obtain ⟨am, ham⟩ := Option.isSome_iff_exists.mp hmsg
    simp only [expireDead, halive, hmember, bind, Option.bind, ham] at h
    obtain rfl := Option.some.inj h
    intro id
    by_cases hid : id = pkiID
    · subst hid
      simp [EntryInv, hmember]
    · simpa [hid] using hd id

theorem inv_expireDeadMembers (hd : d.Inv) {dead : List PKIid} {d' : Discovery PKIid}
    (h : d.expireDeadMembers dead = some d') : d'.Inv :=
  @FoldM.option_inv _ _ Discovery.Inv _ (fun _ _ _ hd h => inv_expireDead hd h) dead d d' hd h

/-- Forgetting a member removes it from every map at once. -/
theorem inv_expireMsgCallback (bootstrapPeers : List String) (isAnchorPeer : String → Bool)
    (hd : d.Inv) (msg : AliveMessage PKIid) :
    (d.expireMsgCallback bootstrapPeers isAnchorPeer msg).Inv := by
  unfold expireMsgCallback
  split
  · exact hd
  · intro id
    by_cases hid : id = msg.pkiId
    · subst hid
      simp [EntryInv]
    · simpa [hid] using hd id

theorem inv_foldl_expireMsgCallback (bootstrapPeers : List String) (isAnchorPeer : String → Bool) :
    ∀ (expired : List (AliveMessage PKIid)) (d : Discovery PKIid), d.Inv →
      (expired.foldl (expireMsgCallback bootstrapPeers isAnchorPeer) d).Inv
  | [], _, hd => hd
  | msg :: expired, _, hd =>
    inv_foldl_expireMsgCallback bootstrapPeers isAnchorPeer expired _
      (inv_expireMsgCallback bootstrapPeers isAnchorPeer hd msg)

/-- The store's expiry keeps the bookkeeping: the maps change only by the callbacks. -/
theorem inv_expireStore (bootstrapPeers : List String) (isAnchorPeer : String → Bool)
    (hd : d.Inv) (now : Nat) : (d.expireStore bootstrapPeers isAnchorPeer now).Inv :=
  inv_foldl_expireMsgCallback bootstrapPeers isAnchorPeer _ _ hd

/-- The alive check leaves the members as they are. -/
theorem expireDeadMembers_id2Member {dead : List PKIid} {d' : Discovery PKIid}
    (h : d.expireDeadMembers dead = some d') : d'.id2Member = d.id2Member := by
  induction dead generalizing d with
  | nil => exact (Option.some.inj h).symm ▸ rfl
  | cons pkiID dead ih =>
    rw [expireDeadMembers, List.foldlM_cons] at h
    cases hd₁ : d.expireDead pkiID with
    | none => simp [hd₁] at h
    | some d₁ =>
      simp only [hd₁, Option.bind_eq_bind, Option.bind_some] at h
      rw [ih h]
      -- one member moves to the dead, with the members untouched
      unfold expireDead at hd₁
      split at hd₁
      · exact Option.some.inj hd₁ ▸ rfl
      · simp only [bind, Option.bind] at hd₁
        split at hd₁
        · cases hd₁
        · split at hd₁ <;> exact Option.some.inj hd₁ ▸ rfl

/-- The store's expiry only forgets members. -/
theorem id2Member_expireStore_eq_none (bootstrapPeers : List String)
    (isAnchorPeer : String → Bool) {id : PKIid} (h : d.id2Member.get? id = none) (now : Nat) :
    (d.expireStore bootstrapPeers isAnchorPeer now).id2Member.get? id = none := by
  unfold expireStore
  generalize d.msgStore.expiring now = expired
  generalize hd₀ : ({ d with msgStore := d.msgStore.expireMessages now } : Discovery PKIid) = d₀
  have h₀ : d₀.id2Member.get? id = none := by rw [← hd₀]; exact h
  clear hd₀ h
  induction expired generalizing d₀ with
  | nil => exact h₀
  | cons msg expired ih =>
    refine ih _ ?_
    unfold expireMsgCallback
    split
    · exact h₀
    · simp [h₀]

end Discovery

/-! ## The goroutine's invariant -/

/-- No task left is a dead message about this peer itself. -/
def NoDeadSelf (self : PKIid) (tasks : List (Task PKIid)) : Prop :=
  ∀ m, Task.dead m ∈ tasks → m.pkiId ≠ self

/-- What the goroutine relies on where it is: a message it handles is not about this peer, and
    a member it is about to learn as new is still unknown. No task left is a dead message about
    this peer. -/
def Handler.Inv (self : PKIid) (d : Discovery PKIid) : Handler PKIid → Prop
  | .next rest => NoDeadSelf self rest
  | .known m rest | .deadKnown m rest => m.pkiId ≠ self ∧ NoDeadSelf self rest
  | .lastTS _ rest | .aliveTS _ rest | .learnExisting _ rest | .resurrect _ rest =>
    NoDeadSelf self rest
  | .learnNew m rest | .learnDead m rest =>
    d.id2Member.get? m.pkiId = none ∧ m.pkiId ≠ self ∧ NoDeadSelf self rest

/-- The goroutine's invariant holds as long as no member it relies on being unknown is
    learned. -/
theorem Handler.Inv.mono {self : PKIid} {d d' : Discovery PKIid} {h : Handler PKIid}
    (hh : h.Inv self d) (hmono : ∀ id, d.id2Member.get? id = none → d'.id2Member.get? id = none) :
    h.Inv self d' := by
  cases h with
  | learnNew m rest => exact ⟨hmono _ hh.1, hh.2⟩
  | learnDead m rest => exact ⟨hmono _ hh.1, hh.2⟩
  | _ => exact hh

omit [DecidableEq PKIid] in
theorem NoDeadSelf.tail {self : PKIid} {t : Task PKIid} {rest : List (Task PKIid)}
    (h : NoDeadSelf self (t :: rest)) : NoDeadSelf self rest :=
  fun m hm => h m (List.mem_cons_of_mem _ hm)

omit [DecidableEq PKIid] in
theorem NoDeadSelf.dead {self : PKIid} {m : AliveMessage PKIid} {rest : List (Task PKIid)}
    (h : NoDeadSelf self (.dead m :: rest)) : m.pkiId ≠ self :=
  h m List.mem_cons_self

section StepInv

variable {self : PKIid} {d d' : Discovery PKIid} {h h' : Handler PKIid} {now : Nat}

/-- The checks before handling a message: it is valid, and not about this peer. -/
theorem not_self_of_checks {b : Bool} {m : AliveMessage PKIid}
    (hchecks : ¬ (!b || decide (m.pkiId = self)) = true) : m.pkiId ≠ self := by
  simp only [Bool.or_eq_true, Bool.not_eq_eq_eq_not, Bool.not_true, decide_eq_true_eq,
    not_or] at hchecks
  exact hchecks.2

/-- One lock section of the goroutine keeps the bookkeeping and its own invariant. -/
theorem Handler.inv_step (hd : d.Inv) (hh : h.Inv self d)
    (hstep : h.step self d now = .ok (d', h')) : d'.Inv ∧ h'.Inv self d' := by
  cases h with
  | next rest =>
    match rest, hh, hstep with
    | [], hh, hstep =>
      obtain ⟨rfl, rfl⟩ := Prod.mk.inj (Except.ok.inj hstep)
      exact ⟨hd, hh⟩
    | .alive m :: rest, hh, hstep =>
      simp only [Handler.step] at hstep
      split at hstep
      · obtain ⟨rfl, rfl⟩ := Prod.mk.inj (Except.ok.inj hstep)
        exact ⟨hd, hh.tail⟩
      · rename_i hchecks
        obtain ⟨rfl, rfl⟩ := Prod.mk.inj (Except.ok.inj hstep)
        exact ⟨hd, not_self_of_checks hchecks, hh.tail⟩
    | .member m :: rest, hh, hstep =>
      simp only [Handler.step] at hstep
      split at hstep
      · obtain ⟨rfl, rfl⟩ := Prod.mk.inj (Except.ok.inj hstep)
        exact ⟨hd, hh.tail⟩
      · rename_i hchecks
        obtain ⟨rfl, rfl⟩ := Prod.mk.inj (Except.ok.inj hstep)
        exact ⟨hd, not_self_of_checks hchecks, hh.tail⟩
    | .dead m :: rest, hh, hstep =>
      simp only [Handler.step] at hstep
      split at hstep <;> obtain ⟨rfl, rfl⟩ := Prod.mk.inj (Except.ok.inj hstep)
      · exact ⟨hd, hh.tail⟩
      · exact ⟨hd, hh.dead, hh.tail⟩
  | known m rest =>
    simp only [Handler.step] at hstep
    split at hstep <;> obtain ⟨rfl, rfl⟩ := Prod.mk.inj (Except.ok.inj hstep)
    · exact ⟨hd, hh.2⟩
    · rename_i hunknown
      exact ⟨hd, by simpa using hunknown, hh⟩
  | lastTS m rest =>
    simp only [Handler.step] at hstep
    split at hstep
    · cases hstep
    · cases hstep
    · split at hstep <;> obtain ⟨rfl, rfl⟩ := Prod.mk.inj (Except.ok.inj hstep) <;> exact ⟨hd, hh⟩
    · obtain ⟨rfl, rfl⟩ := Prod.mk.inj (Except.ok.inj hstep)
      exact ⟨hd, hh⟩
  | aliveTS m rest =>
    simp only [Handler.step] at hstep
    split at hstep
    · split at hstep <;> obtain ⟨rfl, rfl⟩ := Prod.mk.inj (Except.ok.inj hstep) <;> exact ⟨hd, hh⟩
    · obtain ⟨rfl, rfl⟩ := Prod.mk.inj (Except.ok.inj hstep)
      exact ⟨hd, hh⟩
  | learnNew m rest =>
    obtain ⟨rfl, rfl⟩ := Prod.mk.inj (Except.ok.inj hstep)
    exact ⟨Discovery.inv_learnNewMembers_alive hd hh.1 hh.2.1, hh.2.2⟩
  | learnExisting m rest =>
    simp only [Handler.step] at hstep
    split at hstep
    · rename_i d₁ hd₁
      obtain ⟨rfl, rfl⟩ := Prod.mk.inj (Except.ok.inj hstep)
      exact ⟨Discovery.inv_learnExistingMembers hd hd₁, hh⟩
    · cases hstep
  | resurrect m rest =>
    obtain ⟨rfl, rfl⟩ := Prod.mk.inj (Except.ok.inj hstep)
    exact ⟨Discovery.inv_resurrectMember hd, hh⟩
  | deadKnown m rest =>
    simp only [Handler.step] at hstep
    split at hstep <;> obtain ⟨rfl, rfl⟩ := Prod.mk.inj (Except.ok.inj hstep)
    · exact ⟨hd, hh.2⟩
    · rename_i hunknown
      exact ⟨hd, by simpa using hunknown, hh⟩
  | learnDead m rest =>
    obtain ⟨rfl, rfl⟩ := Prod.mk.inj (Except.ok.inj hstep)
    exact ⟨Discovery.inv_learnNewMembers_dead hd hh.1 hh.2.1, hh.2.2⟩

end StepInv

/-! ## Runs -/

/-- The peer's invariant: the bookkeeping of the maps and the goroutine's own. -/
def Sys.Inv (self : PKIid) (s : Sys PKIid) : Prop :=
  s.discovery.Inv ∧ s.handler.Inv self s.discovery

/-- A step of the runs the bookkeeping holds over: a membership response carries no dead
    message about this peer itself. -/
def Event.Sound (self : PKIid) : Event PKIid → Prop
  | .receive msg => NoDeadSelf self msg.tasks
  | _ => True

section Run

variable {self : PKIid} {aliveExpirationTimeout : Nat} {bootstrapPeers : List String}
  {isAnchorPeer : String → Bool} {s s' : Sys PKIid} {e : Event PKIid}

/-- Every step of the three activities keeps the peer's invariant. -/
theorem Sys.inv_step (hs : s.Inv self) (he : e.Sound self)
    (hstep : s.step self aliveExpirationTimeout bootstrapPeers isAnchorPeer e = .ok s') :
    s'.Inv self := by
  cases e with
  | receive msg =>
    simp only [Sys.step] at hstep
    split at hstep <;> obtain rfl := Except.ok.inj hstep
    · exact ⟨hs.1, he⟩
    · exact hs
  | handle now =>
    simp only [Sys.step, bind, Except.bind] at hstep
    cases hh : s.handler.step self s.discovery now with
    | error p => simp [hh] at hstep
    | ok r =>
      simp only [hh, pure, Except.pure, Except.ok.injEq] at hstep
      subst hstep
      exact Handler.inv_step hs.1 hs.2 hh
  | checkAlive now =>
    simp only [Sys.step] at hstep
    split at hstep
    · rename_i d' hd'
      obtain rfl := Except.ok.inj hstep
      -- members only move between the alive and the dead
      exact ⟨Discovery.inv_expireDeadMembers hs.1 hd',
        hs.2.mono fun _ h => by rw [Discovery.expireDeadMembers_id2Member hd']; exact h⟩
    · cases hstep
  | expireStore now =>
    obtain rfl := Except.ok.inj hstep
    exact ⟨Discovery.inv_expireStore bootstrapPeers isAnchorPeer hs.1 now,
      hs.2.mono fun _ h => Discovery.id2Member_expireStore_eq_none bootstrapPeers isAnchorPeer h now⟩

/-- The bookkeeping of the maps holds after every step of every run whose membership responses
    carry no dead message about this peer. -/
theorem Sys.run_inv {events : List (Event PKIid)} (hs : s.Inv self)
    (hevents : ∀ e ∈ events, e.Sound self)
    (hrun : s.run self aliveExpirationTimeout bootstrapPeers isAnchorPeer events = .ok s') :
    s'.discovery.Inv :=
  (@FoldM.except_inv _ _ _ (Sys.Inv self) (Event.Sound self) _
    (fun _ _ _ hs he hstep => Sys.inv_step hs he hstep) events s s' hs hevents hrun).1

/-- The goroutine finds a member both alive and dead only if the bookkeeping is broken. -/
theorem Handler.step_ne_bothAliveAndDead {d : Discovery PKIid} (hd : d.Inv) (h : Handler PKIid)
    (now : Nat) : h.step self d now ≠ .error .bothAliveAndDead := by
  cases h with
  | lastTS m rest =>
    simp only [Handler.step]
    split
    · simp
    · rename_i halive hdead
      exact absurd ⟨by simp [halive], by simp [hdead]⟩ (hd m.pkiId).2.1
    · split <;> simp
    · simp
  | next rest =>
    match rest with
    | [] => simp [Handler.step]
    | .alive m :: rest => simp only [Handler.step]; split <;> simp
    | .member m :: rest => simp only [Handler.step]; split <;> simp
    | .dead m :: rest => simp only [Handler.step]; split <;> simp
  | known m rest => simp only [Handler.step]; split <;> simp
  | aliveTS m rest => simp only [Handler.step]; split <;> (try split) <;> simp
  | learnExisting m rest => simp only [Handler.step]; split <;> simp
  | deadKnown m rest => simp only [Handler.step]; split <;> simp
  | learnNew m rest | resurrect m rest | learnDead m rest => simp [Handler.step]

theorem Sys.step_ne_bothAliveAndDead (hs : s.Inv self) (e : Event PKIid) :
    s.step self aliveExpirationTimeout bootstrapPeers isAnchorPeer e ≠ .error .bothAliveAndDead := by
  cases e with
  | receive msg => simp only [Sys.step]; split <;> simp
  | handle now =>
    simp only [Sys.step, bind, Except.bind]
    cases hh : s.handler.step self s.discovery now with
    | error p =>
      simp only [ne_eq, Except.error.injEq]
      rintro rfl
      exact Handler.step_ne_bothAliveAndDead hs.1 s.handler now hh
    | ok r => simp [pure, Except.pure]
  | checkAlive now => simp only [Sys.step]; split <;> simp
  | expireStore now => simp [Sys.step]

/-- Over every run whose membership responses carry no dead message about this peer, the
    goroutine never finds a member both alive and dead. -/
theorem Sys.run_ne_bothAliveAndDead {events : List (Event PKIid)} (hs : s.Inv self)
    (hevents : ∀ e ∈ events, e.Sound self) :
    s.run self aliveExpirationTimeout bootstrapPeers isAnchorPeer events ≠ .error .bothAliveAndDead :=
  @FoldM.except_ne_error _ _ _ (Sys.Inv self) (Event.Sound self) _ _
    (fun _ _ _ hs he hstep => Sys.inv_step hs he hstep)
    (fun _ e hs _ => Sys.step_ne_bothAliveAndDead hs e) events s hs hevents

end Run

/-! ## Expiry between the lock sections of `handleAliveMessage` -/

namespace Discovery

variable {bootstrapPeers : List String} {isAnchorPeer : String → Bool}

/-- Whether the store's expiry never forgets the member of an alive message. -/
def Kept (bootstrapPeers : List String) (isAnchorPeer : String → Bool)
    (msg : AliveMessage PKIid) : Prop :=
  msg.endpoint ∈ bootstrapPeers ∨ msg.internalEndpoint ∈ bootstrapPeers ∨
    isAnchorPeer msg.endpoint = true ∨ isAnchorPeer msg.internalEndpoint = true

/-- A member without timestamps stays without them through the callbacks. -/
theorem noTS_foldl_expireMsgCallback {id : PKIid} :
    ∀ (expired : List (AliveMessage PKIid)) (d : Discovery PKIid),
      d.aliveLastTS.get? id = none → d.deadLastTS.get? id = none →
      (expired.foldl (expireMsgCallback bootstrapPeers isAnchorPeer) d).aliveLastTS.get? id = none ∧
      (expired.foldl (expireMsgCallback bootstrapPeers isAnchorPeer) d).deadLastTS.get? id = none
  | [], _, halive, hdead => ⟨halive, hdead⟩
  | msg :: expired, d, halive, hdead => by
    refine noTS_foldl_expireMsgCallback expired _ ?_ ?_ <;>
    · unfold expireMsgCallback
      split
      · assumption
      · simp [halive, hdead]

/-- The callback on an expired message of a member that is not kept forgets the member's
    timestamps. -/
theorem noTS_foldl_expireMsgCallback_of_mem {msg : AliveMessage PKIid}
    (hkeep : ¬ Kept bootstrapPeers isAnchorPeer msg) :
    ∀ (expired : List (AliveMessage PKIid)) (d : Discovery PKIid), msg ∈ expired →
      (expired.foldl (expireMsgCallback bootstrapPeers isAnchorPeer) d).aliveLastTS.get? msg.pkiId = none ∧
      (expired.foldl (expireMsgCallback bootstrapPeers isAnchorPeer) d).deadLastTS.get? msg.pkiId = none
  | msg' :: expired, d, hmem => by
    rcases List.mem_cons.mp hmem with rfl | hmem
    · -- forgotten here, and kept forgotten after
      have hforget : expireMsgCallback bootstrapPeers isAnchorPeer d msg =
          { d with
            aliveMembership := d.aliveMembership.erase msg.pkiId
            deadMembership := d.deadMembership.erase msg.pkiId
            id2Member := d.id2Member.erase msg.pkiId
            deadLastTS := d.deadLastTS.erase msg.pkiId
            aliveLastTS := d.aliveLastTS.erase msg.pkiId } := if_neg hkeep
      rw [List.foldl_cons, hforget]
      exact noTS_foldl_expireMsgCallback expired _ (by simp) (by simp)
    · exact noTS_foldl_expireMsgCallback_of_mem hkeep expired _ hmem

end Discovery

/-- The store's expiry of an alive message about the member the goroutine has just found known
    forgets the member, unless it is kept, and the goroutine's next lock section panics: the
    member is neither alive nor dead. -/
theorem lastTS_after_expiry_panics {self : PKIid} {aliveExpirationTimeout : Nat}
    {bootstrapPeers : List String} {isAnchorPeer : String → Bool} {s : Sys PKIid}
    {m : AliveMessage PKIid} {rest : List (Task PKIid)} {stored : Msg (AliveMessage PKIid)}
    {now now' : Nat} (hh : s.handler = .lastTS m rest)
    (hstored : stored ∈ s.discovery.msgStore.messages) (hid : stored.data.pkiId = m.pkiId)
    (hexpired : stored.expired = false) (hold : now - stored.created > s.discovery.msgStore.msgTTL)
    (hkeep : ¬ Discovery.Kept bootstrapPeers isAnchorPeer stored.data) :
    s.run self aliveExpirationTimeout bootstrapPeers isAnchorPeer [.expireStore now, .handle now'] =
      .error .knownNotFound := by
  obtain ⟨halive, hdead⟩ := Discovery.noTS_foldl_expireMsgCallback_of_mem hkeep _
    { s.discovery with msgStore := s.discovery.msgStore.expireMessages now }
    (MessageStore.mem_expiring hstored hexpired hold)
  rw [hid] at halive hdead
  simp only [Sys.run, List.foldlM_cons, Sys.step, bind, Except.bind, hh, Handler.step,
    Discovery.expireStore, halive, hdead]

/-- Peer `1` sends an alive message at time `0` and is silent until the check at time `10`
    finds it dead. At time `101`, past the store's TTL of `100` but before the store's expiry
    has run, a membership response carries a newer alive message of it; the goroutine finds it
    known, the store's expiry of the first message forgets it, and the goroutine panics,
    although the bookkeeping of the maps holds right before. -/
theorem handleAliveMessage_known_not_found :
    ∃ s : Sys Nat,
      Sys.run 0 5 [] (fun _ => false) ⟨newDiscovery 100, .next []⟩
        [.receive (.aliveMsg ⟨1, "p1", ⟨1, 1⟩, none⟩), .handle 0, .handle 0, .handle 0,
          .checkAlive 10, .receive (.memResp [⟨1, "p1", ⟨1, 2⟩, none⟩] []), .handle 101,
          .handle 101] = .ok s ∧
      s.discovery.Inv ∧
      s.run 0 5 [] (fun _ => false) [.expireStore 101, .handle 101] = .error .knownNotFound := by
  have hs : (⟨newDiscovery 100, .next []⟩ : Sys Nat).Inv 0 :=
    ⟨inv_newDiscovery 100, by simp [Handler.Inv, NoDeadSelf]⟩
  -- the bookkeeping holds after the run, whatever it computes
  generalize hrun : Sys.run 0 5 [] (fun _ => false) ⟨newDiscovery 100, .next []⟩ _ = r
  have hinv : ∀ s, r = .ok s → s.discovery.Inv := fun _ h =>
    Sys.run_inv hs (by simp [Event.Sound, NoDeadSelf, Received.tasks]) (hrun.trans h)
  subst hrun
  -- the first alive message, still held and unmarked at time 101
  have hstored := List.mem_singleton_self
    (⟨⟨1, "p1", ⟨1, 1⟩, none⟩, 0, false⟩ : Msg (AliveMessage Nat))
  exact ⟨_, rfl, hinv _ rfl, lastTS_after_expiry_panics rfl hstored rfl rfl (by decide)
    (by simp [Discovery.Kept, AliveMessage.internalEndpoint])⟩

/-- The runs of `Sys.run_inv` exclude dead messages about this peer: a membership response that
    lists peer `0` as dead, to peer `0` itself, makes it a member with no timestamp. The store
    holds no message about the peer itself, so the store's check lets the message through. -/
theorem Sys.run_deadSelf_breaks_inv :
    ∃ s : Sys Nat,
      Sys.run 0 5 [] (fun _ => false) ⟨newDiscovery 100, .next []⟩
        [.receive (.memResp [] [⟨0, "p0", ⟨1, 1⟩, none⟩]), .handle 0, .handle 0, .handle 0] =
        .ok s ∧
      ¬ s.discovery.Inv :=
  ⟨_, rfl, Discovery.learnNewMembers_dead_self (inv_newDiscovery 100) rfl rfl⟩

end

end Fabric.Gossip
