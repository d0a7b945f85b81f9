import Fabric.Lib.GoMap
import Fabric.Ledger.Version
import Mathlib

/-
  Raft membership bookkeeping (`orderer/consensus/etcdraft/membership.go`, `util.go`).

  The consenters of a channel are a Go map from Raft node ids to consenters, and the block
  metadata lists the ids in the order of the config and holds the id the next added consenter
  gets. `ComputeMembershipChanges` takes the old metadata and map and the new list of
  consenters. A first loop walks the new list: a consenter whose client TLS certificate is
  known keeps the node's id, any other is added and its index remembered. A second loop walks
  the old map: a consenter whose certificate is not in the new list is removed, and its id
  remembered. The switch afterwards gives a lone added consenter a fresh id (`AddNode`), drops
  a lone removed one (`RemoveNode`), gives the added consenter of a rotation the removed id,
  and refuses more than one change at a time. The caller feeds each result back as the next
  metadata and map.

  Proved, for a map with distinct certificates and ids below `NextConsenterId`, and a new list
  with distinct certificates: the call fails exactly when more than one consenter is added or
  more than one removed; otherwise the new ids list the new consenters in order, are distinct
  and are the keys of the new map, a known consenter keeps its id, and each of the four
  changes is made as its case says (`computeMembershipChanges_spec`). The hypotheses hold
  again for the result unless an addition takes `NextConsenterId` past `2^64 - 1`, so they
  hold along every run of fewer than `2^64 - NextConsenterId` calls (`membership_runs`). The
  counter is a `uint64`: from `NextConsenterId = 2^64 - 1`, three additions give a new
  consenter an id already in use (`membership_runs_wrap`).

  The iteration order of the old map is the order of its entries; the results proved do not
  depend on it, since the one remembered id is that of the only removed consenter.
-/

namespace Fabric.Orderer

open Fabric.Ledger (Bytes)

/-- `etcdraft.Consenter`. -/
structure Consenter where
  host : String
  port : UInt32
  clientTlsCert : Bytes
  serverTlsCert : Bytes
  deriving DecidableEq, Repr

/-- `etcdraft.BlockMetadata`. -/
structure BlockMetadata where
  consenterIds : List UInt64
  nextConsenterId : UInt64
  raftIndex : UInt64
  deriving DecidableEq, Repr

/-- `raftpb.ConfChangeType`, the two kinds `ComputeMembershipChanges` makes. -/
inductive ConfChangeType
  | addNode
  | removeNode
  deriving DecidableEq, Repr

/-- `raftpb.ConfChange`: its type and node. -/
structure ConfChange where
  type : ConfChangeType
  nodeID : UInt64
  deriving DecidableEq, Repr

/-- `MembershipChanges`. A nil `ConfChange` is `none`; `RotatedNode` is `raft.None`, `0`, unless
    a certificate was rotated. -/
structure MembershipChanges where
  newBlockMetadata : BlockMetadata
  newConsenters : GoMap UInt64 Consenter
  addedNodes : List Consenter
  removedNodes : List Consenter
  confChange : Option ConfChange
  rotatedNode : UInt64

/-- The error of `ComputeMembershipChanges`: "update of more than one consenter at a time is not
    supported, requested changes: add %d node(s), remove %d node(s)". -/
inductive MembershipError
  | moreThanOneConsenter (added removed : Nat)
  deriving DecidableEq, Repr

/-- `MembershipByCert`: the node id of each client TLS certificate. -/
def membershipByCert (consenters : GoMap UInt64 Consenter) : GoMap Bytes UInt64 :=
  consenters.entries.foldl (fun set e => set.insert e.2.clientTlsCert e.1) GoMap.empty

/-- `ConsentersMap`: a set of client TLS certificates. -/
abbrev ConsentersMap := GoMap Bytes Unit

/-- `ConsentersMap.Exists`. -/
def ConsentersMap.«exists» (c : ConsentersMap) (consenter : Consenter) : Bool :=
  c.contains consenter.clientTlsCert

/-- `ConsentersToMap`. -/
def consentersToMap (consenters : List Consenter) : ConsentersMap :=
  consenters.foldl (fun set c => set.insert c.clientTlsCert ()) GoMap.empty

/-- One pass of `for i, c := range newConsenters`: a known certificate keeps the node's id, any
    other consenter is added and its index kept. -/
def addedStep (currentConsentersSet : GoMap Bytes UInt64) (acc : MembershipChanges × Nat)
    (ci : Consenter × Nat) : MembershipChanges × Nat :=
  match currentConsentersSet.get? ci.1.clientTlsCert with
  | some nodeID =>
    ({ acc.1 with
        newBlockMetadata := { acc.1.newBlockMetadata with
          consenterIds := acc.1.newBlockMetadata.consenterIds.set ci.2 nodeID }
        newConsenters := acc.1.newConsenters.insert nodeID ci.1 }, acc.2)
  | none => ({ acc.1 with addedNodes := acc.1.addedNodes ++ [ci.1] }, ci.2)

/-- One pass of `for nodeID, c := range oldConsenters`: a consenter whose certificate is not in
    the new list is removed, and its id kept. -/
def removedStep (newConsentersSet : ConsentersMap) (acc : MembershipChanges × UInt64)
    (e : UInt64 × Consenter) : MembershipChanges × UInt64 :=
  if !newConsentersSet.exists e.2 then
    ({ acc.1 with removedNodes := acc.1.removedNodes ++ [e.2] }, e.1)
  else acc

/-- The `switch` of `ComputeMembershipChanges` on the numbers of added and removed nodes, as a
    match on the two lists, one case per length pair it names. -/
def membershipSwitch (result : MembershipChanges) (addedNodeIndex : Nat)
    (deletedNodeID : UInt64) : Except MembershipError MembershipChanges :=
  match result.addedNodes, result.removedNodes with
  | [addedNode], [_] =>
    -- a rotated certificate: the added consenter takes the removed id
    .ok { result with
      rotatedNode := deletedNodeID
      newBlockMetadata := { result.newBlockMetadata with
        consenterIds := result.newBlockMetadata.consenterIds.set addedNodeIndex deletedNodeID }
      newConsenters := result.newConsenters.insert deletedNodeID addedNode }
  | [addedNode], [] =>
    let nodeID := result.newBlockMetadata.nextConsenterId
    .ok { result with
      newConsenters := result.newConsenters.insert nodeID addedNode
      newBlockMetadata := { result.newBlockMetadata with
        consenterIds := result.newBlockMetadata.consenterIds.set addedNodeIndex nodeID
        nextConsenterId := nodeID + 1 }
      confChange := some ⟨.addNode, nodeID⟩ }
  | [], [_] =>
    .ok { result with
      confChange := some ⟨.removeNode, deletedNodeID⟩
      newConsenters := result.newConsenters.erase deletedNodeID }
  | [], [] => .ok result
  | addedNodes, removedNodes =>
    .error (.moreThanOneConsenter addedNodes.length removedNodes.length)

/-- `ComputeMembershipChanges`. -/
def computeMembershipChanges (oldMetadata : BlockMetadata)
    (oldConsenters : GoMap UInt64 Consenter) (newConsenters : List Consenter) :
    Except MembershipError MembershipChanges :=
  let result : MembershipChanges :=
    { newBlockMetadata := { oldMetadata with
        consenterIds := List.replicate newConsenters.length 0 }
      newConsenters := GoMap.empty
      addedNodes := []
      removedNodes := []
      confChange := none
      rotatedNode := 0 }
  let currentConsentersSet := membershipByCert oldConsenters
  let added := newConsenters.zipIdx.foldl (addedStep currentConsentersSet) (result, 0)
  let newConsentersSet := consentersToMap newConsenters
  let removed := oldConsenters.entries.foldl (removedStep newConsentersSet) (added.1, 0)
  membershipSwitch removed.1 added.2 removed.2

/-! ## The two loops -/

section Loops

/-- The writes of the first loop to the new map: each known consenter under its node's id. -/
def knownEntries (currentConsentersSet : GoMap Bytes UInt64) (newConsenters : List Consenter) :
    List (UInt64 × Consenter) :=
  newConsenters.filterMap fun c => (currentConsentersSet.get? c.clientTlsCert).map (·, c)

/-- The consenters the first loop adds: those with an unknown certificate. -/
def unknownConsenters (currentConsentersSet : GoMap Bytes UInt64)
    (newConsenters : List Consenter) : List Consenter :=
  newConsenters.filter fun c => currentConsentersSet.get? c.clientTlsCert = none

theorem set_length_append_replicate {α : Type} (l : List α) (m : Nat) (a b : α) :
    (l ++ List.replicate (m + 1) a).set l.length b = l ++ b :: List.replicate m a := by
  rw [List.set_append_right _ _ (Nat.le_refl _), Nat.sub_self, List.replicate_succ,
    List.set_cons_zero]

/-- The first loop over a prefix `P` of the new list: the ids of the known consenters in their
    slots, zero in the others, their writes to the new map, the unknown consenters added, and
    the index of the last of those. -/
theorem addedLoop_spec (set : GoMap Bytes UInt64) (r0 : MembershipChanges) (n : Nat)
    (hids : r0.newBlockMetadata.consenterIds = List.replicate n 0) :
    ∀ P : List Consenter, P.length ≤ n →
      (P.zipIdx.foldl (addedStep set) (r0, 0)).1 =
        { r0 with
          newBlockMetadata := { r0.newBlockMetadata with
            consenterIds := P.map (fun c => (set.get? c.clientTlsCert).getD 0) ++
              List.replicate (n - P.length) 0 }
          newConsenters := (knownEntries set P).foldl (fun m e => m.insert e.1 e.2)
            r0.newConsenters
          addedNodes := r0.addedNodes ++ unknownConsenters set P } ∧
      ∀ a, unknownConsenters set P = [a] → P[(P.zipIdx.foldl (addedStep set) (r0, 0)).2]? = some a
  := by
  intro P
  induction P using List.reverseRecOn with
  | nil =>
    intro _
    refine ⟨?_, fun a ha => by cases ha⟩
    simp [← hids, knownEntries, unknownConsenters]
  | append_singleton P c ih =>
    intro hlen
    simp only [List.length_append, List.length_singleton] at hlen
    obtain ⟨hout, hidx⟩ := ih (by omega)
    have hn : n - P.length = (n - (P.length + 1)) + 1 := by omega
    rw [List.zipIdx_append, List.foldl_append]
    simp only [List.zipIdx_cons, List.zipIdx_nil, Nat.zero_add, List.foldl_cons, List.foldl_nil]
    generalize P.zipIdx.foldl (addedStep set) (r0, 0) = out at hout hidx
    obtain ⟨r, idx⟩ := out
    dsimp only at hout hidx
    subst hout
    cases hc : set.get? c.clientTlsCert with
    | some nodeID =>
      -- a known consenter takes its id in its slot and in the map
      have hunk : unknownConsenters set (P ++ [c]) = unknownConsenters set P := by
        simp [unknownConsenters, List.filter_append, hc]
      refine ⟨?_, fun a ha => ?_⟩
      · simp only [addedStep, hc, knownEntries, List.filterMap_append, List.foldl_append,
          List.filterMap_cons, List.filterMap_nil, Option.map_some, List.foldl_cons,
          List.foldl_nil, hunk, List.map_append, List.map_cons, List.map_nil, Option.getD_some]
        rw [hn, ← List.length_map (f := fun c => (set.get? c.clientTlsCert).getD 0),
          set_length_append_replicate, List.length_map]
        simp [List.append_assoc]
      · rw [hunk] at ha
        have h := hidx a ha
        simp only [addedStep, hc]
        rw [List.getElem?_append_left (List.getElem?_eq_some_iff.mp h).1, h]
    | none =>
      -- an unknown consenter is added and its index kept
      have hunk : unknownConsenters set (P ++ [c]) = unknownConsenters set P ++ [c] := by
        simp [unknownConsenters, List.filter_append, hc]
      refine ⟨?_, fun a ha => ?_⟩
      · simp only [addedStep, hc, knownEntries, List.filterMap_append, List.foldl_append,
          List.filterMap_cons, List.filterMap_nil, Option.map_none, List.foldl_nil, hunk,
          List.map_append, List.map_cons, List.map_nil, Option.getD_none, List.append_assoc]
        rw [hn, List.replicate_succ]
        simp
      · rw [hunk] at ha
        have hca : c = a := by simpa using congrArg List.getLast? ha
        subst hca
        simp [addedStep, hc]

/-- The old entries the second loop removes: those whose certificate is not in the new list. -/
def removedEntries (newConsentersSet : ConsentersMap) (oldEntries : List (UInt64 × Consenter)) :
    List (UInt64 × Consenter) :=
  oldEntries.filter fun e => !newConsentersSet.exists e.2

/-- The second loop over entries `E` of the old map: the consenters it removes, and the id of
    the last of them. -/
theorem removedLoop_spec (newSet : ConsentersMap) (r0 : MembershipChanges) (d0 : UInt64) :
    ∀ E : List (UInt64 × Consenter),
      (E.foldl (removedStep newSet) (r0, d0)).1 =
        { r0 with removedNodes := r0.removedNodes ++ (removedEntries newSet E).map Prod.snd } ∧
      ∀ e, removedEntries newSet E = [e] → (E.foldl (removedStep newSet) (r0, d0)).2 = e.1 := by
  intro E
  induction E using List.reverseRecOn with
  | nil =>
    refine ⟨by simp [removedEntries], fun e he => by cases he⟩
  | append_singleton E e ih =>
    obtain ⟨hout, hlast⟩ := ih
    rw [List.foldl_append, List.foldl_cons, List.foldl_nil]
    generalize E.foldl (removedStep newSet) (r0, d0) = out at hout hlast
    obtain ⟨r, d⟩ := out
    dsimp only at hout hlast
    subst hout
    by_cases he : newSet.exists e.2 = true
    · -- a consenter still in the new list stays
      have hrem : removedEntries newSet (E ++ [e]) = removedEntries newSet E := by
        simp [removedEntries, List.filter_append, he]
      simp only [removedStep, he, Bool.not_true, Bool.false_eq_true, if_false, hrem]
      exact ⟨trivial, hlast⟩
    · have hrem : removedEntries newSet (E ++ [e]) = removedEntries newSet E ++ [e] := by
        simp [removedEntries, List.filter_append, he]
      simp only [removedStep, he, Bool.not_false, if_true, hrem]
      refine ⟨by simp, fun e' he' => ?_⟩
      have hee : e = e' := by simpa using congrArg List.getLast? he'
      rw [hee]

end Loops

/-! ## The certificate sets -/

section Sets

/-- The consenters of the new list whose certificate no old consenter has. -/
def addedConsenters (C : GoMap UInt64 Consenter) (L : List Consenter) : List Consenter :=
  L.filter fun c => c.clientTlsCert ∉ C.entries.map (·.2.clientTlsCert)

/-- The old entries whose certificate no new consenter has. -/
def removedConsenters (C : GoMap UInt64 Consenter) (L : List Consenter) :
    List (UInt64 × Consenter) :=
  C.entries.filter fun e => e.2.clientTlsCert ∉ L.map (·.clientTlsCert)

variable {C : GoMap UInt64 Consenter} {L : List Consenter}

/-- With distinct certificates, the set of `MembershipByCert` maps each certificate to the id
    of its consenter. -/
theorem get?_membershipByCert (hC : (C.entries.map (·.2.clientTlsCert)).Nodup)
    (cert : Bytes) (k : UInt64) :
    (membershipByCert C).get? cert = some k ↔ ∃ c, C.get? k = some c ∧ c.clientTlsCert = cert := by
  unfold membershipByCert
  constructor
  · intro h
    rcases GoMap.get?_foldl_insert (fun e => e.2.clientTlsCert) Prod.fst C.entries GoMap.empty h
      with h | ⟨e, he, hcert, rfl⟩
    · cases h
    · exact ⟨e.2, C.get?_of_mem he, hcert⟩
  · rintro ⟨c, hc, rfl⟩
    exact GoMap.get?_foldl_insert_of_mem (fun e => e.2.clientTlsCert) Prod.fst hC
      (GoMap.mem_entries_of_get? hc) GoMap.empty

theorem get?_membershipByCert_eq_none (hC : (C.entries.map (·.2.clientTlsCert)).Nodup)
    (cert : Bytes) :
    (membershipByCert C).get? cert = none ↔ cert ∉ C.entries.map (·.2.clientTlsCert) := by
  constructor
  · intro h hmem
    obtain ⟨e, he, rfl⟩ := List.mem_map.mp hmem
    have := (get?_membershipByCert hC e.2.clientTlsCert e.1).mpr ⟨e.2, C.get?_of_mem he, rfl⟩
    rw [h] at this
    cases this
  · intro h
    cases hk : (membershipByCert C).get? cert with
    | none => rfl
    | some k =>
      obtain ⟨c, hc, rfl⟩ := (get?_membershipByCert hC _ k).mp hk
      exact absurd (List.mem_map_of_mem (GoMap.mem_entries_of_get? hc)) h

theorem exists_consentersToMap (hL : (L.map (·.clientTlsCert)).Nodup) (c : Consenter) :
    (consentersToMap L).exists c = true ↔ c.clientTlsCert ∈ L.map (·.clientTlsCert) := by
  rw [ConsentersMap.exists, GoMap.contains_iff, Option.isSome_iff_exists, consentersToMap]
  constructor
  · rintro ⟨u, hu⟩
    rcases GoMap.get?_foldl_insert (fun c => c.clientTlsCert) (fun _ => ()) L GoMap.empty hu
      with h | ⟨c', hc', hcert, -⟩
    · cases h
    · exact List.mem_map.mpr ⟨c', hc', hcert⟩
  · intro h
    obtain ⟨c', hc', hcert⟩ := List.mem_map.mp h
    rw [← hcert]
    exact ⟨(), GoMap.get?_foldl_insert_of_mem (fun c => c.clientTlsCert) (fun _ => ()) hL hc'
      GoMap.empty⟩

theorem unknownConsenters_membershipByCert (hC : (C.entries.map (·.2.clientTlsCert)).Nodup) :
    unknownConsenters (membershipByCert C) L = addedConsenters C L := by
  simp only [unknownConsenters, addedConsenters, get?_membershipByCert_eq_none hC]

theorem removedEntries_consentersToMap (hL : (L.map (·.clientTlsCert)).Nodup) :
    removedEntries (consentersToMap L) C.entries = removedConsenters C L := by
  unfold removedEntries removedConsenters
  refine List.filter_congr fun e _ => ?_
  by_cases h : e.2.clientTlsCert ∈ L.map (·.clientTlsCert)
  · simp [(exists_consentersToMap hL e.2).mpr h, h]
  · have hno : (consentersToMap L).exists e.2 = false :=
      Bool.eq_false_iff.mpr fun h' => h ((exists_consentersToMap hL e.2).mp h')
    simp [hno, h]

/-- The map the first loop writes: each known consenter under its node's id. -/
def knownMap (C : GoMap UInt64 Consenter) (L : List Consenter) : GoMap UInt64 Consenter :=
  (knownEntries (membershipByCert C) L).foldl (fun m e => m.insert e.1 e.2) GoMap.empty

theorem nodup_knownEntries_keys (hC : (C.entries.map (·.2.clientTlsCert)).Nodup)
    (hL : (L.map (·.clientTlsCert)).Nodup) :
    ((knownEntries (membershipByCert C) L).map Prod.fst).Nodup := by
  have hkeys : (knownEntries (membershipByCert C) L).map Prod.fst =
      (L.map (·.clientTlsCert)).filterMap (membershipByCert C).get? := by
    simp [knownEntries, List.map_filterMap, List.filterMap_map, Function.comp_def]
  rw [hkeys]
  refine List.Nodup.filterMap (fun x y k hx hy => ?_) hL
  -- two certificates with the same id are the certificate of that id's one consenter
  obtain ⟨c, hc, rfl⟩ := (get?_membershipByCert hC x k).mp (Option.mem_def.mp hx)
  obtain ⟨c', hc', rfl⟩ := (get?_membershipByCert hC y k).mp (Option.mem_def.mp hy)
  rw [hc] at hc'
  cases hc'
  rfl

theorem get?_knownMap (hC : (C.entries.map (·.2.clientTlsCert)).Nodup)
    (hL : (L.map (·.clientTlsCert)).Nodup) (k : UInt64) (c : Consenter) :
    (knownMap C L).get? k = some c ↔ c ∈ L ∧ (membershipByCert C).get? c.clientTlsCert = some k := by
  have hmem : (k, c) ∈ knownEntries (membershipByCert C) L ↔
      c ∈ L ∧ (membershipByCert C).get? c.clientTlsCert = some k := by
    simp [knownEntries, and_comm]
  rw [← hmem]
  constructor
  · intro h
    rcases GoMap.get?_foldl_insert Prod.fst Prod.snd _ GoMap.empty h with h | ⟨e, he, rfl, rfl⟩
    · cases h
    · exact he
  · intro h
    exact GoMap.get?_foldl_insert_of_mem Prod.fst Prod.snd (nodup_knownEntries_keys hC hL) h
      GoMap.empty

end Sets

/-! ## The switch -/

section Switch

variable {M : BlockMetadata} {C : GoMap UInt64 Consenter} {L : List Consenter}

/-- What the two loops build: the ids of the known consenters in their slots and zero in the
    others, the map of the known consenters, and the added and removed consenters. -/
def loopsResult (M : BlockMetadata) (C : GoMap UInt64 Consenter) (L : List Consenter) :
    MembershipChanges :=
  { newBlockMetadata := { M with
      consenterIds := L.map fun c => ((membershipByCert C).get? c.clientTlsCert).getD 0 }
    newConsenters := knownMap C L
    addedNodes := addedConsenters C L
    removedNodes := (removedConsenters C L).map Prod.snd
    confChange := none
    rotatedNode := 0 }

/-- `ComputeMembershipChanges` is its switch applied to what the loops build, with the index of
    the lone added consenter and the id of the lone removed one. -/
theorem computeMembershipChanges_eq_switch (hC : (C.entries.map (·.2.clientTlsCert)).Nodup)
    (hL : (L.map (·.clientTlsCert)).Nodup) :
    ∃ addedNodeIndex deletedNodeID,
      (∀ a, addedConsenters C L = [a] → L[addedNodeIndex]? = some a) ∧
      (∀ e, removedConsenters C L = [e] → deletedNodeID = e.1) ∧
      computeMembershipChanges M C L =
        membershipSwitch (loopsResult M C L) addedNodeIndex deletedNodeID := by
  let result : MembershipChanges :=
    { newBlockMetadata := { M with consenterIds := List.replicate L.length 0 }
      newConsenters := GoMap.empty
      addedNodes := []
      removedNodes := []
      confChange := none
      rotatedNode := 0 }
  obtain ⟨hadded, hidx⟩ :=
    addedLoop_spec (membershipByCert C) result L.length rfl L (Nat.le_refl _)
  obtain ⟨hremoved, hdel⟩ := removedLoop_spec (consentersToMap L)
    (L.zipIdx.foldl (addedStep (membershipByCert C)) (result, 0)).1 0 C.entries
  refine ⟨_, _, fun a ha => hidx a (by rwa [unknownConsenters_membershipByCert hC]),
    fun e he => hdel e (by rwa [removedEntries_consentersToMap hL]), ?_⟩
  show membershipSwitch _ _ _ = _
  rw [hremoved, hadded]
  simp [loopsResult, result, knownMap, unknownConsenters_membershipByCert hC,
    removedEntries_consentersToMap hL]

end Switch

/-! ## What a change does -/

section Changes

variable {M : BlockMetadata} {C : GoMap UInt64 Consenter} {L : List Consenter}

/-- What the caller keeps of its consenters: one consenter per certificate, and ids below the
    id the next added consenter gets. -/
structure Members (metadata : BlockMetadata) (consenters : GoMap UInt64 Consenter) : Prop where
  cert_inj : ∀ k k' c c', consenters.get? k = some c → consenters.get? k' = some c' →
    c.clientTlsCert = c'.clientTlsCert → k = k'
  lt_next : ∀ k c, consenters.get? k = some c → k < metadata.nextConsenterId

theorem Members.nodup_certs (h : Members M C) : (C.entries.map (·.2.clientTlsCert)).Nodup := by
  refine List.Nodup.map_on (fun x hx y hy hxy => ?_) (C.nodup.of_map _)
  have hx' := C.get?_of_mem hx
  have hy' := C.get?_of_mem hy
  have hk := h.cert_inj x.1 y.1 x.2 y.2 hx' hy' hxy
  rw [hk, hy'] at hx'
  exact Prod.ext hk (Option.some.inj hx').symm

/-- The result assigns each new consenter the id `newId`: the ids list them in order, and the
    map holds each under its id. -/
structure Assigns (L : List Consenter) (newId : Consenter → UInt64) (r : MembershipChanges) :
    Prop where
  ids : r.newBlockMetadata.consenterIds = L.map newId
  get? : ∀ k c, r.newConsenters.get? k = some c ↔ c ∈ L ∧ newId c = k

theorem Assigns.slot {newId : Consenter → UInt64} {r : MembershipChanges} (h : Assigns L newId r)
    (i : Nat) (k : UInt64) (c : Consenter) (hk : r.newBlockMetadata.consenterIds[i]? = some k)
    (hc : L[i]? = some c) : r.newConsenters.get? k = some c := by
  rw [h.ids, List.getElem?_map, hc, Option.map_some, Option.some.injEq] at hk
  exact (h.get? k c).mpr ⟨List.mem_of_getElem? hc, hk⟩

theorem Assigns.nodup_ids {newId : Consenter → UInt64} {r : MembershipChanges}
    (h : Assigns L newId r) (hL : L.Nodup) : r.newBlockMetadata.consenterIds.Nodup := by
  rw [h.ids]
  refine List.Nodup.map_on (fun c hc c' hc' hid => ?_) hL
  -- two consenters with one id are the one the map holds under it
  have h1 := (h.get? (newId c) c).mpr ⟨hc, rfl⟩
  have h2 := (h.get? (newId c) c').mpr ⟨hc', hid.symm⟩
  rw [h1] at h2
  exact Option.some.inj h2

theorem Assigns.keys {newId : Consenter → UInt64} {r : MembershipChanges} (h : Assigns L newId r)
    (k : UInt64) : (r.newConsenters.get? k).isSome ↔ k ∈ r.newBlockMetadata.consenterIds := by
  rw [h.ids, Option.isSome_iff_exists, List.mem_map]
  constructor
  · rintro ⟨c, hc⟩
    exact ⟨c, ((h.get? k c).mp hc)⟩
  · rintro ⟨c, hc, rfl⟩
    exact ⟨c, (h.get? _ c).mpr ⟨hc, rfl⟩⟩

theorem mem_addedConsenters (hC : (C.entries.map (·.2.clientTlsCert)).Nodup) (c : Consenter) :
    c ∈ addedConsenters C L ↔ c ∈ L ∧ (membershipByCert C).get? c.clientTlsCert = none := by
  simp [addedConsenters, get?_membershipByCert_eq_none hC]

/-- A new consenter that is not added has the certificate of an old one, and its id. -/
theorem known_of_not_mem_added (hC : (C.entries.map (·.2.clientTlsCert)).Nodup) {c : Consenter}
    (hc : c ∈ L) (hna : c ∉ addedConsenters C L) :
    ∃ k old, C.get? k = some old ∧ old.clientTlsCert = c.clientTlsCert ∧
      (membershipByCert C).get? c.clientTlsCert = some k := by
  rw [mem_addedConsenters hC] at hna
  cases hk : (membershipByCert C).get? c.clientTlsCert with
  | none => exact absurd ⟨hc, hk⟩ hna
  | some k =>
    obtain ⟨old, hold, hcert⟩ := (get?_membershipByCert hC _ k).mp hk
    exact ⟨k, old, hold, hcert, rfl⟩

/-- The id of a removed consenter is the id of no new consenter's certificate. -/
theorem get?_membershipByCert_ne_removed (hC : (C.entries.map (·.2.clientTlsCert)).Nodup)
    {k : UInt64} {old c : Consenter} (hr : (k, old) ∈ removedConsenters C L) (hc : c ∈ L) :
    (membershipByCert C).get? c.clientTlsCert ≠ some k := by
  intro hk
  obtain ⟨o, ho, hcert⟩ := (get?_membershipByCert hC _ k).mp hk
  rw [removedConsenters, List.mem_filter] at hr
  rw [C.get?_of_mem hr.1, Option.some.injEq] at ho
  subst ho
  exact absurd (List.mem_map_of_mem hc) (by simpa [hcert] using hr.2)

/-- With nothing added, the loops assign each new consenter its old id. -/
theorem assigns_loopsResult (hC : (C.entries.map (·.2.clientTlsCert)).Nodup)
    (hL : (L.map (·.clientTlsCert)).Nodup) (hA : addedConsenters C L = []) :
    Assigns L (fun c => ((membershipByCert C).get? c.clientTlsCert).getD 0)
      (loopsResult M C L) := by
  refine ⟨rfl, fun k c => ?_⟩
  rw [loopsResult, get?_knownMap hC hL]
  constructor
  · rintro ⟨hc, hk⟩
    simp [hc, hk]
  · rintro ⟨hc, hk⟩
    obtain ⟨k', -, -, -, hk'⟩ := known_of_not_mem_added hC hc (by simp [hA])
    rw [hk', Option.getD_some] at hk
    exact ⟨hc, hk ▸ hk'⟩

/-- With one consenter added, at index `idx`, and given the id `x` of no known certificate, the
    result that writes `x` in its slot and maps `x` to it assigns it `x` and every other new
    consenter its old id. -/
theorem assigns_of_added (hC : (C.entries.map (·.2.clientTlsCert)).Nodup)
    (hL : (L.map (·.clientTlsCert)).Nodup) {a : Consenter} {idx : Nat} {x : UInt64}
    (hA : addedConsenters C L = [a]) (hidx : L[idx]? = some a)
    (hx : ∀ c ∈ L, (membershipByCert C).get? c.clientTlsCert ≠ some x) {r : MembershipChanges}
    (hids : r.newBlockMetadata.consenterIds =
      (loopsResult M C L).newBlockMetadata.consenterIds.set idx x)
    (hmap : r.newConsenters = (loopsResult M C L).newConsenters.insert x a) :
    Assigns L (fun c => if c = a then x else ((membershipByCert C).get? c.clientTlsCert).getD 0)
      r := by
  have hnd : L.Nodup := hL.of_map _
  have hidxlt : idx < L.length := (List.getElem?_eq_some_iff.mp hidx).1
  -- every new consenter but `a` is known
  have hknown : ∀ c ∈ L, c ≠ a → ∃ k, (membershipByCert C).get? c.clientTlsCert = some k := by
    intro c hc hca
    obtain ⟨k, -, -, -, hk⟩ := known_of_not_mem_added hC hc (by simp [hA, hca])
    exact ⟨k, hk⟩
  have hbaseIds : (loopsResult M C L).newBlockMetadata.consenterIds =
      L.map fun c => ((membershipByCert C).get? c.clientTlsCert).getD 0 := rfl
  have hbaseMap : (loopsResult M C L).newConsenters = knownMap C L := rfl
  refine ⟨?_, fun k c => ?_⟩
  · rw [hids, hbaseIds]
    apply List.ext_getElem?
    intro j
    rw [List.getElem?_set, List.getElem?_map, List.getElem?_map, List.length_map]
    by_cases hj : idx = j
    · subst hj
      have hLidx : L[idx] = a := (List.getElem?_eq_some_iff.mp hidx).2
      simp [hLidx, hidxlt]
    · rw [if_neg hj]
      cases hLj : L[j]? with
      | none => rfl
      | some c =>
        have hca : c ≠ a := by
          rintro rfl
          exact hj ((List.getElem?_inj hidxlt hnd).mp (hidx.trans hLj.symm))
        simp [hca]
  · rw [hmap, GoMap.get?_insert, hbaseMap]
    have ha : a ∈ L := List.mem_of_getElem? hidx
    by_cases hkx : k = x
    · subst hkx
      rw [if_pos rfl]
      constructor
      · rintro h
        rw [Option.some.injEq] at h
        subst h
        exact ⟨ha, if_pos rfl⟩
      · rintro ⟨hc, hk⟩
        by_cases hca : c = a
        · rw [hca]
        · -- a known consenter keeps an old id, which is not `x`
          rw [if_neg hca] at hk
          obtain ⟨k', hk'⟩ := hknown c hc hca
          rw [hk', Option.getD_some] at hk
          exact absurd (hk ▸ hk') (hx c hc)
    · rw [if_neg hkx, get?_knownMap hC hL]
      constructor
      · rintro ⟨hc, hk⟩
        have hca : c ≠ a := by
          rintro rfl
          have hmem : c ∈ addedConsenters C L := by simp [hA]
          rw [((mem_addedConsenters hC c).mp hmem).2] at hk
          cases hk
        simp [hc, hk, hca]
      · rintro ⟨hc, hk⟩
        by_cases hca : c = a
        · rw [if_pos hca] at hk
          exact absurd hk.symm hkx
        · rw [if_neg hca] at hk
          obtain ⟨k', hk'⟩ := hknown c hc hca
          rw [hk', Option.getD_some] at hk
          exact ⟨hc, hk ▸ hk'⟩

/-- With nothing added and one consenter removed, erasing its id keeps every assignment. -/
theorem assigns_of_removed (hC : (C.entries.map (·.2.clientTlsCert)).Nodup)
    (hL : (L.map (·.clientTlsCert)).Nodup) (hA : addedConsenters C L = []) {k : UInt64}
    {old : Consenter} (hR : (k, old) ∈ removedConsenters C L) {r : MembershipChanges}
    (hids : r.newBlockMetadata.consenterIds = (loopsResult M C L).newBlockMetadata.consenterIds)
    (hmap : r.newConsenters = (loopsResult M C L).newConsenters.erase k) :
    Assigns L (fun c => ((membershipByCert C).get? c.clientTlsCert).getD 0) r := by
  have hbase := @assigns_loopsResult M C L hC hL hA
  refine ⟨hids.trans hbase.ids, fun q c => ?_⟩
  rw [hmap, GoMap.get?_erase]
  by_cases hq : q = k
  · subst hq
    rw [if_pos rfl]
    refine ⟨fun h => absurd h (by simp), fun ⟨hc, hk⟩ => ?_⟩
    -- the removed id is the id of no new consenter
    obtain ⟨k', -, -, -, hk'⟩ := known_of_not_mem_added hC hc (by simp [hA])
    rw [hk', Option.getD_some] at hk
    exact absurd (hk ▸ hk') (get?_membershipByCert_ne_removed hC hR hc)
  · rw [if_neg hq]
    exact hbase.get? q c

/-- A known consenter is assigned its old id. -/
theorem get?_membershipByCert_of_old (hC : (C.entries.map (·.2.clientTlsCert)).Nodup)
    {k : UInt64} {old c : Consenter} (hold : C.get? k = some old)
    (hcert : c.clientTlsCert = old.clientTlsCert) :
    (membershipByCert C).get? c.clientTlsCert = some k :=
  (get?_membershipByCert hC _ k).mpr ⟨old, hold, hcert.symm⟩

/-- What a computed change does, for the old metadata `M` and consenters `C` and the new list
    `L`: the ids list the new consenters in order, are distinct and are the keys of the new map;
    a known consenter keeps its id; and each of the four changes is made as its case says. -/
structure Changes (M : BlockMetadata) (C : GoMap UInt64 Consenter) (L : List Consenter)
    (r : MembershipChanges) : Prop where
  length_ids : r.newBlockMetadata.consenterIds.length = L.length
  slot : ∀ (i : Nat) (k : UInt64) (c : Consenter), r.newBlockMetadata.consenterIds[i]? = some k →
    L[i]? = some c → r.newConsenters.get? k = some c
  nodup_ids : r.newBlockMetadata.consenterIds.Nodup
  keys : ∀ k, (r.newConsenters.get? k).isSome ↔ k ∈ r.newBlockMetadata.consenterIds
  keep : ∀ k old c, C.get? k = some old → c ∈ L → c.clientTlsCert = old.clientTlsCert →
    r.newConsenters.get? k = some c
  added : r.addedNodes = addedConsenters C L
  removed : r.removedNodes = (removedConsenters C L).map Prod.snd
  raftIndex : r.newBlockMetadata.raftIndex = M.raftIndex
  rotation : ∀ a k old, addedConsenters C L = [a] → removedConsenters C L = [(k, old)] →
    r.newConsenters.get? k = some a ∧ r.rotatedNode = k ∧ r.confChange = none ∧
      r.newBlockMetadata.nextConsenterId = M.nextConsenterId
  addition : ∀ a, addedConsenters C L = [a] → removedConsenters C L = [] →
    r.newConsenters.get? M.nextConsenterId = some a ∧
      r.confChange = some ⟨.addNode, M.nextConsenterId⟩ ∧
      r.newBlockMetadata.nextConsenterId = M.nextConsenterId + 1 ∧ r.rotatedNode = 0
  removal : ∀ k old, addedConsenters C L = [] → removedConsenters C L = [(k, old)] →
    r.confChange = some ⟨.removeNode, k⟩ ∧
      r.newBlockMetadata.nextConsenterId = M.nextConsenterId ∧ r.rotatedNode = 0
  unchanged : addedConsenters C L = [] → removedConsenters C L = [] →
    r.confChange = none ∧ r.newBlockMetadata.nextConsenterId = M.nextConsenterId ∧
      r.rotatedNode = 0

/-- A result that assigns each new consenter an id, each known one its old id, has the
    properties of a change that do not depend on which change it is. -/
theorem Changes.of_assigns (hC : (C.entries.map (·.2.clientTlsCert)).Nodup)
    (hL : (L.map (·.clientTlsCert)).Nodup) {newId : Consenter → UInt64} {r : MembershipChanges}
    (h : Assigns L newId r)
    (hknown : ∀ c ∈ L, c ∉ addedConsenters C L →
      newId c = ((membershipByCert C).get? c.clientTlsCert).getD 0)
    (hadded : r.addedNodes = addedConsenters C L)
    (hremoved : r.removedNodes = (removedConsenters C L).map Prod.snd)
    (hraft : r.newBlockMetadata.raftIndex = M.raftIndex)
    (hrot : ∀ a k old, addedConsenters C L = [a] → removedConsenters C L = [(k, old)] →
      r.newConsenters.get? k = some a ∧ r.rotatedNode = k ∧ r.confChange = none ∧
        r.newBlockMetadata.nextConsenterId = M.nextConsenterId)
    (hadd : ∀ a, addedConsenters C L = [a] → removedConsenters C L = [] →
      r.newConsenters.get? M.nextConsenterId = some a ∧
        r.confChange = some ⟨.addNode, M.nextConsenterId⟩ ∧
        r.newBlockMetadata.nextConsenterId = M.nextConsenterId + 1 ∧ r.rotatedNode = 0)
    (hrem : ∀ k old, addedConsenters C L = [] → removedConsenters C L = [(k, old)] →
      r.confChange = some ⟨.removeNode, k⟩ ∧
        r.newBlockMetadata.nextConsenterId = M.nextConsenterId ∧ r.rotatedNode = 0)
    (hun : addedConsenters C L = [] → removedConsenters C L = [] →
      r.confChange = none ∧ r.newBlockMetadata.nextConsenterId = M.nextConsenterId ∧
        r.rotatedNode = 0) :
    Changes M C L r where
  length_ids := by rw [h.ids, List.length_map]
  slot := h.slot
  nodup_ids := h.nodup_ids (hL.of_map _)
  keys := h.keys
  keep := by
    intro k old c hold hc hcert
    have hk := get?_membershipByCert_of_old hC hold hcert
    -- a consenter with an old certificate is not added, and keeps the old id
    have hna : c ∉ addedConsenters C L := by
      rw [mem_addedConsenters hC, hk]
      simp
    have hid := hknown c hc hna
    rw [hk, Option.getD_some] at hid
    exact (h.get? k c).mpr ⟨hc, hid⟩
  added := hadded
  removed := hremoved
  raftIndex := hraft
  rotation := hrot
  addition := hadd
  removal := hrem
  unchanged := hun

/-- `ComputeMembershipChanges` fails exactly when more than one consenter is added or more than
    one removed, and otherwise makes the change its case says. -/
theorem computeMembershipChanges_spec (hM : Members M C) (hL : (L.map (·.clientTlsCert)).Nodup) :
    ((1 < (addedConsenters C L).length ∨ 1 < (removedConsenters C L).length) →
      computeMembershipChanges M C L = .error (.moreThanOneConsenter
        (addedConsenters C L).length (removedConsenters C L).length)) ∧
    (¬ (1 < (addedConsenters C L).length ∨ 1 < (removedConsenters C L).length) →
      ∃ r, computeMembershipChanges M C L = .ok r ∧ Changes M C L r) := by
  have hC := hM.nodup_certs
  obtain ⟨idx, d, hidx, hd, heq⟩ := @computeMembershipChanges_eq_switch M C L hC hL
  have hbase := @assigns_loopsResult M C L hC hL
  rw [heq]
  unfold membershipSwitch
  dsimp only [loopsResult]
  rcases hA : addedConsenters C L with _ | ⟨a, _ | ⟨a', A⟩⟩ <;>
    rcases hR : removedConsenters C L with _ | ⟨⟨k, old⟩, _ | ⟨e, R⟩⟩ <;>
    simp only [List.map_nil, List.map_cons, List.length_nil, List.length_cons]
  case nil.nil =>
    refine ⟨fun h => by omega, fun _ => ⟨_, rfl, ?_⟩⟩
    exact Changes.of_assigns hC hL ⟨(hbase hA).ids, (hbase hA).get?⟩ (fun c _ _ => rfl) hA.symm
      (by rw [hR]; rfl) rfl
      (fun a _ _ h _ => absurd (hA.symm.trans h) (by simp))
      (fun a h _ => absurd (hA.symm.trans h) (by simp))
      (fun _ _ _ h => absurd (hR.symm.trans h) (by simp)) (fun _ _ => ⟨rfl, rfl, rfl⟩)
  case nil.cons.nil =>
    -- a lone removal: its id leaves the map
    obtain rfl : d = k := hd _ hR
    refine ⟨fun h => by omega, fun _ => ⟨_, rfl, ?_⟩⟩
    exact Changes.of_assigns hC hL
      (@assigns_of_removed M C L hC hL hA _ _ (by rw [hR]; exact List.mem_singleton_self _) _ rfl
        rfl)
      (fun c _ _ => rfl) hA.symm (by rw [hR]; rfl) rfl
      (fun a _ _ h _ => absurd (hA.symm.trans h) (by simp))
      (fun a h _ => absurd (hA.symm.trans h) (by simp))
      (fun k' old' _ h => by
        obtain ⟨rfl, -⟩ := Prod.mk.inj (List.singleton_inj.mp (hR.symm.trans h))
        exact ⟨rfl, rfl, rfl⟩)
      (fun _ h => absurd (hR.symm.trans h) (by simp))
  case cons.nil.nil =>
    -- a lone addition: the next id
    have hx : ∀ c ∈ L, (membershipByCert C).get? c.clientTlsCert ≠ some M.nextConsenterId := by
      intro c _ hk
      obtain ⟨o, ho, -⟩ := (get?_membershipByCert hC _ _).mp hk
      exact absurd (hM.lt_next _ o ho) (UInt64.lt_irrefl _)
    refine ⟨fun h => by omega, fun _ => ⟨_, rfl, ?_⟩⟩
    exact Changes.of_assigns hC hL
      (@assigns_of_added M C L hC hL a idx _ hA (hidx a hA) hx _ rfl rfl)
      (fun c _ hna => if_neg fun h => hna (by simp [hA, h])) hA.symm (by rw [hR]; rfl) rfl
      (fun _ _ _ _ h => absurd (hR.symm.trans h) (by simp))
      (fun a' h _ => by
        obtain rfl := List.singleton_inj.mp (hA.symm.trans h)
        exact ⟨by simp, rfl, rfl, rfl⟩)
      (fun _ _ h _ => absurd (hA.symm.trans h) (by simp))
      (fun h _ => absurd (hA.symm.trans h) (by simp))
  case cons.nil.cons.nil =>
    -- a rotation: the added consenter takes the removed id
    obtain rfl : d = k := hd _ hR
    have hx : ∀ c ∈ L, (membershipByCert C).get? c.clientTlsCert ≠ some d := fun c hc =>
      get?_membershipByCert_ne_removed hC (by rw [hR]; exact List.mem_singleton_self _) hc
    refine ⟨fun h => by omega, fun _ => ⟨_, rfl, ?_⟩⟩
    exact Changes.of_assigns hC hL
      (@assigns_of_added M C L hC hL a idx _ hA (hidx a hA) hx _ rfl rfl)
      (fun c _ hna => if_neg fun h => hna (by simp [hA, h])) hA.symm (by rw [hR]; rfl) rfl
      (fun a' k' old' h h' => by
        obtain rfl := List.singleton_inj.mp (hA.symm.trans h)
        obtain ⟨rfl, -⟩ := Prod.mk.inj (List.singleton_inj.mp (hR.symm.trans h'))
        exact ⟨by simp, rfl, rfl, rfl⟩)
      (fun _ _ h => absurd (hR.symm.trans h) (by simp))
      (fun _ _ h _ => absurd (hA.symm.trans h) (by simp))
      (fun h _ => absurd (hA.symm.trans h) (by simp))
  all_goals exact ⟨fun _ => by simp, fun h => absurd (by omega) h⟩

end Changes

/-! ## Runs -/

section Runs

variable {M : BlockMetadata} {C : GoMap UInt64 Consenter} {L : List Consenter}
  {r : MembershipChanges}

/-- The new map holds each consenter under one id. -/
theorem Changes.cert_inj (h : Changes M C L r) (hL : (L.map (·.clientTlsCert)).Nodup)
    {k k' : UInt64} {c c' : Consenter} (hk : r.newConsenters.get? k = some c)
    (hk' : r.newConsenters.get? k' = some c') (hcert : c.clientTlsCert = c'.clientTlsCert) :
    k = k' := by
  -- each key is the id of a slot, and the slot's consenter is the one held
  have slotOf : ∀ (q : UInt64) (d : Consenter), r.newConsenters.get? q = some d →
      ∃ i : Nat, r.newBlockMetadata.consenterIds[i]? = some q ∧ L[i]? = some d := by
    intro q d hq
    obtain ⟨i, hi⟩ := List.mem_iff_getElem?.mp ((h.keys q).mp (by simp [hq]))
    have hlt : i < L.length := h.length_ids ▸ (List.getElem?_eq_some_iff.mp hi).1
    refine ⟨i, hi, ?_⟩
    rw [List.getElem?_eq_getElem hlt, ← Option.some.inj ((h.slot i q _ hi
      (List.getElem?_eq_getElem hlt)).symm.trans hq)]
  obtain ⟨i, hi, hci⟩ := slotOf k c hk
  obtain ⟨j, hj, hcj⟩ := slotOf k' c' hk'
  have hij : i = j := by
    have hlt : i < (L.map (·.clientTlsCert)).length := by
      simpa using (List.getElem?_eq_some_iff.mp hci).1
    apply (List.getElem?_inj hlt hL).mp
    simp [List.getElem?_map, hci, hcj, hcert]
  subst hij
  rw [hi] at hj
  exact Option.some.inj hj

/-- The next id stays, or moves up by one on an addition. -/
theorem Changes.toNat_next (h : Changes M C L r)
    (hcount : ¬ (1 < (addedConsenters C L).length ∨ 1 < (removedConsenters C L).length))
    (hwrap : M.nextConsenterId.toNat + 1 < 2 ^ 64) :
    M.nextConsenterId.toNat ≤ r.newBlockMetadata.nextConsenterId.toNat ∧
      r.newBlockMetadata.nextConsenterId.toNat ≤ M.nextConsenterId.toNat + 1 := by
  rcases hA : addedConsenters C L with _ | ⟨a, _ | ⟨a', A⟩⟩ <;>
    rcases hR : removedConsenters C L with _ | ⟨⟨k, old⟩, _ | ⟨e, R⟩⟩ <;>
    simp only [hA, hR, List.length_nil, List.length_cons] at hcount
  case nil.nil => simp [(h.unchanged hA hR).2.1]
  case nil.cons.nil => simp [(h.removal k old hA hR).2.1]
  case cons.nil.nil =>
    rw [(h.addition a hA hR).2.2.1, UInt64.toNat_add, UInt64.toNat_one, Nat.mod_eq_of_lt hwrap]
    omega
  case cons.nil.cons.nil => simp [(h.rotation a k old hA hR).2.2.2]
  all_goals omega

/-- A result keeps the caller's bookkeeping when the next id does not wrap around. -/
theorem Changes.members (h : Changes M C L r) (hM : Members M C)
    (hL : (L.map (·.clientTlsCert)).Nodup)
    (hcount : ¬ (1 < (addedConsenters C L).length ∨ 1 < (removedConsenters C L).length))
    (hwrap : M.nextConsenterId.toNat + 1 < 2 ^ 64) :
    Members r.newBlockMetadata r.newConsenters where
  cert_inj _ _ _ _ hk hk' hcert := h.cert_inj hL hk hk' hcert
  lt_next k c hk := by
    have hC := hM.nodup_certs
    have hnext := h.toNat_next hcount hwrap
    rw [UInt64.lt_iff_toNat_lt]
    -- the consenter held under `k` is a new one
    have hc : c ∈ L := by
      obtain ⟨i, hi⟩ := List.mem_iff_getElem?.mp ((h.keys k).mp (by simp [hk]))
      have hlt : i < L.length := h.length_ids ▸ (List.getElem?_eq_some_iff.mp hi).1
      have := h.slot i k _ hi (List.getElem?_eq_getElem hlt)
      rw [hk, Option.some.injEq] at this
      exact this ▸ List.getElem_mem hlt
    by_cases hadd : c ∈ addedConsenters C L
    · -- the lone added consenter: the next id, or the removed one on a rotation
      have hA : addedConsenters C L = [c] := by
        rcases hA : addedConsenters C L with _ | ⟨a, _ | ⟨a', A⟩⟩
        · simp [hA] at hadd
        · simp_all
        · simp [hA] at hcount
      rcases hR : removedConsenters C L with _ | ⟨⟨k0, old⟩, _ | ⟨e, R⟩⟩
      · obtain ⟨hget, -, hn, -⟩ := h.addition c hA hR
        rw [h.cert_inj hL hk hget rfl, hn, UInt64.toNat_add, UInt64.toNat_one,
          Nat.mod_eq_of_lt hwrap]
        omega
      · obtain ⟨hget, -, -, hn⟩ := h.rotation c k0 old hA hR
        have hold : C.get? k0 = some old := by
          have hmem : (k0, old) ∈ removedConsenters C L := by simp [hR]
          exact C.get?_of_mem (List.mem_filter.mp hmem).1
        rw [h.cert_inj hL hk hget rfl, hn]
        exact UInt64.lt_iff_toNat_lt.mp (hM.lt_next k0 old hold)
      · simp [hR] at hcount
    · -- a known consenter keeps its old id, below the old next id
      obtain ⟨k0, old, hold, hcert, -⟩ := known_of_not_mem_added hC hc hadd
      rw [h.cert_inj hL hk (h.keep k0 old c hold hc hcert.symm) rfl]
      have := UInt64.lt_iff_toNat_lt.mp (hM.lt_next k0 old hold)
      omega

/-- The caller's metadata and consenters after a config update with the new list `L`: the
    computed ones when the changes are computed, the old ones when they are refused. -/
def applyUpdate (s : BlockMetadata × GoMap UInt64 Consenter) (L : List Consenter) :
    BlockMetadata × GoMap UInt64 Consenter :=
  match computeMembershipChanges s.1 s.2 L with
  | .ok r => (r.newBlockMetadata, r.newConsenters)
  | .error _ => s

/-- One update keeps the bookkeeping, and moves the next id up by at most one. -/
theorem applyUpdate_members (hM : Members M C) (hL : (L.map (·.clientTlsCert)).Nodup)
    (hwrap : M.nextConsenterId.toNat + 1 < 2 ^ 64) :
    Members (applyUpdate (M, C) L).1 (applyUpdate (M, C) L).2 ∧
      M.nextConsenterId.toNat ≤ (applyUpdate (M, C) L).1.nextConsenterId.toNat ∧
      (applyUpdate (M, C) L).1.nextConsenterId.toNat ≤ M.nextConsenterId.toNat + 1 := by
  obtain ⟨herr, hok⟩ := computeMembershipChanges_spec hM hL
  by_cases hcount : 1 < (addedConsenters C L).length ∨ 1 < (removedConsenters C L).length
  · -- a refused update leaves the state as it was
    simp only [applyUpdate, herr hcount]
    exact ⟨hM, Nat.le_refl _, Nat.le_succ _⟩
  · obtain ⟨r, hr, hch⟩ := hok hcount
    simp only [applyUpdate, hr]
    exact ⟨hch.members hM hL hcount hwrap, hch.toNat_next hcount hwrap⟩

/-- Along a run of updates, the bookkeeping holds and the next id has moved up by at most one
    per update, as long as it does not wrap around. -/
theorem members_run :
    ∀ (Ls : List (List Consenter)) (M : BlockMetadata) (C : GoMap UInt64 Consenter),
      Members M C → (∀ L ∈ Ls, (L.map (·.clientTlsCert)).Nodup) →
      M.nextConsenterId.toNat + Ls.length < 2 ^ 64 →
      Members (Ls.foldl applyUpdate (M, C)).1 (Ls.foldl applyUpdate (M, C)).2 ∧
        (Ls.foldl applyUpdate (M, C)).1.nextConsenterId.toNat ≤
          M.nextConsenterId.toNat + Ls.length
  | [], _, _, hM, _, _ => ⟨hM, Nat.le_refl _⟩
  | L :: Ls, M, C, hM, hLs, hwrap => by
    simp only [List.length_cons] at hwrap
    obtain ⟨hM', -, hle⟩ := applyUpdate_members hM (hLs L List.mem_cons_self) (by omega)
    have ih := members_run Ls _ _ hM' (fun L' hL' => hLs L' (List.mem_cons_of_mem L hL'))
      (by omega)
    have heta : ((applyUpdate (M, C) L).1, (applyUpdate (M, C) L).2) = applyUpdate (M, C) L := rfl
    rw [heta] at ih
    rw [List.foldl_cons]
    exact ⟨ih.1, by simp only [List.length_cons]; omega⟩

theorem membership_runs (M0 : BlockMetadata) (C0 : GoMap UInt64 Consenter)
    (h0 : Members M0 C0) (Ls : List (List Consenter))
    (hLs : ∀ L ∈ Ls, (L.map (·.clientTlsCert)).Nodup)
    (hwrap : M0.nextConsenterId.toNat + Ls.length < 2 ^ 64) (i : Nat) (L : List Consenter)
    (hi : Ls[i]? = some L) :
    let s := (Ls.take i).foldl applyUpdate (M0, C0)
    ((1 < (addedConsenters s.2 L).length ∨ 1 < (removedConsenters s.2 L).length) →
      computeMembershipChanges s.1 s.2 L = .error (.moreThanOneConsenter
        (addedConsenters s.2 L).length (removedConsenters s.2 L).length)) ∧
    (¬ (1 < (addedConsenters s.2 L).length ∨ 1 < (removedConsenters s.2 L).length) →
      ∃ r, computeMembershipChanges s.1 s.2 L = .ok r ∧ Changes s.1 s.2 L r) := by
  intro s
  have hlt : i < Ls.length := (List.getElem?_eq_some_iff.mp hi).1
  obtain ⟨hM, -⟩ := members_run (Ls.take i) M0 C0 h0
    (fun L' hL' => hLs L' (List.mem_of_mem_take hL')) (by simp; omega)
  exact computeMembershipChanges_spec hM (hLs L (List.mem_of_getElem? hi))

/-- A map of one consenter, with an id below the next one, keeps the bookkeeping. -/
theorem members_single (M : BlockMetadata) (k : UInt64) (c : Consenter)
    (hk : k < M.nextConsenterId) : Members M ⟨[(k, c)], List.nodup_singleton _⟩ := by
  have hget : ∀ q d, (⟨[(k, c)], List.nodup_singleton _⟩ : GoMap UInt64 Consenter).get? q =
      some d → q = k := by
    intro q d h
    by_contra hq
    have hqk : (q == k) = false := by simpa using hq
    simp [GoMap.get?, List.lookup, hqk] at h
  exact ⟨fun q q' _ _ hq hq' _ => (hget _ _ hq).trans (hget _ _ hq').symm,
    fun q d hq => hget q d hq ▸ hk⟩

/-- A consenter with id `1`, next id `2`, and an update that adds a second consenter. -/
theorem membership_runs_add_one :
    let c : Nat → Consenter := fun n => ⟨"", 7050, [n.toUInt8], []⟩
    let M0 : BlockMetadata := ⟨[1], 2, 0⟩
    let C0 : GoMap UInt64 Consenter := ⟨[(1, c 0)], List.nodup_singleton _⟩
    Members M0 C0 ∧
      ∃ r, computeMembershipChanges M0 C0 [c 0, c 1] = .ok r ∧ Changes M0 C0 [c 0, c 1] r := by
  intro c M0 C0
  have h0 : Members M0 C0 := members_single M0 1 (c 0) (by decide)
  have hrun := membership_runs M0 C0 h0 [[c 0, c 1]] (by decide) (by decide) 0 [c 0, c 1] rfl
  exact ⟨h0, hrun.2 (by decide)⟩

/-- From `NextConsenterId = 2^64 - 1`, three additions: the first new consenter gets the id
    `2^64 - 1`, the second `0`, and the third `1`, which the first consenter holds. -/
theorem membership_runs_wrap :
    let c : Nat → Consenter := fun n => ⟨"", 7050, [n.toUInt8], []⟩
    let M0 : BlockMetadata := ⟨[1], 18446744073709551615, 0⟩
    let C0 : GoMap UInt64 Consenter := ⟨[(1, c 0)], List.nodup_singleton _⟩
    let s := [[c 0, c 1], [c 0, c 1, c 2]].foldl applyUpdate (M0, C0)
    Members M0 C0 ∧
      (∀ L ∈ [[c 0, c 1], [c 0, c 1, c 2], [c 0, c 1, c 2, c 3]],
        (L.map (·.clientTlsCert)).Nodup) ∧
      (computeMembershipChanges s.1 s.2 [c 0, c 1, c 2, c 3]).map
        (·.newBlockMetadata.consenterIds) = .ok [1, 18446744073709551615, 0, 1] := by
  intro c M0 C0 s
  exact ⟨members_single M0 1 (c 0) (by decide), by decide, by decide⟩

end Runs

end Fabric.Orderer
