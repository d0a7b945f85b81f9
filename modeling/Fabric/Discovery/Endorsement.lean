import Fabric.Lib.GoMap
import Fabric.Lib.Choice

/-
  Endorsement descriptors of service discovery (`discovery/endorsement/endorsement.go`,
  `computeEndorsementResponse`).

  The endorsement policy arrives as principal sets: each set, given a peer for each of its
  principals (with repetitions), satisfies the policy. Every principal gets a group name; a
  bipartite graph joins each principal to the alive peers that satisfy it; a layout asks,
  for each group of a principal set, as many peers as the set names its principal; a layout
  is kept if each of its groups, on its own, has that many peers in the graph and then among
  the peers with the chaincode installed. The descriptor lists the layouts and the
  endorsers of each group.

  The client then picks endorsers by a layout, and the policy is evaluated with each signer
  counted once, so a layout is met only by distinct peers (`Realisable`, a distinct choice
  in the sense of `Fabric.Lib.Choice`). The per-group counts guarantee each group its
  quantity (`computeEndorsementResponse_counts`), and distinct peers when no peer serves two
  groups of the layout (`realisable_of_disjoint`); but one peer that satisfies two
  principals of a layout is counted for both (`computeEndorsementResponse_counts_peer_twice`).

  Go iterates maps in no fixed order; here `GoMap` entries are iterated in list order. The
  order decides only which principal gets which group name, and in which order peers are
  listed. The evaluator `satisfiesPrincipal` (the MSP of the channel, given the identities
  of the members) is a parameter. A member's alive and state-info messages are their
  envelopes' bytes.
-/

namespace Fabric.Discovery

/-! ## Principals, members and peers -/

/-- `principalKey`: an `MSPPrincipal` by its classification and its bytes. -/
structure PrincipalKey where
  cls : Int32
  principal : String
  deriving DecidableEq, Repr

/-- `gossipdiscovery.NetworkMember`, by the fields read here: its PKI-ID and the envelope of
    its message (`none` for a nil envelope). The zero value is the one a missing map entry
    gives. -/
structure NetworkMember where
  pkiId : String := ""
  envelope : Option (List UInt8) := none
  deriving DecidableEq, Repr

/-- `discovery.Peer`. -/
structure Peer where
  identity : List UInt8
  stateInfo : Option (List UInt8)
  membershipInfo : Option (List UInt8)
  deriving DecidableEq, Repr

/-- `PrincipalSet.UniqueSet`: how often each principal occurs in the set. -/
def uniqueSet (principalSet : List PrincipalKey) : GoMap PrincipalKey Nat :=
  principalSet.foldl
    (fun histogram key => histogram.insert key ((histogram.get? key).getD 0 + 1)) .empty

/-! ## Groups -/

/-- `principalGroupMapper`: the group name of each principal. -/
abbrev PrincipalGroupMapper := GoMap PrincipalKey String

/-- `principalGroupMapper.group`: the group of a principal, naming a new one `G<n>` after the
    `n` principals already named. -/
def PrincipalGroupMapper.group (mapper : PrincipalGroupMapper) (principal : PrincipalKey) :
    String × PrincipalGroupMapper :=
  match mapper.get? principal with
  | some grp => (grp, mapper)
  | none =>
    let grp := "G" ++ toString mapper.size
    (grp, mapper.insert principal grp)

/-- `mapPrincipalsToGroups`: a group for each principal of any of the sets. -/
def mapPrincipalsToGroups (principalsSets : List (List PrincipalKey)) : PrincipalGroupMapper :=
  let totalPrincipals : GoMap PrincipalKey Unit :=
    principalsSets.foldl
      (fun total principalSet =>
        principalSet.foldl (fun total principal => total.insert principal ()) total)
      .empty
  totalPrincipals.entries.foldl
    (fun groupMapper e => (PrincipalGroupMapper.group groupMapper e.1).2) .empty

/-! ## The satisfaction graph -/

/-- A principal vertex of the graph: its principal, and its neighbours by their PKI-IDs. -/
structure PrincipalVertex where
  principal : PrincipalKey
  neighbors : GoMap String NetworkMember

/-- `principalPeerGraph`, by its principal vertices, the side the layouts read. -/
structure PrincipalPeerGraph where
  principalVertices : GoMap String PrincipalVertex

/-- The neighbours `principalsToPeersGraph` gives the vertex of a principal: every member that
    satisfies it, under its PKI-ID. -/
def neighborsOf (members : List NetworkMember)
    (satisfiesPrincipal : NetworkMember → PrincipalKey → Bool) (principal : PrincipalKey) :
    GoMap String NetworkMember :=
  (members.filter fun member => satisfiesPrincipal member principal).foldl
    (fun neighbors member => neighbors.insert member.pkiId member) .empty

/-- `principalsToPeersGraph`: a vertex for each group, joined to the peers that satisfy its
    principal. -/
def principalsToPeersGraph (members : List NetworkMember) (pGrps : PrincipalGroupMapper)
    (satisfiesPrincipal : NetworkMember → PrincipalKey → Bool) : PrincipalPeerGraph where
  principalVertices :=
    pGrps.entries.foldl
      (fun vertices e => vertices.insert e.2 ⟨e.1, neighborsOf members satisfiesPrincipal e.1⟩)
      .empty

/-! ## Layouts -/

/-- `discovery.Layout`. -/
structure Layout where
  quantitiesByGroup : GoMap String UInt32

/-- How `computeEndorsementResponse` fails: the runtime panic of `Neighbors` on the nil vertex
    of a group the graph lacks, or an error it returns. -/
inductive Failure
  | nilDereference
  | error (msg : String)
  deriving DecidableEq, Repr

/-- `isLayoutSatisfied`, over the entries of the layout. -/
def isLayoutSatisfied (satGraph : PrincipalPeerGraph) :
    List (String × UInt32) → Except Failure Bool
  | [] => .ok true
  | (grp, plurality) :: layout =>
    match satGraph.principalVertices.get? grp with
    | none => .error .nilDereference
    | some principalVertex =>
      if principalVertex.neighbors.size < plurality.toNat then .ok false
      else isLayoutSatisfied satGraph layout

/-- The quantities of the layout of a principal set: each of its principals' group asks as
    many peers as the principal occurs in the set. -/
def quantitiesOf (principalGroups : PrincipalGroupMapper) (principalSet : List PrincipalKey) :
    GoMap String UInt32 × PrincipalGroupMapper :=
  (uniqueSet principalSet).entries.foldl
    (fun acc e =>
      let (grp, mapper) := PrincipalGroupMapper.group acc.2 e.1
      (acc.1.insert grp e.2.toUInt32, mapper))
    (.empty, principalGroups)

/-- `computeLayouts`: the layouts of the principal sets whose groups each have enough
    neighbours. -/
def computeLayouts (principalsSets : List (List PrincipalKey))
    (principalGroups : PrincipalGroupMapper) (satGraph : PrincipalPeerGraph) :
    Except Failure (List Layout) :=
  Prod.fst <$> principalsSets.foldlM
    (fun acc principalSet => do
      let (quantitiesByGroup, mapper) := quantitiesOf acc.2 principalSet
      let satisfied ← isLayoutSatisfied satGraph quantitiesByGroup.entries
      pure (if satisfied then acc.1 ++ [⟨quantitiesByGroup⟩] else acc.1, mapper))
    ([], principalGroups)

/-- `layouts.groupsSet`: the groups of any of the layouts. -/
def groupsSet (layouts : List Layout) : GoMap String Unit :=
  layouts.foldl
    (fun m layout => layout.quantitiesByGroup.entries.foldl (fun m e => m.insert e.1 ()) m)
    .empty

/-! ## Endorsers -/

/-- `peerMembershipCriteria`. -/
structure PeerMembershipCriteria where
  satGraph : PrincipalPeerGraph
  idOfMembers : GoMap String (List UInt8)
  chanMemberById : GoMap String NetworkMember
  possibleLayouts : List Layout
  chaincodeMapping : GoMap String NetworkMember

/-- The peer `endorsersByGroup` lists for a neighbour, if the neighbour's state in the channel
    shows the chaincode installed. -/
def endorserOf (idOfMembers : GoMap String (List UInt8))
    (chanMemberById chaincodeMapping : GoMap String NetworkMember) (member : NetworkMember) :
    Option Peer :=
  let stateInfo := (chanMemberById.get? member.pkiId).getD {}
  if chaincodeMapping.contains stateInfo.pkiId then
    some
      { identity := (idOfMembers.get? member.pkiId).getD []
        stateInfo := stateInfo.envelope
        membershipInfo := member.envelope }
  else none

/-- The endorsers of a principal vertex: its neighbours with the chaincode installed. -/
def PeerMembershipCriteria.endorsersOf (criteria : PeerMembershipCriteria)
    (principalVertex : PrincipalVertex) : List Peer :=
  principalVertex.neighbors.entries.filterMap fun e =>
    endorserOf criteria.idOfMembers criteria.chanMemberById criteria.chaincodeMapping e.2

/-- `endorsersByGroup`: the endorsers of each group of the layouts that has any. -/
def endorsersByGroup (criteria : PeerMembershipCriteria) : GoMap String (List Peer) :=
  let includedGroups := groupsSet criteria.possibleLayouts
  criteria.satGraph.principalVertices.entries.foldl
    (fun res e =>
      if includedGroups.contains e.1 then
        let peerList := criteria.endorsersOf e.2
        if 0 < peerList.length then res.insert e.1 peerList else res
      else res)
    .empty

/-- Whether each group of a layout has as many endorsers as the layout asks of it. -/
def hasEnoughEndorsers (endorsersByGroup : GoMap String (List Peer)) (layout : Layout) : Bool :=
  layout.quantitiesByGroup.entries.all fun e =>
    match endorsersByGroup.get? e.1 with
    | none => false
    | some peerList => decide (e.2.toNat ≤ peerList.length)

/-- `filterOutUnsatisfiedLayouts`. -/
def filterOutUnsatisfiedLayouts (endorsersByGroup : GoMap String (List Peer))
    (layouts : List Layout) : List Layout :=
  layouts.filter (hasEnoughEndorsers endorsersByGroup)

/-! ## The descriptor -/

/-- `discovery.EndorsementDescriptor`. -/
structure EndorsementDescriptor where
  chaincode : String
  layouts : List Layout
  endorsersByGroups : GoMap String (List Peer)

/-- The `context` of a request, by the fields read here. -/
structure Context where
  chaincode : String
  aliveMembership : List NetworkMember
  principalsSets : List (List PrincipalKey)
  channelMembersById : GoMap String NetworkMember
  identitiesOfMembers : GoMap String (List UInt8)
  chaincodeMapping : GoMap String NetworkMember

/-- `endorsementAnalyzer.computeEndorsementResponse`, with the evaluator
    `ea.satisfiesPrincipal(ctx.channel, ctx.identitiesOfMembers)`. -/
def computeEndorsementResponse (satisfiesPrincipal : NetworkMember → PrincipalKey → Bool)
    (ctx : Context) : Except Failure EndorsementDescriptor := do
  let principalGroups := mapPrincipalsToGroups ctx.principalsSets
  let satGraph := principalsToPeersGraph ctx.aliveMembership principalGroups satisfiesPrincipal
  let layouts ← computeLayouts ctx.principalsSets principalGroups satGraph
  if layouts.length = 0 then
    throw (.error "no peer combination can satisfy the endorsement policy")
  let criteria : PeerMembershipCriteria :=
    { satGraph
      idOfMembers := ctx.identitiesOfMembers
      chanMemberById := ctx.channelMembersById
      possibleLayouts := layouts
      chaincodeMapping := ctx.chaincodeMapping }
  let groupToEndorserListMapping := endorsersByGroup criteria
  let layouts := filterOutUnsatisfiedLayouts groupToEndorserListMapping layouts
  if layouts.length = 0 then
    throw (.error "required chaincodes are not installed on sufficient peers")
  pure
    { chaincode := ctx.chaincode
      layouts
      endorsersByGroups := groupToEndorserListMapping }

/-! ## What the descriptor lists -/

/-- A neighbour of a principal's vertex is an alive member that satisfies the principal. -/
theorem mem_neighborsOf {members : List NetworkMember}
    {satisfiesPrincipal : NetworkMember → PrincipalKey → Bool} {principal : PrincipalKey}
    {pkiId : String} {member : NetworkMember}
    (h : (neighborsOf members satisfiesPrincipal principal).get? pkiId = some member) :
    member ∈ members ∧ satisfiesPrincipal member principal = true := by
  rcases GoMap.get?_foldl_insert NetworkMember.pkiId id _ _ h with h | ⟨a, ha, -, rfl⟩
  · simp at h
  · exact List.mem_filter.mp ha

/-- The vertex of a group is that of the principal the mapper names so, joined to the members
    that satisfy it. -/
theorem get?_principalVertices {members : List NetworkMember} {pGrps : PrincipalGroupMapper}
    {satisfiesPrincipal : NetworkMember → PrincipalKey → Bool} {grp : String}
    {principalVertex : PrincipalVertex}
    (h : (principalsToPeersGraph members pGrps satisfiesPrincipal).principalVertices.get? grp =
      some principalVertex) :
    pGrps.get? principalVertex.principal = some grp ∧
      principalVertex.neighbors = neighborsOf members satisfiesPrincipal principalVertex.principal := by
  rcases GoMap.get?_foldl_insert (fun e : PrincipalKey × String => e.2)
      (fun e => (⟨e.1, neighborsOf members satisfiesPrincipal e.1⟩ : PrincipalVertex)) _ _ h with
    h | ⟨e, he, rfl, rfl⟩
  · simp at h
  · exact ⟨GoMap.get?_of_mem pGrps he, rfl⟩

/-- `endorsersByGroup` lists for a group the endorsers of its vertex. -/
theorem get?_endorsersByGroup {criteria : PeerMembershipCriteria} {grp : String}
    {peerList : List Peer} (h : (endorsersByGroup criteria).get? grp = some peerList) :
    ∃ principalVertex, criteria.satGraph.principalVertices.get? grp = some principalVertex ∧
      peerList = criteria.endorsersOf principalVertex := by
  -- the step at a vertex writes its own group alone
  have hread := GoMap.read_foldl_entries GoMap.get?
    (fun res e =>
      if (groupsSet criteria.possibleLayouts).contains e.1 then
        if 0 < (criteria.endorsersOf e.2).length then res.insert e.1 (criteria.endorsersOf e.2)
        else res
      else res)
    (fun k v o =>
      if (groupsSet criteria.possibleLayouts).contains k ∧ 0 < (criteria.endorsersOf v).length
      then some (criteria.endorsersOf v) else o)
    (fun acc k v q => by
      by_cases hkq : k = q
      · subst hkq
        by_cases hc : (groupsSet criteria.possibleLayouts).contains k <;>
          by_cases hl : 0 < (criteria.endorsersOf v).length <;> simp [hc, hl]
      · have hqk : q ≠ k := Ne.symm hkq
        split <;> (try split) <;> simp [hqk])
    criteria.satGraph.principalVertices .empty grp
  have h' := hread.symm.trans h
  cases hv : criteria.satGraph.principalVertices.get? grp with
  | none => simp [hv] at h'
  | some principalVertex =>
    simp only [hv, GoMap.get?_empty] at h'
    split at h'
    · exact ⟨principalVertex, rfl, (Option.some.inj h').symm⟩
    · cases h'

/-- The endorsers listed for a group are alive members that satisfy the group's principal,
    with the chaincode installed. -/
theorem endorsers_principalsToPeersGraph {criteria : PeerMembershipCriteria}
    {members : List NetworkMember} {pGrps : PrincipalGroupMapper}
    {satisfiesPrincipal : NetworkMember → PrincipalKey → Bool}
    (hgraph : criteria.satGraph = principalsToPeersGraph members pGrps satisfiesPrincipal)
    {grp : String} {peerList : List Peer}
    (h : (endorsersByGroup criteria).get? grp = some peerList) :
    ∃ principal, pGrps.get? principal = some grp ∧
      ∀ peer ∈ peerList, ∃ member ∈ members, satisfiesPrincipal member principal = true ∧
        endorserOf criteria.idOfMembers criteria.chanMemberById criteria.chaincodeMapping member =
          some peer := by
  obtain ⟨principalVertex, hv, rfl⟩ := get?_endorsersByGroup h
  rw [hgraph] at hv
  obtain ⟨hgrp, hneighbors⟩ := get?_principalVertices hv
  refine ⟨principalVertex.principal, hgrp, fun peer hpeer => ?_⟩
  -- a listed peer comes from a neighbour of the vertex
  obtain ⟨e, he, hpeer⟩ := List.mem_filterMap.mp hpeer
  have hget := GoMap.get?_of_mem principalVertex.neighbors he
  rw [hneighbors] at hget
  obtain ⟨hmem, hsat⟩ := mem_neighborsOf hget
  exact ⟨e.2, hmem, hsat, hpeer⟩

/-- `computeEndorsementResponse` on a request it answers: the layouts it keeps are those of
    `computeLayouts` with enough endorsers, and there is one at least. -/
theorem computeEndorsementResponse_eq_ok {satisfiesPrincipal : NetworkMember → PrincipalKey → Bool}
    {ctx : Context} {desc : EndorsementDescriptor}
    (h : computeEndorsementResponse satisfiesPrincipal ctx = .ok desc) :
    ∃ criteria : PeerMembershipCriteria,
      criteria.satGraph = principalsToPeersGraph ctx.aliveMembership
        (mapPrincipalsToGroups ctx.principalsSets) satisfiesPrincipal ∧
      criteria.idOfMembers = ctx.identitiesOfMembers ∧
      criteria.chanMemberById = ctx.channelMembersById ∧
      criteria.chaincodeMapping = ctx.chaincodeMapping ∧
      desc.endorsersByGroups = endorsersByGroup criteria ∧
      desc.layouts = filterOutUnsatisfiedLayouts desc.endorsersByGroups criteria.possibleLayouts ∧
      desc.layouts ≠ [] := by
  simp only [computeEndorsementResponse] at h
  cases hl : computeLayouts ctx.principalsSets (mapPrincipalsToGroups ctx.principalsSets)
      (principalsToPeersGraph ctx.aliveMembership (mapPrincipalsToGroups ctx.principalsSets)
        satisfiesPrincipal) with
  | error e =>
    rw [hl] at h
    cases h
  | ok layouts =>
    simp only [hl, bind, Except.bind] at h
    split at h
    · cases h
    · split at h
      · cases h
      · next h0 h1 =>
        cases h
        exact ⟨_, rfl, rfl, rfl, rfl, rfl, rfl, fun hnil => h1 (List.length_eq_zero_iff.mpr hnil)⟩

/-- A layout has enough endorsers when each of its groups lists as many as it asks. -/
theorem hasEnoughEndorsers_iff {endorsersByGroups : GoMap String (List Peer)} {layout : Layout} :
    hasEnoughEndorsers endorsersByGroups layout = true ↔
      ∀ grp quantity, (grp, quantity) ∈ layout.quantitiesByGroup.entries →
        ∃ peerList, endorsersByGroups.get? grp = some peerList ∧
          quantity.toNat ≤ peerList.length := by
  simp only [hasEnoughEndorsers, List.all_eq_true]
  constructor
  · intro h grp quantity he
    have hq := h (grp, quantity) he
    split at hq
    · cases hq
    · next peerList hget => exact ⟨peerList, hget, by simpa using hq⟩
  · intro h e he
    obtain ⟨peerList, hget, hle⟩ := h e.1 e.2 he
    simp [hget, hle]

/-- What the descriptor guarantees: each group of a kept layout lists as many endorsers as the
    layout asks of it, each of them an alive member that satisfies the group's principal and
    has the chaincode installed. -/
theorem computeEndorsementResponse_counts
    {satisfiesPrincipal : NetworkMember → PrincipalKey → Bool} {ctx : Context}
    {desc : EndorsementDescriptor}
    (h : computeEndorsementResponse satisfiesPrincipal ctx = .ok desc) :
    desc.layouts ≠ [] ∧
      (∀ layout ∈ desc.layouts, ∀ grp quantity, (grp, quantity) ∈ layout.quantitiesByGroup.entries →
        ∃ peerList, desc.endorsersByGroups.get? grp = some peerList ∧
          quantity.toNat ≤ peerList.length) ∧
      ∀ grp peerList, desc.endorsersByGroups.get? grp = some peerList →
        ∃ principal, (mapPrincipalsToGroups ctx.principalsSets).get? principal = some grp ∧
          ∀ peer ∈ peerList, ∃ member ∈ ctx.aliveMembership,
            satisfiesPrincipal member principal = true ∧
            endorserOf ctx.identitiesOfMembers ctx.channelMembersById ctx.chaincodeMapping member =
              some peer := by
  obtain ⟨criteria, hgraph, hid, hchan, hcc, hendorsers, hlayouts, hne⟩ :=
    computeEndorsementResponse_eq_ok h
  refine ⟨hne, fun layout hlayout => ?_, fun grp peerList hget => ?_⟩
  · -- a kept layout passed `filterOutUnsatisfiedLayouts`
    rw [hlayouts, filterOutUnsatisfiedLayouts, List.mem_filter] at hlayout
    exact hasEnoughEndorsers_iff.mp hlayout.2
  · rw [hendorsers] at hget
    rw [← hid, ← hchan, ← hcc]
    exact endorsers_principalsToPeersGraph hgraph hget

/-! ## Distinct endorsers -/

/-- A layout can be met by distinct endorsers: for each of its groups, as many peers as it
    asks from the group's endorsers, no peer chosen twice. -/
def Realisable (endorsersByGroups : GoMap String (List Peer)) (layout : Layout) : Prop :=
  DistinctChoice (layout.quantitiesByGroup.entries.map fun e => (e.1, e.2.toNat))
    (fun grp => (endorsersByGroups.get? grp).getD [])

/-- The endorsements a layout asks for. -/
def Layout.quantity (layout : Layout) : Nat :=
  (layout.quantitiesByGroup.entries.map fun e => e.2.toNat).sum

/-- The distinct peers listed for the groups of a layout. -/
def distinctEndorsers (endorsersByGroups : GoMap String (List Peer)) (layout : Layout) : Nat :=
  (layout.quantitiesByGroup.entries.flatMap fun e => (endorsersByGroups.get? e.1).getD []).dedup.length

/-- A layout met by distinct endorsers asks no more endorsements than its groups list distinct
    peers. -/
theorem Realisable.quantity_le {endorsersByGroups : GoMap String (List Peer)} {layout : Layout}
    (h : Realisable endorsersByGroups layout) :
    layout.quantity ≤ distinctEndorsers endorsersByGroups layout := by
  have hle := DistinctChoice.sum_le h
  simpa [Layout.quantity, distinctEndorsers, List.map_map, List.flatMap_map,
    Function.comp_def] using hle

theorem not_realisable_of_lt {endorsersByGroups : GoMap String (List Peer)} {layout : Layout}
    (h : distinctEndorsers endorsersByGroups layout < layout.quantity) :
    ¬Realisable endorsersByGroups layout :=
  fun hreal => absurd hreal.quantity_le (Nat.not_le.mpr h)

/-- A kept layout whose groups list distinct peers, no peer listed for two of its groups, can
    be met by distinct endorsers. -/
theorem realisable_of_disjoint {satisfiesPrincipal : NetworkMember → PrincipalKey → Bool}
    {ctx : Context} {desc : EndorsementDescriptor}
    (h : computeEndorsementResponse satisfiesPrincipal ctx = .ok desc) {layout : Layout}
    (hlayout : layout ∈ desc.layouts)
    (hnodup : ∀ e ∈ desc.endorsersByGroups.entries, e.2.Nodup)
    (hdisjoint : ∀ e ∈ layout.quantitiesByGroup.entries, ∀ e' ∈ layout.quantitiesByGroup.entries,
      e.1 ≠ e'.1 → ∀ peer ∈ (desc.endorsersByGroups.get? e.1).getD [],
        peer ∉ (desc.endorsersByGroups.get? e'.1).getD []) :
    Realisable desc.endorsersByGroups layout := by
  have hcounts := (computeEndorsementResponse_counts h).2.1 layout hlayout
  apply DistinctChoice.of_disjoint
  · -- a layout asks each group once
    simpa [List.map_map, Function.comp_def] using layout.quantitiesByGroup.nodup
  · intro e he
    obtain ⟨⟨grp, quantity⟩, hq, rfl⟩ := List.mem_map.mp he
    obtain ⟨peerList, hget, hle⟩ := hcounts grp quantity hq
    rw [hget]
    exact ⟨hnodup _ (GoMap.mem_entries_of_get? hget), hle⟩
  · intro e he e' he' hne peer hpeer hpeer'
    obtain ⟨⟨grp, quantity⟩, hq, rfl⟩ := List.mem_map.mp he
    obtain ⟨⟨grp', quantity'⟩, hq', rfl⟩ := List.mem_map.mp he'
    exact hdisjoint _ hq _ hq' hne peer hpeer hpeer'

/-! ## One peer for two principals -/

/-- The principals of `Org1`'s members and of its peers: `MSPRole` principals, by their role. -/
def org1Member : PrincipalKey := ⟨0, "Org1.member"⟩

def org1PeerRole : PrincipalKey := ⟨0, "Org1.peer"⟩

/-- A peer of `Org1`, alive, in the channel, with the chaincode installed. -/
def org1Peer0 : NetworkMember := { pkiId := "peer0.org1", envelope := some [1] }

/-- A request under the policy that asks for a member and a peer of `Org1`, with `org1Peer0`
    the one alive peer. -/
def memberAndPeerRequest : Context where
  chaincode := "cc"
  aliveMembership := [org1Peer0]
  principalsSets := [[org1Member, org1PeerRole]]
  channelMembersById := GoMap.empty.insert org1Peer0.pkiId org1Peer0
  identitiesOfMembers := GoMap.empty.insert org1Peer0.pkiId [1]
  chaincodeMapping := GoMap.empty.insert org1Peer0.pkiId org1Peer0

/-- The channel's evaluator: the `Org1` peer satisfies both principals. -/
def satisfiesOrg1 (_ : NetworkMember) (_ : PrincipalKey) : Bool := true

theorem computeEndorsementResponse_counts_peer_twice :
    ∃ desc, computeEndorsementResponse satisfiesOrg1 memberAndPeerRequest = .ok desc ∧
      desc.layouts.map (fun layout => layout.quantitiesByGroup.entries) =
        [[("G1", 1), ("G0", 1)]] ∧
      ∀ layout ∈ desc.layouts, ¬Realisable desc.endorsersByGroups layout := by
  refine ⟨_, rfl, by decide, fun layout hlayout => not_realisable_of_lt ?_⟩
  -- the layout asks two endorsements of the one peer
  revert layout
  decide

end Fabric.Discovery
