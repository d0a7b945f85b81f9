import Fabric.Lib.GoMap
import Fabric.Ledger.Version
import Mathlib

/-
  The endorsement plan of the gateway (`internal/pkg/gateway/endorsement.go`).

  A plan holds the layouts discovery returned, each the number of endorsements it needs from
  each group, and the endorsers of each group not yet handed out. `endorsers` hands out, for the
  first layout left from `nextLayout` on, as many endorsers from the front of each group as the
  layout still needs; a layout that needs more than a group has left is abandoned, and the
  endorsers already taken for it from the groups the loop visited before are dropped.
  `processEndorsement` takes the endorser out of its group, checks the response's payload
  against the first one, and counts the endorsement in every layout from `nextLayout` on that
  needs the endorser's group, stopping at a layout that then needs nothing: the completed one.
  `nextPeerInGroup` hands out the next endorser of the group of one that failed or, when the
  group has none left, abandons every layout from `nextLayout` on that needs the group and moves
  `nextLayout` on by one.

  Proved here, one lemma for each method: what a call takes out of the groups and does to the
  rest of the plan (`takeGroups_perm`, `Plan.endorsers_spec`, `Plan.nextPeerInGroup_some`,
  `Plan.nextPeerInGroup_none`, `Plan.items_removeEndorser`, `Plan.processEndorsement_eq`), with
  `Plan.Trims` for "layouts abandoned, `nextLayout` moved on, nothing behind it changed"; that
  `endorsers` hands out someone for a layout that needs someone (`Plan.endorsers_ne_none`); how
  counting changes each layout (`Layout.count_eq_some`, `countLoop_counted`,
  `countLoop_completed`); and that `newPlan` gives each endorser the group it is listed in when
  each is listed once (`Plan.groupOf_newPlan`).

  Over these stands the plan's accounting (`Layout.Acc`, `Plan.Acc`): what a layout still needs
  of a group and the endorsements it has counted of the group make up what discovery's layout at
  its place asked; the completed layout needs nothing more; until one is completed every layout
  left needs something; and every response counted has the plan's payload. Every method keeps it
  (`Plan.Acc.trims`, `Plan.Acc.processEndorsement`), a plan fresh from discovery has it
  (`Plan.acc_newPlan`), and a plan that has it hands out endorsers without looping
  (`Plan.Acc.endorsers_ne_none`). `uniqueEndorsements` keeps endorsements from distinct endorsers
  as they are (`uniqueEndorsements_of_nodup`).

  The identity of an endorser stands for both its `pkiid` and the `Endorser` of its
  endorsements. A nil response payload is the empty one. Discovery's quantities are positive; a
  negative one, on which Go's slice `[0:qty]` would panic, is taken as zero. The plan's lock makes
  each method one step; the error details, the mismatch logger and `size`, which only the tests
  read, are left out.
-/

namespace Fabric.Gateway

open Fabric.Ledger (Bytes)

/-- `peer.Endorsement`. -/
structure Endorsement (E : Type) where
  endorser : E
  signature : Bytes
  deriving DecidableEq, Repr

/-- The fields of `peer.ProposalResponse` that the plan reads. -/
structure ProposalResponse (E : Type) where
  payload : Bytes
  endorsement : Endorsement E
  deriving DecidableEq, Repr

/-- `layout`: the quantity still needed from each group, and the endorsements counted. -/
structure Layout (E : Type) where
  required : GoMap String Int
  endorsements : List (Endorsement E)

/-- `plan`: the layouts (`none` where Go stores nil), the endorsers of each group not yet handed
    out, the group of each endorser, the first layout not abandoned, the payload of the first
    response and the layout completed. -/
structure Plan (E : Type) [DecidableEq E] where
  layouts : List (Option (Layout E))
  groupEndorsers : GoMap String (List E)
  groupIds : GoMap E String
  nextLayout : Nat
  responsePayload : Bytes
  completedLayout : Option (Layout E)

section Plan

variable {E : Type} [DecidableEq E]

/-- `newPlan`: each endorser is given the last group the range loop finds it in. -/
def newPlan (order : GoMap.RangeOrder String (List E)) (layouts : List (Layout E))
    (groupEndorsers : GoMap String (List E)) : Plan E where
  layouts := layouts.map some
  groupEndorsers
  groupIds := ((order.visit groupEndorsers).flatMap fun e => e.2.map fun endorser => (endorser, e.1)).foldl
    (fun groupIds x => groupIds.insert x.1 x.2) GoMap.empty
  nextLayout := 0
  responsePayload := []
  completedLayout := none

/-- `p.groupIds[endorser.pkiid.String()]`: the empty group for an endorser the plan does not
    know. -/
def Plan.groupOf (p : Plan E) (endorser : E) : String := (p.groupIds.get? endorser).getD ""

/-- `p.groupEndorsers[group]`. -/
def Plan.endorsersOf (p : Plan E) (group : String) : List E :=
  (p.groupEndorsers.get? group).getD []

/-- The endorsers not yet handed out. -/
def Plan.items (p : Plan E) : List E := p.groupEndorsers.items

/-- The loop over the groups of a layout in `endorsers`: from the front of each group, as many
    endorsers as the layout needs, or `none` at the first group with fewer left; the groups as
    the loop leaves them. -/
def takeGroups (groupEndorsers : GoMap String (List E)) :
    List (String × Int) → Option (List E) × GoMap String (List E)
  | [] => (some [], groupEndorsers)
  | (group, qty) :: rest =>
    let available := (groupEndorsers.get? group).getD []
    if qty > available.length then (none, groupEndorsers)
    else
      -- remove the first qty endorsers from the front of this group
      match takeGroups (groupEndorsers.insert group (available.drop qty.toNat)) rest with
      | (some endorsers, groupEndorsers) => (some (available.take qty.toNat ++ endorsers), groupEndorsers)
      | (none, groupEndorsers) => (none, groupEndorsers)

/-- `endorsers`: the endorsers for the first layout from `nextLayout` on that the groups can
    serve, `[]` when no layout is left, and `none` where Go loops for ever, on a layout that needs
    no endorser. -/
def Plan.endorsers (order : GoMap.RangeOrder String Int) (p : Plan E) :
    Option (List E × Plan E) :=
  match _h : p.layouts[p.nextLayout]? with
  | none => some ([], p)
  -- skip over a defunct layout
  | some none => Plan.endorsers order { p with nextLayout := p.nextLayout + 1 }
  | some (some layout) =>
    match takeGroups p.groupEndorsers (order.visit layout.required) with
    | (none, groupEndorsers) =>
      -- requires more group endorsers than available: abandon this layout
      Plan.endorsers order { p with groupEndorsers, layouts := p.layouts.set p.nextLayout none,
                                    nextLayout := p.nextLayout + 1 }
    | (some [], _) => none
    | (some endorsers, groupEndorsers) => some (endorsers, { p with groupEndorsers })
termination_by p.layouts.length - p.nextLayout
decreasing_by
  all_goals
    have := (List.getElem?_eq_some_iff.mp _h).1
    try simp only [List.length_set]
    omega

/-- Counting an endorsement of `group` in one layout: `none` if the layout does not need the
    group; otherwise the layout with the endorsement, one less needed from the group and the
    group deleted when no more is, and whether the layout then needs nothing. -/
def Layout.count (group : String) (endorsement : Endorsement E) (layout : Layout E) :
    Option (Layout E × Bool) :=
  (layout.required.get? group).map fun quantity =>
    let endorsements := layout.endorsements ++ [endorsement]
    if quantity - 1 = 0 then
      -- this group for this layout is complete
      let required := layout.required.erase group
      (⟨required, endorsements⟩, required.entries.isEmpty)
    else (⟨layout.required.insert group (quantity - 1), endorsements⟩, false)

/-- The loop over the layouts in `processEndorsement`: the layouts after counting, and the
    layout completed, at which the loop stops. -/
def countLoop (group : String) (endorsement : Endorsement E) :
    List (Option (Layout E)) → List (Option (Layout E)) × Option (Layout E)
  | [] => ([], none)
  | none :: rest =>
    let r := countLoop group endorsement rest
    (none :: r.1, r.2)
  | some layout :: rest =>
    match layout.count group endorsement with
    | none =>
      let r := countLoop group endorsement rest
      (some layout :: r.1, r.2)
    | some (layout, true) => (some layout :: rest, some layout)
    | some (layout, false) =>
      let r := countLoop group endorsement rest
      (some layout :: r.1, r.2)

/-- The counting of `processEndorsement`, once the payload has been checked. -/
def Plan.count (p : Plan E) (group : String) (endorsement : Endorsement E) : Plan E :=
  let r := countLoop group endorsement (p.layouts.drop p.nextLayout)
  { p with layouts := p.layouts.take p.nextLayout ++ r.1, completedLayout := r.2.or p.completedLayout }

/-- The removal at the head of `processEndorsement`: the endorser out of its group, which it
    need not be in when the plan did not hand it out (the first endorser). -/
def Plan.removeEndorser (p : Plan E) (endorser : E) : Plan E :=
  let group := p.groupOf endorser
  let endorsers := p.endorsersOf group
  match endorsers.findIdx? (· = endorser) with
  | some i => { p with groupEndorsers := p.groupEndorsers.insert group (endorsers.eraseIdx i) }
  | none => p

/-- `processEndorsement`: whether the response's payload matches the first one, and the plan. -/
def Plan.processEndorsement (p : Plan E) (endorser : E) (response : ProposalResponse E) :
    Bool × Plan E :=
  let group := p.groupOf endorser
  -- remove the endorser from this group
  let p := p.removeEndorser endorser
  -- check the proposal responses are the same
  if p.responsePayload = [] then
    (true, { p with responsePayload := response.payload }.count group response.endorsement)
  else if p.responsePayload ≠ response.payload then (false, p)
  else (true, p.count group response.endorsement)

/-- `nextPeerInGroup`: the next endorser of the failed one's group, or, when the group has no
    more, `none`, with every layout from `nextLayout` on that needs the group abandoned and
    `nextLayout` moved on. -/
def Plan.nextPeerInGroup (p : Plan E) (endorser : E) : Option E × Plan E :=
  let group := p.groupOf endorser
  match p.endorsersOf group with
  | next :: rest => (some next, { p with groupEndorsers := p.groupEndorsers.insert group rest })
  | [] =>
    (none, { p with
      layouts := p.layouts.mapIdx fun i layout =>
        if p.nextLayout ≤ i ∧ layout.any (·.required.contains group) then none else layout
      nextLayout := p.nextLayout + 1 })

/-- `uniqueEndorsements`: the endorsements in order, each endorser's first only. -/
def uniqueEndorsements (endorsements : List (Endorsement E)) : List (Endorsement E) :=
  (endorsements.foldl (fun (acc : List E × List (Endorsement E)) e =>
    if e.endorser ∈ acc.1 then acc else (acc.1 ++ [e.endorser], acc.2 ++ [e])) ([], [])).2

end Plan

/-! ## What each method takes out of the groups -/

section Specs

variable {E : Type} [DecidableEq E] {order : GoMap.RangeOrder String Int} {p p' : Plan E}

/-- `p'` is `p` with layouts abandoned, `nextLayout` moved on and the groups changed: what
    `endorsers` and `nextPeerInGroup` do to the rest of the plan. -/
structure Plan.Trims (p p' : Plan E) : Prop where
  groupIds : p'.groupIds = p.groupIds
  responsePayload : p'.responsePayload = p.responsePayload
  completedLayout : p'.completedLayout = p.completedLayout
  length : p'.layouts.length = p.layouts.length
  layouts : ∀ (k : Nat) (L : Layout E), p'.layouts[k]? = some (some L) →
    p.layouts[k]? = some (some L)
  nextLayout : p.nextLayout ≤ p'.nextLayout
  frozen : ∀ k, k < p.nextLayout → p'.layouts[k]? = p.layouts[k]?

theorem Plan.Trims.refl (p : Plan E) : p.Trims p :=
  ⟨rfl, rfl, rfl, rfl, fun _ _ h => h, Nat.le_refl _, fun _ _ => rfl⟩

theorem Plan.Trims.trans {p₁ p₂ p₃ : Plan E} (h₁ : p₁.Trims p₂) (h₂ : p₂.Trims p₃) :
    p₁.Trims p₃ :=
  ⟨h₂.groupIds.trans h₁.groupIds, h₂.responsePayload.trans h₁.responsePayload,
    h₂.completedLayout.trans h₁.completedLayout, h₂.length.trans h₁.length,
    fun k L h => h₁.layouts k L (h₂.layouts k L h), Nat.le_trans h₁.nextLayout h₂.nextLayout,
    fun k hk => (h₂.frozen k (Nat.lt_of_lt_of_le hk h₁.nextLayout)).trans (h₁.frozen k hk)⟩

/-- Changing the groups only. -/
theorem Plan.trims_groupEndorsers (p : Plan E) (groupEndorsers : GoMap String (List E)) :
    p.Trims { p with groupEndorsers } :=
  ⟨rfl, rfl, rfl, rfl, fun _ _ h => h, Nat.le_refl _, fun _ _ => rfl⟩

/-- Moving past a layout. -/
theorem Plan.trims_nextLayout_succ (p : Plan E) : p.Trims { p with nextLayout := p.nextLayout + 1 } :=
  ⟨rfl, rfl, rfl, rfl, fun _ _ h => h, Nat.le_succ _, fun _ _ => rfl⟩

omit [DecidableEq E] in
/-- The groups a call leaves, with the endorsers it took, are those before. -/
theorem takeGroups_perm (groupEndorsers : GoMap String (List E)) (groups : List (String × Int)) :
    ∃ taken, ((takeGroups groupEndorsers groups).1 = none ∨
        (takeGroups groupEndorsers groups).1 = some taken) ∧
      (taken ++ (takeGroups groupEndorsers groups).2.items).Perm groupEndorsers.items := by
  induction groups generalizing groupEndorsers with
  | nil => exact ⟨[], .inr rfl, by simp [takeGroups]⟩
  | cons x rest ih =>
    obtain ⟨group, qty⟩ := x
    by_cases hq : qty > ((groupEndorsers.get? group).getD []).length
    · exact ⟨[], .inl (by simp [takeGroups, hq]), by simp [takeGroups, hq]⟩
    · -- the group gives up its first `qty` endorsers, then the loop goes on
      have hfront := GoMap.items_insert_perm groupEndorsers group
        (List.Perm.of_eq (List.take_append_drop qty.toNat ((groupEndorsers.get? group).getD [])))
      obtain ⟨taken, hr, hperm⟩ := ih (groupEndorsers.insert group
        (((groupEndorsers.get? group).getD []).drop qty.toNat))
      have hall := (hperm.append_left (((groupEndorsers.get? group).getD []).take qty.toNat)).trans
        hfront
      simp only [takeGroups, if_neg hq]
      rcases hrec : takeGroups (groupEndorsers.insert group
        (((groupEndorsers.get? group).getD []).drop qty.toNat)) rest with ⟨_ | es, ge⟩
      · rw [hrec] at hall
        exact ⟨_, .inl rfl, by rwa [List.append_assoc]⟩
      · rw [hrec] at hr hall
        obtain rfl : es = taken := by simpa using hr
        exact ⟨_, .inr rfl, by rwa [List.append_assoc]⟩

omit [DecidableEq E] in
/-- A layout that needs someone from each of its groups is handed someone. -/
theorem takeGroups_ne_nil {groupEndorsers : GoMap String (List E)} :
    ∀ {groups : List (String × Int)} {endorsers : List E}, groups ≠ [] →
      (∀ x ∈ groups, 0 < x.2) → (takeGroups groupEndorsers groups).1 = some endorsers →
      endorsers ≠ []
  | [], _, hne, _, _ => absurd rfl hne
  | (group, qty) :: rest, endorsers, _, hpos, h => by
    have hq := hpos _ List.mem_cons_self
    by_cases hlt : qty > ((groupEndorsers.get? group).getD []).length
    · simp [takeGroups, hlt] at h
    · -- the first group gives up `qty` endorsers, at least one
      simp only [takeGroups, if_neg hlt] at h
      split at h
      · next es ge hrec =>
        cases h
        have hlen : 0 < (((groupEndorsers.get? group).getD []).take qty.toNat).length := by
          rw [List.length_take]
          simp only [gt_iff_lt, not_lt] at hlt
          omega
        intro hnil
        rw [List.append_eq_nil_iff] at hnil
        rw [hnil.1] at hlen
        simp at hlen
      · cases h

theorem Plan.endorsers_of_none (h : p.layouts[p.nextLayout]? = none) :
    p.endorsers order = some ([], p) := by
  rw [Plan.endorsers]
  split <;> simp_all

theorem Plan.endorsers_of_defunct (h : p.layouts[p.nextLayout]? = some none) :
    p.endorsers order = Plan.endorsers order { p with nextLayout := p.nextLayout + 1 } := by
  rw [Plan.endorsers]
  split <;> simp_all

theorem Plan.endorsers_of_abandon {layout : Layout E} {groupEndorsers : GoMap String (List E)}
    (h : p.layouts[p.nextLayout]? = some (some layout))
    (ht : takeGroups p.groupEndorsers (order.visit layout.required) = (none, groupEndorsers)) :
    p.endorsers order = Plan.endorsers order
      { p with groupEndorsers, layouts := p.layouts.set p.nextLayout none,
               nextLayout := p.nextLayout + 1 } := by
  rw [Plan.endorsers]
  split
  · simp_all
  · simp_all
  · next layout' h' =>
    rw [h] at h'
    cases h'
    simp [ht]

theorem Plan.endorsers_of_take {layout : Layout E} {groupEndorsers : GoMap String (List E)}
    {endorsers : List E} (h : p.layouts[p.nextLayout]? = some (some layout))
    (ht : takeGroups p.groupEndorsers (order.visit layout.required) =
      (some endorsers, groupEndorsers)) (hne : endorsers ≠ []) :
    p.endorsers order = some (endorsers, { p with groupEndorsers }) := by
  rw [Plan.endorsers]
  split
  · simp_all
  · simp_all
  · next layout' h' =>
    rw [h] at h'
    cases h'
    cases endorsers with
    | nil => exact absurd rfl hne
    | cons e es => simp [ht]

/-- `endorsers` hands out endorsers from the groups, drops some, abandons layouts and moves
    `nextLayout` on; it returns no one only when no layout is left. -/
theorem Plan.endorsers_spec {es : List E} (h : p.endorsers order = some (es, p')) :
    p.Trims p' ∧ (∃ dropped, (es ++ dropped ++ p'.items).Perm p.items) ∧
      (es = [] → p'.layouts.length ≤ p'.nextLayout) := by
  induction p using Plan.endorsers.induct order with
  | case1 p hnone =>
    rw [Plan.endorsers_of_none hnone] at h
    obtain ⟨rfl, rfl⟩ := Prod.mk.inj (Option.some.inj h)
    refine ⟨Plan.Trims.refl p, ⟨[], by simp⟩, fun _ => ?_⟩
    exact Nat.le_of_not_lt fun hlt => by simp [List.getElem?_eq_getElem hlt] at hnone
  | case2 p hdef ih =>
    rw [Plan.endorsers_of_defunct hdef] at h
    obtain ⟨htrim, hperm, hnil⟩ := ih h
    exact ⟨p.trims_nextLayout_succ.trans htrim, hperm, hnil⟩
  | case3 p layout hl ge ht ih =>
    rw [Plan.endorsers_of_abandon hl ht] at h
    obtain ⟨htrim, ⟨dropped, hperm⟩, hnil⟩ := ih h
    -- the endorsers taken for the abandoned layout are dropped
    obtain ⟨taken, -, htaken⟩ := takeGroups_perm p.groupEndorsers (order.visit layout.required)
    rw [ht] at htaken
    have hstep : p.Trims { p with groupEndorsers := ge, layouts := p.layouts.set p.nextLayout none,
                                  nextLayout := p.nextLayout + 1 } := by
      refine ⟨rfl, rfl, rfl, List.length_set .., fun k L hk => ?_, Nat.le_succ _,
        fun k hk => List.getElem?_set_ne (Nat.ne_of_gt hk)⟩
      rw [List.getElem?_set] at hk
      split at hk
      · split at hk <;> cases hk
      · exact hk
    refine ⟨hstep.trans htrim, ⟨dropped ++ taken, ?_⟩, hnil⟩
    have hmove : (es ++ (dropped ++ taken) ++ p'.items).Perm
        (es ++ dropped ++ p'.items ++ taken) := by
      simp only [List.append_assoc]
      exact List.Perm.append_left _ (List.Perm.append_left _ List.perm_append_comm)
    exact hmove.trans (((hperm.append_right taken).trans List.perm_append_comm).trans htaken)
  | case4 p layout hl ge ht =>
    rw [Plan.endorsers, hl] at h
    simp [ht] at h
  | case5 p layout hl es' ge hne ht =>
    rw [Plan.endorsers_of_take hl ht hne] at h
    obtain ⟨rfl, rfl⟩ := Prod.mk.inj (Option.some.inj h)
    obtain ⟨taken, hr, htaken⟩ := takeGroups_perm p.groupEndorsers (order.visit layout.required)
    rw [ht] at hr htaken
    simp only [reduceCtorEq, Option.some.injEq, false_or] at hr
    subst hr
    exact ⟨p.trims_groupEndorsers ge, ⟨[], by simpa [Plan.items] using htaken⟩,
      fun h => absurd h hne⟩

/-- `endorsers` hands someone out, or no one when no layout is left, on a plan whose layouts
    from `nextLayout` on each need someone, from groups they need at least once. -/
theorem Plan.endorsers_ne_none
    (hneed : ∀ k L, p.nextLayout ≤ k → p.layouts[k]? = some (some L) →
      L.required.entries ≠ [] ∧ ∀ x ∈ L.required.entries, 0 < x.2) :
    p.endorsers order ≠ none := by
  induction p using Plan.endorsers.induct order with
  | case1 p hnone => rw [Plan.endorsers_of_none hnone]; simp
  | case2 p hdef ih =>
    rw [Plan.endorsers_of_defunct hdef]
    exact ih fun k L hk hL => hneed k L (by simp at hk; omega) hL
  | case3 p layout hl ge ht ih =>
    rw [Plan.endorsers_of_abandon hl ht]
    refine ih fun k L hk hL => hneed k L (by simp at hk; omega) ?_
    simp only [List.getElem?_set] at hL
    split at hL
    · split at hL <;> cases hL
    · exact hL
  | case4 p layout hl ge ht =>
    -- a layout that needs someone is handed someone
    obtain ⟨hne, hpos⟩ := hneed _ layout (Nat.le_refl _) hl
    exfalso
    refine takeGroups_ne_nil ?_ ?_ (congrArg Prod.fst ht) rfl
    · rwa [ne_eq, GoMap.RangeOrder.visit_eq_nil]
    · exact fun x hx => hpos x ((order.mem_visit _).mp hx)
  | case5 p layout hl es ge hne ht =>
    rw [Plan.endorsers_of_take hl ht hne]
    simp

/-- `nextPeerInGroup` with an endorser left in the group hands out the first. -/
theorem Plan.nextPeerInGroup_some {endorser next : E} (h : p.nextPeerInGroup endorser = (some next, p')) :
    p.Trims p' ∧ (next :: p'.items).Perm p.items ∧ p'.nextLayout = p.nextLayout ∧
      p'.layouts = p.layouts := by
  simp only [Plan.nextPeerInGroup] at h
  split at h
  · next n rest hrest =>
    simp only [Prod.mk.injEq, Option.some.injEq] at h
    obtain ⟨rfl, rfl⟩ := h
    refine ⟨p.trims_groupEndorsers _, ?_, rfl, rfl⟩
    -- the group's first endorser is taken, the rest written back
    have hfront : ([n] ++ rest).Perm ((p.groupEndorsers.get? (p.groupOf endorser)).getD []) := by
      rw [List.singleton_append, ← hrest]
      exact List.Perm.refl _
    simpa [Plan.items] using GoMap.items_insert_perm p.groupEndorsers (p.groupOf endorser) hfront
  · cases h

/-- `nextPeerInGroup` on a group with no one left abandons the layouts that need the group and
    moves `nextLayout` on by one, whatever layout stands there. -/
theorem Plan.nextPeerInGroup_none {endorser : E} (h : p.nextPeerInGroup endorser = (none, p')) :
    p.Trims p' ∧ p'.items = p.items ∧ p'.nextLayout = p.nextLayout + 1 ∧
      p.endorsersOf (p.groupOf endorser) = [] ∧
      ∀ k, p'.layouts[k]? = if p.nextLayout ≤ k ∧
        (p.layouts[k]?.bind id).any (·.required.contains (p.groupOf endorser)) then
          (p.layouts[k]?).map fun _ => none
        else p.layouts[k]? := by
  simp only [Plan.nextPeerInGroup] at h
  split at h
  · cases h
  · next hnil =>
    obtain ⟨-, rfl⟩ := Prod.mk.inj h
    -- each layout from `nextLayout` on that needs the group is abandoned, the others stay
    have hslot : ∀ k, (p.layouts.mapIdx fun i layout =>
        if p.nextLayout ≤ i ∧ layout.any (·.required.contains (p.groupOf endorser)) then none
        else layout)[k]? = if p.nextLayout ≤ k ∧
          (p.layouts[k]?.bind id).any (·.required.contains (p.groupOf endorser)) then
            (p.layouts[k]?).map fun _ => none
          else p.layouts[k]? := by
      intro k
      simp only [List.getElem?_mapIdx]
      cases hlk : p.layouts[k]? with
      | none => simp
      | some l =>
        by_cases hc : l.any (·.required.contains (p.groupOf endorser)) <;>
          by_cases hk : p.nextLayout ≤ k <;> simp [hk, hc]
    refine ⟨⟨rfl, rfl, rfl, by simp, fun k L hk => ?_, Nat.le_succ _, fun k hk => ?_⟩, rfl, rfl,
      hnil, hslot⟩
    · rw [hslot] at hk
      split at hk
      · cases hlk : p.layouts[k]? <;> simp [hlk] at hk
      · exact hk
    · rw [hslot, if_neg (by omega)]

/-! ## Counting -/

omit [DecidableEq E] in
/-- Counting an endorsement in a layout that needs its group: one less needed from the group, the
    group deleted at the last, and the layout complete when no group is left. -/
theorem Layout.count_eq_some {group : String} {en : Endorsement E} {L L' : Layout E} {b : Bool}
    (h : L.count group en = some (L', b)) :
    ∃ q, L.required.get? group = some q ∧ L'.endorsements = L.endorsements ++ [en] ∧
      L'.required = (if q - 1 = 0 then L.required.erase group
        else L.required.insert group (q - 1)) ∧
      (b = true ↔ L'.required.entries = []) := by
  simp only [Layout.count, Option.map_eq_some_iff] at h
  obtain ⟨q, hq, hL⟩ := h
  refine ⟨q, hq, ?_⟩
  split at hL
  · next h0 =>
    cases hL
    simp [h0]
  · next h0 =>
    cases hL
    -- the group stays, so the layout still needs something
    have hne : (L.required.insert group (q - 1)).entries ≠ [] :=
      List.ne_nil_of_mem (GoMap.mem_entries_of_get?
        (by simp : (L.required.insert group (q - 1)).get? group = some (q - 1)))
    simp [h0, hne]

omit [DecidableEq E] in
/-- The flag counting returns says whether the layout is then complete. -/
theorem Layout.count_complete_iff {group : String} {en : Endorsement E} {L L' : Layout E}
    {b : Bool} (h : L.count group en = some (L', b)) : b = true ↔ L'.required.entries = [] := by
  obtain ⟨-, -, -, -, hb⟩ := Layout.count_eq_some h
  exact hb

/-- How counting leaves one slot: as it was, or with its layout counted; a layout counted
    complete is the one the loop stopped at. -/
def Counted (group : String) (en : Endorsement E) (completed : Option (Layout E))
    (x y : Option (Layout E)) : Prop :=
  y = x ∨ ∃ L L' b, x = some L ∧ y = some L' ∧ L.count group en = some (L', b) ∧
    (b = true → completed = some L')

omit [DecidableEq E] in
theorem length_countLoop (group : String) (en : Endorsement E) :
    ∀ layouts : List (Option (Layout E)),
      (countLoop group en layouts).1.length = layouts.length
  | [] => rfl
  | none :: rest => by simp [countLoop, length_countLoop group en rest]
  | some L :: rest => by
    rcases hc : L.count group en with _ | ⟨L', _ | _⟩ <;>
      simp [countLoop, hc, length_countLoop group en rest]

omit [DecidableEq E] in
/-- Each slot after counting is its slot before, counted or not. -/
theorem countLoop_counted (group : String) (en : Endorsement E) :
    ∀ (layouts : List (Option (Layout E))) (k : Nat) (y : Option (Layout E)),
      (countLoop group en layouts).1[k]? = some y →
      ∃ x, layouts[k]? = some x ∧ Counted group en (countLoop group en layouts).2 x y
  | [], _, _, h => by simp [countLoop] at h
  | none :: rest, k, y, h => by
    cases k with
    | zero =>
      simp only [countLoop, List.getElem?_cons_zero, Option.some.injEq] at h
      exact ⟨none, rfl, .inl h.symm⟩
    | succ k =>
      simp only [countLoop, List.getElem?_cons_succ] at h ⊢
      exact countLoop_counted group en rest k y h
  | some L :: rest, k, y, h => by
    rcases hc : L.count group en with _ | ⟨L', _ | _⟩
    · -- a layout that does not need the group is left as it is
      simp only [countLoop, hc] at h ⊢
      cases k with
      | zero => exact ⟨some L, rfl, .inl (by simpa using h.symm)⟩
      | succ k => exact countLoop_counted group en rest k y (by simpa using h)
    · simp only [countLoop, hc] at h ⊢
      cases k with
      | zero =>
        refine ⟨some L, rfl, .inr ⟨L, L', false, rfl, ?_, hc, by simp⟩⟩
        simpa using h.symm
      | succ k => exact countLoop_counted group en rest k y (by simpa using h)
    · -- the loop stops at the layout completed
      simp only [countLoop, hc] at h ⊢
      cases k with
      | zero => exact ⟨some L, rfl, .inr ⟨L, L', true, rfl, by simpa using h.symm, hc, fun _ => rfl⟩⟩
      | succ k => exact ⟨y, by simpa using h, .inl rfl⟩

omit [DecidableEq E] in
/-- The layout the loop completes is one it counted complete. -/
theorem countLoop_completed (group : String) (en : Endorsement E) :
    ∀ (layouts : List (Option (Layout E))) (L' : Layout E),
      (countLoop group en layouts).2 = some L' →
      ∃ L, some L ∈ layouts ∧ L.count group en = some (L', true)
  | [], _, h => by simp [countLoop] at h
  | none :: rest, L', h => by
    obtain ⟨L, hL, hc⟩ := countLoop_completed group en rest L' h
    exact ⟨L, List.mem_cons_of_mem _ hL, hc⟩
  | some L :: rest, L', h => by
    rcases hc : L.count group en with _ | ⟨L'', _ | _⟩ <;> simp only [countLoop, hc] at h
    · obtain ⟨L₀, hL₀, hc₀⟩ := countLoop_completed group en rest L' h
      exact ⟨L₀, List.mem_cons_of_mem _ hL₀, hc₀⟩
    · obtain ⟨L₀, hL₀, hc₀⟩ := countLoop_completed group en rest L' h
      exact ⟨L₀, List.mem_cons_of_mem _ hL₀, hc₀⟩
    · cases h
      exact ⟨L, List.mem_cons_self, hc⟩

theorem Plan.length_count (p : Plan E) (group : String) (en : Endorsement E) :
    (p.count group en).layouts.length = p.layouts.length := by
  simp only [Plan.count, List.length_append, List.length_take, length_countLoop,
    List.length_drop]
  omega

/-- The layouts before `nextLayout` are left as they are; those from it on are counted. -/
theorem Plan.count_counted (p : Plan E) (group : String) (en : Endorsement E) {k : Nat}
    {y : Option (Layout E)} (h : (p.count group en).layouts[k]? = some y) :
    ∃ x, p.layouts[k]? = some x ∧
      Counted group en (countLoop group en (p.layouts.drop p.nextLayout)).2 x y := by
  simp only [Plan.count, List.getElem?_append, List.length_take] at h
  split at h
  · next hk =>
    rw [List.getElem?_take_of_lt (by omega)] at h
    exact ⟨y, h, .inl rfl⟩
  · next hk =>
    obtain ⟨x, hx, hc⟩ := countLoop_counted group en _ _ y h
    -- a slot past the end has nothing to count
    have hn : p.nextLayout ≤ p.layouts.length := by
      by_contra hlt
      simp [List.drop_eq_nil_of_le (Nat.le_of_not_le hlt)] at hx
    rw [List.getElem?_drop, show p.nextLayout + (k - min p.nextLayout p.layouts.length) = k by
      omega] at hx
    exact ⟨x, hx, hc⟩

/-- Counting leaves the layouts before `nextLayout` as they are. -/
theorem Plan.count_frozen (p : Plan E) (group : String) (en : Endorsement E) {k : Nat}
    (hk : k < p.nextLayout) : (p.count group en).layouts[k]? = p.layouts[k]? := by
  by_cases hlen : k < p.layouts.length
  · simp only [Plan.count]
    rw [List.getElem?_append_left (by simp; omega), List.getElem?_take_of_lt hk]
  · -- past the end there is nothing, before counting and after
    have hlen' := p.length_count group en
    rw [List.getElem?_eq_none (by omega), List.getElem?_eq_none (by omega)]

/-- The removal takes the endorser out of its group: the first time it is there. -/
theorem Plan.items_removeEndorser (p : Plan E) (endorser : E) :
    (p.removeEndorser endorser).items.Perm ((p.endorsersOf (p.groupOf endorser)).erase endorser ++
      (p.groupEndorsers.erase (p.groupOf endorser)).items) := by
  have herase : (p.endorsersOf (p.groupOf endorser)).erase endorser =
      (p.endorsersOf (p.groupOf endorser)).eraseP fun e => decide (e = endorser) := by
    rw [List.erase_eq_eraseP']
    rfl
  rw [List.eraseP_eq_eraseIdx] at herase
  simp only [Plan.removeEndorser]
  split
  · next i hi =>
    simp only [hi] at herase
    rw [herase]
    simp [Plan.items, GoMap.items_insert]
  · next hi =>
    simp only [hi] at herase
    rw [herase]
    exact GoMap.items_perm_erase _ _

/-- The removal changes the groups only. -/
theorem Plan.removeEndorser_eq (p : Plan E) (endorser : E) :
    ∃ groupEndorsers, p.removeEndorser endorser = { p with groupEndorsers } := by
  simp only [Plan.removeEndorser]
  split
  · exact ⟨_, rfl⟩
  · exact ⟨p.groupEndorsers, rfl⟩

theorem Plan.trims_removeEndorser (p : Plan E) (endorser : E) :
    p.Trims (p.removeEndorser endorser) := by
  obtain ⟨ge, hge⟩ := p.removeEndorser_eq endorser
  rw [hge]
  exact p.trims_groupEndorsers ge

/-- `processEndorsement` counts the endorsement in the plan without the endorser when the
    payload is the first or matches it, and otherwise only takes the endorser out. -/
theorem Plan.processEndorsement_eq (p : Plan E) (endorser : E) (response : ProposalResponse E) :
    p.processEndorsement endorser response =
      if p.responsePayload = [] ∨ p.responsePayload = response.payload then
        (true, { p.removeEndorser endorser with responsePayload := response.payload }.count
          (p.groupOf endorser) response.endorsement)
      else (false, p.removeEndorser endorser) := by
  obtain ⟨ge, hge⟩ := p.removeEndorser_eq endorser
  simp only [Plan.processEndorsement, hge]
  by_cases h0 : p.responsePayload = []
  · simp [h0]
  · by_cases h1 : p.responsePayload = response.payload
    · -- the payload written back is the one the plan holds
      obtain ⟨layouts, groupEndorsers, groupIds, nextLayout, responsePayload, completedLayout⟩ := p
      simp only at h0 h1
      subst h1
      simp [h0]
    · simp [h0, h1]

theorem Plan.groupIds_processEndorsement (p : Plan E) (endorser : E)
    (response : ProposalResponse E) :
    (p.processEndorsement endorser response).2.groupIds = p.groupIds := by
  rw [Plan.processEndorsement_eq]
  split
  · exact (p.trims_removeEndorser endorser).groupIds
  · exact (p.trims_removeEndorser endorser).groupIds

/-- `processEndorsement` leaves `nextLayout` and the layouts before it as they are. -/
theorem Plan.processEndorsement_frozen (p : Plan E) (endorser : E)
    (response : ProposalResponse E) :
    (p.processEndorsement endorser response).2.nextLayout = p.nextLayout ∧
      ∀ k, k < p.nextLayout →
        (p.processEndorsement endorser response).2.layouts[k]? = p.layouts[k]? := by
  obtain ⟨ge, hge⟩ := p.removeEndorser_eq endorser
  rw [Plan.processEndorsement_eq, hge]
  split
  · exact ⟨rfl, fun k hk => Plan.count_frozen _ _ _ hk⟩
  · exact ⟨rfl, fun _ _ => rfl⟩

/-- The endorsers left after `processEndorsement` are some of those before. -/
theorem Plan.items_processEndorsement_subperm (p : Plan E) (endorser : E)
    (response : ProposalResponse E) :
    (p.processEndorsement endorser response).2.items.Subperm p.items := by
  -- counting leaves the groups alone: only the removal changes them
  have hrem : (p.removeEndorser endorser).items.Subperm p.items :=
    (p.items_removeEndorser endorser).subperm.trans
      (((List.erase_sublist.append_right _).subperm).trans (GoMap.items_perm_erase _ _).symm.subperm)
  rw [Plan.processEndorsement_eq]
  split
  · exact hrem
  · exact hrem

/-- On a plan that lists each endorser once, in the group the plan gives it, the endorser
    `processEndorsement` is called for is no longer listed. -/
theorem Plan.not_mem_items_processEndorsement {p : Plan E} (hnodup : p.items.Nodup)
    (hgroup : ∀ group e, e ∈ p.endorsersOf group → p.groupOf e = group) (endorser : E)
    (response : ProposalResponse E) :
    endorser ∉ (p.processEndorsement endorser response).2.items := by
  have hsplit := GoMap.items_perm_erase p.groupEndorsers (p.groupOf endorser)
  have hitems : (p.processEndorsement endorser response).2.items =
      (p.removeEndorser endorser).items := by
    rw [Plan.processEndorsement_eq]
    split <;> rfl
  rw [hitems, (p.items_removeEndorser endorser).mem_iff, List.mem_append]
  rintro (hmem | hmem)
  · -- the group lists the endorser once, and the removal takes that one out
    have hnd : (p.endorsersOf (p.groupOf endorser)).Nodup :=
      (List.nodup_append.mp (hsplit.nodup_iff.mp hnodup)).1
    exact (hnd.mem_erase_iff.mp hmem).1 rfl
  · -- any other group it were listed in would be its group
    obtain ⟨group, hg⟩ := GoMap.mem_items.mp hmem
    rw [GoMap.get?_erase] at hg
    split at hg
    · simp at hg
    · next hne => exact hne (hgroup group endorser hg).symm

/-- Each endorser of a plan built from groups that list each endorser once is in the group it
    is listed in. -/
theorem Plan.groupOf_newPlan (order : GoMap.RangeOrder String (List E)) (layouts : List (Layout E))
    {groupEndorsers : GoMap String (List E)} (hnodup : groupEndorsers.items.Nodup)
    {group : String} {endorser : E} (he : endorser ∈ (groupEndorsers.get? group).getD []) :
    (newPlan order layouts groupEndorsers).groupOf endorser = group := by
  cases hg : groupEndorsers.get? group with
  | none => simp [hg] at he
  | some l =>
    rw [hg, Option.getD_some] at he
    -- the writes are keyed by the endorsers, which the range loop visits once each
    have hkeys : (((order.visit groupEndorsers).flatMap fun e =>
        e.2.map fun endorser => (endorser, e.1)).map Prod.fst).Nodup := by
      have hperm := (order.perm groupEndorsers).flatMap_right (fun e => e.2)
      simp only [List.map_flatMap, List.map_map, Function.comp_def, List.map_id']
      exact hperm.nodup_iff.mpr hnodup
    have hmem : (endorser, group) ∈ (order.visit groupEndorsers).flatMap fun e =>
        e.2.map fun endorser => (endorser, e.1) :=
      List.mem_flatMap.mpr ⟨(group, l), (order.mem_visit _).mpr (GoMap.mem_entries_of_get? hg),
        List.mem_map_of_mem he⟩
    simp [Plan.groupOf, newPlan, GoMap.get?_foldl_insert_of_mem Prod.fst Prod.snd hkeys hmem]

end Specs

/-! ## What the counted layouts hold

Each layout is accounted for against the layout discovery gave at its place: what it still needs
from a group and the endorsements counted for it of that group make up what discovery asked of the
group. The plan keeps this through every method, which is what makes a completed layout one that
discovery's layout is satisfied by. -/

section Acc

variable {E : Type} [DecidableEq E]

/-- The number of endorsements among `endorsements` by endorsers of `group`. -/
def countIn (groupOf : E → String) (group : String) (endorsements : List (Endorsement E)) : Nat :=
  (endorsements.filter fun en => groupOf en.endorser = group).length

omit [DecidableEq E] in
theorem countIn_append_singleton (groupOf : E → String) (endorsements : List (Endorsement E))
    (en : Endorsement E) :
    countIn groupOf (groupOf en.endorser) (endorsements ++ [en]) =
      countIn groupOf (groupOf en.endorser) endorsements + 1 := by
  simp [countIn, List.filter_append]

omit [DecidableEq E] in
theorem countIn_append_singleton_of_ne (groupOf : E → String) {group : String}
    (endorsements : List (Endorsement E)) {en : Endorsement E} (h : groupOf en.endorser ≠ group) :
    countIn groupOf group (endorsements ++ [en]) = countIn groupOf group endorsements := by
  simp [countIn, List.filter_append, h]

/-- The layout `L`, counted from the layout `O` discovery gave: what it still needs from a group
    and what it has counted of the group make up what `O` needs of it, what it still needs of a
    group is positive, and its endorsements are some of those `counted`, in order. -/
structure Layout.Acc (groupOf : E → String) (counted : List (Endorsement E)) (L O : Layout E) :
    Prop where
  total : ∀ group, (L.required.get? group).getD 0 + (countIn groupOf group L.endorsements : Int) =
    (O.required.get? group).getD 0
  pos : ∀ group q, L.required.get? group = some q → 0 < q
  sublist : L.endorsements.Sublist counted

omit [DecidableEq E] in
theorem Layout.Acc.init {groupOf : E → String} {counted : List (Endorsement E)} {O : Layout E}
    (hO : O.endorsements = []) (hpos : ∀ group q, O.required.get? group = some q → 0 < q) :
    O.Acc groupOf counted O :=
  ⟨fun group => by simp [hO, countIn], hpos, by simp [hO]⟩

omit [DecidableEq E] in
theorem Layout.Acc.mono {groupOf : E → String} {counted counted' : List (Endorsement E)}
    {O L : Layout E} (h : L.Acc groupOf counted O) (hc : counted.Sublist counted') :
    L.Acc groupOf counted' O :=
  ⟨h.total, h.pos, h.sublist.trans hc⟩

omit [DecidableEq E] in
/-- Counting an endorsement of the group its endorser is in keeps the account. -/
theorem Layout.Acc.count {groupOf : E → String} {counted : List (Endorsement E)} {O L L' : Layout E}
    {en : Endorsement E} {b : Bool} (h : L.Acc groupOf counted O)
    (hc : L.count (groupOf en.endorser) en = some (L', b)) :
    L'.Acc groupOf (counted ++ [en]) O := by
  obtain ⟨q, hq, hends, hreq, -⟩ := Layout.count_eq_some hc
  have hq0 := h.pos _ q hq
  refine ⟨fun group => ?_, fun group q' hq' => ?_, ?_⟩
  · by_cases hg : group = groupOf en.endorser
    · -- the group counted: one less needed, one more counted
      subst hg
      have hold := h.total (groupOf en.endorser)
      rw [hq, Option.getD_some] at hold
      rw [hends, countIn_append_singleton, hreq]
      split <;> simp <;> omega
    · rw [hends, countIn_append_singleton_of_ne groupOf _ (Ne.symm hg), ← h.total group, hreq]
      split <;> simp [hg]
  · rw [hreq] at hq'
    split at hq'
    · rw [GoMap.get?_erase] at hq'
      split at hq'
      · cases hq'
      · exact h.pos group q' hq'
    · rw [GoMap.get?_insert] at hq'
      split at hq'
      · cases hq'
        omega
      · exact h.pos group q' hq'
  · rw [hends]
    exact h.sublist.append (List.Sublist.refl [en])

/-- The plan accounted for against the layouts discovery gave, with the responses counted so far:
    each layout left is accounted for against discovery's at its place, the completed layout
    needs nothing more and is accounted for against one of discovery's, until a layout is
    completed each layout left needs something, and every response counted has the plan's
    payload, which is not empty. -/
structure Plan.Acc (orig : List (Layout E)) (counted : List (ProposalResponse E)) (p : Plan E) :
    Prop where
  layouts : ∀ (k : Nat) (L : Layout E), p.layouts[k]? = some (some L) →
    ∃ O, orig[k]? = some O ∧ L.Acc p.groupOf (counted.map (·.endorsement)) O
  completed : ∀ L : Layout E, p.completedLayout = some L → L.required.entries = [] ∧
    ∃ O ∈ orig, L.Acc p.groupOf (counted.map (·.endorsement)) O
  live : p.completedLayout = none → ∀ (k : Nat) (L : Layout E), p.layouts[k]? = some (some L) →
    L.required.entries ≠ []
  payload : ∀ r ∈ counted, r.payload = p.responsePayload ∧ r.payload ≠ []

/-- A layout as discovery gives it: nothing counted yet, and a positive quantity needed from
    each of some groups. -/
structure Layout.Fresh (O : Layout E) : Prop where
  endorsements : O.endorsements = []
  required : O.required.entries ≠ []
  pos : ∀ group q, O.required.get? group = some q → 0 < q

variable {orig : List (Layout E)} {counted : List (ProposalResponse E)} {p p' : Plan E}

/-- A plan built from discovery's layouts is accounted for. -/
theorem Plan.acc_newPlan (order : GoMap.RangeOrder String (List E))
    (groupEndorsers : GoMap String (List E)) (hfresh : ∀ O ∈ orig, O.Fresh) :
    (newPlan order orig groupEndorsers).Acc orig [] := by
  refine ⟨fun k L hL => ?_, fun L hL => ?_, fun _ k L hL => ?_, fun r hr => ?_⟩
  · simp only [newPlan, List.getElem?_map, Option.map_eq_some_iff, Option.some.injEq] at hL
    obtain ⟨O, hO, rfl⟩ := hL
    have hmem := List.mem_of_getElem? hO
    exact ⟨O, hO, Layout.Acc.init (hfresh O hmem).endorsements (hfresh O hmem).pos⟩
  · simp [newPlan] at hL
  · simp only [newPlan, List.getElem?_map, Option.map_eq_some_iff, Option.some.injEq] at hL
    obtain ⟨O, hO, rfl⟩ := hL
    exact (hfresh O (List.mem_of_getElem? hO)).required
  · simp at hr

/-- Abandoning layouts, moving `nextLayout` on and changing the groups keep the account. -/
theorem Plan.Acc.trims (h : p.Acc orig counted) (ht : p.Trims p') : p'.Acc orig counted := by
  have hgroupOf : p'.groupOf = p.groupOf := by
    funext e
    simp [Plan.groupOf, ht.groupIds]
  refine ⟨fun k L hL => ?_, fun L hL => ?_, fun hc k L hL => ?_, fun r hr => ?_⟩
  · rw [hgroupOf]
    exact h.layouts k L (ht.layouts k L hL)
  · rw [hgroupOf]
    exact h.completed L (ht.completedLayout ▸ hL)
  · exact h.live (ht.completedLayout ▸ hc) k L (ht.layouts k L hL)
  · rw [ht.responsePayload]
    exact h.payload r hr

/-- Counting a response with the plan's payload, from an endorser, keeps the account with the
    response counted. -/
theorem Plan.Acc.count {e : E} {r : ProposalResponse E} (h : p.Acc orig counted)
    (hpay : p.responsePayload = r.payload) (hne : r.payload ≠ [])
    (he : r.endorsement.endorser = e) :
    (p.count (p.groupOf e) r.endorsement).Acc orig (counted ++ [r]) := by
  have hgroupOf : (p.count (p.groupOf e) r.endorsement).groupOf = p.groupOf := rfl
  have hsub : (counted.map (·.endorsement)).Sublist ((counted ++ [r]).map (·.endorsement)) := by
    simp
  have hgroup : p.groupOf e = p.groupOf r.endorsement.endorser := by rw [he]
  -- a slot counted complete is the completed layout, accounted for as its slot was
  have hslot : ∀ (k : Nat) (x y : Option (Layout E)), p.layouts[k]? = some x →
      Counted (p.groupOf e) r.endorsement
        (countLoop (p.groupOf e) r.endorsement (p.layouts.drop p.nextLayout)).2 x y →
      ∀ L', y = some L' → ∃ O, orig[k]? = some O ∧
        L'.Acc p.groupOf ((counted ++ [r]).map (·.endorsement)) O := by
    rintro k x y hx (rfl | ⟨L, L'', b, rfl, rfl, hc, -⟩) L' hL'
    · obtain ⟨O, hO, hacc⟩ := h.layouts k L' (hL' ▸ hx)
      exact ⟨O, hO, hacc.mono hsub⟩
    · cases hL'
      obtain ⟨O, hO, hacc⟩ := h.layouts k L hx
      rw [hgroup] at hc
      refine ⟨O, hO, ?_⟩
      simpa using hacc.count hc
  refine ⟨fun k L hL => ?_, fun L hL => ?_, fun hc k L hL => ?_, fun r' hr' => ?_⟩
  · obtain ⟨x, hx, hc⟩ := p.count_counted _ _ hL
    exact hslot k x _ hx hc L rfl
  · simp only [Plan.count, Option.or_eq_some_iff] at hL
    rcases hL with hL | ⟨-, hL⟩
    · obtain ⟨L₀, hmem, hc⟩ := countLoop_completed _ _ _ _ hL
      obtain ⟨k, hk⟩ := List.mem_iff_getElem?.mp (List.mem_of_mem_drop hmem)
      obtain ⟨O, hO, hacc⟩ := h.layouts k L₀ hk
      rw [hgroup] at hc
      refine ⟨(Layout.count_complete_iff hc).mp rfl, O, List.mem_of_getElem? hO, ?_⟩
      rw [hgroupOf]
      simpa using hacc.count hc
    · obtain ⟨hreq, O, hO, hacc⟩ := h.completed L hL
      exact ⟨hreq, O, hO, hacc.mono hsub⟩
  · simp only [Plan.count, Option.or_eq_none_iff] at hc
    obtain ⟨x, hx, hcnt⟩ := p.count_counted _ _ hL
    rcases hcnt with rfl | ⟨L₀, L', b, rfl, hy, hc', hb⟩
    · exact h.live hc.2 k L hx
    · cases hy
      cases b with
      | true => simp [hc.1] at hb
      | false => simpa using (Layout.count_complete_iff hc').not
  · rcases List.mem_append.mp hr' with hr' | hr'
    · exact h.payload r' hr'
    · rw [List.mem_singleton] at hr'
      subst hr'
      exact ⟨hpay.symm, hne⟩

/-- `processEndorsement` of a response from the endorser keeps the account, with the response
    counted when the payload matched. -/
theorem Plan.Acc.processEndorsement {e : E} {r : ProposalResponse E} (h : p.Acc orig counted)
    (hne : r.payload ≠ []) (he : r.endorsement.endorser = e) :
    (p.processEndorsement e r).2.Acc orig
      (if (p.processEndorsement e r).1 then counted ++ [r] else counted) := by
  have hrem := h.trims (p.trims_removeEndorser e)
  rw [Plan.processEndorsement_eq]
  split
  · next hpay =>
    -- the payload written is the one every response counted so far has
    have hacc : ({ p.removeEndorser e with responsePayload := r.payload } : Plan E).Acc orig
        counted := by
      refine ⟨hrem.layouts, hrem.completed, hrem.live, fun r' hr' => ?_⟩
      obtain ⟨h₁, h₂⟩ := h.payload r' hr'
      refine ⟨?_, h₂⟩
      rcases hpay with h0 | h0
      · exact absurd (h₁.trans h0) h₂
      · exact h₁.trans h0
    have hgroupOf : ({ p.removeEndorser e with responsePayload := r.payload } : Plan E).groupOf e =
        p.groupOf e := by
      simp [Plan.groupOf, (p.trims_removeEndorser e).groupIds]
    have := hacc.count rfl hne he
    rwa [hgroupOf] at this
  · exact hrem

/-- A plan accounted for hands out endorsers until it completes a layout. -/
theorem Plan.Acc.endorsers_ne_none (order : GoMap.RangeOrder String Int) (h : p.Acc orig counted)
    (hc : p.completedLayout = none) : p.endorsers order ≠ none :=
  Plan.endorsers_ne_none fun k L _ hL => by
    obtain ⟨O, -, hacc⟩ := h.layouts k L hL
    exact ⟨h.live hc k L hL, fun ⟨g, q⟩ hx => hacc.pos g q (GoMap.get?_of_mem _ hx)⟩

/-- Endorsements from distinct endorsers are kept as they are. -/
theorem uniqueEndorsements_of_nodup {endorsements : List (Endorsement E)}
    (h : (endorsements.map (·.endorser)).Nodup) :
    uniqueEndorsements endorsements = endorsements := by
  -- the loop keeps each endorsement of an endorser it has not seen, and none has been
  have hloop : ∀ (l : List (Endorsement E)) (seen : List E) (kept : List (Endorsement E)),
      (l.map (·.endorser)).Nodup → (∀ en ∈ l, en.endorser ∉ seen) →
      (l.foldl (fun (acc : List E × List (Endorsement E)) e =>
        if e.endorser ∈ acc.1 then acc else (acc.1 ++ [e.endorser], acc.2 ++ [e]))
        (seen, kept)).2 = kept ++ l := by
    intro l
    induction l with
    | nil => simp
    | cons en l ih =>
      intro seen kept hnd hfresh
      rw [List.map_cons, List.nodup_cons] at hnd
      rw [List.foldl_cons, if_neg (hfresh en List.mem_cons_self), ih _ _ hnd.2]
      · simp
      · intro en' hen' hseen
        rcases List.mem_append.mp hseen with hseen | hseen
        · exact hfresh en' (List.mem_cons_of_mem _ hen') hseen
        · rw [List.mem_singleton] at hseen
          exact hnd.1 (hseen ▸ List.mem_map_of_mem hen')
  simpa [uniqueEndorsements] using hloop endorsements [] [] h (by simp)

end Acc

end Fabric.Gateway
