import Fabric.Gateway.Endorsement
import Fabric.Lib.FoldM
import Mathlib

/-
  The endorsement loop of `Endorse` (`internal/pkg/gateway/endorse.go`), over every interleaving
  of its goroutines.

  `Endorse` starts from a plan (the first endorser's response already counted in it when
  `planFromFirstEndorser` made it) and goes round its loop: while no layout is completed it takes
  the endorsers of the next layout from the plan, starts a goroutine for each, and waits until
  every goroutine has sent on `waitCh`. A goroutine sends the proposal to its endorser
  (`processProposal`); on an endorsement the plan takes it stops, and otherwise it asks the plan
  for the next endorser of the group (`nextPeerInGroup`) and goes on with it, or stops when the
  group has no one left. Each plan method holds the plan's lock, so each is one step; between
  them the goroutines interleave as the scheduler likes, which the events of a run say.

  A state carries, besides the plan and the goroutines, the endorsers asked and the responses the
  plan took, which no code reads: they are there to state what a run did.

  Proved here, over every run:
  - the proposal goes to no endorser twice, and only to endorsers of the plan or the first one
    (`Endorse.Asks`, kept by every event; `endorse_asks_once`);
  - each event that takes effect lowers a measure, three for each endorser not yet handed out, two
    for a goroutine about to ask and one for one about to retry, so a run of events that all take
    effect is bounded (`endorse_returns`): every run returns or reaches the spin of `endorsers`
    (the outcome `hangs`), which `endorse_never_hangs` rules out on discovery's layouts;
  - the plan stays accounted for against discovery's layouts (`Endorse.Inv`), so an endorsed
    outcome carries, from distinct endorsers on one payload, exactly the endorsements one of
    discovery's layouts asks for (`endorse_endorsed`), and the loop never spins in `endorsers`
    (`endorse_never_hangs`);
  - a goroutine that finds its group exhausted moves `nextLayout` on by one even when the layout
    there does not need the group, so two goroutines of one round that exhaust their groups skip
    the next layout, which no round hands out again (`endorse_skips_layout`).

  The timeouts, the error details, `removeEndorser` of the registry and the logging are left out:
  a failed or timed out call is a response of `none`.
-/

namespace Fabric.Gateway

open Fabric.Ledger (Bytes)

/-- A goroutine of the loop. -/
inductive Routine (E : Type) where
  /-- about to send the proposal to the endorser -/
  | asking (endorser : E)
  /-- the endorser failed: about to ask the plan for the next of its group -/
  | retrying (endorser : E)
  /-- sent on `waitCh` -/
  | done
  deriving DecidableEq, Repr

/-- What `Endorse` returns. -/
inductive Outcome (E : Type) where
  /-- the prepared transaction's payload and endorsements -/
  | endorsed (payload : Bytes) (endorsements : List (Endorsement E))
  /-- `codes.Aborted`: no layout left -/
  | aborted
  /-- `endorsers` loops for ever on a layout that needs no one -/
  | hangs
  deriving DecidableEq, Repr

/-- The state of `Endorse`'s loop: the plan, the goroutines of the current round, the endorsers
    asked and the responses the plan took, in order, and what `Endorse` returned. -/
structure Endorse (E : Type) [DecidableEq E] where
  plan : Plan E
  routines : List (Routine E)
  asked : List E
  counted : List (ProposalResponse E)
  outcome : Option (Outcome E)

/-- What happens next: the loop goes round (with the order its range over the layout's groups
    takes), goroutine `i`'s endorser answers (with a payload and a signature, or `none` when the
    call fails), or goroutine `i` asks the plan for the next endorser. -/
inductive EndorseEvent (E : Type) where
  | round (order : GoMap.RangeOrder String Int)
  | respond (i : Nat) (response : Option (Bytes × Bytes))
  | retry (i : Nat)

section Loop

variable {E : Type} [DecidableEq E]

/-- One pass of the loop once every goroutine of the last has sent on `waitCh`: `Endorse` returns
    the completed layout's endorsements; otherwise the next layout's endorsers each get a
    goroutine, and `Endorse` aborts when no layout is left. -/
def Endorse.loop (order : GoMap.RangeOrder String Int) (st : Endorse E) : Endorse E :=
  match st.plan.completedLayout with
  | some layout =>
    { st with outcome := some (.endorsed st.plan.responsePayload
        (uniqueEndorsements layout.endorsements)) }
  | none =>
    match st.plan.endorsers order with
    | none => { st with outcome := some .hangs }
    | some ([], plan) => { st with plan, outcome := some .aborted }
    | some (endorsers, plan) => { st with plan, routines := endorsers.map .asking }

/-- Goroutine `i` sends the proposal to `endorser`, which answers with `response`: on success the
    plan processes the endorsement, and the goroutine stops when the plan took it and otherwise
    retries. -/
def Endorse.processProposal (st : Endorse E) (i : Nat) (endorser : E) :
    Option (Bytes × Bytes) → Endorse E
  | none => { st with routines := st.routines.set i (.retrying endorser), asked := st.asked ++ [endorser] }
  | some (payload, signature) =>
    let response : ProposalResponse E := ⟨payload, ⟨endorser, signature⟩⟩
    match st.plan.processEndorsement endorser response with
    | (true, plan) =>
      { st with plan, routines := st.routines.set i .done, asked := st.asked ++ [endorser],
                counted := st.counted ++ [response] }
    | (false, plan) =>
      { st with plan, routines := st.routines.set i (.retrying endorser),
                asked := st.asked ++ [endorser] }

/-- Goroutine `i` asks the plan for the next endorser of `endorser`'s group, and goes on with it
    or stops. -/
def Endorse.nextPeer (st : Endorse E) (i : Nat) (endorser : E) : Endorse E :=
  match st.plan.nextPeerInGroup endorser with
  | (some next, plan) => { st with plan, routines := st.routines.set i (.asking next) }
  | (none, plan) => { st with plan, routines := st.routines.set i .done }

/-- An event: the loop goes round only once it has no outcome and every goroutine has sent on
    `waitCh`, and a goroutine answers or retries only in the state it is in; any other event
    leaves the state as it is. -/
def Endorse.step (st : Endorse E) : EndorseEvent E → Endorse E
  | .round order =>
    if st.outcome.isNone ∧ st.routines.all (· = .done) then st.loop order else st
  | .respond i response =>
    match st.routines[i]? with
    | some (.asking endorser) => st.processProposal i endorser response
    | _ => st
  | .retry i =>
    match st.routines[i]? with
    | some (.retrying endorser) => st.nextPeer i endorser
    | _ => st

/-- A run of events. -/
def Endorse.run (st : Endorse E) (events : List (EndorseEvent E)) : Endorse E :=
  events.foldl Endorse.step st

/-- The loop's start: the plan, with the first endorser's response (its payload and signature)
    processed in it when `planFromFirstEndorser` made the plan. -/
def Endorse.init (plan : Plan E) : Option (E × Bytes × Bytes) → Endorse E
  | none => ⟨plan, [], [], [], none⟩
  | some (first, payload, signature) =>
    let response : ProposalResponse E := ⟨payload, ⟨first, signature⟩⟩
    match plan.processEndorsement first response with
    | (true, plan) => ⟨plan, [], [first], [response], none⟩
    | (false, plan) => ⟨plan, [], [first], [], none⟩

end Loop

/-! ## A policy of two layouts

Discovery's layouts for "one of A and one of B, or one of C", one endorser in each group; the
witnesses below run the loop on them. -/

/-- "One of A and one of B, or one of C". -/
def andOrLayouts : List (Layout Nat) :=
  [⟨(GoMap.empty.insert "A" 1).insert "B" 1, []⟩, ⟨GoMap.empty.insert "C" 1, []⟩]

theorem andOrLayouts_fresh : ∀ O ∈ andOrLayouts, O.Fresh := by
  intro O hO
  simp only [andOrLayouts, List.mem_cons, List.not_mem_nil, or_false] at hO
  rcases hO with rfl | rfl <;>
  · refine ⟨rfl, by decide, fun group q h => ?_⟩
    simp only [GoMap.get?_insert, GoMap.get?_empty] at h
    split_ifs at h <;> simp only [Option.some.injEq] at h <;> omega

/-- Endorser 1 in group A, 2 in B and 3 in C. -/
def oneEach : GoMap String (List Nat) :=
  ((GoMap.empty.insert "A" [1]).insert "B" [2]).insert "C" [3]

/-- The loop hands out endorsers 2 and 1 for the first layout; both answer with payload `[7]`,
    and the loop goes round again. -/
def andOrEvents : List (EndorseEvent Nat) :=
  [.round .inOrder, .respond 0 (some ([7], [8])), .respond 1 (some ([7], [9])), .round .inOrder]

def andOrEndorsements : List (Endorsement Nat) := [⟨2, [8]⟩, ⟨1, [9]⟩]

/-- The loop hands out endorsers 2 and 1 for the first layout, and both calls fail. -/
def andOrFailed : Endorse Nat :=
  (Endorse.init (newPlan .inOrder andOrLayouts oneEach) none).run
    [.round .inOrder, .respond 0 none, .respond 1 none]

/-! ## What each event can do -/

section Cases

variable {E : Type} [DecidableEq E]

/-- A pass of the loop returns the completed layout's endorsements, hangs, aborts on a plan with
    no layout left, or starts a goroutine for each endorser of the next layout. -/
theorem Endorse.loop_cases (order : GoMap.RangeOrder String Int) (st : Endorse E) :
    (∃ L, st.plan.completedLayout = some L ∧
      st.loop order = { st with outcome := some (.endorsed st.plan.responsePayload
                                                   (uniqueEndorsements L.endorsements)) }) ∨
    (st.plan.completedLayout = none ∧ st.plan.endorsers order = none ∧
      st.loop order = { st with outcome := some .hangs }) ∨
    (∃ plan, st.plan.completedLayout = none ∧ st.plan.endorsers order = some ([], plan) ∧
      st.loop order = { st with plan, outcome := some .aborted }) ∨
    (∃ endorsers plan, st.plan.completedLayout = none ∧ endorsers ≠ [] ∧
      st.plan.endorsers order = some (endorsers, plan) ∧
      st.loop order = { st with plan, routines := endorsers.map .asking }) := by
  rcases hc : st.plan.completedLayout with _ | L
  · rcases he : st.plan.endorsers order with _ | ⟨_ | ⟨e, es⟩, plan⟩
    · exact .inr (.inl ⟨rfl, rfl, by simp [Endorse.loop, hc, he]⟩)
    · exact .inr (.inr (.inl ⟨plan, rfl, rfl, by simp [Endorse.loop, hc, he]⟩))
    · exact .inr (.inr (.inr ⟨e :: es, plan, rfl, List.cons_ne_nil _ _, rfl,
        by simp [Endorse.loop, hc, he]⟩))
  · exact .inl ⟨L, rfl, by simp [Endorse.loop, hc]⟩

/-- A goroutine's call fails and it retries; or the plan takes the endorsement and the goroutine
    stops, with the response counted; or the plan refuses it and the goroutine retries. -/
theorem Endorse.processProposal_cases (st : Endorse E) (i : Nat) (endorser : E)
    (response : Option (Bytes × Bytes)) :
    (response = none ∧ st.processProposal i endorser response =
      { st with routines := st.routines.set i (.retrying endorser),
                asked := st.asked ++ [endorser] }) ∨
    (∃ payload signature plan, response = some (payload, signature) ∧
      st.plan.processEndorsement endorser ⟨payload, ⟨endorser, signature⟩⟩ = (true, plan) ∧
      st.processProposal i endorser response =
        { st with plan, routines := st.routines.set i .done, asked := st.asked ++ [endorser],
                  counted := st.counted ++ [⟨payload, ⟨endorser, signature⟩⟩] }) ∨
    (∃ payload signature plan, response = some (payload, signature) ∧
      st.plan.processEndorsement endorser ⟨payload, ⟨endorser, signature⟩⟩ = (false, plan) ∧
      st.processProposal i endorser response =
        { st with plan, routines := st.routines.set i (.retrying endorser),
                  asked := st.asked ++ [endorser] }) := by
  rcases response with _ | ⟨payload, signature⟩
  · exact .inl ⟨rfl, rfl⟩
  · rcases hp : st.plan.processEndorsement endorser ⟨payload, ⟨endorser, signature⟩⟩ with
      ⟨_ | _, plan⟩
    · exact .inr (.inr ⟨payload, signature, plan, rfl, hp, by simp [Endorse.processProposal, hp]⟩)
    · exact .inr (.inl ⟨payload, signature, plan, rfl, hp, by simp [Endorse.processProposal, hp]⟩)

/-- A goroutine goes on with the next endorser of the group, or stops. -/
theorem Endorse.nextPeer_cases (st : Endorse E) (i : Nat) (endorser : E) :
    (∃ next plan, st.plan.nextPeerInGroup endorser = (some next, plan) ∧
      st.nextPeer i endorser = { st with plan, routines := st.routines.set i (.asking next) }) ∨
    (∃ plan, st.plan.nextPeerInGroup endorser = (none, plan) ∧
      st.nextPeer i endorser = { st with plan, routines := st.routines.set i .done }) := by
  rcases hn : st.plan.nextPeerInGroup endorser with ⟨_ | next, plan⟩
  · exact .inr ⟨plan, rfl, by simp [Endorse.nextPeer, hn]⟩
  · exact .inl ⟨next, plan, rfl, by simp [Endorse.nextPeer, hn]⟩

/-- An event leaves the state as it is, or is a pass of the loop with no outcome and every
    goroutine done, or a goroutine's call, or its retry. -/
theorem Endorse.step_cases (st : Endorse E) (ev : EndorseEvent E) :
    st.step ev = st ∨
    (∃ order, ev = .round order ∧ st.outcome = none ∧ (∀ x ∈ st.routines, x = .done) ∧
      st.step ev = st.loop order) ∨
    (∃ i endorser response, ev = .respond i response ∧
      st.routines[i]? = some (.asking endorser) ∧
      st.step ev = st.processProposal i endorser response) ∨
    (∃ i endorser, ev = .retry i ∧ st.routines[i]? = some (.retrying endorser) ∧
      st.step ev = st.nextPeer i endorser) := by
  cases ev with
  | round order =>
    by_cases h : st.outcome.isNone ∧ st.routines.all (· = .done)
    · refine .inr (.inl ⟨order, rfl, Option.isNone_iff_eq_none.mp h.1, ?_, if_pos h⟩)
      simpa using h.2
    · exact .inl (if_neg h)
  | respond i response =>
    rcases hr : st.routines[i]? with _ | _ | _ | _
    · exact .inl (by simp [Endorse.step, hr])
    · exact .inr (.inr (.inl ⟨i, _, response, rfl, hr, by simp [Endorse.step, hr]⟩))
    · exact .inl (by simp [Endorse.step, hr])
    · exact .inl (by simp [Endorse.step, hr])
  | retry i =>
    rcases hr : st.routines[i]? with _ | _ | _ | _
    · exact .inl (by simp [Endorse.step, hr])
    · exact .inl (by simp [Endorse.step, hr])
    · exact .inr (.inr (.inr ⟨i, _, rfl, hr, by simp [Endorse.step, hr]⟩))
    · exact .inl (by simp [Endorse.step, hr])

theorem Endorse.step_round {st : Endorse E} (order : GoMap.RangeOrder String Int)
    (hout : st.outcome = none) (hdone : ∀ x ∈ st.routines, x = .done) :
    st.step (.round order) = st.loop order :=
  if_pos ⟨by simp [hout], List.all_eq_true.mpr fun x hx => by simp [hdone x hx]⟩

theorem Endorse.step_respond {st : Endorse E} {i : Nat} {endorser : E}
    (hi : st.routines[i]? = some (.asking endorser)) (response : Option (Bytes × Bytes)) :
    st.step (.respond i response) = st.processProposal i endorser response := by
  simp [Endorse.step, hi]

theorem Endorse.step_retry {st : Endorse E} {i : Nat} {endorser : E}
    (hi : st.routines[i]? = some (.retrying endorser)) :
    st.step (.retry i) = st.nextPeer i endorser := by
  simp [Endorse.step, hi]

theorem Endorse.run_nil (st : Endorse E) : st.run [] = st := rfl

theorem Endorse.run_cons (st : Endorse E) (ev : EndorseEvent E) (events : List (EndorseEvent E)) :
    st.run (ev :: events) = (st.step ev).run events := rfl

theorem Endorse.run_append (st : Endorse E) (events events' : List (EndorseEvent E)) :
    (st.run events).run events' = st.run (events ++ events') := by
  simp [Endorse.run, List.foldl_append]

end Cases

/-! ## No endorser is asked twice -/

section Asks

variable {E : Type} [DecidableEq E]

/-- The endorser a goroutine is about to ask. -/
def Routine.toAsk : Routine E → Option E
  | .asking endorser => some endorser
  | _ => none

/-- The endorsers asked, those about to be, and those the plan has not handed out. -/
def Endorse.candidates (st : Endorse E) : List E :=
  st.asked ++ st.routines.filterMap Routine.toAsk ++ st.plan.items

/-- Every endorser asked, about to be or not yet handed out is one of `pool`, and none is any two
    of these. -/
structure Endorse.Asks (pool : List E) (st : Endorse E) : Prop where
  nodup : st.candidates.Nodup
  subperm : st.candidates.Subperm pool

theorem Endorse.Asks.of_subperm {pool : List E} {st st' : Endorse E} (h : st.Asks pool)
    (hsub : st'.candidates.Subperm st.candidates) : st'.Asks pool := by
  exact ⟨FoldM.nodup_of_subperm hsub h.nodup, hsub.trans h.subperm⟩

omit [DecidableEq E] in
/-- Goroutine `i` no longer about to ask its endorser, which is now asked. -/
theorem perm_asked_set {asked : List E} {routines : List (Routine E)} {i : Nat} {endorser : E}
    (hi : routines[i]? = some (.asking endorser)) {x : Routine E} (hx : x.toAsk = none) :
    (asked ++ [endorser] ++ (routines.set i x).filterMap Routine.toAsk).Perm
      (asked ++ routines.filterMap Routine.toAsk) := by
  have hset := FoldM.filterMap_set_perm Routine.toAsk hi x
  rw [hx] at hset
  simp only [Routine.toAsk, Option.toList_some, Option.toList_none, List.append_nil] at hset
  rw [List.append_assoc]
  exact ((List.perm_append_comm).append_left asked).trans (hset.append_left asked)

/-- A pass of the loop hands the endorsers it takes from the plan to the goroutines. -/
theorem Endorse.candidates_loop_subperm (order : GoMap.RangeOrder String Int) {st : Endorse E}
    (hdone : ∀ x ∈ st.routines, x = .done) : (st.loop order).candidates.Subperm st.candidates := by
  have hnone : st.routines.filterMap Routine.toAsk = [] :=
    List.filterMap_eq_nil_iff.mpr fun x hx => by rw [hdone x hx]; rfl
  rcases st.loop_cases order with ⟨L, -, h⟩ | ⟨-, -, h⟩ | ⟨plan, -, he, h⟩ |
    ⟨es, plan, -, -, he, h⟩
  · rw [h]
    exact List.Subperm.refl _
  · rw [h]
    exact List.Subperm.refl _
  · -- the plan drops endorsers with the layouts it abandons
    obtain ⟨-, ⟨dropped, hperm⟩, -⟩ := Plan.endorsers_spec he
    have hitems : plan.items.Subperm st.plan.items :=
      (List.sublist_append_right _ _).subperm.trans hperm.subperm
    rw [h]
    simpa [Endorse.candidates, hnone] using (List.subperm_append_left st.asked).mpr hitems
  · obtain ⟨-, ⟨dropped, hperm⟩, -⟩ := Plan.endorsers_spec he
    have hitems : (es ++ plan.items).Subperm st.plan.items :=
      ((List.sublist_append_left es dropped).append (List.Sublist.refl _)).subperm.trans
        hperm.subperm
    have hmap : (es.map Routine.asking).filterMap Routine.toAsk = es := by
      simp [List.filterMap_map, Function.comp_def, Routine.toAsk]
    rw [h]
    simpa [Endorse.candidates, hnone, hmap, List.append_assoc] using
      (List.subperm_append_left st.asked).mpr hitems

/-- A goroutine's call moves its endorser to those asked; the plan may drop it from its group. -/
theorem Endorse.candidates_processProposal_subperm {st : Endorse E} {i : Nat} {endorser : E}
    (hi : st.routines[i]? = some (.asking endorser)) (response : Option (Bytes × Bytes)) :
    (st.processProposal i endorser response).candidates.Subperm st.candidates := by
  rcases st.processProposal_cases i endorser response with ⟨-, h⟩ |
    ⟨payload, signature, plan, -, hp, h⟩ | ⟨payload, signature, plan, -, hp, h⟩
  · rw [h]
    exact ((perm_asked_set hi rfl).append_right _).subperm
  · have hitems : plan.items.Subperm st.plan.items := by
      simpa [hp] using st.plan.items_processEndorsement_subperm endorser
        ⟨payload, ⟨endorser, signature⟩⟩
    rw [h]
    exact ((perm_asked_set hi rfl).append_right _).subperm.trans
      ((List.subperm_append_left _).mpr hitems)
  · have hitems : plan.items.Subperm st.plan.items := by
      simpa [hp] using st.plan.items_processEndorsement_subperm endorser
        ⟨payload, ⟨endorser, signature⟩⟩
    rw [h]
    exact ((perm_asked_set hi rfl).append_right _).subperm.trans
      ((List.subperm_append_left _).mpr hitems)

/-- A retry hands the next endorser of the group to the goroutine. -/
theorem Endorse.candidates_nextPeer_subperm {st : Endorse E} {i : Nat} {endorser : E}
    (hi : st.routines[i]? = some (.retrying endorser)) :
    (st.nextPeer i endorser).candidates.Subperm st.candidates := by
  rcases st.nextPeer_cases i endorser with ⟨next, plan, hn, h⟩ | ⟨plan, hn, h⟩
  · obtain ⟨-, hperm, -, -⟩ := Plan.nextPeerInGroup_some hn
    have hset := FoldM.filterMap_set_perm Routine.toAsk hi (.asking next)
    simp only [Routine.toAsk, Option.toList_none, List.append_nil, Option.toList_some] at hset
    -- the next endorser moves from the group to the goroutine
    have hmove : ((st.routines.set i (.asking next)).filterMap Routine.toAsk ++ plan.items).Perm
        (st.routines.filterMap Routine.toAsk ++ st.plan.items) :=
      (hset.append_right _).trans (by rw [List.append_assoc]; exact hperm.append_left _)
    rw [h]
    simpa [Endorse.candidates, List.append_assoc] using (hmove.append_left st.asked).subperm
  · obtain ⟨-, hitems, -, -⟩ := Plan.nextPeerInGroup_none hn
    have hset := FoldM.filterMap_set_perm Routine.toAsk hi .done
    simp only [Routine.toAsk, Option.toList_none, List.append_nil] at hset
    rw [h]
    simpa [Endorse.candidates, hitems] using ((hset.append_left st.asked).append_right _).subperm

/-- No event adds an endorser to those a run can ask. -/
theorem Endorse.candidates_step_subperm (st : Endorse E) (ev : EndorseEvent E) :
    (st.step ev).candidates.Subperm st.candidates := by
  rcases st.step_cases ev with h | ⟨order, -, -, hdone, h⟩ | ⟨i, endorser, response, -, hi, h⟩ |
    ⟨i, endorser, -, hi, h⟩
  · rw [h]
  · rw [h]
    exact Endorse.candidates_loop_subperm order hdone
  · rw [h]
    exact Endorse.candidates_processProposal_subperm hi response
  · rw [h]
    exact Endorse.candidates_nextPeer_subperm hi

theorem Endorse.Asks.run {pool : List E} {st : Endorse E} (h : st.Asks pool) :
    ∀ events : List (EndorseEvent E), (st.run events).Asks pool := by
  intro events
  induction events generalizing st with
  | nil => exact h
  | cons ev events ih => exact ih (h.of_subperm (st.candidates_step_subperm ev))

/-- At the start the loop can ask the first endorser and the plan's, each once, on a plan that
    lists each endorser once, in the group it gives it. -/
theorem Endorse.asks_init (plan : Plan E) (hnodup : plan.items.Nodup)
    (hgroup : ∀ group e, e ∈ plan.endorsersOf group → plan.groupOf e = group)
    (first : Option (E × Bytes × Bytes)) :
    (Endorse.init plan first).Asks ((first.map (·.1)).toList ++ plan.items) := by
  rcases first with _ | ⟨first, payload, signature⟩
  · exact ⟨by simpa [Endorse.init, Endorse.candidates] using hnodup,
      by simpa [Endorse.init, Endorse.candidates] using List.Subperm.refl plan.items⟩
  · -- `processEndorsement` takes the first endorser out of its group
    have hout := Plan.not_mem_items_processEndorsement hnodup hgroup first
      ⟨payload, ⟨first, signature⟩⟩
    have hsub := plan.items_processEndorsement_subperm first ⟨payload, ⟨first, signature⟩⟩
    rcases hp : plan.processEndorsement first ⟨payload, ⟨first, signature⟩⟩ with ⟨_ | _, plan'⟩ <;>
      rw [hp] at hout hsub <;>
    · refine ⟨?_, ?_⟩
      · simpa [Endorse.init, Endorse.candidates, hp] using
          List.nodup_cons.mpr ⟨hout, FoldM.nodup_of_subperm hsub hnodup⟩
      · simpa [Endorse.init, Endorse.candidates, hp] using (List.subperm_cons first).mpr hsub

theorem Endorse.Asks.asked_nodup {pool : List E} {st : Endorse E} (h : st.Asks pool) :
    st.asked.Nodup :=
  h.nodup.sublist ((List.sublist_append_left _ _).trans (List.sublist_append_left _ _))

theorem Endorse.Asks.mem_pool {pool : List E} {st : Endorse E} (h : st.Asks pool) {e : E}
    (he : e ∈ st.asked) : e ∈ pool :=
  h.subperm.subset (List.mem_append_left _ (List.mem_append_left _ he))

/-- `Endorse` sends the proposal to no endorser twice, and only to the first endorser or to
    endorsers of the groups discovery gave, when those list each endorser once. -/
theorem endorse_asks_once (order : GoMap.RangeOrder String (List E)) (orig : List (Layout E))
    {groupEndorsers : GoMap String (List E)} (hnodup : groupEndorsers.items.Nodup)
    (first : Option (E × Bytes × Bytes)) (events : List (EndorseEvent E)) :
    ((Endorse.init (newPlan order orig groupEndorsers) first).run events).asked.Nodup ∧
      ∀ e ∈ ((Endorse.init (newPlan order orig groupEndorsers) first).run events).asked,
        first.map (·.1) = some e ∨ e ∈ groupEndorsers.items := by
  have hasks := (Endorse.asks_init (newPlan order orig groupEndorsers) hnodup
    (fun group e he => Plan.groupOf_newPlan order orig hnodup he) first).run events
  refine ⟨hasks.asked_nodup, fun e he => ?_⟩
  have hmem := hasks.mem_pool he
  rcases List.mem_append.mp hmem with hfirst | hplan
  · exact .inl (by simpa using hfirst)
  · exact .inr hplan

theorem endorse_asks_once_andOr :
    oneEach.items.Nodup ∧
      ((Endorse.init (newPlan .inOrder andOrLayouts oneEach) none).run andOrEvents).asked.Nodup ∧
      ∀ e ∈ ((Endorse.init (newPlan .inOrder andOrLayouts oneEach) none).run andOrEvents).asked,
        (none : Option (Nat × Bytes × Bytes)).map (·.1) = some e ∨ e ∈ oneEach.items :=
  ⟨by decide, endorse_asks_once .inOrder andOrLayouts (by decide) none andOrEvents⟩

end Asks

/-! ## Every run ends -/

section Measure

variable {E : Type} [DecidableEq E]

/-- What a goroutine can still do: ask (and then retry), retry, or nothing. -/
def Routine.weight : Routine E → Nat
  | .asking _ => 2
  | .retrying _ => 1
  | .done => 0

/-- Three for each endorser the plan has not handed out, the goroutines' weights, and one until
    `Endorse` returns. -/
def Endorse.measure (st : Endorse E) : Nat :=
  3 * st.plan.items.length + (st.routines.map Routine.weight).sum +
    if st.outcome = none then 1 else 0

/-- A run of events that each take effect. -/
inductive Endorse.Busy : Endorse E → List (EndorseEvent E) → Prop
  | nil (st : Endorse E) : Endorse.Busy st []
  | cons {st : Endorse E} {ev : EndorseEvent E} {events : List (EndorseEvent E)} :
      st.step ev ≠ st → Endorse.Busy (st.step ev) events → Endorse.Busy st (ev :: events)

/-- A pass of the loop returns, or hands the next layout's endorsers, at least one, to new
    goroutines for two each. -/
theorem Endorse.measure_loop (order : GoMap.RangeOrder String Int) {st : Endorse E}
    (hout : st.outcome = none) (hdone : ∀ x ∈ st.routines, x = .done) :
    (st.loop order).measure < st.measure := by
  have hzero : (st.routines.map Routine.weight).sum = 0 := by
    simp only [List.sum_eq_zero_iff, List.mem_map]
    rintro _ ⟨x, hx, rfl⟩
    rw [hdone x hx]
    rfl
  rcases st.loop_cases order with ⟨L, -, h⟩ | ⟨-, -, h⟩ | ⟨plan, -, he, h⟩ |
    ⟨es, plan, -, hne, he, h⟩
  · rw [h]
    simp [Endorse.measure, hout]
  · rw [h]
    simp [Endorse.measure, hout]
  · -- aborting: the plan drops endorsers at most, and `Endorse` returns
    obtain ⟨-, ⟨dropped, hperm⟩, -⟩ := Plan.endorsers_spec he
    have hlen := hperm.length_eq
    simp only [List.nil_append, List.length_append] at hlen
    rw [h]
    simp only [Endorse.measure, hout, hzero, reduceCtorEq, if_false, if_true]
    omega
  · -- each endorser handed out costs three and its goroutine two
    obtain ⟨-, ⟨dropped, hperm⟩, -⟩ := Plan.endorsers_spec he
    have hlen := hperm.length_eq
    have hes : 0 < es.length := List.length_pos_iff.mpr hne
    have hsum : ((es.map Routine.asking).map Routine.weight).sum = 2 * es.length := by
      simp [List.map_map, Function.comp_def, Routine.weight, List.sum_replicate, mul_comm]
    simp only [List.length_append] at hlen
    rw [h]
    simp only [Endorse.measure, hout, hzero, hsum, if_true]
    omega

/-- A goroutine's call turns its two into at most one. -/
theorem Endorse.measure_processProposal {st : Endorse E} {i : Nat} {endorser : E}
    (hi : st.routines[i]? = some (.asking endorser)) (response : Option (Bytes × Bytes)) :
    (st.processProposal i endorser response).measure < st.measure := by
  -- the plan's `processEndorsement` hands out no endorser
  have hitems : ∀ {payload signature ok plan}, st.plan.processEndorsement endorser
      ⟨payload, ⟨endorser, signature⟩⟩ = (ok, plan) → plan.items.length ≤ st.plan.items.length := by
    intro payload signature ok plan hp
    have hle := (st.plan.items_processEndorsement_subperm endorser
      ⟨payload, ⟨endorser, signature⟩⟩).length_le
    rwa [hp] at hle
  have hset := fun x => FoldM.sum_map_set_add Routine.weight hi x
  rcases st.processProposal_cases i endorser response with ⟨-, h⟩ |
    ⟨payload, signature, plan, rfl, hp, h⟩ | ⟨payload, signature, plan, rfl, hp, h⟩ <;>
    rw [h] <;> simp only [Endorse.measure]
  · have := hset (.retrying endorser)
    simp only [Routine.weight] at this
    omega
  · have := hset .done
    have hle := hitems hp
    simp only [Routine.weight] at this
    omega
  · have := hset (.retrying endorser)
    have hle := hitems hp
    simp only [Routine.weight] at this
    omega

/-- A retry turns the goroutine's one into two for an endorser taken from the plan, or into
    nothing. -/
theorem Endorse.measure_nextPeer {st : Endorse E} {i : Nat} {endorser : E}
    (hi : st.routines[i]? = some (.retrying endorser)) :
    (st.nextPeer i endorser).measure < st.measure := by
  have hset := fun x => FoldM.sum_map_set_add Routine.weight hi x
  rcases st.nextPeer_cases i endorser with ⟨next, plan, hn, h⟩ | ⟨plan, hn, h⟩ <;>
    rw [h] <;> simp only [Endorse.measure]
  · obtain ⟨-, hperm, -, -⟩ := Plan.nextPeerInGroup_some hn
    have hlen := hperm.length_eq
    have := hset (.asking next)
    simp only [Routine.weight, List.length_cons] at this hlen
    omega
  · obtain ⟨-, hitems, -, -⟩ := Plan.nextPeerInGroup_none hn
    have := hset .done
    simp only [Routine.weight] at this
    rw [hitems]
    omega

/-- Each event that takes effect lowers the measure. -/
theorem Endorse.measure_step {st : Endorse E} {ev : EndorseEvent E} (h : st.step ev ≠ st) :
    (st.step ev).measure < st.measure := by
  rcases st.step_cases ev with h' | ⟨order, -, hout, hdone, h'⟩ |
    ⟨i, endorser, response, -, hi, h'⟩ | ⟨i, endorser, -, hi, h'⟩
  · exact absurd h' h
  · rw [h']
    exact Endorse.measure_loop order hout hdone
  · rw [h']
    exact Endorse.measure_processProposal hi response
  · rw [h']
    exact Endorse.measure_nextPeer hi

/-- A run of events that each take effect is no longer than the measure it starts from. -/
theorem Endorse.Busy.length_le {st : Endorse E} {events : List (EndorseEvent E)}
    (h : st.Busy events) : events.length ≤ st.measure := by
  induction h with
  | nil => exact Nat.zero_le _
  | cons hne _ ih =>
    have := Endorse.measure_step hne
    simp only [List.length_cons]
    omega

/-- The loop's start costs three for each endorser of the plan, and one. -/
theorem Endorse.measure_init (plan : Plan E) (first : Option (E × Bytes × Bytes)) :
    (Endorse.init plan first).measure ≤ 3 * plan.items.length + 1 := by
  rcases first with _ | ⟨first, payload, signature⟩
  · simp [Endorse.init, Endorse.measure]
  · have hle := (plan.items_processEndorsement_subperm first
      ⟨payload, ⟨first, signature⟩⟩).length_le
    rcases hp : plan.processEndorsement first ⟨payload, ⟨first, signature⟩⟩ with ⟨_ | _, plan'⟩ <;>
      rw [hp] at hle <;> simp [Endorse.init, Endorse.measure, hp] <;> omega

end Measure

/-! ## Every run is bounded -/

section Progress

variable {E : Type} [DecidableEq E]

/-- A pass of the loop with every goroutine done changes the state: `Endorse` returns, or new
    goroutines start. -/
theorem Endorse.loop_ne (order : GoMap.RangeOrder String Int) {st : Endorse E}
    (hout : st.outcome = none) (hdone : ∀ x ∈ st.routines, x = .done) : st.loop order ≠ st := by
  intro heq
  rcases st.loop_cases order with ⟨L, -, h⟩ | ⟨-, -, h⟩ | ⟨plan, -, -, h⟩ |
    ⟨es, plan, -, hne, -, h⟩ <;> rw [h] at heq
  · have := congrArg Endorse.outcome heq
    simp [hout] at this
  · have := congrArg Endorse.outcome heq
    simp [hout] at this
  · have := congrArg Endorse.outcome heq
    simp [hout] at this
  · -- the first new goroutine is asking, where every old one was done
    obtain ⟨e, es, rfl⟩ := List.exists_cons_of_ne_nil hne
    have := congrArg Endorse.routines heq
    simp only [List.map_cons] at this
    have hmem : Routine.asking e ∈ st.routines := this ▸ List.mem_cons_self
    cases hdone _ hmem

end Progress

/-! ## What `Endorse` returns -/

section Outcome

variable {E : Type} [DecidableEq E]

/-- An answer an endorser can give: a response's payload is never empty. -/
def EndorseEvent.Fits : EndorseEvent E → Prop
  | .respond _ (some (payload, _)) => payload ≠ []
  | _ => True

/-- The loop's invariant against the layouts discovery gave: the plan is accounted for with the
    responses it took, each from an endorser asked; once `Endorse` returns every goroutine is done;
    it never spins in `endorsers`; and an endorsed outcome is the plan's payload with the completed
    layout's endorsements. -/
structure Endorse.Inv (orig : List (Layout E)) (st : Endorse E) : Prop where
  acc : st.plan.Acc orig st.counted
  counted : (st.counted.map (·.endorsement.endorser)).Sublist st.asked
  quiet : st.outcome ≠ none → ∀ x ∈ st.routines, x = .done
  hangs : st.outcome ≠ some .hangs
  endorsed : ∀ payload endorsements, st.outcome = some (.endorsed payload endorsements) →
    payload = st.plan.responsePayload ∧
      ∃ L, st.plan.completedLayout = some L ∧ endorsements = uniqueEndorsements L.endorsements

variable {orig : List (Layout E)} {st : Endorse E}

/-- A goroutine that is not done means `Endorse` has not returned. -/
theorem Endorse.Inv.outcome_eq_none (h : st.Inv orig) {i : Nat} {x : Routine E}
    (hi : st.routines[i]? = some x) (hx : x ≠ .done) : st.outcome = none := by
  by_contra hout
  exact hx (h.quiet hout x (List.mem_of_getElem? hi))

/-- A state that has not returned and whose plan and ghost lists are accounted for keeps the
    invariant. -/
theorem Endorse.Inv.of_running {st' : Endorse E} (hout : st'.outcome = none)
    (hacc : st'.plan.Acc orig st'.counted)
    (hcounted : (st'.counted.map (·.endorsement.endorser)).Sublist st'.asked) : st'.Inv orig :=
  ⟨hacc, hcounted, fun h => absurd hout h, by simp [hout], by simp [hout]⟩

theorem Endorse.Inv.loop (order : GoMap.RangeOrder String Int) (h : st.Inv orig)
    (hout : st.outcome = none) (hdone : ∀ x ∈ st.routines, x = .done) :
    (st.loop order).Inv orig := by
  rcases st.loop_cases order with ⟨L, hc, hl⟩ | ⟨hc, he, -⟩ | ⟨plan, -, he, hl⟩ |
    ⟨es, plan, -, -, he, hl⟩
  · rw [hl]
    refine ⟨h.acc, h.counted, fun _ => hdone, by simp, ?_⟩
    intro payload endorsements heq
    simp only [Option.some.injEq, Outcome.endorsed.injEq] at heq
    exact ⟨heq.1.symm, L, hc, heq.2.symm⟩
  · -- the plan hands out someone for every layout it accounts for
    exact absurd he (h.acc.endorsers_ne_none order hc)
  · obtain ⟨htrim, -, -⟩ := Plan.endorsers_spec he
    rw [hl]
    exact ⟨h.acc.trims htrim, h.counted, fun _ => hdone, by simp, by simp⟩
  · obtain ⟨htrim, -, -⟩ := Plan.endorsers_spec he
    rw [hl]
    exact Endorse.Inv.of_running hout (h.acc.trims htrim) h.counted

theorem Endorse.Inv.processProposal (h : st.Inv orig) {i : Nat} {endorser : E}
    (hi : st.routines[i]? = some (.asking endorser)) {response : Option (Bytes × Bytes)}
    (hfits : (EndorseEvent.respond i response : EndorseEvent E).Fits) :
    (st.processProposal i endorser response).Inv orig := by
  have hout := h.outcome_eq_none hi (by simp)
  have hasked : (st.counted.map (·.endorsement.endorser)).Sublist (st.asked ++ [endorser]) :=
    h.counted.trans (List.sublist_append_left _ _)
  rcases st.processProposal_cases i endorser response with ⟨-, hp⟩ |
    ⟨payload, signature, plan, rfl, he, hp⟩ | ⟨payload, signature, plan, rfl, he, hp⟩ <;> rw [hp]
  · exact Endorse.Inv.of_running hout h.acc hasked
  · -- the plan took the endorsement: the response is counted, from the endorser asked
    have hacc := h.acc.processEndorsement (r := ⟨payload, ⟨endorser, signature⟩⟩) hfits rfl
    rw [he] at hacc
    refine Endorse.Inv.of_running hout hacc ?_
    simpa using h.counted.append (List.Sublist.refl [endorser])
  · have hacc := h.acc.processEndorsement (r := ⟨payload, ⟨endorser, signature⟩⟩) hfits rfl
    rw [he] at hacc
    exact Endorse.Inv.of_running hout hacc hasked

theorem Endorse.Inv.nextPeer (h : st.Inv orig) {i : Nat} {endorser : E}
    (hi : st.routines[i]? = some (.retrying endorser)) : (st.nextPeer i endorser).Inv orig := by
  have hout := h.outcome_eq_none hi (by simp)
  rcases st.nextPeer_cases i endorser with ⟨next, plan, hn, hp⟩ | ⟨plan, hn, hp⟩ <;> rw [hp]
  · exact Endorse.Inv.of_running hout (h.acc.trims (Plan.nextPeerInGroup_some hn).1) h.counted
  · exact Endorse.Inv.of_running hout (h.acc.trims (Plan.nextPeerInGroup_none hn).1) h.counted

theorem Endorse.Inv.step (h : st.Inv orig) {ev : EndorseEvent E} (hfits : ev.Fits) :
    (st.step ev).Inv orig := by
  rcases st.step_cases ev with hs | ⟨order, -, hout, hdone, hs⟩ |
    ⟨i, endorser, response, rfl, hi, hs⟩ | ⟨i, endorser, -, hi, hs⟩ <;> rw [hs]
  · exact h
  · exact h.loop order hout hdone
  · exact h.processProposal hi hfits
  · exact h.nextPeer hi

theorem Endorse.Inv.run (h : st.Inv orig) {events : List (EndorseEvent E)}
    (hfits : ∀ ev ∈ events, ev.Fits) : (st.run events).Inv orig := by
  induction events generalizing st with
  | nil => exact h
  | cons ev events ih =>
    exact ih (h.step (hfits ev List.mem_cons_self)) fun ev' hev' =>
      hfits ev' (List.mem_cons_of_mem _ hev')

/-- No event changes the group the plan gives an endorser. -/
theorem Endorse.groupIds_step (st : Endorse E) (ev : EndorseEvent E) :
    (st.step ev).plan.groupIds = st.plan.groupIds := by
  rcases st.step_cases ev with hs | ⟨order, -, -, -, hs⟩ |
    ⟨i, endorser, response, -, -, hs⟩ | ⟨i, endorser, -, -, hs⟩ <;> rw [hs]
  · rcases st.loop_cases order with ⟨L, -, hl⟩ | ⟨-, -, hl⟩ | ⟨plan, -, he, hl⟩ |
      ⟨es, plan, -, -, he, hl⟩ <;> rw [hl]
    · exact (Plan.endorsers_spec he).1.groupIds
    · exact (Plan.endorsers_spec he).1.groupIds
  · rcases st.processProposal_cases i endorser response with ⟨-, hp⟩ |
      ⟨payload, signature, plan, -, he, hp⟩ | ⟨payload, signature, plan, -, he, hp⟩ <;> rw [hp]
    all_goals
      have hg := st.plan.groupIds_processEndorsement endorser ⟨payload, ⟨endorser, signature⟩⟩
      rwa [he] at hg
  · rcases st.nextPeer_cases i endorser with ⟨next, plan, hn, hp⟩ | ⟨plan, hn, hp⟩ <;> rw [hp]
    · exact (Plan.nextPeerInGroup_some hn).1.groupIds
    · exact (Plan.nextPeerInGroup_none hn).1.groupIds

theorem Endorse.groupIds_run (st : Endorse E) (events : List (EndorseEvent E)) :
    (st.run events).plan.groupIds = st.plan.groupIds := by
  induction events generalizing st with
  | nil => rfl
  | cons ev events ih => rw [Endorse.run_cons, ih, Endorse.groupIds_step]

/-- The loop starts accounted for against discovery's layouts, from a first response with a
    payload. -/
theorem Endorse.inv_init (order : GoMap.RangeOrder String (List E))
    (groupEndorsers : GoMap String (List E)) (hfresh : ∀ O ∈ orig, O.Fresh)
    (first : Option (E × Bytes × Bytes)) (hfirst : ∀ f ∈ first, f.2.1 ≠ []) :
    (Endorse.init (newPlan order orig groupEndorsers) first).Inv orig := by
  have hacc := Plan.acc_newPlan order groupEndorsers hfresh
  rcases first with _ | ⟨first, payload, signature⟩
  · exact Endorse.Inv.of_running rfl hacc (by simp [Endorse.init])
  · have hacc' := hacc.processEndorsement (r := ⟨payload, ⟨first, signature⟩⟩)
      (hfirst _ rfl) rfl
    rcases hp : (newPlan order orig groupEndorsers).processEndorsement first
      ⟨payload, ⟨first, signature⟩⟩ with ⟨_ | _, plan⟩ <;> rw [hp] at hacc' <;>
    · refine Endorse.Inv.of_running (by simp [Endorse.init, hp]) ?_ ?_
      · simpa [Endorse.init, hp] using hacc'
      · simp [Endorse.init, hp]

/-- An endorsed outcome, on a run whose endorsers were each asked once, carries endorsements from
    distinct endorsers, exactly as many of each group as one of discovery's layouts asks, each the
    endorsement of a response with the outcome's payload that the plan took. -/
theorem Endorse.Inv.endorsed_spec (h : st.Inv orig) (hnodup : st.asked.Nodup)
    {payload : Bytes} {endorsements : List (Endorsement E)}
    (hout : st.outcome = some (.endorsed payload endorsements)) :
    (endorsements.map (·.endorser)).Nodup ∧
      (∃ O ∈ orig, ∀ group, (countIn st.plan.groupOf group endorsements : Int) =
        (O.required.get? group).getD 0) ∧
      ∀ en ∈ endorsements, (⟨payload, en⟩ : ProposalResponse E) ∈ st.counted := by
  obtain ⟨hpay, L, hL, rfl⟩ := h.endorsed payload endorsements hout
  obtain ⟨hempty, O, hO, hacc⟩ := h.acc.completed L hL
  -- the layout's endorsements are some of the responses taken, whose endorsers were asked once
  have hdistinct : (L.endorsements.map (·.endorser)).Nodup := by
    have hcounted : ((st.counted.map (·.endorsement)).map (·.endorser)).Sublist st.asked := by
      rw [List.map_map]
      exact h.counted
    have hsub : (L.endorsements.map (·.endorser)).Sublist st.asked :=
      (hacc.sublist.map _).trans hcounted
    exact hnodup.sublist hsub
  rw [uniqueEndorsements_of_nodup hdistinct]
  refine ⟨hdistinct, ⟨O, hO, fun group => ?_⟩, fun en hen => ?_⟩
  · -- the completed layout needs nothing more, so it has counted all discovery asked
    have htotal := hacc.total group
    have hnone : L.required.get? group = none := by simp [GoMap.get?, hempty]
    rw [hnone, Option.getD_none, zero_add] at htotal
    exact htotal
  · obtain ⟨r, hr, rfl⟩ := List.mem_map.mp (hacc.sublist.subset hen)
    have hrpay := (h.acc.payload r hr).1
    rw [← hpay] at hrpay
    rw [← hrpay]
    exact hr

/-- An endorsed outcome of `Endorse` satisfies one of discovery's layouts: its endorsements come
    from distinct endorsers, exactly as many from each group as the layout asks (each endorser in
    the group the plan gives it), each returned by its endorser with the outcome's payload. -/
theorem endorse_endorsed (order : GoMap.RangeOrder String (List E))
    {groupEndorsers : GoMap String (List E)} (hnodup : groupEndorsers.items.Nodup)
    (hfresh : ∀ O ∈ orig, O.Fresh) (first : Option (E × Bytes × Bytes))
    (hfirst : ∀ f ∈ first, f.2.1 ≠ []) {events : List (EndorseEvent E)}
    (hfits : ∀ ev ∈ events, ev.Fits) {payload : Bytes} {endorsements : List (Endorsement E)}
    (hout : ((Endorse.init (newPlan order orig groupEndorsers) first).run events).outcome =
      some (.endorsed payload endorsements)) :
    (endorsements.map (·.endorser)).Nodup ∧
      (∃ O ∈ orig, ∀ group,
        (countIn (newPlan order orig groupEndorsers).groupOf group endorsements : Int) =
          (O.required.get? group).getD 0) ∧
      ∀ en ∈ endorsements, (⟨payload, en⟩ : ProposalResponse E) ∈
        ((Endorse.init (newPlan order orig groupEndorsers) first).run events).counted := by
  have hasks := (Endorse.asks_init (newPlan order orig groupEndorsers) hnodup
    (fun group e he => Plan.groupOf_newPlan order orig hnodup he) first).run events
  have hinv := (Endorse.inv_init order groupEndorsers hfresh first hfirst).run hfits
  -- the groups the plan gives are those it started with
  have hgroupOf : ((Endorse.init (newPlan order orig groupEndorsers) first).run events).plan.groupOf
      = (newPlan order orig groupEndorsers).groupOf := by
    funext e
    simp only [Plan.groupOf, Endorse.groupIds_run]
    rcases first with _ | ⟨f, payload', signature'⟩
    · rfl
    · have hg := (newPlan order orig groupEndorsers).groupIds_processEndorsement f
        ⟨payload', ⟨f, signature'⟩⟩
      rcases hp : (newPlan order orig groupEndorsers).processEndorsement f
        ⟨payload', ⟨f, signature'⟩⟩ with ⟨_ | _, plan⟩ <;> rw [hp] at hg <;>
      · simp only at hg
        simp [Endorse.init, hp, hg]
  have := hinv.endorsed_spec hasks.asked_nodup hout
  rwa [hgroupOf] at this

theorem endorse_endorsed_andOr :
    ((Endorse.init (newPlan .inOrder andOrLayouts oneEach) none).run andOrEvents).outcome =
        some (.endorsed [7] andOrEndorsements) ∧
      (andOrEndorsements.map (·.endorser)).Nodup ∧
      (∃ O ∈ andOrLayouts, ∀ group,
        (countIn (newPlan .inOrder andOrLayouts oneEach).groupOf group andOrEndorsements : Int) =
          (O.required.get? group).getD 0) ∧
      ∀ en ∈ andOrEndorsements, (⟨[7], en⟩ : ProposalResponse Nat) ∈
        ((Endorse.init (newPlan .inOrder andOrLayouts oneEach) none).run andOrEvents).counted := by
  -- the first round hands out endorsers 2 and 1; both answers complete the first layout
  have hround : (newPlan .inOrder andOrLayouts oneEach).endorsers .inOrder =
      some ([2, 1], { newPlan .inOrder andOrLayouts oneEach with
        groupEndorsers := (oneEach.insert "B" []).insert "A" [] }) := by
    rw [Plan.endorsers_of_take rfl rfl (by decide)]
    rfl
  have hout : ((Endorse.init (newPlan .inOrder andOrLayouts oneEach) none).run
      andOrEvents).outcome = some (.endorsed [7] andOrEndorsements) := by
    rw [andOrEvents, Endorse.run_cons, Endorse.step_round _ rfl (by simp [Endorse.init])]
    simp only [Endorse.loop, Endorse.init, hround]
    rw [Endorse.run_cons, Endorse.step_respond rfl, Endorse.run_cons, Endorse.step_respond rfl,
      Endorse.run_cons, Endorse.step_round _ rfl (by decide), Endorse.run_nil]
    rfl
  exact ⟨hout, endorse_endorsed .inOrder (by decide) andOrLayouts_fresh none (by simp)
    (by simp [andOrEvents, EndorseEvent.Fits]) hout⟩

/-- `Endorse` never spins in `endorsers` on the layouts discovery gives. -/
theorem endorse_never_hangs (order : GoMap.RangeOrder String (List E))
    (groupEndorsers : GoMap String (List E)) (hfresh : ∀ O ∈ orig, O.Fresh)
    (first : Option (E × Bytes × Bytes)) (hfirst : ∀ f ∈ first, f.2.1 ≠ [])
    {events : List (EndorseEvent E)} (hfits : ∀ ev ∈ events, ev.Fits) :
    ((Endorse.init (newPlan order orig groupEndorsers) first).run events).outcome ≠
      some .hangs :=
  ((Endorse.inv_init order groupEndorsers hfresh first hfirst).run hfits).hangs

theorem endorse_never_hangs_andOr :
    (∀ O ∈ andOrLayouts, O.Fresh) ∧
      ((Endorse.init (newPlan .inOrder andOrLayouts oneEach) none).run andOrEvents).outcome ≠
        some .hangs :=
  ⟨andOrLayouts_fresh, endorse_never_hangs .inOrder oneEach andOrLayouts_fresh none (by simp)
    (by simp [andOrEvents, EndorseEvent.Fits])⟩

end Outcome

/-! ## Layouts left behind -/

section Behind

variable {E : Type} [DecidableEq E]

/-- No event moves `nextLayout` back or changes a layout behind it. -/
theorem Endorse.frozen_step (st : Endorse E) (ev : EndorseEvent E) :
    st.plan.nextLayout ≤ (st.step ev).plan.nextLayout ∧
      ∀ k, k < st.plan.nextLayout → (st.step ev).plan.layouts[k]? = st.plan.layouts[k]? := by
  rcases st.step_cases ev with hs | ⟨order, -, -, -, hs⟩ |
    ⟨i, endorser, response, -, -, hs⟩ | ⟨i, endorser, -, -, hs⟩ <;> rw [hs]
  · exact ⟨Nat.le_refl _, fun _ _ => rfl⟩
  · rcases st.loop_cases order with ⟨L, -, hl⟩ | ⟨-, -, hl⟩ | ⟨plan, -, he, hl⟩ |
      ⟨es, plan, -, -, he, hl⟩ <;> rw [hl]
    · exact ⟨Nat.le_refl _, fun _ _ => rfl⟩
    · exact ⟨Nat.le_refl _, fun _ _ => rfl⟩
    · exact ⟨(Plan.endorsers_spec he).1.nextLayout, (Plan.endorsers_spec he).1.frozen⟩
    · exact ⟨(Plan.endorsers_spec he).1.nextLayout, (Plan.endorsers_spec he).1.frozen⟩
  · rcases st.processProposal_cases i endorser response with ⟨-, hp⟩ |
      ⟨payload, signature, plan, -, he, hp⟩ | ⟨payload, signature, plan, -, he, hp⟩ <;> rw [hp]
    · exact ⟨Nat.le_refl _, fun _ _ => rfl⟩
    all_goals
      have hf := st.plan.processEndorsement_frozen endorser ⟨payload, ⟨endorser, signature⟩⟩
      rw [he] at hf
      exact ⟨hf.1.ge, hf.2⟩
  · rcases st.nextPeer_cases i endorser with ⟨next, plan, hn, hp⟩ | ⟨plan, hn, hp⟩ <;> rw [hp]
    · exact ⟨(Plan.nextPeerInGroup_some hn).1.nextLayout, (Plan.nextPeerInGroup_some hn).1.frozen⟩
    · exact ⟨(Plan.nextPeerInGroup_none hn).1.nextLayout, (Plan.nextPeerInGroup_none hn).1.frozen⟩

/-- Over a whole run, `nextLayout` only moves on, and the layouts behind it stay as they are:
    none is counted, handed out or abandoned again. -/
theorem Endorse.frozen_run (st : Endorse E) (events : List (EndorseEvent E)) :
    st.plan.nextLayout ≤ (st.run events).plan.nextLayout ∧
      ∀ k, k < st.plan.nextLayout → (st.run events).plan.layouts[k]? = st.plan.layouts[k]? := by
  induction events generalizing st with
  | nil => exact ⟨Nat.le_refl _, fun _ _ => rfl⟩
  | cons ev events ih =>
    obtain ⟨hle, hfrozen⟩ := st.frozen_step ev
    obtain ⟨hle', hfrozen'⟩ := ih (st.step ev)
    exact ⟨hle.trans hle', fun k hk => (hfrozen' k (Nat.lt_of_lt_of_le hk hle)).trans (hfrozen k hk)⟩

/-- Two goroutines that each find their group exhausted move `nextLayout` on twice: the live
    layout after the current one, needing neither group, is left behind for good, never counted
    and never handed out by any later round. -/
theorem endorse_skips_layout {st : Endorse E} {i j : Nat} {a b : E} {L : Layout E} (hij : i ≠ j)
    (hi : st.routines[i]? = some (.retrying a)) (hj : st.routines[j]? = some (.retrying b))
    (ha : st.plan.endorsersOf (st.plan.groupOf a) = [])
    (hb : st.plan.endorsersOf (st.plan.groupOf b) = [])
    (hL : st.plan.layouts[st.plan.nextLayout + 1]? = some (some L))
    (hga : L.required.contains (st.plan.groupOf a) = false)
    (hgb : L.required.contains (st.plan.groupOf b) = false)
    (events : List (EndorseEvent E)) :
    st.plan.nextLayout + 2 ≤ ((st.run [.retry i, .retry j]).run events).plan.nextLayout ∧
      ((st.run [.retry i, .retry j]).run events).plan.layouts[st.plan.nextLayout + 1]? =
        some (some L) := by
  -- goroutine `i` finds group of `a` empty: the plan moves past the current layout
  obtain ⟨plan₁, hn₁⟩ : ∃ plan₁, st.plan.nextPeerInGroup a = (none, plan₁) := by
    simp only [Plan.nextPeerInGroup, ha]
    exact ⟨_, rfl⟩
  obtain ⟨htrim₁, hitems₁, hnext₁, -, hslot₁⟩ := Plan.nextPeerInGroup_none hn₁
  have hstep₁ : st.step (.retry i) = { st with plan := plan₁, routines := st.routines.set i .done } := by
    simp [Endorse.step, hi, Endorse.nextPeer, hn₁]
  -- goroutine `j` finds group of `b` empty as well: the plan moves past the next layout
  have hb₁ : plan₁.endorsersOf (plan₁.groupOf b) = [] := by
    have hge : plan₁.groupEndorsers = st.plan.groupEndorsers := by
      simp only [Plan.nextPeerInGroup, ha] at hn₁
      cases hn₁
      rfl
    simp [Plan.endorsersOf, Plan.groupOf, hge, htrim₁.groupIds] at hb ⊢
    exact hb
  obtain ⟨plan₂, hn₂⟩ : ∃ plan₂, plan₁.nextPeerInGroup b = (none, plan₂) := by
    simp only [Plan.nextPeerInGroup, hb₁]
    exact ⟨_, rfl⟩
  obtain ⟨htrim₂, -, hnext₂, -, hslot₂⟩ := Plan.nextPeerInGroup_none hn₂
  have hj₁ : (st.routines.set i .done)[j]? = some (.retrying b) := by
    rw [List.getElem?_set_ne hij]
    exact hj
  have hstep₂ : (st.step (.retry i)).step (.retry j) =
      { st with plan := plan₂, routines := (st.routines.set i .done).set j .done } := by
    rw [hstep₁]
    simp [Endorse.step, hj₁, Endorse.nextPeer, hn₂]
  -- the layout after the current one needs neither group, so both leave it as it was
  have hL₂ : plan₂.layouts[st.plan.nextLayout + 1]? = some (some L) := by
    have hgroupOf : plan₁.groupOf b = st.plan.groupOf b := by
      simp [Plan.groupOf, htrim₁.groupIds]
    rw [hslot₂, hslot₁, hL]
    simp [hga, hgb, hgroupOf, hnext₁]
  have hrun : st.run [.retry i, .retry j] =
      { st with plan := plan₂, routines := (st.routines.set i .done).set j .done } := hstep₂
  obtain ⟨hle, hfrozen⟩ := (st.run [.retry i, .retry j]).frozen_run events
  rw [hrun] at hle hfrozen ⊢
  simp only at hle hfrozen ⊢
  refine ⟨by omega, ?_⟩
  rw [hfrozen _ (by omega), hL₂]

/-- Both calls of the first round fail and each group runs out: the loop then skips "one of C",
    which endorser 3 could serve, and `Endorse` aborts without asking it. -/
theorem endorse_skips_layout_andOr :
    andOrFailed.plan.nextLayout + 2 ≤
        ((andOrFailed.run [.retry 0, .retry 1]).run [.round .inOrder]).plan.nextLayout ∧
      ((andOrFailed.run [.retry 0, .retry 1]).run [.round .inOrder]).plan.layouts[
        andOrFailed.plan.nextLayout + 1]? = some (some ⟨GoMap.empty.insert "C" 1, []⟩) ∧
      ((andOrFailed.run [.retry 0, .retry 1]).run [.round .inOrder]).outcome = some .aborted ∧
      3 ∉ ((andOrFailed.run [.retry 0, .retry 1]).run [.round .inOrder]).asked := by
  have hround : (newPlan .inOrder andOrLayouts oneEach).endorsers .inOrder =
      some ([2, 1], { newPlan .inOrder andOrLayouts oneEach with
        groupEndorsers := (oneEach.insert "B" []).insert "A" [] }) := by
    rw [Plan.endorsers_of_take rfl rfl (by decide)]
    rfl
  have hst : andOrFailed = ⟨{ newPlan .inOrder andOrLayouts oneEach with
      groupEndorsers := (oneEach.insert "B" []).insert "A" [] },
      [.retrying 2, .retrying 1], [2, 1], [], none⟩ := by
    rw [andOrFailed, Endorse.run_cons, Endorse.step_round _ rfl (by simp [Endorse.init])]
    simp only [Endorse.loop, Endorse.init, hround]
    rfl
  have hi : andOrFailed.routines[0]? = some (.retrying 2) := by rw [hst]; rfl
  have hj : andOrFailed.routines[1]? = some (.retrying 1) := by rw [hst]; rfl
  have hL : andOrFailed.plan.layouts[andOrFailed.plan.nextLayout + 1]? =
      some (some ⟨GoMap.empty.insert "C" 1, []⟩) := by rw [hst]; rfl
  have hskip := endorse_skips_layout (by decide) hi hj (by rw [hst]; decide) (by rw [hst]; decide)
    hL (by rw [hst]; decide) (by rw [hst]; decide) [.round .inOrder]
  -- the next round starts past both layouts: no layout is left
  have hout : ((andOrFailed.run [.retry 0, .retry 1]).run [.round .inOrder]).outcome =
      some .aborted ∧ 3 ∉ ((andOrFailed.run [.retry 0, .retry 1]).run [.round .inOrder]).asked := by
    rw [hst, Endorse.run_append, List.cons_append, List.cons_append, List.nil_append,
      Endorse.run_cons, Endorse.step_retry rfl, Endorse.run_cons, Endorse.step_retry rfl,
      Endorse.run_cons, Endorse.step_round _ rfl (by decide), Endorse.run_nil]
    unfold Endorse.loop
    rw [Plan.endorsers_of_none rfl]
    exact ⟨rfl, by decide⟩
  exact ⟨hskip.1, hskip.2, hout⟩

end Behind

end Fabric.Gateway
