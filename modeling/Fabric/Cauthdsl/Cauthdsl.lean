import Mathlib
import Fabric.Lib.FoldM

/-
  Signature policies and their evaluation (`common/cauthdsl/cauthdsl.go`, `policy.go`).

  `compile` turns a signature policy, a tree of `NOutOf` gates over `SignedBy` leaves that name
  principals by index, into an evaluator over a list of identities. An evaluator threads a
  vector that marks the identities already used: a leaf takes the first unused identity that
  satisfies its principal and marks it; a gate runs each rule on a copy of the vector, keeps the
  copy of each rule that passes, and passes when at least `N` rules did.

  A `Credit` is what a passing run shows: which leaves are credited and with which identity,
  and, for each gate that is credited, which of its rules are. Proved: `compile` returns an
  evaluator exactly for the policies whose indices are in range, and a run that passes from a
  vector `u` credits its leaves with distinct identities unused in `u`, each satisfying its
  leaf's principal, credits at least `N` rules of every credited gate, and returns `u` with
  exactly those identities marked (`compile_evaluator_sound`). `SignatureSetToValidIdentities`
  keeps one identity per key, so a signature set that satisfies a policy has a signer of its own
  for each credited leaf (`evaluateSignedData_sound`). The evaluator is greedy, so it is not
  complete: a leaf can take an identity that a later leaf needed (`evaluate_greedy`).

  Identities, principals and signed data are type parameters; `SatisfiesPrincipal`, the
  deserializer and signature verification are any functions of them. The used vector has the
  length of the identity list in every call: `EvaluateIdentities` makes it so and a gate passes
  each rule a copy; an index past its end, where Go panics, reads as unused here.
-/

namespace Fabric.Cauthdsl

/-- `cb.SignaturePolicy`: its `Type` is an `NOutOf` gate, a `SignedBy` leaf, or unset. -/
inductive SignaturePolicy where
  | nOutOf (n : Int) (rules : List SignaturePolicy)
  | signedBy (signedBy : Int)
  | unset
  deriving Repr

section Evaluation

variable {I P : Type} (satisfiesPrincipal : I → P → Bool)

/-- An evaluator, `func(signedData []msp.Identity, used []bool) bool`: its verdict and the used
    vector as it leaves it. -/
abbrev Evaluator (I : Type) := List I → List Bool → Bool × List Bool

/-- The loop of a `SignedBy` evaluator over `signedData` from index `i` on: the first identity
    not used that satisfies the principal is marked used. -/
def signedByLoop (principal : P) (used : List Bool) : Nat → List I → Bool × List Bool
  | _, [] => (false, used)
  | i, sd :: rest =>
    if used.getD i false then signedByLoop principal used (i + 1) rest
    else if satisfiesPrincipal sd principal then (true, used.set i true)
    else signedByLoop principal used (i + 1) rest

/-- The evaluator `compile` returns for a `SignedBy` leaf. -/
def signedByEvaluator (principal : P) : Evaluator I :=
  fun signedData used => signedByLoop satisfiesPrincipal principal used 0 signedData

/-- One pass of the loop of an `NOutOf` evaluator: the rule runs on a copy of `used`, which is
    kept, and the rule counted, only if the rule passes. -/
def gateStep (signedData : List I) : Nat × List Bool → Evaluator I → Nat × List Bool
  | (verified, used), policy =>
    let (ok, copied) := policy signedData used
    if ok then (verified + 1, copied) else (verified, used)

/-- The evaluator `compile` returns for an `NOutOf` gate. -/
def nOutOfEvaluator (n : Int) (policies : List (Evaluator I)) : Evaluator I :=
  fun signedData used =>
    let (verified, used) := policies.foldl (gateStep signedData) (0, used)
    (decide (n ≤ verified), used)

mutual
/-- `compile`. -/
def compile (identities : List P) : SignaturePolicy → Except String (Evaluator I)
  | .nOutOf n rules => do
    let policies ← compileRules identities rules
    pure (nOutOfEvaluator n policies)
  | .signedBy signedBy =>
    if h : signedBy < 0 ∨ signedBy ≥ identities.length then
      .error s!"identity index out of range, requested {signedBy}, but identities length is {identities.length}"
    else
      pure (signedByEvaluator satisfiesPrincipal (identities.get ⟨signedBy.toNat, by omega⟩))
  | .unset => .error "Unknown type: <nil>:<nil>"

/-- The loop of `compile` over the rules of a gate. -/
def compileRules (identities : List P) : List SignaturePolicy → Except String (List (Evaluator I))
  | [] => pure []
  | rule :: rules => do
    let compiledPolicy ← compile identities rule
    let policies ← compileRules identities rules
    pure (compiledPolicy :: policies)
end

/-- `policy.EvaluateIdentities`: the evaluator, run from a vector that marks nothing used. -/
def evaluateIdentities (evaluator : Evaluator I) (identities : List I) : Except String Unit :=
  if (evaluator identities (List.replicate identities.length false)).1 then .ok ()
  else .error "signature set did not satisfy policy"

end Evaluation

mutual
/-- Every `SignedBy` index of a policy names one of `n` principals, and every `Type` is set. -/
def SignaturePolicy.InRange (n : Nat) : SignaturePolicy → Prop
  | .nOutOf _ rules => RulesInRange n rules
  | .signedBy i => 0 ≤ i ∧ i < n
  | .unset => False

/-- `SignaturePolicy.InRange` for each rule of a gate. -/
def RulesInRange (n : Nat) : List SignaturePolicy → Prop
  | [] => True
  | rule :: rules => rule.InRange n ∧ RulesInRange n rules
end

/-! ## Credits -/

/-- What a passing run credits: a leaf with the index of an identity, a gate with, for each of
    its rules, that rule's credit or nothing. -/
inductive Credit where
  | leaf (j : Nat)
  | gate (rules : List (Option Credit))

mutual
/-- The identities given to the credited leaves, one for each. -/
def Credit.consumed : Credit → List Nat
  | .leaf j => [j]
  | .gate rules => consumedRules rules

/-- The identities given to the credited leaves of the rules of a gate. -/
def consumedRules : List (Option Credit) → List Nat
  | [] => []
  | none :: rules => consumedRules rules
  | some c :: rules => c.consumed ++ consumedRules rules
end

/-- `used` with the identities `js` marked. -/
def markUsed (used : List Bool) (js : List Nat) : List Bool :=
  used.mapIdx fun j b => b || decide (j ∈ js)

section Credits

variable {I P : Type} (satisfiesPrincipal : I → P → Bool) (identities : List P)
  (signedData : List I)

mutual
/-- A credit fits a policy: the identity of each credited leaf satisfies the leaf's principal,
    and each credited gate has at least `N` credited rules. -/
def Credit.Fits : Credit → SignaturePolicy → Prop
  | .leaf j, .signedBy i =>
    ∃ (hj : j < signedData.length) (p : P), 0 ≤ i ∧ identities[i.toNat]? = some p ∧
      satisfiesPrincipal (signedData.get ⟨j, hj⟩) p = true
  | .gate cs, .nOutOf n rules => FitsRules cs rules ∧ n ≤ (cs.countP Option.isSome : Int)
  | _, _ => False

/-- Each credited rule of a gate fits its credit. -/
def FitsRules : List (Option Credit) → List SignaturePolicy → Prop
  | [], [] => True
  | none :: cs, _ :: rules => FitsRules cs rules
  | some c :: cs, rule :: rules => c.Fits rule ∧ FitsRules cs rules
  | _, _ => False
end

/-- What a passing run of the evaluator `f` of `t`, from a used vector `u` as long as the
    identity list, shows: a credit of `t` whose identities are distinct and unused in `u`, and
    `u` with exactly those marked. -/
def Sound (t : SignaturePolicy) (f : Evaluator I) : Prop :=
  ∀ u u', u.length = signedData.length → f signedData u = (true, u') →
    ∃ c : Credit, c.Fits satisfiesPrincipal identities signedData t ∧ c.consumed.Nodup ∧
      (∀ j ∈ c.consumed, u.getD j false = false) ∧ u' = markUsed u c.consumed

end Credits

/-! ## The used vector -/

@[simp] theorem length_markUsed (used : List Bool) (js : List Nat) :
    (markUsed used js).length = used.length := by
  simp [markUsed]

theorem getElem?_markUsed (used : List Bool) (js : List Nat) (j : Nat) :
    (markUsed used js)[j]? = used[j]?.map (· || decide (j ∈ js)) := by
  simp [markUsed, List.getElem?_mapIdx]

theorem markUsed_nil (used : List Bool) : markUsed used [] = used := by
  apply List.ext_getElem?
  intro j
  cases h : used[j]? <;> simp [getElem?_markUsed, h]

theorem markUsed_markUsed (used : List Bool) (js ks : List Nat) :
    markUsed (markUsed used js) ks = markUsed used (js ++ ks) := by
  apply List.ext_getElem?
  intro j
  cases h : used[j]? <;> simp [getElem?_markUsed, h, Bool.or_assoc]

theorem set_eq_markUsed {used : List Bool} {j : Nat} (hj : j < used.length) :
    used.set j true = markUsed used [j] := by
  apply List.ext_getElem?
  intro k
  rw [List.getElem?_set, getElem?_markUsed]
  by_cases hk : j = k
  · subst hk
    simp [hj]
  · cases used[k]? <;> simp [hk, Ne.symm hk]

/-- An identity unused after marking was unused before, and was not marked. -/
theorem getD_of_getD_markUsed {used : List Bool} {js : List Nat} {j : Nat}
    (h : (markUsed used js).getD j false = false) :
    used.getD j false = false ∧ (j < used.length → j ∉ js) := by
  simp only [List.getD_eq_getElem?_getD, getElem?_markUsed] at h ⊢
  refine ⟨?_, fun hj hmem => ?_⟩
  · cases hu : used[j]? <;> simp_all
  · rw [List.getElem?_eq_getElem hj] at h
    simp [hmem] at h

/-! ## Soundness -/

section Soundness

variable {I P : Type} (satisfiesPrincipal : I → P → Bool) (identities : List P)
  (signedData : List I)

/-- A `SignedBy` loop that passes marks an identity it reached that was unused and satisfies
    the principal, and nothing else. -/
theorem signedByLoop_eq_true {principal : P} {used : List Bool} :
    ∀ (i : Nat) (rest : List I) {u' : List Bool},
      signedByLoop satisfiesPrincipal principal used i rest = (true, u') →
        ∃ k, ∃ hk : k < rest.length, used.getD (i + k) false = false ∧
          satisfiesPrincipal (rest.get ⟨k, hk⟩) principal = true ∧ u' = used.set (i + k) true
  | _, [], _, h => by simp [signedByLoop] at h
  | i, sd :: rest, u', h => by
    unfold signedByLoop at h
    split at h
    · -- identity `i` is used: the loop goes on
      obtain ⟨k, hk, hunused, hsat, rfl⟩ := signedByLoop_eq_true (i + 1) rest h
      exact ⟨k + 1, by simpa using hk, by rwa [Nat.add_right_comm, Nat.add_assoc] at hunused,
        hsat, by rw [Nat.add_right_comm, Nat.add_assoc]⟩
    · next hused =>
      split at h
      · next hsat =>
        obtain ⟨-, rfl⟩ := Prod.mk.inj h
        exact ⟨0, by simp, by simpa using hused, hsat, rfl⟩
      · obtain ⟨k, hk, hunused, hsat, rfl⟩ := signedByLoop_eq_true (i + 1) rest h
        exact ⟨k + 1, by simpa using hk, by rwa [Nat.add_right_comm, Nat.add_assoc] at hunused,
          hsat, by rw [Nat.add_right_comm, Nat.add_assoc]⟩

/-- The evaluator of a leaf is sound. -/
theorem signedByEvaluator_sound {i : Int} {p : P} (hi : 0 ≤ i)
    (hp : identities[i.toNat]? = some p) :
    Sound satisfiesPrincipal identities signedData (.signedBy i)
      (signedByEvaluator satisfiesPrincipal p) := by
  intro u u' hu h
  obtain ⟨j, hj, hunused, hsat, rfl⟩ := signedByLoop_eq_true satisfiesPrincipal 0 signedData h
  rw [Nat.zero_add] at hunused ⊢
  refine ⟨.leaf j, ⟨hj, p, hi, hp, by simpa using hsat⟩, by simp [Credit.consumed], ?_,
    set_eq_markUsed (hu ▸ hj)⟩
  simpa [Credit.consumed] using hunused

mutual
/-- The identities of a fitting credit are in range. -/
theorem Credit.lt_of_mem_consumed :
    ∀ (c : Credit) (t : SignaturePolicy), c.Fits satisfiesPrincipal identities signedData t →
      ∀ j ∈ c.consumed, j < signedData.length
  | .leaf _, .signedBy _, ⟨hj, _⟩, _, h => by
    rw [Credit.consumed, List.mem_singleton] at h
    exact h ▸ hj
  | .gate cs, .nOutOf _ rules, ⟨hcs, _⟩, j, h =>
    lt_of_mem_consumedRules cs rules hcs j (by rwa [Credit.consumed] at h)
  | .leaf _, .nOutOf _ _, h, _, _ | .leaf _, .unset, h, _, _ | .gate _, .signedBy _, h, _, _
  | .gate _, .unset, h, _, _ => h.elim

/-- The identities of the fitting credits of a gate's rules are in range. -/
theorem lt_of_mem_consumedRules :
    ∀ (cs : List (Option Credit)) (rules : List SignaturePolicy),
      FitsRules satisfiesPrincipal identities signedData cs rules →
        ∀ j ∈ consumedRules cs, j < signedData.length
  | [], _, _, _, h => by simp [consumedRules] at h
  | none :: cs, _ :: rules, h, j, hj =>
    lt_of_mem_consumedRules cs rules h j (by rwa [consumedRules] at hj)
  | some c :: cs, rule :: rules, ⟨hc, h⟩, j, hj => by
    rw [consumedRules, List.mem_append] at hj
    rcases hj with hj | hj
    · exact Credit.lt_of_mem_consumed c rule hc j hj
    · exact lt_of_mem_consumedRules cs rules h j hj
  | none :: _, [], h, _, _ | some _ :: _, [], h, _, _ => h.elim
end

/-- The loop of a gate over sound evaluators of its rules: the rules that passed are credited
    with distinct identities unused before the loop, counted, and marked. -/
theorem foldl_gateStep_sound {rules : List SignaturePolicy} {fs : List (Evaluator I)}
    (hfs : List.Forall₂ (Sound satisfiesPrincipal identities signedData) rules fs) :
    ∀ (verified : Nat) (used : List Bool), used.length = signedData.length →
      ∃ cs : List (Option Credit), FitsRules satisfiesPrincipal identities signedData cs rules ∧
        (fs.foldl (gateStep signedData) (verified, used)).1 = verified + cs.countP Option.isSome ∧
        (consumedRules cs).Nodup ∧ (∀ j ∈ consumedRules cs, used.getD j false = false) ∧
        (fs.foldl (gateStep signedData) (verified, used)).2 = markUsed used (consumedRules cs) := by
  induction hfs with
  | nil =>
    intro verified used _
    exact ⟨[], trivial, rfl, List.nodup_nil, by simp [consumedRules], by
      simp [consumedRules, markUsed_nil]⟩
  | @cons rule f rules fs hf hfs ih =>
    intro verified used hused
    rw [List.foldl_cons]
    cases hrun : f signedData used with
    | mk ok copied =>
    cases ok with
    | false =>
      -- the rule fails: its copy is dropped and it is not credited
      have hstep : gateStep signedData (verified, used) f = (verified, used) := by
        simp [gateStep, hrun]
      obtain ⟨cs, hfits, hcount, hnodup, hunused, hmark⟩ := ih verified used hused
      refine ⟨none :: cs, hfits, ?_, hnodup, hunused, ?_⟩
      · rw [hstep, hcount]
        simp
      · rw [hstep, hmark]
        rfl
    | true =>
      -- the rule passes: its credit comes first, then those of the rules after it
      have hstep : gateStep signedData (verified, used) f = (verified + 1, copied) := by
        simp [gateStep, hrun]
      obtain ⟨c, hfits, hnodup, hunused, rfl⟩ := hf used copied hused hrun
      obtain ⟨cs, hfits', hcount, hnodup', hunused', hmark⟩ :=
        ih (verified + 1) (markUsed used c.consumed) (by simpa using hused)
      -- the identities of the later rules were unused after this one, so they are not its own
      have hlater : ∀ j ∈ consumedRules cs, used.getD j false = false ∧ j ∉ c.consumed :=
        fun j hj =>
          have h := getD_of_getD_markUsed (hunused' j hj)
          ⟨h.1, h.2 (hused ▸ lt_of_mem_consumedRules satisfiesPrincipal identities signedData
            cs rules hfits' j hj)⟩
      refine ⟨some c :: cs, ⟨hfits, hfits'⟩, ?_, ?_, ?_, ?_⟩
      · rw [hstep, hcount]
        simp [Nat.add_assoc, Nat.add_comm 1]
      · rw [consumedRules, List.nodup_append]
        exact ⟨hnodup, hnodup', fun a ha b hb hab => (hlater b hb).2 (hab ▸ ha)⟩
      · intro j hj
        rw [consumedRules, List.mem_append] at hj
        exact hj.elim (hunused j) fun hj => (hlater j hj).1
      · rw [hstep, hmark, markUsed_markUsed]
        rfl

/-- The evaluator of a gate over sound evaluators of its rules is sound. -/
theorem nOutOfEvaluator_sound {n : Int} {rules : List SignaturePolicy} {fs : List (Evaluator I)}
    (hfs : List.Forall₂ (Sound satisfiesPrincipal identities signedData) rules fs) :
    Sound satisfiesPrincipal identities signedData (.nOutOf n rules) (nOutOfEvaluator n fs) := by
  intro u u' hu h
  obtain ⟨cs, hfits, hcount, hnodup, hunused, hmark⟩ :=
    foldl_gateStep_sound satisfiesPrincipal identities signedData hfs 0 u hu
  simp only [nOutOfEvaluator, Prod.mk.injEq, decide_eq_true_eq] at h
  obtain ⟨hn, rfl⟩ := h
  refine ⟨.gate cs, ⟨hfits, ?_⟩, hnodup, hunused, hmark⟩
  rw [hcount, Nat.zero_add] at hn
  exact hn

mutual
/-- Every evaluator `compile` returns is sound. -/
theorem compile_sound :
    ∀ (t : SignaturePolicy) (f : Evaluator I), compile satisfiesPrincipal identities t = .ok f →
      Sound satisfiesPrincipal identities signedData t f
  | .nOutOf n rules, f, h => by
    rw [compile] at h
    cases hrules : compileRules satisfiesPrincipal identities rules with
    | error e => simp [hrules, bind, Except.bind] at h
    | ok fs =>
      simp only [hrules, bind, Except.bind, pure, Except.pure, Except.ok.injEq] at h
      subst h
      exact nOutOfEvaluator_sound satisfiesPrincipal identities signedData
        (compileRules_sound rules fs hrules)
  | .signedBy i, f, h => by
    rw [compile] at h
    split at h
    · cases h
    · next hi =>
      simp only [pure, Except.pure, Except.ok.injEq] at h
      subst h
      exact signedByEvaluator_sound satisfiesPrincipal identities signedData (by omega)
        (List.getElem?_eq_getElem (by omega))
  | .unset, f, h => by simp [compile] at h

/-- Every evaluator the loop of `compile` over a gate's rules returns is sound. -/
theorem compileRules_sound :
    ∀ (rules : List SignaturePolicy) (fs : List (Evaluator I)),
      compileRules satisfiesPrincipal identities rules = .ok fs →
        List.Forall₂ (Sound satisfiesPrincipal identities signedData) rules fs
  | [], fs, h => by
    simp only [compileRules, pure, Except.pure, Except.ok.injEq] at h
    subst h
    exact .nil
  | rule :: rules, fs, h => by
    rw [compileRules] at h
    cases hrule : compile satisfiesPrincipal identities rule with
    | error e => simp [hrule, bind, Except.bind] at h
    | ok f =>
      cases hrules : compileRules satisfiesPrincipal identities rules with
      | error e => simp [hrule, hrules, bind, Except.bind] at h
      | ok fs' =>
        simp only [hrule, hrules, bind, Except.bind, pure, Except.pure, Except.ok.injEq] at h
        subst h
        exact .cons (compile_sound rule f hrule) (compileRules_sound rules fs' hrules)
end

mutual
/-- `compile` returns an evaluator exactly for the policies whose indices are in range. -/
theorem compile_ok_iff (identities : List P) :
    ∀ t : SignaturePolicy, (∃ f : Evaluator I, compile satisfiesPrincipal identities t = .ok f) ↔
      t.InRange identities.length
  | .nOutOf n rules => by
    rw [SignaturePolicy.InRange, ← compileRules_ok_iff identities rules, compile]
    cases compileRules satisfiesPrincipal identities rules <;>
      simp [bind, Except.bind, pure, Except.pure]
  | .signedBy i => by
    rw [SignaturePolicy.InRange, compile]
    split
    · next hi => simp only [reduceCtorEq, exists_false, false_iff]; omega
    · next hi => simp only [pure, Except.pure, exists_apply_eq_apply', true_iff]; omega
  | .unset => by simp [compile, SignaturePolicy.InRange]

/-- The loop of `compile` over a gate's rules returns exactly when each rule is in range. -/
theorem compileRules_ok_iff (identities : List P) :
    ∀ rules : List SignaturePolicy,
      (∃ fs : List (Evaluator I), compileRules satisfiesPrincipal identities rules = .ok fs) ↔
        RulesInRange identities.length rules
  | [] => by simp [compileRules, RulesInRange, pure, Except.pure]
  | rule :: rules => by
    rw [RulesInRange, ← compile_ok_iff identities rule, ← compileRules_ok_iff identities rules,
      compileRules]
    cases compile satisfiesPrincipal identities rule <;>
      cases compileRules satisfiesPrincipal identities rules <;>
      simp [bind, Except.bind, pure, Except.pure]
end

/-- A policy has an evaluator exactly when its indices are in range, and a run of that evaluator
    that passes from a used vector `u` credits the policy's leaves with distinct identities unused
    in `u`, each satisfying its leaf's principal, credits at least `N` rules of every credited
    gate, and leaves `u` with exactly those identities marked. -/
theorem compile_evaluator_sound (t : SignaturePolicy) (identities : List P) :
    ((∃ f : Evaluator I, compile satisfiesPrincipal identities t = .ok f) ↔
        t.InRange identities.length) ∧
      ∀ f, compile satisfiesPrincipal identities t = .ok f →
        ∀ (signedData : List I) (u u' : List Bool), u.length = signedData.length →
          f signedData u = (true, u') →
            ∃ c : Credit, c.Fits satisfiesPrincipal identities signedData t ∧ c.consumed.Nodup ∧
              (∀ j ∈ c.consumed, u.getD j false = false) ∧ u' = markUsed u c.consumed :=
  ⟨compile_ok_iff satisfiesPrincipal identities t, fun f hf signedData =>
    compile_sound satisfiesPrincipal identities signedData t f hf⟩

end Soundness

/-- Two of two principals, `0` and `1`. -/
def twoOfTwo : SignaturePolicy := .nOutOf 2 [.signedBy 0, .signedBy 1]

theorem compile_evaluator_sound_twoOfTwo :
    ∃ c : Credit, c.Fits (fun i p : Nat => i == p) [0, 1] [0, 1] twoOfTwo ∧ c.consumed.Nodup ∧
      (∀ j ∈ c.consumed, [false, false].getD j false = false) ∧
      [true, true] = markUsed [false, false] c.consumed :=
  (compile_evaluator_sound (fun i p : Nat => i == p) twoOfTwo [0, 1]).2 _ rfl [0, 1]
    [false, false] [true, true] rfl rfl

/-- The evaluator is greedy: with identity `2` satisfying every principal and identity `0` only
    principal `0`, the first leaf takes `2`, the second finds nothing, and the policy fails,
    though crediting the first leaf with `0` and the second with `2` fits it. -/
theorem evaluate_greedy :
    (compile (fun i p : Nat => i == 2 || i == p) [0, 1] twoOfTwo >>= fun f =>
        evaluateIdentities f [2, 0]) = .error "signature set did not satisfy policy" ∧
      (Credit.gate [some (.leaf 1), some (.leaf 0)]).Fits (fun i p : Nat => i == 2 || i == p)
        [0, 1] [2, 0] twoOfTwo := by
  refine ⟨rfl, ⟨⟨⟨by decide, 0, by decide⟩, ⟨by decide, 1, by decide⟩, trivial⟩, by decide⟩⟩

/-! ## Signature sets -/

section SignatureSets

variable {S I P : Type} (deserializeIdentity : S → Option I) (getIdentifier : I → String × String)
  (verify : I → S → Bool)

/-- The key `SignatureSetToValidIdentities` tells identities apart by: `Mspid` then `Id`. -/
def identityKey (identity : I) : String :=
  (getIdentifier identity).1 ++ (getIdentifier identity).2

/-- One pass of the loop of `SignatureSetToValidIdentities` over the signed data. -/
def validIdentitiesStep : List String × List I → S → List String × List I
  | (seen, identities), sd =>
    match deserializeIdentity sd with
    | none => (seen, identities)
    | some identity =>
      if identityKey getIdentifier identity ∈ seen then (seen, identities)
      else if !verify identity sd then (seen, identities)
      else (identityKey getIdentifier identity :: seen, identities ++ [identity])

/-- `policies.SignatureSetToValidIdentities`: the identities of the signed data that deserialize
    and whose signature verifies, each key once. -/
def signatureSetToValidIdentities (signatureSet : List S) : List I :=
  (signatureSet.foldl (validIdentitiesStep deserializeIdentity getIdentifier verify) ([], [])).2

/-- `policy.EvaluateSignedData`. -/
def evaluateSignedData (evaluator : Evaluator I) (signatureSet : List S) : Except String Unit :=
  evaluateIdentities evaluator
    (signatureSetToValidIdentities deserializeIdentity getIdentifier verify signatureSet)

/-- One pass of the loop either keeps its state or keeps a new identity, one that deserializes
    from the signed data, verifies its signature, and has a key not seen. -/
theorem validIdentitiesStep_cases (seen : List String) (identities : List I) (sd : S) :
    validIdentitiesStep deserializeIdentity getIdentifier verify (seen, identities) sd =
        (seen, identities) ∨
      ∃ identity, deserializeIdentity sd = some identity ∧ verify identity sd = true ∧
        identityKey getIdentifier identity ∉ seen ∧
        validIdentitiesStep deserializeIdentity getIdentifier verify (seen, identities) sd =
          (identityKey getIdentifier identity :: seen, identities ++ [identity]) := by
  rw [validIdentitiesStep]
  split
  · exact .inl rfl
  · next identity hid =>
    split
    · exact .inl rfl
    · next hseen =>
      split
      · exact .inl rfl
      · next hverify => exact .inr ⟨identity, hid, by simpa using hverify, hseen, rfl⟩

/-- The loop keeps the keys it has seen as those of the identities it kept, each once, and
    keeps only identities that deserialize from signed data whose signature they verify. -/
theorem foldl_validIdentitiesStep (signatureSet : List S) :
    ∀ (seen : List String) (identities : List I),
      (∀ k, k ∈ seen ↔ k ∈ identities.map (identityKey getIdentifier)) →
      (identities.map (identityKey getIdentifier)).Nodup →
      let r := signatureSet.foldl (validIdentitiesStep deserializeIdentity getIdentifier verify)
        (seen, identities)
      (r.2.map (identityKey getIdentifier)).Nodup ∧
        ∀ identity ∈ r.2, identity ∈ identities ∨
          ∃ sd ∈ signatureSet, deserializeIdentity sd = some identity ∧ verify identity sd = true := by
  induction signatureSet with
  | nil => exact fun _ _ _ hnodup => ⟨hnodup, fun _ h => .inl h⟩
  | cons sd rest ih =>
    intro seen identities hseen hnodup
    simp only [List.foldl_cons]
    rcases validIdentitiesStep_cases deserializeIdentity getIdentifier verify seen identities sd
      with hstep | ⟨identity, hid, hverify, hnew, hstep⟩
    · -- the state is kept
      rw [hstep]
      obtain ⟨hnodup', hfrom⟩ := ih seen identities hseen hnodup
      exact ⟨hnodup', fun x hx => (hfrom x hx).imp_right fun ⟨sd', hsd', h⟩ =>
        ⟨sd', List.mem_cons_of_mem _ hsd', h⟩⟩
    · -- a new identity is kept, its key added to those seen
      rw [hstep]
      have hnew' : identityKey getIdentifier identity ∉ identities.map (identityKey getIdentifier) :=
        fun h => hnew ((hseen _).2 h)
      have hseen' : ∀ k, k ∈ identityKey getIdentifier identity :: seen ↔
          k ∈ (identities ++ [identity]).map (identityKey getIdentifier) := fun k => by
        rw [List.mem_cons, hseen k, List.map_append, List.mem_append, List.map_singleton,
          List.mem_singleton]
        exact or_comm
      have hnodupNew : ((identities ++ [identity]).map (identityKey getIdentifier)).Nodup := by
        rw [List.map_append, List.map_singleton, ← List.concat_eq_append]
        exact hnodup.concat hnew'
      obtain ⟨hnodup', hfrom⟩ := ih _ _ hseen' hnodupNew
      refine ⟨hnodup', fun x hx => ?_⟩
      rcases hfrom x hx with hx | ⟨sd', hsd', h⟩
      · rcases List.mem_append.1 hx with hx | hx
        · exact .inl hx
        · rw [List.mem_singleton] at hx
          exact .inr ⟨sd, List.mem_cons_self, hx ▸ hid, hx ▸ hverify⟩
      · exact .inr ⟨sd', List.mem_cons_of_mem _ hsd', h⟩

/-- The identities `SignatureSetToValidIdentities` returns have distinct keys, and each
    deserializes from signed data of the set whose signature it verifies. -/
theorem signatureSetToValidIdentities_spec (signatureSet : List S) :
    ((signatureSetToValidIdentities deserializeIdentity getIdentifier verify signatureSet).map
        (identityKey getIdentifier)).Nodup ∧
      ∀ identity ∈ signatureSetToValidIdentities deserializeIdentity getIdentifier verify
          signatureSet,
        ∃ sd ∈ signatureSet, deserializeIdentity sd = some identity ∧ verify identity sd = true := by
  obtain ⟨hnodup, hfrom⟩ := foldl_validIdentitiesStep deserializeIdentity getIdentifier verify
    signatureSet [] [] (by simp) List.nodup_nil
  exact ⟨hnodup, fun identity h => (hfrom identity h).resolve_left (List.not_mem_nil)⟩

/-- A signature set that satisfies a compiled policy has a signer of its own for each credited
    leaf: the credited identities are distinct and have distinct keys, each satisfies its leaf's
    principal, and each deserializes from signed data of the set whose signature it verifies. -/
theorem evaluateSignedData_sound (satisfiesPrincipal : I → P → Bool) {t : SignaturePolicy}
    {principals : List P} {f : Evaluator I}
    (hf : compile satisfiesPrincipal principals t = .ok f) {signatureSet : List S}
    (h : evaluateSignedData deserializeIdentity getIdentifier verify f signatureSet = .ok ()) :
    let ids := signatureSetToValidIdentities deserializeIdentity getIdentifier verify signatureSet
    ∃ c : Credit, c.Fits satisfiesPrincipal principals ids t ∧ c.consumed.Nodup ∧
      ∀ j ∈ c.consumed, ∃ hj : j < ids.length,
        (∃ sd ∈ signatureSet, deserializeIdentity sd = some (ids.get ⟨j, hj⟩) ∧
          verify (ids.get ⟨j, hj⟩) sd = true) ∧
        ∀ k ∈ c.consumed, ∀ hk : k < ids.length,
          identityKey getIdentifier (ids.get ⟨k, hk⟩) =
            identityKey getIdentifier (ids.get ⟨j, hj⟩) → k = j := by
  intro ids
  obtain ⟨hkeys, hsigned⟩ :=
    signatureSetToValidIdentities_spec deserializeIdentity getIdentifier verify signatureSet
  -- the policy passed from a vector that marks nothing used
  unfold evaluateSignedData evaluateIdentities at h
  split at h
  · next hpass =>
    obtain ⟨c, hfits, hnodup, -, -⟩ := compile_sound satisfiesPrincipal principals ids t f hf
      (List.replicate ids.length false) ((f ids (List.replicate ids.length false)).2) (by simp)
      (by rw [← hpass])
    refine ⟨c, hfits, hnodup, fun j hj => ?_⟩
    have hlt := Credit.lt_of_mem_consumed satisfiesPrincipal principals ids c t hfits j hj
    refine ⟨hlt, hsigned _ (List.get_mem ids ⟨j, hlt⟩), fun k _ hk hkey => ?_⟩
    -- the keys of the identities returned are distinct, so equal keys are at one position
    have hsame : ids.get ⟨k, hk⟩ = ids.get ⟨j, hlt⟩ :=
      List.inj_on_of_nodup_map hkeys (List.get_mem _ _) (List.get_mem _ _) hkey
    exact Fin.mk.inj ((List.Nodup.get_inj_iff (hkeys.of_map _)).1 hsame)
  · cases h

end SignatureSets

end Fabric.Cauthdsl
