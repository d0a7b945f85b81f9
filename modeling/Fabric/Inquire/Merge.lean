import Fabric.Lib.GoMap
import Fabric.Ledger.Version
import Mathlib

/-
  Merging the principal sets of two endorsement policies (`common/policies/inquire/merge.go`,
  `compare.go`).

  A principal set is a list of principals, each a role, an OU role or an identity of an MSP;
  `IsA` says that every identity satisfying one principal satisfies another. `Merge` pairs the
  sets of the two sides: a set contained in a set of the other side is paired with it, and the
  sets left on both sides are paired in a Cartesian product. Each pair becomes one set by
  `MergeWithPlurality`, which keeps the containing set and greedily covers each principal of the
  contained set by an unused principal that IsA it, adding the principals it cannot cover.
  `Reduce` then drops every set that contains another, until none does.

  Proved (`merge_sound`): every set `Merge` returns covers a set of each side with plurality,
  through an injective map of that set's positions into its own; and `Merge` of two non-empty
  sides is non-empty. The injective cover is carried through the greedy loop as a list of
  distinct positions (`CoverInv`); non-emptiness rests on `reduce` keeping the first set among
  those with the fewest sets inside them (`exists_mem_reduce_isSubset`). `Reduce` stops at a list
  that `reduce` keeps whole, and such a list holds no set inside another: the set of highest
  index that contains another is kept only if a later set contains it in turn (`Reduce_spec`).

  Go leaves the order of a range over a map unspecified, and the pairs of a containment mapping
  are listed in that order, so `merge` takes the order of each of its two such loops as a
  parameter. The principals' protobuf bytes are kept, not decoded: the decoded role, OU or
  identity is part of the principal as `NewComparablePrincipal` builds it.
-/

namespace Fabric.Inquire

open Fabric.Ledger (Bytes)

/-- `msp.MSPPrincipal_Classification`. -/
inductive PrincipalClassification
  | role | organizationUnit | identity | anonymity | combined
  deriving DecidableEq, Repr

/-- `msp.MSPPrincipal`. -/
structure MSPPrincipal where
  principalClassification : PrincipalClassification
  principal : Bytes
  deriving DecidableEq, Repr

/-- `msp.MSPRole_MSPRoleType`. -/
inductive MSPRoleType
  | member | admin | client | peer | orderer
  deriving DecidableEq, Repr

/-- `msp.MSPRole`. -/
structure MSPRole where
  mspIdentifier : String
  role : MSPRoleType
  deriving DecidableEq, Repr

/-- `msp.OrganizationUnit`. -/
structure OrganizationUnit where
  mspIdentifier : String
  organizationalUnitIdentifier : String
  certifiersIdentifier : Bytes
  deriving DecidableEq, Repr

/-- `ComparablePrincipal`; a nil field is `none`. -/
structure ComparablePrincipal where
  principal : Option MSPPrincipal
  ou : Option OrganizationUnit
  role : Option MSPRole
  mspID : String
  idBytes : Bytes
  deriving DecidableEq, Repr

/-- `ToRole`, given the `MSPRole` the principal's bytes decode to. -/
def ComparablePrincipal.ofRole (principal : MSPPrincipal) (mspRole : MSPRole) :
    ComparablePrincipal :=
  ⟨some principal, none, some mspRole, mspRole.mspIdentifier, []⟩

/-- `ToOURole`, given the `OrganizationUnit` the principal's bytes decode to. -/
def ComparablePrincipal.ofOURole (principal : MSPPrincipal) (ouRole : OrganizationUnit) :
    ComparablePrincipal :=
  ⟨some principal, some ouRole, none, ouRole.mspIdentifier, []⟩

/-- `ToIdentity`, given the MSP ID and the bytes of the `SerializedIdentity` the principal's
    bytes decode to. -/
def ComparablePrincipal.ofIdentity (principal : MSPPrincipal) (mspid : String) (idBytes : Bytes) :
    ComparablePrincipal :=
  ⟨some principal, none, none, mspid, idBytes⟩

/-- The principals `NewComparablePrincipal` returns: a role, an OU role or an identity, each
    under the classification it is decoded by. -/
inductive ComparablePrincipal.Supported : ComparablePrincipal → Prop
  | role {principal : MSPPrincipal} (mspRole : MSPRole) :
      principal.principalClassification = .role → Supported (ofRole principal mspRole)
  | ou {principal : MSPPrincipal} (ouRole : OrganizationUnit) :
      principal.principalClassification = .organizationUnit →
      Supported (ofOURole principal ouRole)
  | identity {principal : MSPPrincipal} (mspid : String) (idBytes : Bytes) :
      principal.principalClassification = .identity →
      Supported (ofIdentity principal mspid idBytes)

/-- `IsA`: whether every identity that satisfies `this` also satisfies `other`. -/
def ComparablePrincipal.isA (this other : ComparablePrincipal) : Bool :=
  match this.principal, other.principal with
  | some thisPrincipal, some _ =>
    if this.mspID ≠ other.mspID then false
    -- every role or OU role of an MSP is a member of it
    else if other.role.any (·.role == .member) then true
    else match this.ou, other.ou with
      | some thisOU, some otherOU =>
        thisOU.organizationalUnitIdentifier == otherOU.organizationalUnitIdentifier &&
          thisOU.certifiersIdentifier == otherOU.certifiersIdentifier
      | _, _ =>
        match this.role, other.role with
        | some thisRole, some otherRole => thisRole.role == otherRole.role
        | _, _ =>
          if thisPrincipal.principalClassification = .identity then
            this.idBytes == other.idBytes && this.mspID == other.mspID
          else false
  | _, _ => false

/-- `equalPrincipals`. -/
def ComparablePrincipal.equalPrincipals (cp cp2 : ComparablePrincipal) : Bool :=
  match cp.principal, cp2.principal with
  | none, none => true
  | some p, some p2 =>
    p.principalClassification == p2.principalClassification && p.principal == p2.principal
  | _, _ => false

/-- `equalRoles`. -/
def ComparablePrincipal.equalRoles (cp cp2 : ComparablePrincipal) : Bool :=
  match cp.role, cp2.role with
  | none, none => true
  | some r, some r2 => r.mspIdentifier == r2.mspIdentifier && r.role == r2.role
  | _, _ => false

/-- `equalOUs`. -/
def ComparablePrincipal.equalOUs (cp cp2 : ComparablePrincipal) : Bool :=
  match cp.ou, cp2.ou with
  | none, none => true
  | some ou, some ou2 =>
    ou.organizationalUnitIdentifier == ou2.organizationalUnitIdentifier &&
      ou.mspIdentifier == ou2.mspIdentifier && ou.certifiersIdentifier == ou2.certifiersIdentifier
  | _, _ => false

/-- `Equal`. -/
def ComparablePrincipal.equal (cp cp2 : ComparablePrincipal) : Bool :=
  cp.mspID == cp2.mspID && cp.equalPrincipals cp2 && cp.equalRoles cp2 && cp.equalOUs cp2

/-- `ComparablePrincipalSet`. -/
abbrev ComparablePrincipalSet := List ComparablePrincipal

/-- `ComparablePrincipalSets`. -/
abbrev ComparablePrincipalSets := List ComparablePrincipalSet

/-- `Contains`: some principal of the set IsA `s`. -/
def ComparablePrincipalSet.contains (cps : ComparablePrincipalSet) (s : ComparablePrincipal) :
    Bool :=
  cps.any fun cp => cp.isA s

/-- `IsContainedIn`: every principal of `cps` is contained in `set`. -/
def ComparablePrincipalSet.isContainedIn (cps set : ComparablePrincipalSet) : Bool :=
  cps.all fun cp => set.contains cp

/-- `IsSubset`: every principal of `cps` is `Equal` to one of `sets`. -/
def ComparablePrincipalSet.isSubset (cps sets : ComparablePrincipalSet) : Bool :=
  cps.all fun p1 => sets.any fun p2 => p1.equal p2

/-- `intMapping`: indices to lists of indices. -/
abbrev IntMapping := GoMap Nat (List Nat)

/-- `mapping[i] = append(mapping[i], j)`. -/
def IntMapping.append (mapping : IntMapping) (i j : Nat) : IntMapping :=
  mapping.insert i ((mapping.get? i).getD [] ++ [j])

/-- `computeContainedInMapping`: each set of `s1` to the sets of `s2` it is contained in. -/
def computeContainedInMapping (s1 s2 : ComparablePrincipalSets) : IntMapping :=
  s1.zipIdx.foldl (fun mapping (ps1, i) =>
    s2.zipIdx.foldl (fun mapping (ps2, j) =>
      if ps1.isContainedIn ps2 then mapping.append i j else mapping) mapping) GoMap.empty

/-- `invert`. The order of the inverted lists is not read. -/
def IntMapping.invert (im : IntMapping) : IntMapping :=
  im.entries.foldl (fun res (i, js) => js.foldl (fun res j => res.append j i) res) GoMap.empty

/-- `ExcludeIndices`: the sets whose index is not a key of the mapping. -/
def ComparablePrincipalSets.excludeIndices (cps : ComparablePrincipalSets) (mapping : IntMapping) :
    ComparablePrincipalSets :=
  (cps.zipIdx.filter fun (_, i) => !mapping.contains i).map Prod.fst

/-- `comparablePrincipalSetPair`. -/
structure ComparablePrincipalSetPair where
  contained : ComparablePrincipalSet
  containing : ComparablePrincipalSet

/-- One principal of the contained set in `MergeWithPlurality`: the first principal of the
    containing set whose index is not used and that IsA it covers it and is used; a principal
    no such one covers is added. -/
def coverStep (containing : ComparablePrincipalSet) (st : List Nat × ComparablePrincipalSet)
    (principal : ComparablePrincipal) : List Nat × ComparablePrincipalSet :=
  match containing.zipIdx.find? (fun (cp, i) => !st.1.contains i && cp.isA principal) with
  | some (_, i) => (i :: st.1, st.2)
  | none => (st.1, st.2 ++ [principal])

/-- `MergeWithPlurality`: the containing set, then the principals of the contained set it does
    not cover. -/
def ComparablePrincipalSetPair.mergeWithPlurality (pair : ComparablePrincipalSetPair) :
    ComparablePrincipalSet :=
  pair.containing ++ (pair.contained.foldl (coverStep pair.containing) ([], [])).2

/-- `OfMapping`, over the entries of the mapping in the order the range visits them. The
    indices of a containment mapping are those of the sets it was computed from. -/
def ComparablePrincipalSets.ofMapping (cps : ComparablePrincipalSets)
    (visited : List (Nat × List Nat)) (sets2 : ComparablePrincipalSets) :
    List ComparablePrincipalSetPair :=
  visited.flatMap fun (i, js) => js.map fun j => ⟨cps.getD i [], sets2.getD j []⟩

/-- `CartesianProduct`. -/
def cartesianProduct (s1 s2 : ComparablePrincipalSets) : List ComparablePrincipalSetPair :=
  s1.flatMap fun x => s2.map fun y => ⟨x, y⟩

/-- `ToMergedPrincipalSets`. -/
def toMergedPrincipalSets (pairs : List ComparablePrincipalSetPair) : ComparablePrincipalSets :=
  pairs.map ComparablePrincipalSetPair.mergeWithPlurality

/-- One iteration of the inner loop of `reduce` for the set `s1` at index `i`, against the set
    `s2` at index `j`. -/
def containingStep (i : Nat) (s1 : ComparablePrincipalSet) (isContaining : Bool)
    (s2j : ComparablePrincipalSet × Nat) : Bool :=
  let (s2, j) := s2j
  if i = j then isContaining
  else
    let isContaining := if s2.isSubset s1 then true else isContaining
    -- of two sets that contain each other, the one at the lower index is kept
    if s1.isSubset s2 && decide (i < j) then false else isContaining

/-- The inner loop of `reduce`: whether the set `s1` at index `i` contains another set. -/
def isContaining (cps : ComparablePrincipalSets) (i : Nat) (s1 : ComparablePrincipalSet) :
    Bool :=
  cps.zipIdx.foldl (containingStep i s1) false

/-- `reduce`: the sets that contain no other set. -/
def ComparablePrincipalSets.reduce (cps : ComparablePrincipalSets) : ComparablePrincipalSets :=
  (cps.zipIdx.filter fun (s1, i) => !isContaining cps i s1).map Prod.fst

theorem ComparablePrincipalSets.reduce_sublist (cps : ComparablePrincipalSets) :
    cps.reduce.Sublist cps := by
  have h := (List.filter_sublist (l := cps.zipIdx)
    (p := fun (s1, i) => !isContaining cps i s1)).map Prod.fst
  rwa [List.zipIdx_map_fst] at h

/-- `Reduce`: `reduce` until it removes nothing. -/
def ComparablePrincipalSets.Reduce (cps : ComparablePrincipalSets) : ComparablePrincipalSets :=
  if h : cps.length = cps.reduce.length then cps.reduce
  else
    -- progress: `reduce` removed a set
    have : cps.reduce.length < cps.length := by
      have := cps.reduce_sublist.length_le
      omega
    cps.reduce.Reduce
termination_by cps.length

/-- `Merge`, with the orders in which its two ranges over a containment mapping visit it. -/
def merge (order₁ order₂ : GoMap.RangeOrder Nat (List Nat)) (s1 s2 : ComparablePrincipalSets) :
    ComparablePrincipalSets :=
  let setsIn1ToTheContainingSetsIn2 := computeContainedInMapping s1 s2
  let setsIn1ThatAreIn2 := s1.ofMapping (order₁.visit setsIn1ToTheContainingSetsIn2) s2
  -- the sets of `s1` contained in sets of `s2` are paired already
  let s1 := s1.excludeIndices setsIn1ToTheContainingSetsIn2
  let setsIn2ToTheContainingSetsIn1 := computeContainedInMapping s2 s1
  let setsIn2ThatAreIn1 := s2.ofMapping (order₂.visit setsIn2ToTheContainingSetsIn1) s1
  let s2 := s2.excludeIndices setsIn2ToTheContainingSetsIn1
  let res := toMergedPrincipalSets setsIn1ThatAreIn2 ++ toMergedPrincipalSets setsIn2ThatAreIn1
  -- drop the sets that contain sets of the other side
  let s1 := s1.excludeIndices setsIn2ToTheContainingSetsIn1.invert
  let s2 := s2.excludeIndices setsIn1ToTheContainingSetsIn2.invert
  if s1.length = 0 ∨ s2.length = 0 then res.Reduce
  else (res ++ toMergedPrincipalSets (cartesianProduct s1 s2)).Reduce

/-! ## Principals -/

namespace ComparablePrincipal

/-- A principal `NewComparablePrincipal` returns IsA itself. -/
theorem Supported.isA_self {cp : ComparablePrincipal} (h : cp.Supported) : cp.isA cp = true := by
  cases h with
  | role mspRole hc => cases mspRole with | mk id role => cases role <;> simp [isA, ofRole]
  | ou ouRole hc => simp [isA, ofOURole]
  | identity mspid idBytes hc => simp [isA, ofIdentity, hc]

theorem equalPrincipals_eq_true_iff {cp cp2 : ComparablePrincipal} :
    cp.equalPrincipals cp2 = true ↔ cp.principal = cp2.principal := by
  obtain ⟨p, _, _, _, _⟩ := cp
  obtain ⟨p2, _, _, _, _⟩ := cp2
  cases p with
  | none => cases p2 <;> simp [equalPrincipals]
  | some p => cases p2 with
    | none => simp [equalPrincipals]
    | some p2 => cases p; cases p2; simp [equalPrincipals]

theorem equalRoles_eq_true_iff {cp cp2 : ComparablePrincipal} :
    cp.equalRoles cp2 = true ↔ cp.role = cp2.role := by
  obtain ⟨_, _, r, _, _⟩ := cp
  obtain ⟨_, _, r2, _, _⟩ := cp2
  cases r with
  | none => cases r2 <;> simp [equalRoles]
  | some r => cases r2 with
    | none => simp [equalRoles]
    | some r2 => cases r; cases r2; simp [equalRoles]

theorem equalOUs_eq_true_iff {cp cp2 : ComparablePrincipal} :
    cp.equalOUs cp2 = true ↔ cp.ou = cp2.ou := by
  obtain ⟨_, ou, _, _, _⟩ := cp
  obtain ⟨_, ou2, _, _, _⟩ := cp2
  cases ou with
  | none => cases ou2 <;> simp [equalOUs]
  | some ou => cases ou2 with
    | none => simp [equalOUs]
    | some ou2 => cases ou; cases ou2; simp [equalOUs]; tauto

/-- `Equal` compares the MSP ID, the principal, the role and the OU. -/
theorem equal_eq_true_iff {cp cp2 : ComparablePrincipal} :
    cp.equal cp2 = true ↔ cp.mspID = cp2.mspID ∧ cp.principal = cp2.principal ∧
      cp.role = cp2.role ∧ cp.ou = cp2.ou := by
  simp only [equal, Bool.and_eq_true, beq_iff_eq, equalPrincipals_eq_true_iff,
    equalRoles_eq_true_iff, equalOUs_eq_true_iff, and_assoc]

theorem equal_refl (cp : ComparablePrincipal) : cp.equal cp = true :=
  equal_eq_true_iff.mpr ⟨rfl, rfl, rfl, rfl⟩

theorem equal_trans {cp cp2 cp3 : ComparablePrincipal} (h : cp.equal cp2 = true)
    (h2 : cp2.equal cp3 = true) : cp.equal cp3 = true := by
  obtain ⟨a1, a2, a3, a4⟩ := equal_eq_true_iff.mp h
  obtain ⟨b1, b2, b3, b4⟩ := equal_eq_true_iff.mp h2
  exact equal_eq_true_iff.mpr ⟨a1.trans b1, a2.trans b2, a3.trans b3, a4.trans b4⟩

end ComparablePrincipal

/-! ## Containment between sets -/

namespace ComparablePrincipalSet

theorem isSubset_eq_true_iff {cps sets : ComparablePrincipalSet} :
    cps.isSubset sets = true ↔ ∀ p1 ∈ cps, ∃ p2 ∈ sets, p1.equal p2 = true := by
  simp [isSubset]

theorem isSubset_refl (cps : ComparablePrincipalSet) : cps.isSubset cps = true :=
  isSubset_eq_true_iff.mpr fun p hp => ⟨p, hp, p.equal_refl⟩

theorem isSubset_trans {a b c : ComparablePrincipalSet} (h : a.isSubset b = true)
    (h' : b.isSubset c = true) : a.isSubset c = true := by
  rw [isSubset_eq_true_iff] at *
  intro p hp
  obtain ⟨q, hq, hpq⟩ := h p hp
  obtain ⟨r, hr, hqr⟩ := h' q hq
  exact ⟨r, hr, ComparablePrincipal.equal_trans hpq hqr⟩

end ComparablePrincipalSet

/-! ## Covering with plurality -/

/-- `s` covers `t` with plurality: an injective map from the positions of `t` to those of `s`
    takes each principal of `t` to one that IsA it, so distinct signers of `s`'s principals
    give distinct signers of `t`'s. -/
def CoversWithPlurality (s t : ComparablePrincipalSet) : Prop :=
  ∃ f : Fin t.length → Fin s.length, Function.Injective f ∧
    ∀ i, (s.get (f i)).isA (t.get i) = true

/-- Positions in `s`, one for each principal of `t` in order, each holding a principal that
    IsA it. -/
def CoverPositions (s t : ComparablePrincipalSet) (pos : List Nat) : Prop :=
  List.Forall₂ (fun k p => ∃ q, s[k]? = some q ∧ q.isA p = true) pos t

/-- Distinct cover positions are an injective cover. -/
theorem coversWithPlurality_of_positions {s t : ComparablePrincipalSet} {pos : List Nat}
    (hnd : pos.Nodup) (h : CoverPositions s t pos) : CoversWithPlurality s t := by
  obtain ⟨hlen, hget⟩ := List.forall₂_iff_get.mp h
  have hi : ∀ i : Fin t.length, i.1 < pos.length := fun i => by rw [hlen]; exact i.2
  -- each position is in range, as it holds a principal
  have hbound : ∀ i : Fin t.length, pos.get ⟨i.1, hi i⟩ < s.length := by
    intro i
    obtain ⟨q, hq, -⟩ := hget i.1 (hi i) i.2
    exact (List.getElem?_eq_some_iff.mp hq).1
  refine ⟨fun i => ⟨pos.get ⟨i.1, hi i⟩, hbound i⟩, ?_, ?_⟩
  · intro i j hij
    have hpos : pos.get ⟨i.1, hi i⟩ = pos.get ⟨j.1, hi j⟩ := Fin.mk.inj_iff.mp hij
    exact Fin.ext (Fin.mk.inj_iff.mp ((List.Nodup.get_inj_iff hnd).mp hpos))
  · intro i
    obtain ⟨q, hq, hisA⟩ := hget i.1 (hi i) i.2
    have hs : s.get ⟨pos.get ⟨i.1, hi i⟩, hbound i⟩ = q := by
      rw [List.get_eq_getElem]
      exact (List.getElem?_eq_some_iff.mp hq).2
    rw [hs]
    exact hisA

/-- A set whose principals IsA themselves covers itself inside any longer set. -/
theorem coversWithPlurality_append_right {s : ComparablePrincipalSet}
    (h : ∀ p ∈ s, p.isA p = true) (extra : ComparablePrincipalSet) :
    CoversWithPlurality (s ++ extra) s := by
  refine ⟨fun i => ⟨i.1, by simp only [List.length_append]; omega⟩, ?_, ?_⟩
  · intro i j hij
    exact Fin.ext (Fin.mk.inj_iff.mp hij)
  · intro i
    simp only [List.get_eq_getElem, List.getElem_append_left i.2]
    exact h _ (List.getElem_mem _)

theorem CoverPositions.append_right {s t : ComparablePrincipalSet} {pos : List Nat}
    (h : CoverPositions s t pos) (extra : ComparablePrincipalSet) :
    CoverPositions (s ++ extra) t pos := by
  refine h.imp fun k p ⟨q, hq, hisA⟩ => ⟨q, ?_, hisA⟩
  rw [List.getElem?_append_left (List.getElem?_eq_some_iff.mp hq).1, hq]

/-! ## The greedy cover of `MergeWithPlurality` -/

/-- What the loop of `MergeWithPlurality` keeps after covering the principals `pre`, in the
    state `st` of used indices and added principals: distinct positions `pos` in the containing
    set followed by the added principals cover `pre`, the used indices are positions of the
    containing set, and every position is a used index or that of an added principal. -/
structure CoverInv (containing pre : ComparablePrincipalSet)
    (st : List Nat × ComparablePrincipalSet) (pos : List Nat) : Prop where
  nodup : pos.Nodup
  cover : CoverPositions (containing ++ st.2) pre pos
  used_lt : ∀ i ∈ st.1, i < containing.length
  pos_mem : ∀ k ∈ pos, k ∈ st.1 ∨ (containing.length ≤ k ∧ k < containing.length + st.2.length)

theorem coverInv_nil (containing : ComparablePrincipalSet) : CoverInv containing [] ([], []) [] :=
  ⟨List.nodup_nil, List.Forall₂.nil, by simp, by simp⟩

section

variable {containing pre : ComparablePrincipalSet} {st : List Nat × ComparablePrincipalSet}
  {pos : List Nat} {p : ComparablePrincipal}

/-- A principal covered by the first unused principal that IsA it: that index is fresh. -/
theorem CoverInv.cover_used (hinv : CoverInv containing pre st pos) {cp : ComparablePrincipal}
    {i : Nat} (hci : containing[i]? = some cp) (hfresh : i ∉ st.1) (hisA : cp.isA p = true) :
    CoverInv containing (pre ++ [p]) (i :: st.1, st.2) (pos ++ [i]) := by
  have hi : i < containing.length := (List.getElem?_eq_some_iff.mp hci).1
  -- a position already taken is a used index or lies past the containing set
  have hnew : i ∉ pos := fun hmem => by
    rcases hinv.pos_mem i hmem with h | h
    · exact hfresh h
    · omega
  refine ⟨?_, ?_, ?_, ?_⟩
  · exact List.nodup_append.mpr ⟨hinv.nodup, List.nodup_singleton i,
      fun a ha b hb hab => hnew (by rw [List.mem_singleton.mp hb] at hab; rwa [← hab])⟩
  · refine List.rel_append hinv.cover (List.Forall₂.cons ⟨cp, ?_, hisA⟩ List.Forall₂.nil)
    rw [List.getElem?_append_left hi, hci]
  · intro k hk
    rcases List.mem_cons.mp hk with rfl | hk
    · exact hi
    · exact hinv.used_lt k hk
  · intro k hk
    rcases List.mem_append.mp hk with hk | hk
    · rcases hinv.pos_mem k hk with h | h
      · exact .inl (List.mem_cons_of_mem i h)
      · exact .inr h
    · exact .inl (by rw [List.mem_singleton.mp hk]; exact List.mem_cons_self)

/-- A principal nothing covers is added, and covers itself at the end. -/
theorem CoverInv.cover_added (hinv : CoverInv containing pre st pos) (hp : p.isA p = true) :
    CoverInv containing (pre ++ [p]) (st.1, st.2 ++ [p])
      (pos ++ [containing.length + st.2.length]) := by
  have hnew : containing.length + st.2.length ∉ pos := fun hmem => by
    rcases hinv.pos_mem _ hmem with h | h
    · have := hinv.used_lt _ h
      omega
    · omega
  refine ⟨?_, ?_, hinv.used_lt, ?_⟩
  · exact List.nodup_append.mpr ⟨hinv.nodup, List.nodup_singleton _,
      fun a ha b hb hab => hnew (by rw [List.mem_singleton.mp hb] at hab; rwa [← hab])⟩
  · have hold := hinv.cover.append_right [p]
    rw [List.append_assoc] at hold
    refine List.rel_append hold (List.Forall₂.cons ⟨p, ?_, hp⟩ List.Forall₂.nil)
    rw [← List.append_assoc, List.getElem?_append_right (by simp), List.length_append]
    simp
  · intro k hk
    rcases List.mem_append.mp hk with hk | hk
    · rcases hinv.pos_mem k hk with h | h
      · exact .inl h
      · exact .inr ⟨h.1, by simp only [List.length_append, List.length_singleton]; omega⟩
    · rw [List.mem_singleton.mp hk]
      exact .inr ⟨by omega, by simp⟩

/-- One step of the loop keeps the cover. -/
theorem CoverInv.step (hinv : CoverInv containing pre st pos) (hp : p.isA p = true) :
    ∃ pos', CoverInv containing (pre ++ [p]) (coverStep containing st p) pos' := by
  unfold coverStep
  cases hfind : containing.zipIdx.find? (fun (cp, i) => !st.1.contains i && cp.isA p) with
  | none => exact ⟨_, hinv.cover_added hp⟩
  | some e =>
    obtain ⟨cp, i⟩ := e
    have hpred := List.find?_some hfind
    simp only [Bool.and_eq_true, Bool.not_eq_true'] at hpred
    have hfresh : i ∉ st.1 := by simpa using hpred.1
    have hci : containing[i]? = some cp :=
      List.mem_zipIdx_iff_getElem?.mp (List.mem_of_find?_eq_some hfind)
    exact ⟨_, hinv.cover_used hci hfresh hpred.2⟩

/-- The whole loop over the rest of the contained set keeps the cover. -/
theorem CoverInv.run (hinv : CoverInv containing pre st pos) (rest : ComparablePrincipalSet)
    (hrest : ∀ p ∈ rest, p.isA p = true) :
    ∃ pos', CoverInv containing (pre ++ rest) (rest.foldl (coverStep containing) st) pos' := by
  induction rest generalizing pre st pos with
  | nil => exact ⟨pos, by simpa using hinv⟩
  | cons p rest ih =>
    obtain ⟨pos', hinv'⟩ := hinv.step (hrest p List.mem_cons_self)
    obtain ⟨pos'', hinv''⟩ := ih hinv' fun q hq => hrest q (List.mem_cons_of_mem p hq)
    rw [List.append_assoc, List.singleton_append] at hinv''
    exact ⟨pos'', hinv''⟩

end

/-- `MergeWithPlurality` covers both sets of the pair with plurality, when their principals
    IsA themselves. -/
theorem mergeWithPlurality_covers (pair : ComparablePrincipalSetPair)
    (hcontained : ∀ p ∈ pair.contained, p.isA p = true)
    (hcontaining : ∀ p ∈ pair.containing, p.isA p = true) :
    CoversWithPlurality pair.mergeWithPlurality pair.contained ∧
      CoversWithPlurality pair.mergeWithPlurality pair.containing := by
  obtain ⟨pos, hinv⟩ := (coverInv_nil pair.containing).run pair.contained hcontained
  rw [List.nil_append] at hinv
  exact ⟨coversWithPlurality_of_positions hinv.nodup hinv.cover,
    coversWithPlurality_append_right hcontaining _⟩

/-! ## `Reduce` keeps the minimal sets -/

/-- A strictly larger predicate counts strictly more, if some element tells them apart. -/
theorem countP_lt_countP {α : Type} {p q : α → Bool} {l : List α}
    (h : ∀ x ∈ l, p x = true → q x = true) {a : α} (ha : a ∈ l) (hq : q a = true)
    (hp : p a = false) : l.countP p < l.countP q := by
  induction l with
  | nil => simp at ha
  | cons x xs ih =>
    have hxs : ∀ y ∈ xs, p y = true → q y = true := fun y hy => h y (List.mem_cons_of_mem x hy)
    have hle := List.countP_mono_left hxs
    simp only [List.countP_cons]
    rcases List.mem_cons.mp ha with rfl | ha
    · simp [hq, hp]
      omega
    · have hlt := ih hxs ha
      by_cases hpx : p x = true
      · simp [hpx, h x List.mem_cons_self hpx]
        omega
      · by_cases hqx : q x = true <;> simp [hpx, hqx] <;> omega

/-- How many sets of `cps` are inside `s`. -/
def subsetCount (cps : ComparablePrincipalSets) (s : ComparablePrincipalSet) : Nat :=
  cps.countP fun s' => s'.isSubset s

theorem subsetCount_le (cps : ComparablePrincipalSets) {a b : ComparablePrincipalSet}
    (h : a.isSubset b = true) : subsetCount cps a ≤ subsetCount cps b :=
  List.countP_mono_left fun _ _ hx => ComparablePrincipalSet.isSubset_trans hx h

theorem subsetCount_lt (cps : ComparablePrincipalSets) {a b : ComparablePrincipalSet}
    (h : a.isSubset b = true) (hb : b ∈ cps) (hn : b.isSubset a = false) :
    subsetCount cps a < subsetCount cps b :=
  countP_lt_countP (fun _ _ hx => ComparablePrincipalSet.isSubset_trans hx h) hb
    (ComparablePrincipalSet.isSubset_refl b) hn

section

variable {i : Nat} {s1 : ComparablePrincipalSet}

/-- One step of the inner loop of `reduce`: a later set that contains `s1` resets it to
    `false`, another set inside `s1` sets it to `true`, and any other set leaves it. -/
theorem containingStep_eq (acc : Bool) (s2 : ComparablePrincipalSet) (j : Nat) :
    containingStep i s1 acc (s2, j) =
      if i = j then acc
      else if s1.isSubset s2 = true ∧ i < j then false
      else if s2.isSubset s1 = true then true else acc := by
  unfold containingStep
  by_cases hij : i = j
  · simp [hij]
  · by_cases h1 : s1.isSubset s2 = true <;> by_cases h2 : s2.isSubset s1 = true <;>
      by_cases h3 : i < j <;> simp [hij, h1, h2, h3]

/-- The inner loop of `reduce` ends with `false` when every other set inside `s1` contains it
    back and comes after it. -/
theorem foldl_containingStep_keep :
    ∀ l : List (ComparablePrincipalSet × Nat),
      (∀ s2 j, (s2, j) ∈ l → i ≠ j → s2.isSubset s1 = true → s1.isSubset s2 = true ∧ i < j) →
      l.foldl (containingStep i s1) false = false
  | [], _ => rfl
  | (s2, j) :: l, h => by
    have hstep : containingStep i s1 false (s2, j) = false := by
      rw [containingStep_eq]
      by_cases hij : i = j
      · simp [hij]
      · by_cases hsub : s2.isSubset s1 = true
        · simp [hij, h s2 j List.mem_cons_self hij hsub]
        · simp [hij, hsub]
    rw [List.foldl_cons, hstep]
    exact foldl_containingStep_keep l fun s2 j hm => h s2 j (List.mem_cons_of_mem _ hm)

/-- When the inner loop ends with `false` although it started from `true` or meets another set
    inside `s1`, a later set contains `s1`: the one that last reset it. -/
theorem foldl_containingStep_eq_false :
    ∀ (l : List (ComparablePrincipalSet × Nat)) (acc : Bool),
      l.foldl (containingStep i s1) acc = false →
      (acc = true ∨ ∃ s2 j, (s2, j) ∈ l ∧ i ≠ j ∧ s2.isSubset s1 = true) →
      ∃ s2 j, (s2, j) ∈ l ∧ s1.isSubset s2 = true ∧ i < j
  | [], acc, hfold, hpre => by
    rcases hpre with rfl | ⟨_, _, hm, _⟩
    · cases hfold
    · cases hm
  | (s2, j) :: l, acc, hfold, hpre => by
    by_cases hback : s1.isSubset s2 = true ∧ i < j
    · exact ⟨s2, j, List.mem_cons_self, hback⟩
    -- the head did not reset the loop: it leaves it `true`, or a later set sets it
    have hacc : containingStep i s1 acc (s2, j) = true ∨
        ∃ s2' j', (s2', j') ∈ l ∧ i ≠ j' ∧ s2'.isSubset s1 = true := by
      rw [containingStep_eq, if_neg hback]
      rcases hpre with rfl | ⟨s2', j', hm, hij', hsub'⟩
      · left
        split <;> simp
      · rcases List.mem_cons.mp hm with heq | hm
        · obtain ⟨rfl, rfl⟩ := Prod.mk.inj heq
          exact .inl (by simp [hij', hsub'])
        · exact .inr ⟨s2', j', hm, hij', hsub'⟩
    rw [List.foldl_cons] at hfold
    obtain ⟨s3, k, hm, hsub, hlt⟩ := foldl_containingStep_eq_false l _ hfold hacc
    exact ⟨s3, k, List.mem_cons_of_mem _ hm, hsub, hlt⟩
end

theorem mem_reduce_of_keep {cps : ComparablePrincipalSets} {s : ComparablePrincipalSet} {i : Nat}
    (hmem : (s, i) ∈ cps.zipIdx) (h : isContaining cps i s = false) : s ∈ cps.reduce :=
  List.mem_map.mpr ⟨(s, i), List.mem_filter.mpr ⟨hmem, by simp [h]⟩, rfl⟩

/-- Every set of `cps` contains a set that `reduce` keeps: of the sets inside it, the first of
    those with the fewest sets inside them. -/
theorem exists_mem_reduce_isSubset {cps : ComparablePrincipalSets} {s : ComparablePrincipalSet}
    (hs : s ∈ cps) : ∃ t ∈ cps.reduce, t.isSubset s = true := by
  -- the indices of the sets inside `s`
  let C := (Finset.range cps.length).filter fun i => (cps.getD i []).isSubset s = true
  obtain ⟨k, hk, rfl⟩ := List.getElem_of_mem hs
  have hC : C.Nonempty :=
    ⟨k, by simp [C, hk, ComparablePrincipalSet.isSubset_refl]⟩
  obtain ⟨i0, hi0, hmin⟩ :=
    C.exists_min_image (fun i => toLex (subsetCount cps (cps.getD i []), i)) hC
  simp only [C, Finset.mem_filter, Finset.mem_range] at hi0
  have hget : cps.getD i0 [] = cps[i0] := List.getD_eq_getElem _ _ hi0.1
  refine ⟨cps.getD i0 [], mem_reduce_of_keep (i := i0) ?_ ?_, hi0.2⟩
  · rw [List.mem_zipIdx_iff_getElem?, hget]
    exact List.getElem?_eq_getElem hi0.1
  · apply foldl_containingStep_keep
    intro s2 j hm hij hsub
    have hj : cps[j]? = some s2 := List.mem_zipIdx_iff_getElem?.mp hm
    have hjlt : j < cps.length := (List.getElem?_eq_some_iff.mp hj).1
    have hs2 : cps.getD j [] = s2 := by simp [List.getD_eq_getElem?_getD, hj]
    have hjC : j ∈ C := by
      simp only [C, Finset.mem_filter, Finset.mem_range, hs2]
      exact ⟨hjlt, ComparablePrincipalSet.isSubset_trans hsub hi0.2⟩
    have hle := hmin j hjC
    rw [Prod.Lex.toLex_le_toLex', hs2] at hle
    -- the set at `i0` lies back inside `s2`, or `s2` would have fewer sets inside it
    have hback : (cps.getD i0 []).isSubset s2 = true := by
      by_contra hn
      have hlt := subsetCount_lt cps hsub (by rw [hget]; exact List.getElem_mem hi0.1)
        (by simpa using hn)
      exact absurd hle.1 (Nat.not_le.mpr hlt)
    have heq : subsetCount cps (cps.getD i0 []) = subsetCount cps s2 :=
      le_antisymm hle.1 (subsetCount_le cps hsub)
    have hi0j : i0 ≤ j := hle.2 heq
    exact ⟨hback, by omega⟩

/-- A list `reduce` keeps whole holds no two sets one inside the other: the set of highest index
    that contains another is kept only if a later set contains it, which then contains another
    too. -/
theorem pairwise_of_reduce_eq_self {cps : ComparablePrincipalSets} (h : cps.reduce = cps) :
    cps.Pairwise fun a b => a.isSubset b = false ∧ b.isSubset a = false := by
  -- `reduce` keeps every set
  have hall : ∀ e ∈ cps.zipIdx, isContaining cps e.2 e.1 = false := by
    have hlen : (cps.zipIdx.filter fun e => !isContaining cps e.2 e.1).length =
        cps.zipIdx.length := by
      have := congrArg List.length h
      simp only [ComparablePrincipalSets.reduce, List.length_map] at this
      rw [this, List.length_zipIdx]
    have hfilter := List.filter_eq_self.mp (List.filter_sublist.eq_of_length hlen)
    intro e he
    simpa using hfilter e he
  -- the sets that contain another set
  let P := fun j => ∃ (i : Nat) (a b : ComparablePrincipalSet), i ≠ j ∧ cps[i]? = some a ∧ cps[j]? = some b ∧ a.isSubset b = true
  have hnext : ∀ j, P j → ∃ k, j < k ∧ k < cps.length ∧ P k := by
    rintro j ⟨i, a, b, hij, ha, hb, hsub⟩
    have hkeep := hall (b, j) (List.mem_zipIdx_iff_getElem?.mpr hb)
    obtain ⟨c, k, hm, hbc, hjk⟩ := foldl_containingStep_eq_false cps.zipIdx false hkeep
      (.inr ⟨a, i, List.mem_zipIdx_iff_getElem?.mpr ha, Ne.symm hij, hsub⟩)
    have hc : cps[k]? = some c := List.mem_zipIdx_iff_getElem?.mp hm
    exact ⟨k, hjk, (List.getElem?_eq_some_iff.mp hc).1, j, b, c, by omega, hb, hc, hbc⟩
  have hnone : ∀ j, ¬ P j := by
    intro j hj
    induction hd : cps.length - j using Nat.strong_induction_on generalizing j with
    | _ d ih =>
      obtain ⟨k, hjk, hkn, hk⟩ := hnext j hj
      exact ih (cps.length - k) (by omega) k hk rfl
  rw [List.pairwise_iff_getElem]
  intro i j hi hj hij
  constructor
  · by_contra hsub
    exact hnone j ⟨i, cps[i], cps[j], by omega, List.getElem?_eq_getElem hi,
      List.getElem?_eq_getElem hj, by simpa using hsub⟩
  · by_contra hsub
    exact hnone i ⟨j, cps[j], cps[i], by omega, List.getElem?_eq_getElem hj,
      List.getElem?_eq_getElem hi, by simpa using hsub⟩

namespace ComparablePrincipalSets

/-- `Reduce` stops at a list `reduce` keeps whole. -/
theorem reduce_Reduce (cps : ComparablePrincipalSets) : cps.Reduce.reduce = cps.Reduce := by
  fun_induction Reduce cps with
  | case1 cps h =>
    rw [cps.reduce_sublist.eq_of_length h.symm]
    exact cps.reduce_sublist.eq_of_length h.symm
  | case2 cps h _ ih => exact ih

theorem Reduce_sublist (cps : ComparablePrincipalSets) : cps.Reduce.Sublist cps := by
  fun_induction Reduce cps with
  | case1 cps h => exact cps.reduce_sublist
  | case2 cps h _ ih => exact ih.trans cps.reduce_sublist

theorem exists_mem_Reduce_isSubset {cps : ComparablePrincipalSets} {s : ComparablePrincipalSet}
    (hs : s ∈ cps) : ∃ t ∈ cps.Reduce, t.isSubset s = true := by
  fun_induction Reduce cps generalizing s with
  | case1 cps h => exact exists_mem_reduce_isSubset hs
  | case2 cps h _ ih =>
    obtain ⟨t, ht, hts⟩ := exists_mem_reduce_isSubset hs
    obtain ⟨u, hu, hut⟩ := ih ht
    exact ⟨u, hu, ComparablePrincipalSet.isSubset_trans hut hts⟩

/-- `Reduce` keeps some of the sets it is given: none of them lies inside another, and every set
    it is given contains one of them. -/
theorem Reduce_spec (cps : ComparablePrincipalSets) :
    cps.Reduce.Sublist cps ∧
      cps.Reduce.Pairwise (fun a b => a.isSubset b = false ∧ b.isSubset a = false) ∧
      ∀ s ∈ cps, ∃ t ∈ cps.Reduce, t.isSubset s = true :=
  ⟨cps.Reduce_sublist, pairwise_of_reduce_eq_self cps.reduce_Reduce,
    fun _ hs => exists_mem_Reduce_isSubset hs⟩

theorem Reduce_ne_nil {cps : ComparablePrincipalSets} (h : cps ≠ []) : cps.Reduce ≠ [] := by
  obtain ⟨s, hs⟩ := List.exists_mem_of_ne_nil cps h
  obtain ⟨t, ht, -⟩ := exists_mem_Reduce_isSubset hs
  exact List.ne_nil_of_mem ht

end ComparablePrincipalSets

/-! ## `Merge` pairs a set of each side -/

/-- A containment mapping from `n₁` sets to `n₂` sets: its keys index the first, and each maps
    to a non-empty list of indices of the second. -/
def IntMapping.InRange (mapping : IntMapping) (n₁ n₂ : Nat) : Prop :=
  ∀ i js, mapping.get? i = some js → i < n₁ ∧ js ≠ [] ∧ ∀ j ∈ js, j < n₂

theorem IntMapping.InRange.append {mapping : IntMapping} {n₁ n₂ i j : Nat}
    (h : mapping.InRange n₁ n₂) (hi : i < n₁) (hj : j < n₂) :
    (mapping.append i j).InRange n₁ n₂ := by
  intro k js hk
  rw [IntMapping.append, GoMap.get?_insert] at hk
  split at hk
  · next hki =>
    subst hki
    obtain rfl := Option.some.inj hk.symm
    refine ⟨hi, by simp, fun j' hj' => ?_⟩
    rcases List.mem_append.mp hj' with hj' | hj'
    · cases hget : mapping.get? k with
      | none => simp [hget] at hj'
      | some js' =>
        rw [hget, Option.getD_some] at hj'
        exact (h k js' hget).2.2 j' hj'
    · rw [List.mem_singleton.mp hj']
      exact hj
  · exact h k js hk

theorem lt_length_of_mem_zipIdx {α : Type} {l : List α} {a : α} {i : Nat}
    (h : (a, i) ∈ l.zipIdx) : i < l.length :=
  (List.getElem?_eq_some_iff.mp (List.mem_zipIdx_iff_getElem?.mp h)).1

theorem computeContainedInMapping_inRange (s1 s2 : ComparablePrincipalSets) :
    (computeContainedInMapping s1 s2).InRange s1.length s2.length := by
  unfold computeContainedInMapping
  -- both loops keep the invariant: they append an index of `s2` under an index of `s1`
  refine List.foldlRecOn (motive := fun (m : IntMapping) => m.InRange s1.length s2.length) _ _
    (fun i js h => by simp at h) ?_
  rintro mapping hm ⟨ps1, i⟩ hi
  refine List.foldlRecOn (motive := fun (m : IntMapping) => m.InRange s1.length s2.length) _ _ hm ?_
  rintro mapping hm ⟨ps2, j⟩ hj
  dsimp only
  split
  · exact hm.append (lt_length_of_mem_zipIdx hi) (lt_length_of_mem_zipIdx hj)
  · exact hm

namespace ComparablePrincipalSets

theorem excludeIndices_sublist (cps : ComparablePrincipalSets) (mapping : IntMapping) :
    (cps.excludeIndices mapping).Sublist cps := by
  have h := (List.filter_sublist (l := cps.zipIdx)
    (p := fun (_, i) => !mapping.contains i)).map Prod.fst
  rwa [List.zipIdx_map_fst] at h

/-- A mapping without entries excludes nothing. -/
theorem excludeIndices_of_entries_eq_nil (cps : ComparablePrincipalSets) {mapping : IntMapping}
    (h : mapping.entries = []) : cps.excludeIndices mapping = cps := by
  have hc : ∀ i, mapping.contains i = false := by
    intro i
    simp [GoMap.contains, GoMap.get?, h]
  simp [excludeIndices, hc, List.zipIdx_map_fst]

theorem mem_ofMapping {cps sets2 : ComparablePrincipalSets} {visited : List (Nat × List Nat)}
    {pair : ComparablePrincipalSetPair} :
    pair ∈ cps.ofMapping visited sets2 ↔
      ∃ e ∈ visited, ∃ j ∈ e.2, ⟨cps.getD e.1 [], sets2.getD j []⟩ = pair := by
  simp [ofMapping]

/-- The pairs of a containment mapping in range pair a set of `cps` with one of `sets2`. -/
theorem ofMapping_mem {cps sets2 : ComparablePrincipalSets} {mapping : IntMapping}
    (h : mapping.InRange cps.length sets2.length) (order : GoMap.RangeOrder Nat (List Nat))
    {pair : ComparablePrincipalSetPair} (hp : pair ∈ cps.ofMapping (order.visit mapping) sets2) :
    pair.contained ∈ cps ∧ pair.containing ∈ sets2 := by
  obtain ⟨⟨i, js⟩, he, j, hj, rfl⟩ := mem_ofMapping.mp hp
  have hget := mapping.get?_of_mem ((order.mem_visit mapping).mp he)
  obtain ⟨hi, -, hjs⟩ := h i js hget
  have hj' := hjs j hj
  simp only [List.getD_eq_getElem _ _ hi, List.getD_eq_getElem _ _ hj']
  exact ⟨List.getElem_mem hi, List.getElem_mem hj'⟩

/-- A containment mapping in range with an entry gives a pair. -/
theorem ofMapping_ne_nil {cps sets2 : ComparablePrincipalSets} {mapping : IntMapping} {n₁ n₂ : Nat}
    (h : mapping.InRange n₁ n₂) (order : GoMap.RangeOrder Nat (List Nat))
    (hne : mapping.entries ≠ []) : cps.ofMapping (order.visit mapping) sets2 ≠ [] := by
  obtain ⟨⟨i, js⟩, he⟩ := List.exists_mem_of_ne_nil _ hne
  obtain ⟨-, hjs, -⟩ := h i js (mapping.get?_of_mem he)
  obtain ⟨j, hj⟩ := List.exists_mem_of_ne_nil js hjs
  exact List.ne_nil_of_mem
    (mem_ofMapping.mpr ⟨(i, js), (order.mem_visit mapping).mpr he, j, hj, rfl⟩)

end ComparablePrincipalSets

theorem IntMapping.invert_entries_eq_nil {im : IntMapping} (h : im.entries = []) :
    im.invert.entries = [] := by
  simp [IntMapping.invert, h, GoMap.empty]

theorem mem_cartesianProduct {s1 s2 : ComparablePrincipalSets} {pair : ComparablePrincipalSetPair} :
    pair ∈ cartesianProduct s1 s2 ↔ pair.contained ∈ s1 ∧ pair.containing ∈ s2 := by
  obtain ⟨contained, containing⟩ := pair
  simp [cartesianProduct]

/-- A pair of a set of one side and a set of the other. -/
def ComparablePrincipalSetPair.Across (S1 S2 : ComparablePrincipalSets)
    (pair : ComparablePrincipalSetPair) : Prop :=
  pair.contained ∈ S1 ∧ pair.containing ∈ S2 ∨ pair.contained ∈ S2 ∧ pair.containing ∈ S1

/-- Each set `Merge` returns merges a set of one side with a set of the other. -/
theorem mem_merge {order₁ order₂ : GoMap.RangeOrder Nat (List Nat)}
    {S1 S2 : ComparablePrincipalSets} {s : ComparablePrincipalSet}
    (hs : s ∈ merge order₁ order₂ S1 S2) :
    ∃ pair : ComparablePrincipalSetPair, pair.Across S1 S2 ∧ pair.mergeWithPlurality = s := by
  have h12 := computeContainedInMapping_inRange S1 S2
  simp only [merge] at hs
  generalize computeContainedInMapping S1 S2 = M12 at hs h12
  have hS1' := S1.excludeIndices_sublist M12
  generalize S1.excludeIndices M12 = S1' at hs hS1'
  have h21 := computeContainedInMapping_inRange S2 S1'
  generalize computeContainedInMapping S2 S1' = M21 at hs h21
  have hS2' := S2.excludeIndices_sublist M21
  generalize S2.excludeIndices M21 = S2' at hs hS2'
  have hS1'' := S1'.excludeIndices_sublist M21.invert
  generalize S1'.excludeIndices M21.invert = S1'' at hs hS1''
  have hS2'' := S2'.excludeIndices_sublist M12.invert
  generalize S2'.excludeIndices M12.invert = S2'' at hs hS2''
  -- the pairs of both mappings and of the sets left over
  have hpairs : ∀ pair ∈ S1.ofMapping (order₁.visit M12) S2 ++ S2.ofMapping (order₂.visit M21) S1'
      ++ cartesianProduct S1'' S2'', pair.Across S1 S2 := by
    intro pair hp
    rcases List.mem_append.mp hp with hp | hp
    · rcases List.mem_append.mp hp with hp | hp
      · exact .inl (ComparablePrincipalSets.ofMapping_mem h12 order₁ hp)
      · obtain ⟨h2, h1⟩ := ComparablePrincipalSets.ofMapping_mem h21 order₂ hp
        exact .inr ⟨h2, hS1'.subset h1⟩
    · obtain ⟨h1, h2⟩ := mem_cartesianProduct.mp hp
      exact .inl ⟨(hS1''.trans hS1').subset h1, (hS2''.trans hS2').subset h2⟩
  have hin : s ∈ toMergedPrincipalSets (S1.ofMapping (order₁.visit M12) S2
      ++ S2.ofMapping (order₂.visit M21) S1' ++ cartesianProduct S1'' S2'') := by
    simp only [toMergedPrincipalSets, List.map_append] at hs ⊢
    split at hs
    · exact List.mem_append_left _ ((ComparablePrincipalSets.Reduce_sublist _).subset hs)
    · exact (ComparablePrincipalSets.Reduce_sublist _).subset hs
  obtain ⟨pair, hp, rfl⟩ := List.mem_map.mp hin
  exact ⟨pair, hpairs pair hp, rfl⟩

/-- `Merge` of two non-empty sides is not empty: a set contained in a set of the other side is
    paired with it, and if there is none, the two sides are paired whole. -/
theorem merge_ne_nil (order₁ order₂ : GoMap.RangeOrder Nat (List Nat))
    {S1 S2 : ComparablePrincipalSets} (h1 : S1 ≠ []) (h2 : S2 ≠ []) :
    merge order₁ order₂ S1 S2 ≠ [] := by
  have h12 := computeContainedInMapping_inRange S1 S2
  simp only [merge, toMergedPrincipalSets]
  generalize computeContainedInMapping S1 S2 = M12 at h12 ⊢
  have h21 := computeContainedInMapping_inRange S2 (S1.excludeIndices M12)
  generalize computeContainedInMapping S2 (S1.excludeIndices M12) = M21 at h21 ⊢
  -- a pair from either mapping leaves the list `Reduce` runs over non-empty in both branches
  have hres : ∀ (c : Prop) [Decidable c] (res more : ComparablePrincipalSets), res ≠ [] →
      (if c then res.Reduce else (res ++ more).Reduce) ≠ [] := by
    intro c _ res more hres
    split
    · exact ComparablePrincipalSets.Reduce_ne_nil hres
    · exact ComparablePrincipalSets.Reduce_ne_nil (List.append_ne_nil_of_left_ne_nil hres _)
  by_cases e12 : M12.entries = []
  · by_cases e21 : M21.entries = []
    · -- nothing is contained either way: the two sides are paired whole
      rw [S1.excludeIndices_of_entries_eq_nil e12, S2.excludeIndices_of_entries_eq_nil e21]
      rw [S1.excludeIndices_of_entries_eq_nil (IntMapping.invert_entries_eq_nil e21),
        S2.excludeIndices_of_entries_eq_nil (IntMapping.invert_entries_eq_nil e12)]
      have hlen : ¬(S1.length = 0 ∨ S2.length = 0) := by
        simp [List.length_eq_zero_iff, h1, h2]
      rw [if_neg hlen]
      apply ComparablePrincipalSets.Reduce_ne_nil
      apply List.append_ne_nil_of_right_ne_nil
      obtain ⟨a, ha⟩ := List.exists_mem_of_ne_nil S1 h1
      obtain ⟨b, hb⟩ := List.exists_mem_of_ne_nil S2 h2
      exact List.map_eq_nil_iff.not.mpr
        (List.ne_nil_of_mem ((@mem_cartesianProduct S1 S2 ⟨a, b⟩).mpr ⟨ha, hb⟩))
    · exact hres _ _ _ (List.append_ne_nil_of_right_ne_nil _
        (List.map_eq_nil_iff.not.mpr (ComparablePrincipalSets.ofMapping_ne_nil h21 order₂ e21)))
  · exact hres _ _ _ (List.append_ne_nil_of_left_ne_nil
      (List.map_eq_nil_iff.not.mpr (ComparablePrincipalSets.ofMapping_ne_nil h12 order₁ e12)) _)

/-! ## Soundness of `Merge` -/

theorem merge_sound (order₁ order₂ : GoMap.RangeOrder Nat (List Nat)) (S1 S2 : ComparablePrincipalSets)
    (h1 : ∀ s ∈ S1, ∀ p ∈ s, p.Supported) (h2 : ∀ s ∈ S2, ∀ p ∈ s, p.Supported) :
    (∀ s ∈ merge order₁ order₂ S1 S2,
       (∃ s1 ∈ S1, CoversWithPlurality s s1) ∧ ∃ s2 ∈ S2, CoversWithPlurality s s2) ∧
    (S1 ≠ [] → S2 ≠ [] → merge order₁ order₂ S1 S2 ≠ []) := by
  refine ⟨fun s hs => ?_, fun hne1 hne2 => merge_ne_nil order₁ order₂ hne1 hne2⟩
  obtain ⟨pair, hpair, rfl⟩ := mem_merge hs
  -- the principals of both sides are supported, so each IsA itself
  have hself : ∀ t, t ∈ S1 ∨ t ∈ S2 → ∀ p ∈ t, p.isA p = true := by
    rintro t (ht | ht) p hp
    · exact (h1 t ht p hp).isA_self
    · exact (h2 t ht p hp).isA_self
  have hcov := mergeWithPlurality_covers pair
  rcases hpair with ⟨ha, hb⟩ | ⟨ha, hb⟩
  · obtain ⟨hc, hd⟩ := hcov (hself _ (.inl ha)) (hself _ (.inr hb))
    exact ⟨⟨_, ha, hc⟩, _, hb, hd⟩
  · obtain ⟨hc, hd⟩ := hcov (hself _ (.inr ha)) (hself _ (.inl hb))
    exact ⟨⟨_, hb, hd⟩, _, ha, hc⟩

theorem merge_sound_two_members :
    let org1 := ComparablePrincipal.ofRole ⟨.role, []⟩ ⟨"Org1MSP", .member⟩
    let org2 := ComparablePrincipal.ofRole ⟨.role, []⟩ ⟨"Org2MSP", .member⟩
    (∀ s ∈ [[org1]], ∀ p ∈ s, p.Supported) ∧ (∀ s ∈ [[org2]], ∀ p ∈ s, p.Supported) ∧
    (∀ s ∈ merge .inOrder .inOrder [[org1]] [[org2]],
       (∃ s1 ∈ [[org1]], CoversWithPlurality s s1) ∧ ∃ s2 ∈ [[org2]], CoversWithPlurality s s2) ∧
    ([[org1]] ≠ [] → [[org2]] ≠ [] → merge .inOrder .inOrder [[org1]] [[org2]] ≠ []) := by
  intro org1 org2
  have h1 : ∀ s ∈ [[org1]], ∀ p ∈ s, p.Supported := by
    simpa using ComparablePrincipal.Supported.role _ rfl
  have h2 : ∀ s ∈ [[org2]], ∀ p ∈ s, p.Supported := by
    simpa using ComparablePrincipal.Supported.role _ rfl
  exact ⟨h1, h2, merge_sound .inOrder .inOrder [[org1]] [[org2]] h1 h2⟩

end Fabric.Inquire
