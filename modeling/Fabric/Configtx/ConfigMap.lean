import Mathlib
import Fabric.Lib.GoMap
import Fabric.Lib.FoldM
import Fabric.Ledger.Version

/-
  The config map of a channel (`common/configtx/configmap.go`, `validator.go`).

  `mapConfig` flattens a config tree into a map from fqPaths to its elements: each group, value
  and policy is stored under a prefix for its kind and the `/`-joined keys that lead to it.
  `configMapToConfig` rebuilds the tree from the root group's entry, following the keys that
  each stored group lists. A config ID passes `validateConfigID` when it is 1 to 249 bytes of
  `[a-zA-Z0-9.-]` other than `.` and `..` (`validateConfigID_eq_ok_iff`); so it holds no `/`.

  `ConfigGroup.elements` lists the elements of a tree, each with its key and the path of the
  group that holds it, in the order `recurseConfig` visits them (`recurseConfig_eq`). Proved:
  `mapConfig` returns exactly when every key of the tree passes `validateConfigID`; then the
  fqPaths of distinct elements differ, the map holds each element under its own fqPath and
  nothing else, and when every mod_policy is set `configMapToConfig` gives the tree back
  (`mapConfig_round_trip`).

  A Go map is an association list here, its keys distinct (`ConfigGroup.KeysDistinct`); a loop
  over a map visits its entries in list order, and `m[k] = v` on a key present replaces its
  value in place, so a rebuilt tree is equal to the original, not only equal as a map.
  `recurseConfigMap` goes down from a path stored in the map to a longer one only, which is
  its termination measure (`longPathCount`).
-/

namespace Fabric.Configtx

open Fabric.Ledger

/-! ## Config IDs -/

/-- `MaxLength`. -/
def maxLength : Nat := 249

/-- `illegalNames`. -/
def illegalNames : List String := [".", ".."]

/-- A character of `configAllowedChars`, `[a-zA-Z0-9.-]`. -/
def configAllowedChar (c : Char) : Bool :=
  c.isAlphanum || c == '.' || c == '-'

/-- `re.FindString(configID)` for `re` compiled from `configAllowedChars`: the leftmost match
    of `[a-zA-Z0-9.-]+` is the first run of allowed characters, taken whole. -/
def findAllowedRun (configID : String) : String :=
  String.ofList
    ((configID.toList.dropWhile fun c => !configAllowedChar c).takeWhile configAllowedChar)

/-- `validateConfigID`; Go's `len` counts bytes. -/
def validateConfigID (configID : String) : Except String Unit :=
  if configID.utf8ByteSize ≤ 0 then .error "config ID illegal, cannot be empty"
  else if configID.utf8ByteSize > maxLength then
    .error s!"config ID illegal, cannot be longer than {maxLength}"
  else if configID ∈ illegalNames then
    .error s!"name \x27{configID}\x27 for config ID is not allowed"
  else if (findAllowedRun configID).utf8ByteSize ≠ configID.utf8ByteSize then
    .error s!"config ID \x27{configID}\x27 contains illegal characters"
  else .ok ()

theorem utf8ByteSize_ofList (l : List Char) :
    (String.ofList l).utf8ByteSize = (l.map Char.utf8Size).sum := by
  induction l with
  | nil => rfl
  | cons c l ih =>
    rw [String.ofList_cons, String.utf8ByteSize_append, String.utf8ByteSize_singleton, ih,
      List.map_cons, List.sum_cons]

theorem utf8Size_of_configAllowedChar {c : Char} (h : configAllowedChar c = true) :
    c.utf8Size = 1 := by
  rw [Char.utf8Size_eq_one_iff, UInt32.le_iff_toNat_le]
  simp only [configAllowedChar, Char.isAlphanum, Char.isAlpha, Char.isUpper, Char.isLower,
    Char.isDigit, Bool.or_eq_true, Bool.and_eq_true, decide_eq_true_eq, beq_iff_eq,
    UInt32.le_iff_toNat_le, ge_iff_le] at h
  have hZ : 'Z'.val.toNat = 90 := rfl
  have hz : 'z'.val.toNat = 122 := rfl
  have h9 : '9'.val.toNat = 57 := rfl
  have h127 : (127 : UInt32).toNat = 127 := rfl
  rcases h with (h | rfl) | rfl
  · omega
  all_goals decide

/-- The regular expression matches a whole ID exactly when all its characters are allowed. -/
theorem findAllowedRun_utf8ByteSize_eq_iff (s : String) :
    (findAllowedRun s).utf8ByteSize = s.utf8ByteSize ↔ ∀ c ∈ s.toList, configAllowedChar c := by
  set run := (s.toList.dropWhile fun c => !configAllowedChar c).takeWhile configAllowedChar
  have hrun : (findAllowedRun s).utf8ByteSize = run.length := by
    rw [findAllowedRun, utf8ByteSize_ofList,
      List.map_congr_left fun c hc => utf8Size_of_configAllowedChar (List.mem_takeWhile_imp hc)]
    simp [run]
  have hs : s.utf8ByteSize = (s.toList.map Char.utf8Size).sum := by
    rw [← utf8ByteSize_ofList, String.ofList_toList]
  have hinfix : run <:+: s.toList :=
    (List.takeWhile_prefix _).isInfix.trans (List.dropWhile_suffix _).isInfix
  rw [hrun, hs]
  constructor
  · -- the run is as long as the whole ID only when it is the whole ID
    intro h c hc
    have hone : ∀ i ∈ s.toList.map Char.utf8Size, 1 ≤ i := by
      simpa using fun c _ => Nat.one_le_iff_ne_zero.2 (Char.utf8Size_pos c).ne'
    have hlen : s.toList.length ≤ (s.toList.map Char.utf8Size).sum := by
      simpa using List.length_le_sum_of_one_le _ hone
    have heq : run = s.toList :=
      hinfix.sublist.eq_of_length (by have := hinfix.length_le; omega)
    rw [← heq] at hc
    exact List.mem_takeWhile_imp hc
  · intro h
    have hdrop : (s.toList.dropWhile fun c => !configAllowedChar c) = s.toList := by
      rw [List.dropWhile_eq_self_iff]
      intro hl
      simpa using h _ (List.getElem_mem hl)
    have heq : run = s.toList := by
      simp only [run, hdrop, List.takeWhile_eq_self_iff]
      exact h
    rw [heq, List.map_congr_left fun c hc => utf8Size_of_configAllowedChar (h c hc)]
    simp

/-- What `validateConfigID` accepts. -/
theorem validateConfigID_eq_ok_iff (s : String) :
    validateConfigID s = .ok () ↔
      s ≠ "" ∧ s.utf8ByteSize ≤ maxLength ∧ s ∉ illegalNames ∧
        ∀ c ∈ s.toList, configAllowedChar c := by
  rw [← findAllowedRun_utf8ByteSize_eq_iff, ne_eq, ← String.utf8ByteSize_eq_zero_iff]
  unfold validateConfigID
  split_ifs <;> simp_all

theorem slash_not_mem_of_validateConfigID {s : String} (h : validateConfigID s = .ok ()) :
    '/' ∉ s.toList := by
  intro hmem
  have hslash := ((validateConfigID_eq_ok_iff s).1 h).2.2.2 '/' hmem
  revert hslash
  decide

/-! ## Config trees and the config map -/

/-- `cb.ConfigValue`. -/
structure ConfigValue where
  version : Nat
  value : Bytes
  modPolicy : String
  deriving DecidableEq, Repr

/-- `cb.Policy`. -/
structure Policy where
  type : Int
  value : Bytes
  deriving DecidableEq, Repr

/-- `cb.ConfigPolicy`. -/
structure ConfigPolicy where
  version : Nat
  policy : Option Policy
  modPolicy : String
  deriving DecidableEq, Repr

/-- `cb.ConfigGroup`, its three maps held as association lists. -/
structure ConfigGroup where
  version : Nat
  groups : List (String × ConfigGroup)
  values : List (String × ConfigValue)
  policies : List (String × ConfigPolicy)
  modPolicy : String

/-- Which of the three messages of a config tree a `comparable` holds. -/
inductive ConfigElement where
  | group (g : ConfigGroup)
  | value (v : ConfigValue)
  | policy (p : ConfigPolicy)

/-- `comparable`: an element of a config tree, its key, and the path of the group holding it. -/
structure Comparable where
  element : ConfigElement
  key : String
  path : List String

/-- The config map, `map[string]comparable`. -/
abbrev ConfigMap := GoMap String Comparable

/-- `groupPrefix`. -/
def groupPrefix : String := "[Group]  "

/-- `valuePrefix`. -/
def valuePrefix : String := "[Value]  "

/-- `policyPrefix`. -/
def policyPrefix : String := "[Policy] "

/-- `pathSeparator`. -/
def pathSeparator : String := "/"

/-- `hackyFixOrdererCapabilities`. -/
def hackyFixOrdererCapabilities : String := "[Value]  /Channel/Orderer/Capabilities"

/-- `hackyFixNewModPolicy`. -/
def hackyFixNewModPolicy : String := "Admins"

/-- The prefix `addToMap` starts the fqPath of an element of each kind with. -/
def ConfigElement.fqPrefix : ConfigElement → String
  | .group _ => groupPrefix
  | .value _ => valuePrefix
  | .policy _ => policyPrefix

/-- The mod_policy of an element. -/
def ConfigElement.modPolicy : ConfigElement → String
  | .group g => g.modPolicy
  | .value v => v.modPolicy
  | .policy p => p.modPolicy

/-- The fqPath `addToMap` stores an element under. -/
def Comparable.fqPath (cg : Comparable) : String :=
  if cg.path.isEmpty then cg.element.fqPrefix ++ pathSeparator ++ cg.key
  else
    cg.element.fqPrefix ++ pathSeparator ++ pathSeparator.intercalate cg.path ++ pathSeparator ++
      cg.key

/-- `addToMap`. -/
def addToMap (cg : Comparable) (result : ConfigMap) : Except String ConfigMap :=
  let fqPath := cg.element.fqPrefix
  match validateConfigID cg.key with
  | .error err => .error s!"illegal characters in key: {fqPath}: {err}"
  | .ok () => .ok (result.insert cg.fqPath cg)

mutual
/-- `recurseConfig`, the path `parent ++ [key]` given split at its last element, which is what
    `path[len(path)-1]` and `path[:len(path)-1]` read. -/
def recurseConfig (result : ConfigMap) (parent : List String) (key : String) :
    ConfigGroup → Except String ConfigMap
  | group@⟨_, groups, values, policies, _⟩ => do
    let result ← addToMap ⟨.group group, key, parent⟩ result
    let result ← recurseConfigGroups result (parent ++ [key]) groups
    let result ← values.foldlM
      (fun result (k, value) => addToMap ⟨.value value, k, parent ++ [key]⟩ result) result
    policies.foldlM
      (fun result (k, policy) => addToMap ⟨.policy policy, k, parent ++ [key]⟩ result) result

/-- The loop of `recurseConfig` over `group.Groups`. -/
def recurseConfigGroups (result : ConfigMap) (path : List String) :
    List (String × ConfigGroup) → Except String ConfigMap
  | [] => .ok result
  | (key, group) :: rest => do
    let result ← recurseConfig result path key group
    recurseConfigGroups result path rest
end

/-- `mapConfig`. -/
def mapConfig (channelGroup : ConfigGroup) (rootGroupKey : String) : Except String ConfigMap :=
  recurseConfig GoMap.empty [] rootGroupKey channelGroup

/-- `m[k] = v`, on a Go map held as an association list: a key present takes the new value in
    its place, a new key goes at the end. -/
def setKey {V : Type} (m : List (String × V)) (k : String) (v : V) : List (String × V) :=
  if m.any (·.1 == k) then m.map fun e => if e.1 = k then (k, v) else e else m ++ [(k, v)]

/-- The hacky fix of `recurseConfigMap`: an unset mod_policy of the group, of its values and of
    its policies becomes `Admins`. -/
def hackyFix (g : ConfigGroup) : ConfigGroup :=
  { g with
    modPolicy := if g.modPolicy == "" then hackyFixNewModPolicy else g.modPolicy
    values := g.values.map fun (k, v) =>
      (k, if v.modPolicy == "" then { v with modPolicy := hackyFixNewModPolicy } else v)
    policies := g.policies.map fun (k, p) =>
      (k, if p.modPolicy == "" then { p with modPolicy := hackyFixNewModPolicy } else p) }

/-- The entries of a config map under an fqPath of at least `n` characters. -/
def longPathCount (configMap : ConfigMap) (n : Nat) : Nat :=
  (configMap.entries.filter fun e => n ≤ e.1.length).length

/-- Fewer entries lie under paths longer than a path the map holds. -/
theorem longPathCount_lt {configMap : ConfigMap} {p : String} {c : Comparable}
    (h : configMap.get? p = some c) {n : Nat} (hn : p.length < n) :
    longPathCount configMap n < longPathCount configMap p.length := by
  unfold longPathCount
  have hmem := GoMap.mem_entries_of_get? h
  have hsub : List.Sublist (configMap.entries.filter fun e => n ≤ e.1.length)
      (configMap.entries.filter fun e => p.length ≤ e.1.length) := by
    have hfilter : (configMap.entries.filter fun e => n ≤ e.1.length) =
        (configMap.entries.filter fun e => p.length ≤ e.1.length).filter
          fun e => n ≤ e.1.length := by
      rw [List.filter_filter]
      exact List.filter_congr fun e _ => by simp; omega
    rw [hfilter]
    exact List.filter_sublist
  refine lt_of_le_of_ne hsub.length_le fun hlen => ?_
  -- equal lengths make the filters equal, but `p` is in the second only
  have hp : (p, c) ∈ configMap.entries.filter fun e => p.length ≤ e.1.length := by
    simp [hmem]
  rw [← hsub.eq_of_length hlen, List.mem_filter] at hp
  simp only [decide_eq_true_eq] at hp
  omega

set_option linter.unusedVariables false in
/-- `recurseConfigMap`. `proto.Merge` into a fresh group copies the stored group; the loops then
    overwrite its groups, values and policies with what the map holds. -/
def recurseConfigMap (path : String) (configMap : ConfigMap) : Except String ConfigGroup :=
  let groupPath := groupPrefix ++ path
  match h : configMap.get? groupPath with
  | none => .error s!"missing group at path: {groupPath}"
  | some group =>
    match group.element with
    | .group stored => do
      let newConfigGroup ← stored.groups.foldlM (fun newConfigGroup (key, _) => do
          let updatedGroup ← recurseConfigMap (path ++ pathSeparator ++ key) configMap
          pure { newConfigGroup with groups := setKey newConfigGroup.groups key updatedGroup })
        stored
      let newConfigGroup ← stored.values.foldlM (fun newConfigGroup (key, _) =>
          let valuePath := valuePrefix ++ path ++ pathSeparator ++ key
          match configMap.get? valuePath with
          | none => .error s!"missing value at path: {valuePath}"
          | some value =>
            match value.element with
            | .value v => pure { newConfigGroup with values := setKey newConfigGroup.values key v }
            | _ => .error s!"ConfigValue not found at value path: {valuePath}")
        newConfigGroup
      let newConfigGroup ← stored.policies.foldlM (fun newConfigGroup (key, _) =>
          let policyPath := policyPrefix ++ path ++ pathSeparator ++ key
          match configMap.get? policyPath with
          | none => .error s!"missing policy at path: {policyPath}"
          | some policy =>
            match policy.element with
            | .policy p =>
              pure { newConfigGroup with policies := setKey newConfigGroup.policies key p }
            | _ => .error s!"ConfigPolicy not found at policy path: {policyPath}")
        newConfigGroup
      pure (if configMap.contains hackyFixOrdererCapabilities then hackyFix newConfigGroup
        else newConfigGroup)
    | _ => .error s!"ConfigGroup not found at group path: {groupPath}"
termination_by longPathCount configMap (groupPrefix ++ path).length
decreasing_by
  have hsep : pathSeparator.length = 1 := by decide
  exact longPathCount_lt h (by simp +zetaDelta; omega)

/-- `configMapToConfig`. -/
def configMapToConfig (configMap : ConfigMap) (rootGroupKey : String) :
    Except String ConfigGroup :=
  recurseConfigMap (pathSeparator ++ rootGroupKey) configMap

/-! ## The elements of a config tree -/

mutual
/-- The elements of the tree `g` that the group at `parent` holds under `key`, each with its key
    and the path of the group holding it: `g` itself, the elements of its groups, its values and
    its policies, in the order `recurseConfig` visits them. -/
def ConfigGroup.elements (parent : List String) (key : String) : ConfigGroup → List Comparable
  | g@⟨_, groups, values, policies, _⟩ =>
    ⟨.group g, key, parent⟩ :: (groupsElements (parent ++ [key]) groups ++
      values.map (fun e => ⟨.value e.2, e.1, parent ++ [key]⟩) ++
      policies.map (fun e => ⟨.policy e.2, e.1, parent ++ [key]⟩))

/-- The elements of the groups of a map that the group at `path` holds. -/
def groupsElements (path : List String) : List (String × ConfigGroup) → List Comparable
  | [] => []
  | (k, g) :: rest => g.elements path k ++ groupsElements path rest
end

mutual
/-- The keys of each map of a tree are distinct, as a Go map's are. -/
def ConfigGroup.KeysDistinct : ConfigGroup → Prop
  | ⟨_, groups, values, policies, _⟩ =>
    (groups.map (·.1)).Nodup ∧ (values.map (·.1)).Nodup ∧ (policies.map (·.1)).Nodup ∧
      groupsKeysDistinct groups

/-- `ConfigGroup.KeysDistinct` for each group of a map. -/
def groupsKeysDistinct : List (String × ConfigGroup) → Prop
  | [] => True
  | (_, g) :: rest => g.KeysDistinct ∧ groupsKeysDistinct rest
end

/-- The kind of an element and the keys from the root down to it. -/
def Comparable.address (cg : Comparable) : String × List String :=
  (cg.element.fqPrefix, cg.path ++ [cg.key])

/-! ## Flattening -/

theorem addToMap_of_valid {cg : Comparable} (h : validateConfigID cg.key = .ok ())
    (result : ConfigMap) : addToMap cg result = .ok (result.insert cg.fqPath cg) := by
  simp [addToMap, h]

theorem valid_of_addToMap {cg : Comparable} {result result' : ConfigMap}
    (h : addToMap cg result = .ok result') : validateConfigID cg.key = .ok () := by
  unfold addToMap at h
  split at h
  · cases h
  · assumption

mutual
/-- `recurseConfig` is `addToMap` over the elements of the tree. -/
theorem recurseConfig_eq (result : ConfigMap) (parent : List String) (key : String) :
    ∀ g : ConfigGroup, recurseConfig result parent key g =
      (g.elements parent key).foldlM (fun result cg => addToMap cg result) result
  | ⟨_, groups, values, policies, _⟩ => by
    have ih : ∀ result, recurseConfigGroups result (parent ++ [key]) groups =
        (groupsElements (parent ++ [key]) groups).foldlM
          (fun result cg => addToMap cg result) result :=
      fun result => recurseConfigGroups_eq result (parent ++ [key]) groups
    rw [recurseConfig, ConfigGroup.elements, List.foldlM_cons]
    simp only [List.foldlM_append, List.foldlM_map, ih, bind_assoc]

/-- `recurseConfigGroups` is `addToMap` over the elements of the groups. -/
theorem recurseConfigGroups_eq (result : ConfigMap) (path : List String) :
    ∀ gs, recurseConfigGroups result path gs =
      (groupsElements path gs).foldlM (fun result cg => addToMap cg result) result
  | [] => rfl
  | (k, g) :: rest => by
    have ih : ∀ result, recurseConfigGroups result path rest =
        (groupsElements path rest).foldlM (fun result cg => addToMap cg result) result :=
      fun result => recurseConfigGroups_eq result path rest
    rw [recurseConfigGroups, groupsElements, List.foldlM_append, recurseConfig_eq]
    simp only [ih]
end

/-! ## Where the elements of a tree lie -/

/-- What the elements of a tree are: the tree's root group, the elements of its groups, its
    values and its policies. -/
theorem ConfigGroup.mem_elements {g : ConfigGroup} {parent : List String} {key : String}
    {cg : Comparable} :
    cg ∈ g.elements parent key ↔ cg = ⟨.group g, key, parent⟩ ∨
      cg ∈ groupsElements (parent ++ [key]) g.groups ∨
      (∃ k v, (k, v) ∈ g.values ∧ cg = ⟨.value v, k, parent ++ [key]⟩) ∨
      ∃ k p, (k, p) ∈ g.policies ∧ cg = ⟨.policy p, k, parent ++ [key]⟩ := by
  obtain ⟨_, groups, values, policies, _⟩ := g
  rw [ConfigGroup.elements]
  simp only [List.mem_cons, List.mem_append, List.mem_map, Prod.exists, or_assoc]
  constructor <;> rintro (h | h | ⟨k, x, hx, h⟩ | ⟨k, x, hx, h⟩) <;> simp_all [eq_comm]

mutual
/-- Every element of a tree lies below the tree's own key; only the tree's root group lies at
    it. -/
theorem ConfigGroup.address_of_mem_elements (parent : List String) (key : String) :
    ∀ (g : ConfigGroup) (cg : Comparable), cg ∈ g.elements parent key →
      ∃ rest, cg.path ++ [cg.key] = parent ++ key :: rest ∧
        (rest = [] → cg.element.fqPrefix = groupPrefix)
  | ⟨_, groups, values, policies, _⟩, cg, h => by
    rcases ConfigGroup.mem_elements.1 h with rfl | hg | ⟨k, _, -, rfl⟩ | ⟨k, _, -, rfl⟩
    · exact ⟨[], by simp, fun _ => rfl⟩
    · obtain ⟨⟨k, _⟩, -, rest, hpath, -⟩ :=
        address_of_mem_groupsElements (parent ++ [key]) groups cg hg
      exact ⟨k :: rest, by simp [hpath], fun h => absurd h (List.cons_ne_nil _ _)⟩
    · exact ⟨[k], by simp, fun h => absurd h (List.cons_ne_nil _ _)⟩
    · exact ⟨[k], by simp, fun h => absurd h (List.cons_ne_nil _ _)⟩

/-- Every element of the groups of a map lies below the key of one of them. -/
theorem address_of_mem_groupsElements (path : List String) :
    ∀ (gs : List (String × ConfigGroup)) (cg : Comparable), cg ∈ groupsElements path gs →
      ∃ e ∈ gs, ∃ rest, cg.path ++ [cg.key] = path ++ e.1 :: rest ∧
        (rest = [] → cg.element.fqPrefix = groupPrefix)
  | [], cg, h => by simp [groupsElements] at h
  | (k, g) :: rest, cg, h => by
    rw [groupsElements, List.mem_append] at h
    rcases h with h | h
    · obtain ⟨r, hpath, hgroup⟩ := ConfigGroup.address_of_mem_elements path k g cg h
      exact ⟨(k, g), List.mem_cons_self, r, hpath, hgroup⟩
    · obtain ⟨e, he, r, hpath, hgroup⟩ := address_of_mem_groupsElements path rest cg h
      exact ⟨e, List.mem_cons_of_mem _ he, r, hpath, hgroup⟩
end

mutual
/-- Each key on the way down to an element is a key of the path above the tree or the key of
    an element of the tree. -/
theorem ConfigGroup.mem_path_of_mem_elements (parent : List String) (key : String) :
    ∀ (g : ConfigGroup) (cg : Comparable), cg ∈ g.elements parent key →
      ∀ s ∈ cg.path ++ [cg.key], s ∈ parent ∨ ∃ cg' ∈ g.elements parent key, cg'.key = s
  | ⟨v, groups, values, policies, m⟩, cg, h, s, hs => by
    -- a key of the path down to the tree is a key above it, or the tree's own
    have habove : s ∈ parent ++ [key] →
        s ∈ parent ∨ ∃ cg' ∈ (⟨v, groups, values, policies, m⟩ : ConfigGroup).elements parent key,
          cg'.key = s := by
      intro hs
      rcases List.mem_append.1 hs with hs | hs
      · exact Or.inl hs
      · exact Or.inr ⟨_, ConfigGroup.mem_elements.2 (Or.inl rfl), (List.mem_singleton.1 hs).symm⟩
    rcases ConfigGroup.mem_elements.1 h with rfl | hg | ⟨k, _, -, rfl⟩ | ⟨k, _, -, rfl⟩
    · exact habove hs
    · rcases mem_path_of_mem_groupsElements (parent ++ [key]) groups cg hg s hs with
        hs | ⟨cg', hcg', hkey⟩
      · exact habove hs
      · exact Or.inr ⟨cg', ConfigGroup.mem_elements.2 (Or.inr (Or.inl hcg')), hkey⟩
    all_goals
      rcases List.mem_append.1 hs with hs | hs
      · exact habove hs
      · exact Or.inr ⟨_, h, (List.mem_singleton.1 hs).symm⟩

/-- Each key on the way down to an element of the groups of a map is a key of the path above
    them or the key of an element of the groups. -/
theorem mem_path_of_mem_groupsElements (path : List String) :
    ∀ (gs : List (String × ConfigGroup)) (cg : Comparable), cg ∈ groupsElements path gs →
      ∀ s ∈ cg.path ++ [cg.key], s ∈ path ∨ ∃ cg' ∈ groupsElements path gs, cg'.key = s
  | [], cg, h, _, _ => by simp [groupsElements] at h
  | (k, g) :: rest, cg, h, s, hs => by
    rw [groupsElements, List.mem_append] at h
    rcases h with h | h
    · rcases ConfigGroup.mem_path_of_mem_elements path k g cg h s hs with hs | ⟨cg', hcg', hkey⟩
      · exact Or.inl hs
      · exact Or.inr ⟨cg', by rw [groupsElements]; exact List.mem_append_left _ hcg', hkey⟩
    · rcases mem_path_of_mem_groupsElements path rest cg h s hs with hs | ⟨cg', hcg', hkey⟩
      · exact Or.inl hs
      · exact Or.inr ⟨cg', by rw [groupsElements]; exact List.mem_append_right _ hcg', hkey⟩
end

/-! ## Distinct elements, distinct fqPaths -/

theorem groupPrefix_ne_valuePrefix : groupPrefix ≠ valuePrefix := by decide

theorem groupPrefix_ne_policyPrefix : groupPrefix ≠ policyPrefix := by decide

theorem valuePrefix_ne_policyPrefix : valuePrefix ≠ policyPrefix := by decide

/-- The values (or policies) of a map with distinct keys, each made an element of the group at
    `path`, have distinct addresses. -/
theorem nodup_address_map {α : Type} {l : List (String × α)} (hl : (l.map (·.1)).Nodup)
    {pre : String} {path : List String} (f : String × α → Comparable)
    (hf : ∀ e, (f e).address = (pre, path ++ [e.1])) : ((l.map f).map Comparable.address).Nodup := by
  have hcomp : Comparable.address ∘ f = (fun k => (pre, path ++ [k])) ∘ (·.1) := funext hf
  rw [List.map_map, hcomp, ← List.map_map]
  refine hl.map fun k k' h => ?_
  simpa using h

/-- An element of the groups of a map lies at the address of a value or a policy of the group
    holding them only if it is of that kind and a group at once, which no element is. -/
theorem address_ne_of_mem_groupsElements {path : List String} {gs : List (String × ConfigGroup)}
    {cg : Comparable} (h : cg ∈ groupsElements path gs) {pre : String} (hpre : pre ≠ groupPrefix)
    (k : String) : cg.address ≠ (pre, path ++ [k]) := by
  obtain ⟨_, -, rest, hpath, hgroup⟩ := address_of_mem_groupsElements path gs cg h
  intro heq
  simp only [Comparable.address, Prod.mk.injEq, hpath, List.append_cancel_left_eq,
    List.cons.injEq] at heq
  exact hpre (heq.1 ▸ hgroup heq.2.2)

mutual
/-- Distinct elements of a tree whose maps have distinct keys have distinct addresses. -/
theorem ConfigGroup.nodup_address_elements (parent : List String) (key : String) :
    ∀ g : ConfigGroup, g.KeysDistinct → ((g.elements parent key).map Comparable.address).Nodup
  | ⟨v, groups, values, policies, m⟩, ⟨hgroups, hvalues, hpolicies, hchildren⟩ => by
    have hG := nodup_address_groupsElements (parent ++ [key]) groups hgroups hchildren
    have hV := nodup_address_map hvalues
      (fun e => (⟨.value e.2, e.1, parent ++ [key]⟩ : Comparable)) fun _ => rfl
    have hQ := nodup_address_map hpolicies
      (fun e => (⟨.policy e.2, e.1, parent ++ [key]⟩ : Comparable)) fun _ => rfl
    rw [ConfigGroup.elements, List.map_cons, List.nodup_cons, List.map_append, List.map_append]
    refine ⟨?_, List.nodup_append.2 ⟨List.nodup_append.2 ⟨hG, hV, ?_⟩, hQ, ?_⟩⟩
    · -- the root group: every other element lies strictly below it
      simp only [List.mem_append, List.map_map, List.mem_map, Function.comp_apply, not_or,
        not_exists, not_and]
      refine ⟨⟨fun cg hcg heq => ?_, fun e _ heq => ?_⟩, fun e _ heq => ?_⟩
      · obtain ⟨_, -, rest, hpath, -⟩ := address_of_mem_groupsElements _ groups cg hcg
        simp [Comparable.address, hpath] at heq
      all_goals simp [Comparable.address] at heq
    · simp only [List.forall_mem_map]
      intro cg hcg e _
      exact address_ne_of_mem_groupsElements hcg groupPrefix_ne_valuePrefix.symm e.1
    · simp only [List.map_map, List.mem_append, List.forall_mem_map, Function.comp_apply]
      rintro a (ha | ha) e _
      · obtain ⟨cg, hcg, rfl⟩ := List.mem_map.1 ha
        exact address_ne_of_mem_groupsElements hcg groupPrefix_ne_policyPrefix.symm e.1
      · obtain ⟨e', -, rfl⟩ := List.mem_map.1 ha
        simp [Comparable.address, ConfigElement.fqPrefix, valuePrefix_ne_policyPrefix]

/-- Distinct elements of the groups of a map with distinct keys have distinct addresses. -/
theorem nodup_address_groupsElements (path : List String) :
    ∀ gs : List (String × ConfigGroup), (gs.map (·.1)).Nodup → groupsKeysDistinct gs →
      ((groupsElements path gs).map Comparable.address).Nodup
  | [], _, _ => by simp [groupsElements]
  | (k, g) :: rest, hkeys, ⟨hg, hrest⟩ => by
    rw [List.map_cons, List.nodup_cons] at hkeys
    rw [groupsElements, List.map_append]
    refine List.nodup_append.2 ⟨ConfigGroup.nodup_address_elements path k g hg,
      nodup_address_groupsElements path rest hkeys.2 hrest, ?_⟩
    -- elements of different groups lie below different keys
    simp only [List.forall_mem_map]
    intro cg hcg cg' hcg' heq
    obtain ⟨r, hpath, -⟩ := ConfigGroup.address_of_mem_elements path k g cg hcg
    obtain ⟨e, he, r', hpath', -⟩ := address_of_mem_groupsElements path rest cg' hcg'
    simp only [Comparable.address, Prod.mk.injEq, hpath, hpath', List.append_cancel_left_eq,
      List.cons.injEq] at heq
    have hkey : e.1 ∈ rest.map (·.1) := List.mem_map_of_mem he
    exact hkeys.1 (heq.2.1 ▸ hkey)
end

/-- The fqPath of an element: its kind's prefix, then `/` before each key down to it. -/
theorem fqPath_eq (cg : Comparable) :
    cg.fqPath = cg.element.fqPrefix ++ pathSeparator ++
      pathSeparator.intercalate (cg.path ++ [cg.key]) := by
  unfold Comparable.fqPath
  split
  · next h => simp [List.isEmpty_iff.1 h]
  · next h =>
    rw [String.intercalate_append_of_ne_nil (by simpa using h) (List.cons_ne_nil _ _),
      String.intercalate_singleton]
    simp only [String.append_assoc]

theorem length_toList_fqPrefix (e : ConfigElement) : e.fqPrefix.toList.length = 9 := by
  cases e <;> simp only [ConfigElement.fqPrefix] <;> decide

/-- Keys without `/` make the fqPath name the address: the prefix gives the kind back and
    splitting at `/` the keys. -/
theorem address_eq_of_fqPath_eq {cg cg' : Comparable}
    (h : ∀ s ∈ cg.path ++ [cg.key], '/' ∉ s.toList)
    (h' : ∀ s ∈ cg'.path ++ [cg'.key], '/' ∉ s.toList) (heq : cg.fqPath = cg'.fqPath) :
    cg.address = cg'.address := by
  have hsep : pathSeparator.toList = ['/'] := by decide
  rw [fqPath_eq, fqPath_eq] at heq
  have hlist := congrArg String.toList heq
  simp only [String.toList_append, String.toList_intercalate, hsep, List.append_assoc] at hlist
  obtain ⟨hpre, hrest⟩ := List.append_inj hlist
    (by rw [length_toList_fqPrefix, length_toList_fqPrefix])
  -- both sides split at `/` into the keys they were joined from
  have hkeys := congrArg (List.splitOn '/') (List.append_cancel_left hrest)
  have hfree : ∀ l : List String, (∀ s ∈ l, '/' ∉ s.toList) → ∀ c ∈ l.map String.toList, '/' ∉ c :=
    fun l hl c hc => by
      obtain ⟨s, hs, rfl⟩ := List.mem_map.1 hc
      exact hl s hs
  rw [List.splitOn_intercalate '/' (hfree _ h) (by simp),
    List.splitOn_intercalate '/' (hfree _ h') (by simp)] at hkeys
  simp only [Comparable.address, Prod.mk.injEq]
  exact ⟨String.toList_injective hpre,
    List.map_injective_iff.2 (fun _ _ => String.toList_injective) hkeys⟩

/-! ## What mapConfig returns -/

theorem mapConfig_eq (G : ConfigGroup) (r : String) :
    mapConfig G r = (G.elements [] r).foldlM (fun result cg => addToMap cg result) GoMap.empty :=
  recurseConfig_eq _ _ _ G

/-- Keys that pass `validateConfigID` put no `/` on the way down to any element. -/
theorem slash_not_mem_path {G : ConfigGroup} {r : String}
    (hvalid : ∀ cg ∈ G.elements [] r, validateConfigID cg.key = .ok ()) :
    ∀ cg ∈ G.elements [] r, ∀ s ∈ cg.path ++ [cg.key], '/' ∉ s.toList := by
  intro cg hcg s hs
  rcases ConfigGroup.mem_path_of_mem_elements [] r G cg hcg s hs with hs | ⟨cg', hcg', rfl⟩
  · simp at hs
  · exact slash_not_mem_of_validateConfigID (hvalid cg' hcg')

/-- Distinct elements of a tree with valid keys have distinct fqPaths. -/
theorem nodup_fqPath_elements {G : ConfigGroup} {r : String} (hG : G.KeysDistinct)
    (hvalid : ∀ cg ∈ G.elements [] r, validateConfigID cg.key = .ok ()) :
    ((G.elements [] r).map Comparable.fqPath).Nodup := by
  have hfree := slash_not_mem_path hvalid
  have hnd := ConfigGroup.nodup_address_elements [] r G hG
  refine List.Nodup.map_on (fun x hx y hy hxy => ?_) (List.Nodup.of_map Comparable.address hnd)
  exact List.inj_on_of_nodup_map hnd hx hy
    (address_eq_of_fqPath_eq (hfree x hx) (hfree y hy) hxy)

/-- Over valid keys, `mapConfig` stores each element under its fqPath. -/
theorem mapConfig_eq_ok {G : ConfigGroup} {r : String}
    (hvalid : ∀ cg ∈ G.elements [] r, validateConfigID cg.key = .ok ()) :
    mapConfig G r =
      .ok ((G.elements [] r).foldl (fun result cg => result.insert cg.fqPath cg) GoMap.empty) := by
  rw [mapConfig_eq]
  exact FoldM.foldlM_eq_ok_foldl _ _ fun result cg hcg => addToMap_of_valid (hvalid cg hcg) result

/-- The map of a tree with valid keys holds exactly its elements, each under its fqPath. -/
theorem get?_mapConfig {G : ConfigGroup} {r : String} (hG : G.KeysDistinct)
    (hvalid : ∀ cg ∈ G.elements [] r, validateConfigID cg.key = .ok ()) (p : String)
    (cg : Comparable) :
    ((G.elements [] r).foldl (fun result cg => result.insert cg.fqPath cg) GoMap.empty).get? p =
      some cg ↔ cg ∈ G.elements [] r ∧ p = cg.fqPath := by
  constructor
  · intro h
    rcases GoMap.get?_foldl_insert Comparable.fqPath id _ GoMap.empty h with h | ⟨a, ha, hp, rfl⟩
    · simp at h
    · exact ⟨ha, hp.symm⟩
  · rintro ⟨hcg, rfl⟩
    exact GoMap.get?_foldl_insert_of_mem Comparable.fqPath id (nodup_fqPath_elements hG hvalid)
      hcg GoMap.empty

/-! ## Rebuilding the tree -/

/-- Writing a key's own value back leaves a map with distinct keys as it is. -/
theorem setKey_of_mem {V : Type} {m : List (String × V)} (hm : (m.map (·.1)).Nodup) {k : String}
    {v : V} (h : (k, v) ∈ m) : setKey m k v = m := by
  have hany : m.any (·.1 == k) = true := List.any_eq_true.2 ⟨(k, v), h, by simp⟩
  rw [setKey, if_pos hany]
  refine (List.map_congr_left fun e he => ?_).trans (List.map_id m)
  split
  · next hek => exact (List.inj_on_of_nodup_map hm he h hek).symm
  · rfl

/-- The hacky fix changes nothing in a group whose mod_policies are all set. -/
theorem hackyFix_eq_self {g : ConfigGroup} (hg : g.modPolicy ≠ "")
    (hv : ∀ e ∈ g.values, e.2.modPolicy ≠ "") (hp : ∀ e ∈ g.policies, e.2.modPolicy ≠ "") :
    hackyFix g = g := by
  have hvalues : (g.values.map fun (k, v) =>
      (k, if v.modPolicy == "" then { v with modPolicy := hackyFixNewModPolicy } else v)) =
      g.values := by
    refine (List.map_congr_left fun e he => ?_).trans (List.map_id _)
    obtain ⟨k, v⟩ := e
    simp [hv _ he]
  have hpolicies : (g.policies.map fun (k, p) =>
      (k, if p.modPolicy == "" then { p with modPolicy := hackyFixNewModPolicy } else p)) =
      g.policies := by
    refine (List.map_congr_left fun e he => ?_).trans (List.map_id _)
    obtain ⟨k, p⟩ := e
    simp [hp _ he]
  unfold hackyFix
  rw [hvalues, hpolicies]
  -- a recursive structure has no eta: take `g` apart to see it rebuilt
  obtain ⟨_, _, _, _, _⟩ := g
  simp [hg]

theorem pathSeparator_intercalate_append {l : List String} (hl : l ≠ []) (k : String) :
    pathSeparator.intercalate (l ++ [k]) = pathSeparator.intercalate l ++ pathSeparator ++ k := by
  rw [String.intercalate_append_of_ne_nil hl (List.cons_ne_nil _ _), String.intercalate_singleton]

/-- The fqPath of an element held by the group at the non-empty path `l`, in the form
    `recurseConfigMap` builds it. -/
theorem fqPath_of_ne_nil (e : ConfigElement) {l : List String} (hl : l ≠ []) (k : String) :
    (⟨e, k, l⟩ : Comparable).fqPath =
      e.fqPrefix ++ (pathSeparator ++ pathSeparator.intercalate l) ++ pathSeparator ++ k := by
  rw [fqPath_eq, pathSeparator_intercalate_append hl]
  simp only [String.append_assoc]

mutual
/-- A map holding every element of a tree under its fqPath, with every mod_policy set, gives
    the tree back from the path of its root group. -/
theorem ConfigGroup.recurseConfigMap_eq (M : ConfigMap) (parent : List String) (key : String) :
    ∀ g : ConfigGroup, g.KeysDistinct →
      (∀ cg ∈ g.elements parent key, M.get? cg.fqPath = some cg ∧ cg.element.modPolicy ≠ "") →
      recurseConfigMap (pathSeparator ++ pathSeparator.intercalate (parent ++ [key])) M = .ok g
  | ⟨v, groups, values, policies, m⟩, ⟨hgroups, hvalues, hpolicies, hchildren⟩, hheld => by
    have hl : parent ++ [key] ≠ [] := by simp
    -- the mod_policies of the group and of its values and policies are set
    have hfix : hackyFix ⟨v, groups, values, policies, m⟩ = ⟨v, groups, values, policies, m⟩ :=
      hackyFix_eq_self (hheld _ (ConfigGroup.mem_elements.2 (Or.inl rfl))).2
        (fun e he =>
          (hheld _ (ConfigGroup.mem_elements.2 (Or.inr (Or.inr (Or.inl ⟨e.1, e.2, he, rfl⟩))))).2)
        (fun e he =>
          (hheld _ (ConfigGroup.mem_elements.2 (Or.inr (Or.inr (Or.inr ⟨e.1, e.2, he, rfl⟩))))).2)
    have hself := (hheld _ (ConfigGroup.mem_elements.2 (Or.inl rfl))).1
    rw [fqPath_eq] at hself
    simp only [ConfigElement.fqPrefix, String.append_assoc] at hself
    rw [recurseConfigMap]
    dsimp only
    split
    · next hnone =>
      rw [hself] at hnone
      cases hnone
    · next group hsome =>
      rw [hself] at hsome
      cases hsome
      dsimp only
      -- each loop writes back what the group already holds
      rw [FoldM.foldlM_eq_ok_self groups ?groups]
      case groups =>
        rintro ⟨k, child⟩ hchild
        have hrec := recurseConfigMap_eq_groups M (parent ++ [key]) groups hchildren
          (fun cg hcg => hheld cg (ConfigGroup.mem_elements.2 (Or.inr (Or.inl hcg)))) _ hchild
        rw [pathSeparator_intercalate_append hl] at hrec
        simp only [String.append_assoc] at hrec ⊢
        simp only [hrec, bind, Except.bind, setKey_of_mem hgroups hchild]
        rfl
      simp only [bind, Except.bind]
      rw [FoldM.foldlM_eq_ok_self values ?values]
      case values =>
        rintro ⟨k, x⟩ hx
        have hget := (hheld _ (ConfigGroup.mem_elements.2 (Or.inr (Or.inr (Or.inl ⟨k, x, hx, rfl⟩))))).1
        rw [fqPath_of_ne_nil _ hl] at hget
        simp only [ConfigElement.fqPrefix] at hget
        simp only [hget, setKey_of_mem hvalues hx]
        rfl
      simp only
      rw [FoldM.foldlM_eq_ok_self policies ?policies]
      case policies =>
        rintro ⟨k, x⟩ hx
        have hget := (hheld _ (ConfigGroup.mem_elements.2 (Or.inr (Or.inr (Or.inr ⟨k, x, hx, rfl⟩))))).1
        rw [fqPath_of_ne_nil _ hl] at hget
        simp only [ConfigElement.fqPrefix] at hget
        simp only [hget, setKey_of_mem hpolicies hx]
        rfl
      simp only [hfix, ite_self]
      rfl

/-- The groups of a map, each rebuilt from its own path. -/
theorem recurseConfigMap_eq_groups (M : ConfigMap) (path : List String) :
    ∀ gs : List (String × ConfigGroup), groupsKeysDistinct gs →
      (∀ cg ∈ groupsElements path gs, M.get? cg.fqPath = some cg ∧ cg.element.modPolicy ≠ "") →
      ∀ e ∈ gs,
        recurseConfigMap (pathSeparator ++ pathSeparator.intercalate (path ++ [e.1])) M = .ok e.2
  | [], _, _, e, he => by simp at he
  | (k, g) :: rest, ⟨hg, hrest⟩, hheld, e, he => by
    rcases List.mem_cons.1 he with rfl | he
    · exact ConfigGroup.recurseConfigMap_eq M path k g hg fun cg hcg =>
        hheld cg (by rw [groupsElements]; exact List.mem_append_left _ hcg)
    · exact recurseConfigMap_eq_groups M path rest hrest
        (fun cg hcg => hheld cg (by rw [groupsElements]; exact List.mem_append_right _ hcg)) e he
end

/-! ## The round trip -/

/-- `mapConfig` returns exactly when every key of the tree, the root's included, passes
    `validateConfigID`. Then distinct elements get distinct fqPaths, the map holds exactly the
    elements of the tree, each under its own fqPath, and when every mod_policy is set
    `configMapToConfig` gives the tree back. -/
theorem mapConfig_round_trip (G : ConfigGroup) (r : String) (hG : G.KeysDistinct) :
    ((∃ M, mapConfig G r = .ok M) ↔ ∀ cg ∈ G.elements [] r, validateConfigID cg.key = .ok ()) ∧
      ((∀ cg ∈ G.elements [] r, validateConfigID cg.key = .ok ()) →
        ∃ M, mapConfig G r = .ok M ∧ ((G.elements [] r).map Comparable.fqPath).Nodup ∧
          (∀ p cg, M.get? p = some cg ↔ cg ∈ G.elements [] r ∧ p = cg.fqPath) ∧
          ((∀ cg ∈ G.elements [] r, cg.element.modPolicy ≠ "") →
            configMapToConfig M r = .ok G)) := by
  refine ⟨⟨fun ⟨M, hM⟩ => ?_, fun hvalid => ⟨_, mapConfig_eq_ok hvalid⟩⟩, fun hvalid => ?_⟩
  · -- a run that returns passed every key
    rw [mapConfig_eq] at hM
    exact FoldM.forall_mem_of_except_ok _ _ (fun _ _ _ h => valid_of_addToMap h) _ _ _ hM
  · refine ⟨_, mapConfig_eq_ok hvalid, nodup_fqPath_elements hG hvalid, get?_mapConfig hG hvalid,
      fun hmod => ?_⟩
    have hrebuilt := ConfigGroup.recurseConfigMap_eq _ [] r G hG fun cg hcg =>
      ⟨(get?_mapConfig hG hvalid _ cg).2 ⟨hcg, rfl⟩, hmod cg hcg⟩
    simpa [configMapToConfig] using hrebuilt

/-- A channel whose orderer group holds the `Capabilities` value the hacky fix looks for. -/
def ordererChannel : ConfigGroup :=
  ⟨0, [("Orderer", ⟨0, [], [("Capabilities", ⟨0, [1], "Admins"⟩)], [], "Admins"⟩)], [],
    [("Admins", ⟨0, none, "Admins"⟩)], "Admins"⟩

theorem mapConfig_round_trip_ordererChannel :
    ordererChannel.KeysDistinct ∧
      ∃ M, mapConfig ordererChannel "Channel" = .ok M ∧
        configMapToConfig M "Channel" = .ok ordererChannel := by
  have hG : ordererChannel.KeysDistinct := by
    simp [ordererChannel, ConfigGroup.KeysDistinct, groupsKeysDistinct]
  have hvalid : ∀ cg ∈ ordererChannel.elements [] "Channel", validateConfigID cg.key = .ok () := by
    decide
  have hmod : ∀ cg ∈ ordererChannel.elements [] "Channel", cg.element.modPolicy ≠ "" := by
    decide
  obtain ⟨M, hM, -, -, hround⟩ := (mapConfig_round_trip ordererChannel "Channel" hG).2 hvalid
  exact ⟨hG, M, hM, hround hmod⟩

end Fabric.Configtx
