import Fabric.Ledger.RwSet
import Fabric.Ledger.LevelDBHelper
import Fabric.Lib.FoldM
import Fabric.Lib.Runs
import Mathlib

/-
  Key-level validation parameters (`core/common/validation/statebased/vpmanagerimpl.go`) over
  every interleaving of the calls made on one block.

  The validation of a transaction that reads a key's validation parameter must not use the one in
  the ledger when an earlier transaction of the block, found valid, changes it. The manager tracks
  this with a context for the block: `ExtractValidationParameterDependency` files the
  transaction under each key whose metadata its read-write set writes and then closes the
  transaction's `depInserted`; `SetTxValidationResult` records its validation result for a
  namespace; `GetValidationParameterForKey` waits until every earlier transaction has closed
  `depInserted`, takes the transactions filed under the key before its own, and waits for the
  result of each in the key's namespace: a `nil` result means the parameter was updated, and
  otherwise it reads the ledger.

  Each call is a routine; an event runs a routine's next critical section under the context's
  mutex or a dependency's (`forBlock`, `getOrCreateDependencyByTxnum`, one `addDependency`,
  `signalDepInserted`, the snapshot of `dependenciesForTxnum`, one retrieval of a result,
  `signalValidationResult`); a routine that waits on `depInserted` or on the condition variable
  leaves the state as it is. A client that makes its calls one after another only restricts the
  interleavings, so what holds of every run here holds of it. Within a block a `*txDependency`
  is named by its transaction number: `getOrCreateDependencyByTxnum` makes one per transaction
  and never replaces it, and `addDependency` files the one the same call made. The ledger that
  `GetValidationParameterForKey` reads is fixed: nothing is committed while a block is validated.

  Proved here, over every run of a block's calls on the context a lower block left, the calls
  extracting each transaction's dependencies once and setting each result once, as the `sync.Once`
  of `PreValidate` and the validator make sure:
  - `Manager.Inv`: `depInserted` is closed exactly for the extractions that returned, the results
    are those of the calls that set them, every transaction filed under a key writes its metadata,
    and each routine has done what `Routine.Ok` says of its phase; each event keeps it
    (`Manager.Inv.step`, one lemma a phase);
  - a lookup that returns answers what the calls alone say (`expectedParameter`,
    `get_returns_expected`), no call panics (`manager_never_panics`), and a lookup waits for ever
    on an earlier transaction that is never extracted (`get_waits_for_extraction`);
  - each event that takes effect lowers `Manager.measure` (`manager_returns`); while a call has
    not returned some event takes effect, when every lookup has what it waits for
    (`manager_progress`); so once a run goes no further every lookup has its answer
    (`get_answers_when_stuck`).
  Extracting one transaction twice, which `PreValidate`'s `sync.Once` prevents, panics the peer on
  the second close of `depInserted` (`extract_twice_panics`).

  The logging is left out, and so is the unmarshalling of the read-write set: one that does not
  unmarshal is `none`.
-/

namespace Fabric.Statebased

open Fabric.Ledger (Bytes TxRwSet)
open Fabric.LevelDBHelper (goBytes)

/-- `ledgerKeyID`: a key of a namespace, or the hash of a key of one of its collections. The key
    is a Go string, any bytes: for a collection, `string(keyHash)`. -/
structure LedgerKeyID where
  cc : String
  coll : String
  key : Bytes
  deriving DecidableEq, Repr

/-- The keys whose metadata a read-write set writes, in the order of the loop of
    `ExtractValidationParameterDependency`; a read-write set that does not unmarshal is `none`
    and writes none. -/
def metadataKeys : Option TxRwSet → List LedgerKeyID
  | none => []
  | some rwset =>
    rwset.nsRwSets.flatMap fun rws =>
      rws.kvRwSet.metadataWrites.map (fun mw => ⟨rws.nameSpace, "", goBytes mw.key⟩) ++
        rws.collHashedRwSets.flatMap fun cw =>
          cw.hashedRwSet.metadataWrites.map fun mw =>
            ⟨rws.nameSpace, cw.collectionName, goBytes mw.keyHash⟩

section Context

variable {Err : Type}

/-- `txDependency`: whether `depInserted` is closed, and the validation result per namespace, a
    `nil` error being `none`. -/
structure TxDependency (Err : Type) where
  validationResultMap : GoMap String (Option Err)
  depInserted : Bool

/-- `newTxDependency`. -/
def newTxDependency : TxDependency Err := ⟨GoMap.empty, false⟩

/-- `waitForDepInserted`: whether it returns, rather than waits. -/
def TxDependency.waitForDepInserted (d : TxDependency Err) : Bool := d.depInserted

/-- `signalDepInserted`: closing `depInserted` again panics (`none`). -/
def TxDependency.signalDepInserted (d : TxDependency Err) : Option (TxDependency Err) :=
  if d.depInserted then none else some { d with depInserted := true }

/-- `waitForAndRetrieveValidationResult`: the result for `ns`, or `none` while it waits. -/
def TxDependency.waitForAndRetrieveValidationResult (d : TxDependency Err) (ns : String) :
    Option (Option Err) :=
  d.validationResultMap.get? ns

/-- `signalValidationResult`. -/
def TxDependency.signalValidationResult (d : TxDependency Err) (ns : String) (err : Option Err) :
    TxDependency Err :=
  { d with validationResultMap := d.validationResultMap.insert ns err }

/-- `validationContext`, a `*txDependency` named by its transaction number. -/
structure ValidationContext (Err : Type) where
  blockHeight : Nat
  depsByTxnumMap : GoMap Nat (TxDependency Err)
  depsByLedgerKeyIDMap : GoMap LedgerKeyID (GoMap Nat Unit)

/-- `forBlock`: a block below the current one panics (`none`), and a later one resets the maps. -/
def ValidationContext.forBlock (c : ValidationContext Err) (newHeight : Nat) :
    Option (ValidationContext Err) :=
  if newHeight < c.blockHeight then none
  else if c.blockHeight < newHeight then some ⟨newHeight, GoMap.empty, GoMap.empty⟩
  else some c

/-- `addDependency`. -/
def ValidationContext.addDependency (c : ValidationContext Err) (kid : LedgerKeyID) (txnum : Nat) :
    ValidationContext Err :=
  let dl := (c.depsByLedgerKeyIDMap.get? kid).getD GoMap.empty
  { c with depsByLedgerKeyIDMap := c.depsByLedgerKeyIDMap.insert kid (dl.insert txnum ()) }

/-- `dependenciesForTxnum`, visiting the key's map in `order`. -/
def ValidationContext.dependenciesForTxnum (c : ValidationContext Err)
    (order : GoMap.RangeOrder Nat Unit) (kid : LedgerKeyID) (txnum : Nat) : List Nat :=
  match c.depsByLedgerKeyIDMap.get? kid with
  | some dl => ((order.visit dl).filter fun e => e.1 < txnum).map Prod.fst
  | none => []

/-- `getOrCreateDependencyByTxnum`. -/
def ValidationContext.getOrCreateDependencyByTxnum (c : ValidationContext Err) (txnum : Nat) :
    ValidationContext Err :=
  match c.depsByTxnumMap.get? txnum with
  | some _ => c
  | none => { c with depsByTxnumMap := c.depsByTxnumMap.insert txnum newTxDependency }

/-- The `*txDependency` of transaction `txnum`. -/
def ValidationContext.dep (c : ValidationContext Err) (txnum : Nat) : TxDependency Err :=
  (c.depsByTxnumMap.get? txnum).getD newTxDependency

/-- A method of the `*txDependency` of transaction `txnum` leaves it as `d`. -/
def ValidationContext.setDep (c : ValidationContext Err) (txnum : Nat) (d : TxDependency Err) :
    ValidationContext Err :=
  { c with depsByTxnumMap := c.depsByTxnumMap.insert txnum d }

end Context

/-! ## Reading the ledger -/

/-- What `GetValidationParameterForKey` reads once it may: the `StateFetcher`, the state it
    fetches and the `PolicyTranslator`, each answering or failing with a message. -/
structure LedgerView where
  fetchState : Except Bytes Unit
  getStateMetadata : String → Bytes → Except Bytes (GoMap String Bytes)
  getPrivateDataMetadataByHash : String → String → Bytes → Except Bytes (GoMap String Bytes)
  translate : Bytes → Except Bytes Bytes

/-- `errors.WithMessage`. -/
def withMessage (message err : Bytes) : Bytes := message ++ goBytes ": " ++ err

/-- A lower-case hex digit. -/
def hexDigit (n : UInt8) : UInt8 := if n < 10 then 0x30 + n else 0x57 + n

/-- The `%x` verb on a byte slice: two lower-case hex digits a byte. -/
def hexBytes (bs : Bytes) : Bytes := bs.flatMap fun b => [hexDigit (b / 16), hexDigit (b % 16)]

/-- The tail of `GetValidationParameterForKey`: the translated `VALIDATION_PARAMETER` entry of
    the key's metadata in the ledger. The key is written with `%s` as it is and with `%x` in hex. -/
def LedgerView.getValidationParameter (v : LedgerView) (cc coll : String) (key : Bytes) :
    Except Bytes Bytes :=
  match v.fetchState with
  | .error err => .error (withMessage (goBytes "could not retrieve ledger") err)
  | .ok () =>
    let mdMap :=
      if coll = "" then
        (v.getStateMetadata cc key).mapError
          (withMessage (goBytes ("could not retrieve metadata for " ++ cc ++ ":") ++ key))
      else
        (v.getPrivateDataMetadataByHash cc coll key).mapError
          (withMessage (goBytes ("could not retrieve metadata for " ++ cc ++ ":" ++ coll ++ ":") ++
            hexBytes key))
    match mdMap with
    | .error err => .error err
    | .ok mdMap =>
      (v.translate ((mdMap.get? "VALIDATION_PARAMETER").getD [])).mapError fun err =>
        if coll = "" then
          withMessage (goBytes ("could not translate policy for " ++ cc ++ ":") ++ key) err
        else withMessage (goBytes ("could not translate policy for " ++ cc ++ ":" ++ coll ++ ":") ++
          hexBytes key) err

/-- An error of `GetValidationParameterForKey`. -/
inductive VpError where
  /-- `ValidationParameterUpdatedError` -/
  | validationParameterUpdated (cc coll : String) (key : Bytes) (height txnum : Nat)
  /-- any other, by its message -/
  | message (text : Bytes)
  deriving DecidableEq, Repr

/-! ## The calls -/

/-- A call on the manager, for the block being validated. -/
inductive Call (Err : Type) where
  | extractValidationParameterDependency (txNum : Nat) (rwset : Option TxRwSet)
  | getValidationParameterForKey (kid : LedgerKeyID) (txNum : Nat)
  | setTxValidationResult (ns : String) (txNum : Nat) (err : Option Err)
  deriving DecidableEq, Repr

/-- Where a call is. -/
inductive Routine (Err : Type) where
  /-- not started: next, `forBlock` -/
  | calling (call : Call Err)
  /-- `ExtractValidationParameterDependency`: next, `getOrCreateDependencyByTxnum` -/
  | extractDep (txNum : Nat) (rwset : Option TxRwSet)
  /-- adding the dependencies still `pending`, then `signalDepInserted` -/
  | extractAdd (txNum : Nat) (pending : List LedgerKeyID)
  /-- `GetValidationParameterForKey` with `left` transactions to wait for: next,
      `getOrCreateDependencyByTxnum(left - 1)`, or the snapshot of the dependencies -/
  | waitDep (kid : LedgerKeyID) (txNum left : Nat)
  /-- waiting for transaction `i` to close `depInserted` -/
  | waitInserted (kid : LedgerKeyID) (txNum i : Nat)
  /-- retrieving the result of each dependency still `pending`, then reading the ledger -/
  | waitResult (kid : LedgerKeyID) (txNum : Nat) (pending : List Nat)
  /-- `SetTxValidationResult`: next, `getOrCreateDependencyByTxnum` -/
  | setDep (ns : String) (txNum : Nat) (err : Option Err)
  /-- next, `signalValidationResult` -/
  | setSignal (ns : String) (txNum : Nat) (err : Option Err)
  /-- `GetValidationParameterForKey` returned -/
  | returned (result : Except VpError Bytes)
  /-- `ExtractValidationParameterDependency` or `SetTxValidationResult` returned -/
  | finished
  /-- the peer panicked -/
  | panicked
  deriving DecidableEq, Repr

section Step

variable {Err : Type}

/-- Where a call goes once past `forBlock`. -/
def Call.begin : Call Err → Routine Err
  | .extractValidationParameterDependency txNum rwset => .extractDep txNum rwset
  | .getValidationParameterForKey kid txNum => .waitDep kid txNum txNum
  | .setTxValidationResult ns txNum err => .setDep ns txNum err

/-- A routine's next critical section in block `b`, over the context `c`: its next phase and the
    context it leaves. -/
def Routine.step (b : Nat) (v : LedgerView) (order : GoMap.RangeOrder Nat Unit)
    (c : ValidationContext Err) : Routine Err → Routine Err × ValidationContext Err
  | .calling call =>
    match c.forBlock b with
    | some c => (call.begin, c)
    | none => (.panicked, c)
  | .extractDep txNum rwset =>
    (.extractAdd txNum (metadataKeys rwset), c.getOrCreateDependencyByTxnum txNum)
  | .extractAdd txNum (kid :: pending) => (.extractAdd txNum pending, c.addDependency kid txNum)
  | .extractAdd txNum [] =>
    match (c.dep txNum).signalDepInserted with
    | some d => (.finished, c.setDep txNum d)
    | none => (.panicked, c)
  | .waitDep kid txNum 0 => (.waitResult kid txNum (c.dependenciesForTxnum order kid txNum), c)
  | .waitDep kid txNum (i + 1) => (.waitInserted kid txNum i, c.getOrCreateDependencyByTxnum i)
  | .waitInserted kid txNum i =>
    if (c.dep i).waitForDepInserted then (.waitDep kid txNum i, c)
    else (.waitInserted kid txNum i, c)
  | .waitResult kid txNum (t :: pending) =>
    match (c.dep t).waitForAndRetrieveValidationResult kid.cc with
    | none => (.waitResult kid txNum (t :: pending), c)
    | some none =>
      (.returned (.error (.validationParameterUpdated kid.cc kid.coll kid.key b txNum)), c)
    | some (some _) => (.waitResult kid txNum pending, c)
  | .waitResult kid _ [] =>
    (.returned ((v.getValidationParameter kid.cc kid.coll kid.key).mapError .message), c)
  | .setDep ns txNum err => (.setSignal ns txNum err, c.getOrCreateDependencyByTxnum txNum)
  | .setSignal ns txNum err =>
    (.finished, c.setDep txNum ((c.dep txNum).signalValidationResult ns err))
  | .returned result => (.returned result, c)
  | .finished => (.finished, c)
  | .panicked => (.panicked, c)

/-- The manager's context and the calls in flight on it. -/
structure Manager (Err : Type) where
  validationCtx : ValidationContext Err
  routines : List (Routine Err)

/-- Routine `routine` runs its next critical section; a range over a map there visits it in
    `order`. -/
structure ManagerEvent where
  routine : Nat
  order : GoMap.RangeOrder Nat Unit

/-- An event of block `b`'s validation, the ledger reading as `v`. -/
def Manager.step (b : Nat) (v : LedgerView) (st : Manager Err) (ev : ManagerEvent) : Manager Err :=
  match st.routines[ev.routine]? with
  | some r =>
    let next := r.step b v ev.order st.validationCtx
    ⟨next.2, st.routines.set ev.routine next.1⟩
  | none => st

/-- The calls `calls` on the context left by the blocks before. -/
def Manager.init (c : ValidationContext Err) (calls : List (Call Err)) : Manager Err :=
  ⟨c, calls.map .calling⟩

/-- A run of events. -/
def Manager.run (b : Nat) (v : LedgerView) (st : Manager Err) (events : List ManagerEvent) :
    Manager Err :=
  events.foldl (Manager.step b v) st

end Step

/-! ## What a call of `GetValidationParameterForKey` should return -/

section Spec

variable {Err : Type} [DecidableEq Err]

/-- The transaction number of an `ExtractValidationParameterDependency` call, with the keys it
    writes the metadata of. -/
def Call.extracted : Call Err → Option (Nat × List LedgerKeyID)
  | .extractValidationParameterDependency txNum rwset => some (txNum, metadataKeys rwset)
  | _ => none

/-- The namespace and transaction number of a `SetTxValidationResult` call. -/
def Call.validated : Call Err → Option (String × Nat)
  | .setTxValidationResult ns txNum _ => some (ns, txNum)
  | _ => none

/-- Each transaction's dependencies are extracted once, as `PreValidate` makes sure. -/
def ExtractsOnce (calls : List (Call Err)) : Prop :=
  ((calls.filterMap Call.extracted).map Prod.fst).Nodup

/-- Each transaction's result for a namespace is set once. -/
def SetsOnce (calls : List (Call Err)) : Prop :=
  (calls.filterMap Call.validated).Nodup

instance instDecidableExtractsOnce (calls : List (Call Err)) : Decidable (ExtractsOnce calls) :=
  inferInstanceAs (Decidable (List.Nodup _))

instance instDecidableSetsOnce (calls : List (Call Err)) : Decidable (SetsOnce calls) :=
  inferInstanceAs (Decidable (List.Nodup _))

/-- The transactions before `txNum` that write the metadata of `kid`. -/
def dependencies (calls : List (Call Err)) (kid : LedgerKeyID) (txNum : Nat) : List Nat :=
  ((calls.filterMap Call.extracted).filter fun e => decide (e.1 < txNum ∧ kid ∈ e.2)).map Prod.fst

/-- What `GetValidationParameterForKey(kid, b, txNum)` should return, read off the calls alone:
    an update error when a transaction before it writes the key's metadata and is valid in the
    key's namespace, and otherwise the parameter in the ledger. -/
def expectedParameter (calls : List (Call Err)) (b : Nat) (v : LedgerView) (kid : LedgerKeyID)
    (txNum : Nat) : Except VpError Bytes :=
  if (dependencies calls kid txNum).any fun t =>
      calls.contains (.setTxValidationResult kid.cc t none) then
    .error (.validationParameterUpdated kid.cc kid.coll kid.key b txNum)
  else (v.getValidationParameter kid.cc kid.coll kid.key).mapError .message

end Spec

/-! ## The context as the block's calls see it -/

section ContextLemmas

variable {Err : Type}

/-- Transaction `txnum` is filed under `kid`. -/
def ValidationContext.Files (c : ValidationContext Err) (kid : LedgerKeyID) (txnum : Nat) : Prop :=
  ((c.depsByLedgerKeyIDMap.get? kid).getD GoMap.empty).get? txnum = some ()

/-- The context that the calls of block `b` see once past `forBlock`: that of a lower block is
    reset. -/
def ValidationContext.view (c : ValidationContext Err) (b : Nat) : ValidationContext Err :=
  if c.blockHeight < b then ⟨b, GoMap.empty, GoMap.empty⟩ else c

variable {c : ValidationContext Err} {b : Nat}

theorem ValidationContext.forBlock_of_le (h : c.blockHeight ≤ b) : c.forBlock b = some (c.view b) := by
  unfold forBlock view
  rw [if_neg (Nat.not_lt.mpr h)]
  split <;> rfl

theorem ValidationContext.blockHeight_view (h : c.blockHeight ≤ b) : (c.view b).blockHeight = b := by
  unfold view
  split
  · rfl
  · omega

theorem ValidationContext.view_of_eq (h : c.blockHeight = b) : c.view b = c := by
  unfold view
  rw [if_neg (by omega)]

@[simp] theorem ValidationContext.blockHeight_getOrCreate (t : Nat) :
    (c.getOrCreateDependencyByTxnum t).blockHeight = c.blockHeight := by
  unfold getOrCreateDependencyByTxnum
  split <;> rfl

@[simp] theorem ValidationContext.dep_getOrCreate (t : Nat) :
    (c.getOrCreateDependencyByTxnum t).dep = c.dep := by
  funext t'
  unfold getOrCreateDependencyByTxnum
  split
  · rfl
  · rename_i hnone
    by_cases h : t' = t
    · subst h
      simp [dep, hnone]
    · simp [dep, h]

@[simp] theorem ValidationContext.files_getOrCreate (t : Nat) :
    (c.getOrCreateDependencyByTxnum t).Files = c.Files := by
  unfold getOrCreateDependencyByTxnum
  split <;> rfl

@[simp] theorem ValidationContext.blockHeight_addDependency (kid : LedgerKeyID) (t : Nat) :
    (c.addDependency kid t).blockHeight = c.blockHeight := rfl

@[simp] theorem ValidationContext.dep_addDependency (kid : LedgerKeyID) (t : Nat) :
    (c.addDependency kid t).dep = c.dep := rfl

theorem ValidationContext.files_addDependency (kid : LedgerKeyID) (t : Nat) {kid' : LedgerKeyID}
    {t' : Nat} : (c.addDependency kid t).Files kid' t' ↔ c.Files kid' t' ∨ (kid' = kid ∧ t' = t) := by
  unfold Files addDependency
  by_cases hk : kid' = kid
  · subst hk
    by_cases ht : t' = t
    · simp [ht]
    · simp [ht]
  · simp [hk]

@[simp] theorem ValidationContext.blockHeight_setDep (t : Nat) (d : TxDependency Err) :
    (c.setDep t d).blockHeight = c.blockHeight := rfl

theorem ValidationContext.dep_setDep (t : Nat) (d : TxDependency Err) (t' : Nat) :
    (c.setDep t d).dep t' = if t' = t then d else c.dep t' := by
  unfold dep setDep
  split <;> simp [*]

@[simp] theorem ValidationContext.files_setDep (t : Nat) (d : TxDependency Err) :
    (c.setDep t d).Files = c.Files := rfl

theorem ValidationContext.mem_dependenciesForTxnum {order : GoMap.RangeOrder Nat Unit}
    {kid : LedgerKeyID} {j t : Nat} : t ∈ c.dependenciesForTxnum order kid j ↔ c.Files kid t ∧ t < j := by
  unfold dependenciesForTxnum Files
  split
  · rename_i dl hdl
    simp only [List.mem_map, List.mem_filter, decide_eq_true_eq, hdl, Option.getD_some]
    constructor
    · rintro ⟨⟨t', u⟩, ⟨hmem, hlt⟩, rfl⟩
      exact ⟨GoMap.get?_of_mem dl ((order.mem_visit dl).mp hmem), hlt⟩
    · rintro ⟨hget, hlt⟩
      exact ⟨(t, ()), ⟨(order.mem_visit dl).mpr (GoMap.mem_entries_of_get? hget), hlt⟩, rfl⟩
  · rename_i hdl
    simp [hdl]

theorem ValidationContext.nodup_dependenciesForTxnum (order : GoMap.RangeOrder Nat Unit)
    (kid : LedgerKeyID) (j : Nat) : (c.dependenciesForTxnum order kid j).Nodup := by
  unfold dependenciesForTxnum
  split
  · rename_i dl _
    -- a map visited in any order has its keys once
    have hkeys : ((order.visit dl).map Prod.fst).Nodup := ((order.perm dl).map Prod.fst).nodup_iff.mpr dl.nodup
    exact hkeys.sublist (List.filter_sublist.map Prod.fst)
  · exact List.nodup_nil

/-- A snapshot holds each transaction before the caller once, so no more of them than that. -/
theorem ValidationContext.length_dependenciesForTxnum_le (order : GoMap.RangeOrder Nat Unit)
    (kid : LedgerKeyID) (j : Nat) : (c.dependenciesForTxnum order kid j).length ≤ j := by
  have hsub : c.dependenciesForTxnum order kid j ⊆ List.range j := fun t ht =>
    List.mem_range.mpr (mem_dependenciesForTxnum.mp ht).2
  simpa using (List.subperm_of_subset (nodup_dependenciesForTxnum order kid j) hsub).length_le

/-- What a step of a call can do to the context: file more transactions, close more
    `depInserted`, record more results. -/
structure ValidationContext.Grows (c c' : ValidationContext Err) : Prop where
  files : ∀ kid t, c.Files kid t → c'.Files kid t
  inserted : ∀ t, (c.dep t).depInserted = true → (c'.dep t).depInserted = true
  results : ∀ t ns x, (c.dep t).validationResultMap.get? ns = some x →
    (c'.dep t).validationResultMap.get? ns = some x

theorem ValidationContext.Grows.of_dep_eq {c' : ValidationContext Err} (hdep : c'.dep = c.dep)
    (hfiles : ∀ kid t, c.Files kid t → c'.Files kid t) : c.Grows c' :=
  ⟨hfiles, fun t h => by rwa [hdep], fun t ns x h => by rwa [hdep]⟩

end ContextLemmas

/-! ## The calls, once each -/

section Once

variable {Err : Type} [DecidableEq Err] {calls : List (Call Err)}

omit [DecidableEq Err] in
theorem Call.extracted_eq_some {call : Call Err} {t : Nat} {keys : List LedgerKeyID} :
    call.extracted = some (t, keys) ↔
      ∃ rwset, call = .extractValidationParameterDependency t rwset ∧ keys = metadataKeys rwset := by
  cases call <;> simp [Call.extracted, eq_comm]

omit [DecidableEq Err] in
theorem mem_dependencies {kid : LedgerKeyID} {j t : Nat} :
    t ∈ dependencies calls kid j ↔
      t < j ∧ ∃ rwset, .extractValidationParameterDependency t rwset ∈ calls ∧ kid ∈ metadataKeys rwset := by
  simp only [dependencies, List.mem_map, List.mem_filter, List.mem_filterMap, decide_eq_true_eq]
  constructor
  · rintro ⟨⟨t', keys⟩, ⟨⟨call, hmem, hcall⟩, hlt, hkid⟩, rfl⟩
    obtain ⟨rwset, rfl, rfl⟩ := Call.extracted_eq_some.mp hcall
    exact ⟨hlt, rwset, hmem, hkid⟩
  · rintro ⟨hlt, rwset, hmem, hkid⟩
    exact ⟨(t, metadataKeys rwset), ⟨⟨_, hmem, rfl⟩, hlt, hkid⟩, rfl⟩

omit [DecidableEq Err] in
theorem nodup_dependencies (hext : ExtractsOnce calls) (kid : LedgerKeyID) (j : Nat) :
    (dependencies calls kid j).Nodup :=
  hext.sublist (List.filter_sublist.map Prod.fst)

omit [DecidableEq Err] in
/-- A transaction's extraction is one call. -/
theorem ExtractsOnce.index_eq (hext : ExtractsOnce calls) {i i' t : Nat} {rwset rwset' : Option TxRwSet}
    (hi : calls[i]? = some (.extractValidationParameterDependency t rwset))
    (hi' : calls[i']? = some (.extractValidationParameterDependency t rwset')) : i = i' := by
  rw [ExtractsOnce, List.map_filterMap] at hext
  exact FoldM.index_eq_of_nodup_filterMap hext hi hi' rfl rfl

omit [DecidableEq Err] in
/-- A transaction's result for a namespace is one call. -/
theorem SetsOnce.index_eq (hset : SetsOnce calls) {i i' t : Nat} {ns : String} {err err' : Option Err}
    (hi : calls[i]? = some (.setTxValidationResult ns t err))
    (hi' : calls[i']? = some (.setTxValidationResult ns t err')) : i = i' :=
  FoldM.index_eq_of_nodup_filterMap hset hi hi' rfl rfl

omit [DecidableEq Err] in
theorem ExtractsOnce.rwset_eq (hext : ExtractsOnce calls) {i t : Nat} {rwset rwset' : Option TxRwSet}
    (hi : calls[i]? = some (.extractValidationParameterDependency t rwset))
    (hmem : .extractValidationParameterDependency t rwset' ∈ calls) : rwset' = rwset := by
  obtain ⟨i', hi'⟩ := List.mem_iff_getElem?.mp hmem
  rw [hext.index_eq hi hi', hi'] at hi
  cases hi
  rfl

omit [DecidableEq Err] in
theorem SetsOnce.err_eq (hset : SetsOnce calls) {i t : Nat} {ns : String} {err err' : Option Err}
    (hi : calls[i]? = some (.setTxValidationResult ns t err))
    (hmem : .setTxValidationResult ns t err' ∈ calls) : err' = err := by
  obtain ⟨i', hi'⟩ := List.mem_iff_getElem?.mp hmem
  rw [hset.index_eq hi hi', hi'] at hi
  cases hi
  rfl

variable {b : Nat} {v : LedgerView} {kid : LedgerKeyID} {j : Nat}

theorem expectedParameter_of_mem {t : Nat} (ht : t ∈ dependencies calls kid j)
    (hvalid : .setTxValidationResult kid.cc t none ∈ calls) :
    expectedParameter calls b v kid j = .error (.validationParameterUpdated kid.cc kid.coll kid.key b j) := by
  rw [expectedParameter, if_pos]
  exact List.any_eq_true.mpr ⟨t, ht, List.contains_iff_mem.mpr hvalid⟩

theorem expectedParameter_of_forall
    (h : ∀ t ∈ dependencies calls kid j, .setTxValidationResult kid.cc t none ∉ calls) :
    expectedParameter calls b v kid j = (v.getValidationParameter kid.cc kid.coll kid.key).mapError .message := by
  rw [expectedParameter, if_neg]
  simp only [List.any_eq_true, List.contains_iff_mem, not_exists, not_and]
  exact h

end Once

/-! ## The invariant -/

section Invariant

variable {Err : Type} [DecidableEq Err]

/-- What a call's routine has done so far, over the context `c` of block `b`: the dependencies an
    extraction filed, the earlier transactions a lookup has seen close `depInserted` and the
    results it has seen valid, and a lookup that returned answers as `expectedParameter`. -/
inductive Routine.Ok (b : Nat) (v : LedgerView) (calls : List (Call Err)) (c : ValidationContext Err) :
    Call Err → Routine Err → Prop
  | calling (call : Call Err) : Routine.Ok b v calls c call (.calling call)
  | extractDep (t : Nat) (rwset : Option TxRwSet) :
      Routine.Ok b v calls c (.extractValidationParameterDependency t rwset) (.extractDep t rwset)
  | extractAdd (t : Nat) (rwset : Option TxRwSet) (done pending : List LedgerKeyID)
      (hsplit : done ++ pending = metadataKeys rwset) (hfiled : ∀ kid ∈ done, c.Files kid t) :
      Routine.Ok b v calls c (.extractValidationParameterDependency t rwset) (.extractAdd t pending)
  | extracted (t : Nat) (rwset : Option TxRwSet) (hfiled : ∀ kid ∈ metadataKeys rwset, c.Files kid t) :
      Routine.Ok b v calls c (.extractValidationParameterDependency t rwset) .finished
  | waitDep (kid : LedgerKeyID) (j left : Nat) (hleft : left ≤ j)
      (hinserted : ∀ t, left ≤ t → t < j → (c.dep t).depInserted = true) :
      Routine.Ok b v calls c (.getValidationParameterForKey kid j) (.waitDep kid j left)
  | waitInserted (kid : LedgerKeyID) (j i : Nat) (hi : i < j)
      (hinserted : ∀ t, i < t → t < j → (c.dep t).depInserted = true) :
      Routine.Ok b v calls c (.getValidationParameterForKey kid j) (.waitInserted kid j i)
  | waitResult (kid : LedgerKeyID) (j : Nat) (done pending : List Nat)
      (hinserted : ∀ t, t < j → (c.dep t).depInserted = true)
      (hperm : (done ++ pending).Perm (dependencies calls kid j))
      (hvalid : ∀ t ∈ done, ∃ e, (c.dep t).validationResultMap.get? kid.cc = some (some e)) :
      Routine.Ok b v calls c (.getValidationParameterForKey kid j) (.waitResult kid j pending)
  | returned (kid : LedgerKeyID) (j : Nat)
      (hextracted : ∀ t, t < j → ∃ rwset, .extractValidationParameterDependency t rwset ∈ calls) :
      Routine.Ok b v calls c (.getValidationParameterForKey kid j)
        (.returned (expectedParameter calls b v kid j))
  | setDep (ns : String) (t : Nat) (err : Option Err) :
      Routine.Ok b v calls c (.setTxValidationResult ns t err) (.setDep ns t err)
  | setSignal (ns : String) (t : Nat) (err : Option Err) :
      Routine.Ok b v calls c (.setTxValidationResult ns t err) (.setSignal ns t err)
  | set (ns : String) (t : Nat) (err : Option Err) :
      Routine.Ok b v calls c (.setTxValidationResult ns t err) .finished

variable {b : Nat} {v : LedgerView} {calls : List (Call Err)}

/-- What a routine has done stays done as the context grows. -/
theorem Routine.Ok.mono {c c' : ValidationContext Err} {call : Call Err} {r : Routine Err}
    (h : Routine.Ok b v calls c call r) (hg : c.Grows c') : Routine.Ok b v calls c' call r := by
  cases h with
  | calling => exact .calling _
  | extractDep => exact .extractDep _ _
  | extractAdd t rwset done pending hsplit hfiled =>
    exact .extractAdd t rwset done pending hsplit fun kid hk => hg.files _ _ (hfiled kid hk)
  | extracted t rwset hfiled => exact .extracted t rwset fun kid hk => hg.files _ _ (hfiled kid hk)
  | waitDep kid j left hleft hinserted =>
    exact .waitDep kid j left hleft fun t h1 h2 => hg.inserted t (hinserted t h1 h2)
  | waitInserted kid j i hi hinserted =>
    exact .waitInserted kid j i hi fun t h1 h2 => hg.inserted t (hinserted t h1 h2)
  | waitResult kid j done pending hinserted hperm hvalid =>
    refine .waitResult kid j done pending (fun t ht => hg.inserted t (hinserted t ht)) hperm ?_
    intro t ht
    obtain ⟨e, he⟩ := hvalid t ht
    exact ⟨e, hg.results _ _ _ he⟩
  | returned kid j hextracted => exact .returned kid j hextracted
  | setDep => exact .setDep _ _ _
  | setSignal => exact .setSignal _ _ _
  | set => exact .set _ _ _

/-- A call just past `forBlock` has done nothing. -/
theorem Routine.Ok.begin (c : ValidationContext Err) (call : Call Err) :
    Routine.Ok b v calls c call call.begin := by
  cases call with
  | extractValidationParameterDependency t rwset => exact .extractDep t rwset
  | getValidationParameterForKey kid j => exact .waitDep kid j j le_rfl fun t h1 h2 => by omega
  | setTxValidationResult ns t err => exact .setDep ns t err

/-- The call `call` of `calls` has returned with its routine `finished`. -/
def Finished (calls : List (Call Err)) (routines : List (Routine Err)) (call : Call Err) : Prop :=
  ∃ i : Nat, calls[i]? = some call ∧ routines[i]? = some Routine.finished

omit [DecidableEq Err] in
/-- A step that neither starts nor ends in `finished` returns no call. -/
theorem finished_set_of_ne {routines : List (Routine Err)} {i : Nat} {r r' : Routine Err}
    (hi : routines[i]? = some r) (hr : r ≠ .finished) (hr' : r' ≠ .finished) (call : Call Err) :
    Finished calls (routines.set i r') call ↔ Finished calls routines call := by
  unfold Finished
  constructor
  · rintro ⟨i', hcall, hfin⟩
    by_cases hii : i = i'
    · subst hii
      rw [List.getElem?_set_self (List.getElem?_eq_some_iff.mp hi).1] at hfin
      exact absurd (Option.some.inj hfin) hr'
    · exact ⟨i', hcall, by rwa [List.getElem?_set_ne hii] at hfin⟩
  · rintro ⟨i', hcall, hfin⟩
    have hii : i ≠ i' := by
      rintro rfl
      rw [hi] at hfin
      exact hr (Option.some.inj hfin)
    exact ⟨i', hcall, by rwa [List.getElem?_set_ne hii]⟩

omit [DecidableEq Err] in
/-- The step that ends in `finished` returns its call. -/
theorem finished_set_finished {routines : List (Routine Err)} {i : Nat} {r : Routine Err}
    {call₀ : Call Err} (hi : routines[i]? = some r) (hr : r ≠ .finished)
    (hcall₀ : calls[i]? = some call₀) (call : Call Err) :
    Finished calls (routines.set i .finished) call ↔ Finished calls routines call ∨ call = call₀ := by
  unfold Finished
  have hlt := (List.getElem?_eq_some_iff.mp hi).1
  constructor
  · rintro ⟨i', hcall, hfin⟩
    by_cases hii : i = i'
    · subst hii
      rw [hcall₀] at hcall
      exact .inr (Option.some.inj hcall).symm
    · exact .inl ⟨i', hcall, by rwa [List.getElem?_set_ne hii] at hfin⟩
  · rintro (⟨i', hcall, hfin⟩ | rfl)
    · have hii : i ≠ i' := by
        rintro rfl
        rw [hi] at hfin
        exact hr (Option.some.inj hfin)
      exact ⟨i', hcall, by rwa [List.getElem?_set_ne hii]⟩
    · exact ⟨i, hcall₀, List.getElem?_set_self hlt⟩

/-- The invariant of the manager over block `b`'s calls `calls`: the context of a lower block
    until a call passes `forBlock`; past it, `depInserted` is closed exactly for the
    extractions that returned, the results are those of the calls that set them, every
    transaction filed under a key writes its metadata, and each routine is `Ok`. -/
structure Manager.Inv (b : Nat) (v : LedgerView) (calls : List (Call Err)) (st : Manager Err) :
    Prop where
  height : st.validationCtx.blockHeight ≤ b
  started : ∀ r ∈ st.routines, (∀ call, r ≠ .calling call) → st.validationCtx.blockHeight = b
  length : st.routines.length = calls.length
  routines : ∀ (i : Nat) call r, calls[i]? = some call → st.routines[i]? = some r →
    Routine.Ok b v calls (st.validationCtx.view b) call r
  inserted : ∀ t, ((st.validationCtx.view b).dep t).depInserted = true ↔
    ∃ rwset, Finished calls st.routines (.extractValidationParameterDependency t rwset)
  results : ∀ t ns x, ((st.validationCtx.view b).dep t).validationResultMap.get? ns = some x ↔
    Finished calls st.routines (.setTxValidationResult ns t x)
  filed : ∀ kid t, (st.validationCtx.view b).Files kid t →
    ∃ rwset, .extractValidationParameterDependency t rwset ∈ calls ∧ kid ∈ metadataKeys rwset

end Invariant

/-! ## Every step keeps the invariant -/

section Steps

variable {Err : Type} {b : Nat} {v : LedgerView} {st : Manager Err}

theorem Manager.step_of_getElem? {i : Nat} {r : Routine Err} (hi : st.routines[i]? = some r)
    (order : GoMap.RangeOrder Nat Unit) :
    st.step b v ⟨i, order⟩ = ⟨(r.step b v order st.validationCtx).2,
      st.routines.set i (r.step b v order st.validationCtx).1⟩ := by
  simp [Manager.step, hi]

theorem Manager.step_of_getElem?_none {i : Nat} (hi : st.routines[i]? = none)
    (order : GoMap.RangeOrder Nat Unit) : st.step b v ⟨i, order⟩ = st := by
  simp [Manager.step, hi]

/-- A routine that stays where it is, waiting or returned, leaves the state as it is. -/
theorem Manager.step_eq_self {i : Nat} {r : Routine Err} {order : GoMap.RangeOrder Nat Unit}
    (hi : st.routines[i]? = some r) (hstep : r.step b v order st.validationCtx = (r, st.validationCtx)) :
    st.step b v ⟨i, order⟩ = st := by
  rw [Manager.step_of_getElem? hi, hstep]
  simp only [FoldM.set_eq_self_of_getElem? hi]

theorem Call.begin_ne_finished (call : Call Err) : call.begin ≠ .finished := by
  cases call <;> nofun

variable [DecidableEq Err] {calls : List (Call Err)}

theorem Manager.Inv.call_of_routine (h : st.Inv b v calls) {i : Nat} {r : Routine Err}
    (hi : st.routines[i]? = some r) : ∃ call, calls[i]? = some call := by
  have hlt := (List.getElem?_eq_some_iff.mp hi).1
  rw [h.length] at hlt
  exact ⟨_, List.getElem?_eq_getElem hlt⟩

/-- Past `forBlock`, a routine works on the context it sees. -/
theorem Manager.Inv.height_eq (h : st.Inv b v calls) {i : Nat} {r : Routine Err}
    (hi : st.routines[i]? = some r) (hr : ∀ call, r ≠ .calling call) :
    st.validationCtx.blockHeight = b :=
  h.started r (List.mem_of_getElem? hi) hr

theorem Manager.Inv.view_eq (h : st.Inv b v calls) {i : Nat} {r : Routine Err}
    (hi : st.routines[i]? = some r) (hr : ∀ call, r ≠ .calling call) :
    st.validationCtx.view b = st.validationCtx :=
  ValidationContext.view_of_eq (h.height_eq hi hr)

/-- The frame of a step: routine `i` moves to `r'` and the context becomes `c'`, grown, with
    the closed `depInserted`, the results and the filed transactions accounted for. -/
theorem Manager.Inv.update (h : st.Inv b v calls) {i : Nat} {call : Call Err} {r r' : Routine Err}
    {c' : ValidationContext Err} (hcall : calls[i]? = some call) (hi : st.routines[i]? = some r)
    (hheight : c'.blockHeight = b) (hgrow : (st.validationCtx.view b).Grows c')
    (hok : Routine.Ok b v calls c' call r')
    (hinserted : ∀ t, (c'.dep t).depInserted = true ↔
      ∃ rwset, Finished calls (st.routines.set i r') (.extractValidationParameterDependency t rwset))
    (hresults : ∀ t ns x, (c'.dep t).validationResultMap.get? ns = some x ↔
      Finished calls (st.routines.set i r') (.setTxValidationResult ns t x))
    (hfiled : ∀ kid t, c'.Files kid t →
      ∃ rwset, .extractValidationParameterDependency t rwset ∈ calls ∧ kid ∈ metadataKeys rwset) :
    Manager.Inv b v calls ⟨c', st.routines.set i r'⟩ := by
  have hview : c'.view b = c' := ValidationContext.view_of_eq hheight
  refine ⟨hheight.le, fun _ _ _ => hheight, by rw [List.length_set, h.length], ?_, ?_, ?_, ?_⟩
  · intro i' call' r'' hcall' hr''
    dsimp only at hr'' ⊢
    rw [hview]
    by_cases hii : i = i'
    · -- the routine that moved
      subst hii
      rw [List.getElem?_set_self (List.getElem?_eq_some_iff.mp hi).1] at hr''
      rw [hcall] at hcall'
      cases hr''
      cases hcall'
      exact hok
    · rw [List.getElem?_set_ne hii] at hr''
      exact (h.routines i' call' r'' hcall' hr'').mono hgrow
  · intro t
    dsimp only
    rw [hview]
    exact hinserted t
  · intro t ns x
    dsimp only
    rw [hview]
    exact hresults t ns x
  · intro kid t
    dsimp only
    rw [hview]
    exact hfiled kid t

/-- A step that returns no call and changes no `*txDependency`. -/
theorem Manager.Inv.quiet (h : st.Inv b v calls) {i : Nat} {call : Call Err} {r r' : Routine Err}
    {c' : ValidationContext Err} (hcall : calls[i]? = some call) (hi : st.routines[i]? = some r)
    (hr : r ≠ .finished) (hr' : r' ≠ .finished) (hheight : c'.blockHeight = b)
    (hdep : c'.dep = (st.validationCtx.view b).dep)
    (hfiles : ∀ kid t, (st.validationCtx.view b).Files kid t → c'.Files kid t)
    (hfiled : ∀ kid t, c'.Files kid t →
      ∃ rwset, .extractValidationParameterDependency t rwset ∈ calls ∧ kid ∈ metadataKeys rwset)
    (hok : Routine.Ok b v calls c' call r') :
    Manager.Inv b v calls ⟨c', st.routines.set i r'⟩ :=
  h.update hcall hi hheight (.of_dep_eq hdep hfiles) hok
    (fun t => by rw [hdep, h.inserted t]; simp only [finished_set_of_ne hi hr hr'])
    (fun t ns x => by rw [hdep, h.results t ns x, finished_set_of_ne hi hr hr'])
    hfiled

/-- A step that returns no call and leaves the context as the calls see it. -/
theorem Manager.Inv.still (h : st.Inv b v calls) {i : Nat} {call : Call Err} {r r' : Routine Err}
    {c' : ValidationContext Err} (hcall : calls[i]? = some call) (hi : st.routines[i]? = some r)
    (hr : r ≠ .finished) (hr' : r' ≠ .finished) (hheight : c'.blockHeight = b)
    (hdep : c'.dep = (st.validationCtx.view b).dep) (hfiles : c'.Files = (st.validationCtx.view b).Files)
    (hok : Routine.Ok b v calls c' call r') :
    Manager.Inv b v calls ⟨c', st.routines.set i r'⟩ :=
  h.quiet hcall hi hr hr' hheight hdep (fun kid t hf => by rwa [hfiles])
    (fun kid t hf => h.filed kid t (by rwa [hfiles] at hf)) hok

/-- A step that moves a started routine and leaves the context as it is. -/
theorem Manager.Inv.still_self (h : st.Inv b v calls) {i : Nat} {call : Call Err}
    {r r' : Routine Err} (hcall : calls[i]? = some call) (hi : st.routines[i]? = some r)
    (hstarted : ∀ call, r ≠ .calling call) (hr : r ≠ .finished)
    (hok : Routine.Ok b v calls st.validationCtx call r') (hr' : r' ≠ .finished) :
    Manager.Inv b v calls ⟨st.validationCtx, st.routines.set i r'⟩ :=
  h.still hcall hi hr hr' (h.height_eq hi hstarted) (by rw [h.view_eq hi hstarted])
    (by rw [h.view_eq hi hstarted]) hok

/-- A step of a started routine past `getOrCreateDependencyByTxnum`, which changes nothing the
    calls see. -/
theorem Manager.Inv.still_getOrCreate (h : st.Inv b v calls) {i : Nat} {call : Call Err}
    {r r' : Routine Err} (hcall : calls[i]? = some call) (hi : st.routines[i]? = some r)
    (hstarted : ∀ call, r ≠ .calling call) (hr : r ≠ .finished) (t : Nat)
    (hok : Routine.Ok b v calls (st.validationCtx.getOrCreateDependencyByTxnum t) call r')
    (hr' : r' ≠ .finished) :
    Manager.Inv b v calls ⟨st.validationCtx.getOrCreateDependencyByTxnum t, st.routines.set i r'⟩ :=
  h.still hcall hi hr hr' (by simp [h.height_eq hi hstarted]) (by simp [h.view_eq hi hstarted])
    (by simp [h.view_eq hi hstarted]) hok

/-- Once every transaction before `j` closed `depInserted`, the snapshot of the key's
    dependencies is every transaction before `j` that writes the key's metadata. -/
theorem Manager.Inv.dependenciesForTxnum_perm (hext : ExtractsOnce calls) (h : st.Inv b v calls)
    {kid : LedgerKeyID} {j : Nat}
    (hinserted : ∀ t, t < j → ((st.validationCtx.view b).dep t).depInserted = true)
    (order : GoMap.RangeOrder Nat Unit) :
    ((st.validationCtx.view b).dependenciesForTxnum order kid j).Perm (dependencies calls kid j) := by
  rw [List.perm_ext_iff_of_nodup (ValidationContext.nodup_dependenciesForTxnum order kid j)
    (nodup_dependencies hext kid j)]
  intro t
  rw [ValidationContext.mem_dependenciesForTxnum, mem_dependencies]
  constructor
  · rintro ⟨hfiled, hlt⟩
    exact ⟨hlt, h.filed kid t hfiled⟩
  · rintro ⟨hlt, rwset, hmem, hkid⟩
    -- the extraction of `t` returned, and it is the one call that extracts `t`
    obtain ⟨rwset', i', hcall', hfin⟩ := (h.inserted t).mp (hinserted t hlt)
    obtain rfl := hext.rwset_eq hcall' hmem
    cases h.routines i' _ _ hcall' hfin with
    | extracted _ _ hfiled => exact ⟨hfiled kid hkid, hlt⟩

theorem Manager.Inv.step_calling (h : st.Inv b v calls) {i : Nat} {call : Call Err}
    (hcall : calls[i]? = some call) (hi : st.routines[i]? = some (.calling call))
    (order : GoMap.RangeOrder Nat Unit) : (st.step b v ⟨i, order⟩).Inv b v calls := by
  have hstep : (Routine.calling call).step b v order st.validationCtx =
      (call.begin, st.validationCtx.view b) := by
    simp only [Routine.step, ValidationContext.forBlock_of_le h.height]
  rw [Manager.step_of_getElem? hi, hstep]
  exact h.still hcall hi nofun (Call.begin_ne_finished call)
    (ValidationContext.blockHeight_view h.height) rfl rfl (.begin _ call)

theorem Manager.Inv.step_extractDep (h : st.Inv b v calls) {i t : Nat} {rwset : Option TxRwSet}
    (hcall : calls[i]? = some (.extractValidationParameterDependency t rwset))
    (hi : st.routines[i]? = some (.extractDep t rwset)) (order : GoMap.RangeOrder Nat Unit) :
    (st.step b v ⟨i, order⟩).Inv b v calls := by
  rw [Manager.step_of_getElem? hi]
  simp only [Routine.step]
  exact h.still_getOrCreate hcall hi nofun nofun t (.extractAdd t rwset [] _ rfl (by simp)) nofun

theorem Manager.Inv.step_extractAdd_cons (h : st.Inv b v calls) {i t : Nat}
    {rwset : Option TxRwSet} {done pending : List LedgerKeyID} {kid : LedgerKeyID}
    (hcall : calls[i]? = some (.extractValidationParameterDependency t rwset))
    (hi : st.routines[i]? = some (.extractAdd t (kid :: pending)))
    (hsplit : done ++ kid :: pending = metadataKeys rwset)
    (hfiled : ∀ kid ∈ done, (st.validationCtx.view b).Files kid t)
    (order : GoMap.RangeOrder Nat Unit) : (st.step b v ⟨i, order⟩).Inv b v calls := by
  have hV := h.view_eq hi nofun
  rw [hV] at hfiled
  rw [Manager.step_of_getElem? hi]
  simp only [Routine.step]
  refine h.quiet hcall hi nofun nofun (by simp [h.height_eq hi nofun]) (by simp [hV]) ?_ ?_ ?_
  · intro kid' t' hf
    rw [hV] at hf
    exact (ValidationContext.files_addDependency kid t).mpr (.inl hf)
  · intro kid' t' hf
    rcases (ValidationContext.files_addDependency kid t).mp hf with hf | ⟨rfl, rfl⟩
    · exact h.filed kid' t' (by rwa [hV])
    · exact ⟨rwset, List.mem_of_getElem? hcall, by rw [← hsplit]; simp⟩
  · refine .extractAdd t rwset (done ++ [kid]) pending (by simpa using hsplit) ?_
    intro kid' hk
    rw [ValidationContext.files_addDependency]
    rcases List.mem_append.mp hk with hk | hk
    · exact .inl (hfiled kid' hk)
    · exact .inr ⟨List.mem_singleton.mp hk, rfl⟩

/-- The extraction closes `depInserted`: it is the only one of its transaction, so the channel
    was open. -/
theorem Manager.Inv.step_extractAdd_nil (hext : ExtractsOnce calls) (h : st.Inv b v calls)
    {i t : Nat} {rwset : Option TxRwSet}
    (hcall : calls[i]? = some (.extractValidationParameterDependency t rwset))
    (hi : st.routines[i]? = some (.extractAdd t []))
    (hfiled : ∀ kid ∈ metadataKeys rwset, (st.validationCtx.view b).Files kid t)
    (order : GoMap.RangeOrder Nat Unit) : (st.step b v ⟨i, order⟩).Inv b v calls := by
  have hV := h.view_eq hi nofun
  have hopen : (st.validationCtx.dep t).depInserted = false := by
    rw [Bool.eq_false_iff]
    intro hins
    rw [← hV] at hins
    obtain ⟨rwset', i', hcall', hfin⟩ := (h.inserted t).mp hins
    obtain rfl := hext.index_eq hcall hcall'
    rw [hi] at hfin
    cases hfin
  have hsig : (st.validationCtx.dep t).signalDepInserted =
      some { st.validationCtx.dep t with depInserted := true } := by
    simp [TxDependency.signalDepInserted, hopen]
  rw [Manager.step_of_getElem? hi]
  simp only [Routine.step, hsig]
  have hfin := finished_set_finished hi nofun hcall
  refine h.update hcall hi (by simp [h.height_eq hi nofun]) ?_ (.extracted t rwset ?_) ?_ ?_ ?_
  · rw [hV]
    refine ⟨fun kid t' hf => hf, fun t' ht' => ?_, fun t' ns x hx => ?_⟩
    · rw [ValidationContext.dep_setDep]
      split <;> simp_all
    · rw [ValidationContext.dep_setDep]
      split <;> simp_all
  · intro kid hk
    simpa [hV] using hfiled kid hk
  · intro t'
    rw [ValidationContext.dep_setDep]
    simp only [hfin, Call.extractValidationParameterDependency.injEq]
    split
    · rename_i ht
      subst ht
      simp
    · rename_i ht
      rw [← hV, h.inserted t']
      simp [ht]
  · intro t' ns x
    rw [ValidationContext.dep_setDep, hfin]
    have hres : ((if t' = t then { st.validationCtx.dep t with depInserted := true }
        else st.validationCtx.dep t').validationResultMap) = (st.validationCtx.dep t').validationResultMap := by
      split <;> simp_all
    rw [hres, ← hV, h.results t' ns x]
    simp
  · intro kid t' hf
    exact h.filed kid t' (by rwa [hV])

/-- A lookup that saw every transaction before `j` close `depInserted` knows each was extracted. -/
theorem Manager.Inv.extracted_of_inserted (h : st.Inv b v calls) {j : Nat}
    (hinserted : ∀ t, t < j → ((st.validationCtx.view b).dep t).depInserted = true) :
    ∀ t, t < j → ∃ rwset, .extractValidationParameterDependency t rwset ∈ calls := by
  intro t ht
  obtain ⟨rwset, i', hcall', -⟩ := (h.inserted t).mp (hinserted t ht)
  exact ⟨rwset, List.mem_of_getElem? hcall'⟩

/-- Past its waits, a lookup takes the snapshot of the key's dependencies. -/
theorem Manager.Inv.step_waitDep_zero (hext : ExtractsOnce calls) (h : st.Inv b v calls)
    {i j : Nat} {kid : LedgerKeyID}
    (hcall : calls[i]? = some (.getValidationParameterForKey kid j))
    (hi : st.routines[i]? = some (.waitDep kid j 0))
    (hinserted : ∀ t, 0 ≤ t → t < j → ((st.validationCtx.view b).dep t).depInserted = true)
    (order : GoMap.RangeOrder Nat Unit) : (st.step b v ⟨i, order⟩).Inv b v calls := by
  have hV := h.view_eq hi nofun
  have hperm : ((st.validationCtx.view b).dependenciesForTxnum order kid j).Perm
      (dependencies calls kid j) :=
    h.dependenciesForTxnum_perm hext (fun t ht => hinserted t (Nat.zero_le t) ht) order
  rw [hV] at hinserted hperm
  rw [Manager.step_of_getElem? hi]
  simp only [Routine.step]
  exact h.still_self hcall hi nofun nofun
    (.waitResult kid j [] _ (fun t ht => hinserted t (Nat.zero_le t) ht) (by simpa using hperm)
      (by simp)) nofun

theorem Manager.Inv.step_waitDep_succ (h : st.Inv b v calls) {i j n : Nat} {kid : LedgerKeyID}
    (hcall : calls[i]? = some (.getValidationParameterForKey kid j))
    (hi : st.routines[i]? = some (.waitDep kid j (n + 1))) (hleft : n + 1 ≤ j)
    (hinserted : ∀ t, n + 1 ≤ t → t < j → ((st.validationCtx.view b).dep t).depInserted = true)
    (order : GoMap.RangeOrder Nat Unit) : (st.step b v ⟨i, order⟩).Inv b v calls := by
  rw [h.view_eq hi nofun] at hinserted
  rw [Manager.step_of_getElem? hi]
  simp only [Routine.step]
  exact h.still_getOrCreate hcall hi nofun nofun n
    (.waitInserted kid j n (by omega) fun t h1 h2 => by simpa using hinserted t h1 h2) nofun

theorem Manager.Inv.step_waitInserted (h : st.Inv b v calls) {i j k : Nat} {kid : LedgerKeyID}
    (hcall : calls[i]? = some (.getValidationParameterForKey kid j))
    (hi : st.routines[i]? = some (.waitInserted kid j k)) (hk : k < j)
    (hinserted : ∀ t, k < t → t < j → ((st.validationCtx.view b).dep t).depInserted = true)
    (order : GoMap.RangeOrder Nat Unit) : (st.step b v ⟨i, order⟩).Inv b v calls := by
  rw [h.view_eq hi nofun] at hinserted
  by_cases hins : (st.validationCtx.dep k).depInserted = true
  · rw [Manager.step_of_getElem? hi]
    simp only [Routine.step, TxDependency.waitForDepInserted, hins, ↓reduceIte]
    refine h.still_self hcall hi nofun nofun (.waitDep kid j k hk.le fun t h1 h2 => ?_) nofun
    rcases Nat.eq_or_lt_of_le h1 with rfl | h1
    · exact hins
    · exact hinserted t h1 h2
  · -- `depInserted` of `k` is open: it goes on waiting
    rwa [Manager.step_eq_self hi (by simp [Routine.step, TxDependency.waitForDepInserted, hins])]

/-- A lookup retrieves the result of its next dependency: waits while there is none, fails on a
    valid one, and goes on past an invalid one. -/
theorem Manager.Inv.step_waitResult_cons (h : st.Inv b v calls) {i j t : Nat} {kid : LedgerKeyID}
    {done pending : List Nat}
    (hcall : calls[i]? = some (.getValidationParameterForKey kid j))
    (hi : st.routines[i]? = some (.waitResult kid j (t :: pending)))
    (hinserted : ∀ t, t < j → ((st.validationCtx.view b).dep t).depInserted = true)
    (hperm : (done ++ t :: pending).Perm (dependencies calls kid j))
    (hvalid : ∀ t ∈ done,
      ∃ e, ((st.validationCtx.view b).dep t).validationResultMap.get? kid.cc = some (some e))
    (order : GoMap.RangeOrder Nat Unit) : (st.step b v ⟨i, order⟩).Inv b v calls := by
  have hV := h.view_eq hi nofun
  have hextracted := h.extracted_of_inserted hinserted
  cases hres : ((st.validationCtx.view b).dep t).validationResultMap.get? kid.cc with
  | none =>
    -- no result yet: it goes on waiting
    rw [hV] at hres
    rwa [Manager.step_eq_self hi
      (by simp [Routine.step, TxDependency.waitForAndRetrieveValidationResult, hres])]
  | some x =>
    have hfin := (h.results t kid.cc x).mp hres
    rw [hV] at hres hinserted hvalid
    rw [Manager.step_of_getElem? hi]
    simp only [Routine.step, TxDependency.waitForAndRetrieveValidationResult, hres]
    cases x with
    | none =>
      -- a valid update of the key before it: the lookup fails
      obtain ⟨i', hcall', -⟩ := hfin
      have hexp := expectedParameter_of_mem (b := b) (v := v) (hperm.subset (by simp))
        (List.mem_of_getElem? hcall')
      refine h.still_self hcall hi nofun nofun ?_ nofun
      rw [← hexp]
      exact .returned kid j hextracted
    | some e =>
      refine h.still_self hcall hi nofun nofun
        (.waitResult kid j (done ++ [t]) pending hinserted (by simpa using hperm) ?_) nofun
      intro t' ht'
      rcases List.mem_append.mp ht' with ht' | ht'
      · exact hvalid t' ht'
      · rw [List.mem_singleton.mp ht']
        exact ⟨e, hres⟩

/-- Every dependency was invalid in the key's namespace: the lookup reads the ledger. -/
theorem Manager.Inv.step_waitResult_nil (hset : SetsOnce calls) (h : st.Inv b v calls)
    {i j : Nat} {kid : LedgerKeyID} {done : List Nat}
    (hcall : calls[i]? = some (.getValidationParameterForKey kid j))
    (hi : st.routines[i]? = some (.waitResult kid j []))
    (hinserted : ∀ t, t < j → ((st.validationCtx.view b).dep t).depInserted = true)
    (hperm : (done ++ []).Perm (dependencies calls kid j))
    (hvalid : ∀ t ∈ done,
      ∃ e, ((st.validationCtx.view b).dep t).validationResultMap.get? kid.cc = some (some e))
    (order : GoMap.RangeOrder Nat Unit) : (st.step b v ⟨i, order⟩).Inv b v calls := by
  have hnone : ∀ t ∈ dependencies calls kid j, .setTxValidationResult kid.cc t none ∉ calls := by
    intro t ht hmem
    obtain ⟨e, he⟩ := hvalid t (by simpa using hperm.symm.subset ht)
    obtain ⟨i', hcall', -⟩ := (h.results t kid.cc (some e)).mp he
    cases hset.err_eq hcall' hmem
  rw [Manager.step_of_getElem? hi]
  simp only [Routine.step]
  refine h.still_self hcall hi nofun nofun ?_ nofun
  rw [← expectedParameter_of_forall hnone]
  exact .returned kid j (h.extracted_of_inserted hinserted)

theorem Manager.Inv.step_setDep (h : st.Inv b v calls) {i t : Nat} {ns : String} {err : Option Err}
    (hcall : calls[i]? = some (.setTxValidationResult ns t err))
    (hi : st.routines[i]? = some (.setDep ns t err)) (order : GoMap.RangeOrder Nat Unit) :
    (st.step b v ⟨i, order⟩).Inv b v calls := by
  rw [Manager.step_of_getElem? hi]
  simp only [Routine.step]
  exact h.still_getOrCreate hcall hi nofun nofun t (.setSignal ns t err) nofun

/-- The result is recorded: it is the only call setting it, so there was none. -/
theorem Manager.Inv.step_setSignal (hset : SetsOnce calls) (h : st.Inv b v calls) {i t : Nat}
    {ns : String} {err : Option Err}
    (hcall : calls[i]? = some (.setTxValidationResult ns t err))
    (hi : st.routines[i]? = some (.setSignal ns t err)) (order : GoMap.RangeOrder Nat Unit) :
    (st.step b v ⟨i, order⟩).Inv b v calls := by
  have hV := h.view_eq hi nofun
  have hnew : ∀ x, ¬ Finished calls st.routines (.setTxValidationResult ns t x) := by
    rintro x ⟨i', hcall', hfin⟩
    obtain rfl := hset.index_eq hcall hcall'
    rw [hi] at hfin
    cases hfin
  have hold : ∀ t' ns' x, (st.validationCtx.dep t').validationResultMap.get? ns' = some x ↔
      Finished calls st.routines (.setTxValidationResult ns' t' x) := by
    intro t' ns' x
    rw [← hV]
    exact h.results t' ns' x
  rw [Manager.step_of_getElem? hi]
  simp only [Routine.step]
  have hfin := finished_set_finished hi nofun hcall
  refine h.update hcall hi (by simp [h.height_eq hi nofun]) ?_ (.set ns t err) ?_ ?_ ?_
  · rw [hV]
    refine ⟨fun kid t' hf => hf, fun t' ht' => ?_, fun t' ns' x hx => ?_⟩
    · rw [ValidationContext.dep_setDep]
      split <;> simp_all [TxDependency.signalValidationResult]
    · rw [ValidationContext.dep_setDep]
      split
      · rename_i ht
        subst ht
        have hns : ns' ≠ ns := by
          rintro rfl
          exact hnew x ((hold _ _ x).mp hx)
        simpa [TxDependency.signalValidationResult, hns] using hx
      · exact hx
  · intro t'
    have hins : (if t' = t then (st.validationCtx.dep t).signalValidationResult ns err
        else st.validationCtx.dep t').depInserted = ((st.validationCtx.view b).dep t').depInserted := by
      rw [hV]
      split <;> simp_all [TxDependency.signalValidationResult]
    rw [ValidationContext.dep_setDep, hins, h.inserted t']
    simp [hfin]
  · intro t' ns' x
    rw [ValidationContext.dep_setDep, hfin, Call.setTxValidationResult.injEq]
    by_cases ht : t' = t
    · subst ht
      by_cases hns : ns' = ns
      · subst hns
        simp [TxDependency.signalValidationResult, hnew x, eq_comm]
      · simp [TxDependency.signalValidationResult, hns, hold]
    · simp [ht, hold]
  · intro kid t' hf
    exact h.filed kid t' (by rwa [hV])

/-- Every event keeps the invariant. -/
theorem Manager.Inv.step (hext : ExtractsOnce calls) (hset : SetsOnce calls) (h : st.Inv b v calls)
    (ev : ManagerEvent) : (st.step b v ev).Inv b v calls := by
  obtain ⟨i, order⟩ := ev
  cases hi : st.routines[i]? with
  | none => rwa [Manager.step_of_getElem?_none hi]
  | some r =>
    obtain ⟨call, hcall⟩ := h.call_of_routine hi
    -- the routine's phase, with what it has done, says what its step does
    cases h.routines i call r hcall hi with
    | calling => exact h.step_calling hcall hi order
    | extractDep => exact h.step_extractDep hcall hi order
    | extractAdd t rwset done pending hsplit hfiled =>
      cases pending with
      | nil => exact h.step_extractAdd_nil hext hcall hi (by simpa [← hsplit] using hfiled) order
      | cons kid pending => exact h.step_extractAdd_cons hcall hi hsplit hfiled order
    | extracted => rwa [Manager.step_eq_self hi rfl]
    | waitDep kid j left hleft hinserted =>
      cases left with
      | zero => exact h.step_waitDep_zero hext hcall hi hinserted order
      | succ n => exact h.step_waitDep_succ hcall hi hleft hinserted order
    | waitInserted kid j k hk hinserted => exact h.step_waitInserted hcall hi hk hinserted order
    | waitResult kid j done pending hinserted hperm hvalid =>
      cases pending with
      | nil => exact h.step_waitResult_nil hset hcall hi hinserted hperm hvalid order
      | cons t pending => exact h.step_waitResult_cons hcall hi hinserted hperm hvalid order
    | returned => rwa [Manager.step_eq_self hi rfl]
    | setDep => exact h.step_setDep hcall hi order
    | setSignal => exact h.step_setSignal hset hcall hi order
    | set => rwa [Manager.step_eq_self hi rfl]

/-- Before any call, the context of a lower block is as good as empty. -/
theorem Manager.Inv.init {c : ValidationContext Err} (hc : c.blockHeight < b) :
    (Manager.init c calls).Inv b v calls := by
  have hview : c.view b = ⟨b, GoMap.empty, GoMap.empty⟩ := by
    simp [ValidationContext.view, hc]
  have hnone : ∀ call, ¬ Finished calls (calls.map Routine.calling) call := by
    rintro call ⟨i, -, hfin⟩
    simp at hfin
  refine ⟨hc.le, ?_, by simp [Manager.init], ?_, ?_, ?_, ?_⟩
  · intro r hr hne
    simp only [Manager.init, List.mem_map] at hr
    obtain ⟨call, -, rfl⟩ := hr
    exact absurd rfl (hne call)
  · intro i call r hcall hr
    simp only [Manager.init, List.getElem?_map, hcall, Option.map_some, Option.some.injEq] at hr
    subst hr
    exact .calling call
  · intro t
    simp [Manager.init, hview, ValidationContext.dep, newTxDependency, hnone]
  · intro t ns x
    simp [Manager.init, hview, ValidationContext.dep, newTxDependency, hnone]
  · intro kid t hf
    simp [Manager.init, hview, ValidationContext.Files] at hf

theorem Manager.Inv.run (hext : ExtractsOnce calls) (hset : SetsOnce calls) (h : st.Inv b v calls)
    (events : List ManagerEvent) : (st.run b v events).Inv b v calls :=
  List.foldlRecOn events (Manager.step b v) h fun _ h' ev _ => h'.step hext hset ev

/-- The invariant over every run of block `b`'s calls on the context a lower block left. -/
theorem Manager.inv_run (b : Nat) (v : LedgerView) {c : ValidationContext Err}
    (hc : c.blockHeight < b) (hext : ExtractsOnce calls) (hset : SetsOnce calls)
    (events : List ManagerEvent) : ((Manager.init c calls).run b v events).Inv b v calls :=
  (Manager.Inv.init hc).run hext hset events

end Steps

/-! ## Progress and termination -/

section Progress

variable {Err : Type}

/-- A call that has returned. -/
def Routine.isDone : Routine Err → Bool
  | .returned _ => true
  | .finished => true
  | _ => false

/-- A routine whose next step moves it on: one not waiting, returned or panicked. -/
def Routine.Ready (c : ValidationContext Err) : Routine Err → Prop
  | .waitInserted _ _ i => (c.dep i).depInserted = true
  | .waitResult kid _ (t :: _) => ((c.dep t).validationResultMap.get? kid.cc).isSome = true
  | .returned _ => False
  | .finished => False
  | .panicked => False
  | _ => True

/-- What a call still has to do: three steps for `forBlock`, `getOrCreateDependencyByTxnum` and
    the signal, one per dependency to add or result to retrieve, and two per transaction a lookup
    waits for; a lookup's snapshot holds fewer transactions than its own number. -/
def Routine.weight : Routine Err → Nat
  | .calling (.extractValidationParameterDependency _ rwset) => (metadataKeys rwset).length + 3
  | .calling (.getValidationParameterForKey _ txNum) => 3 * txNum + 3
  | .calling (.setTxValidationResult _ _ _) => 3
  | .extractDep _ rwset => (metadataKeys rwset).length + 2
  | .extractAdd _ pending => pending.length + 1
  | .waitDep _ txNum left => txNum + 2 * left + 2
  | .waitInserted _ txNum i => txNum + 2 * i + 3
  | .waitResult _ _ pending => pending.length + 1
  | .setDep _ _ _ => 2
  | .setSignal _ _ _ => 1
  | .returned _ => 0
  | .finished => 0
  | .panicked => 0

/-- What the calls in flight still have to do. -/
def Manager.measure (st : Manager Err) : Nat := (st.routines.map Routine.weight).sum

variable {b : Nat} {v : LedgerView} {c : ValidationContext Err} {order : GoMap.RangeOrder Nat Unit}

theorem Routine.step_fst_ne_of_ready {r : Routine Err} (h : r.Ready c) :
    (r.step b v order c).1 ≠ r := by
  cases r with
  | calling call =>
    cases hfb : c.forBlock b <;> cases call <;> simp [Routine.step, hfb, Call.begin]
  | extractAdd t pending =>
    cases pending with
    | nil => cases hsig : (c.dep t).signalDepInserted <;> simp [Routine.step, hsig]
    | cons kid pending => simp [Routine.step]
  | waitDep kid j left => cases left <;> simp [Routine.step]
  | waitInserted kid j i =>
    simp only [Routine.Ready] at h
    simp [Routine.step, TxDependency.waitForDepInserted, h]
  | waitResult kid j pending =>
    cases pending with
    | nil => simp [Routine.step]
    | cons t pending =>
      simp only [Routine.Ready] at h
      obtain ⟨x, hx⟩ := Option.isSome_iff_exists.mp h
      cases x <;> simp [Routine.step, TxDependency.waitForAndRetrieveValidationResult, hx]
  | returned => exact absurd h id
  | finished => exact absurd h id
  | panicked => exact absurd h id
  | _ => simp [Routine.step]

/-- A step that moves a routine lowers its weight. -/
theorem Routine.weight_step {r : Routine Err} (hs : r.step b v order c ≠ (r, c)) :
    (r.step b v order c).1.weight < r.weight := by
  cases r with
  | calling call =>
    cases hfb : c.forBlock b with
    | none => cases call <;> simp [Routine.step, hfb, Routine.weight]
    | some c' =>
      cases call with
      | getValidationParameterForKey kid j =>
        simp only [Routine.step, hfb, Call.begin, Routine.weight]
        omega
      | _ => simp [Routine.step, hfb, Call.begin, Routine.weight]
  | extractAdd t pending =>
    cases pending with
    | nil => cases hsig : (c.dep t).signalDepInserted <;> simp [Routine.step, hsig, Routine.weight]
    | cons kid pending => simp [Routine.step, Routine.weight]
  | waitDep kid j left =>
    cases left with
    | zero =>
      -- the snapshot holds fewer transactions than the lookup's number
      have := c.length_dependenciesForTxnum_le order kid j
      simp only [Routine.step, Routine.weight]
      omega
    | succ n =>
      simp only [Routine.step, Routine.weight]
      omega
  | waitInserted kid j i =>
    by_cases hins : (c.dep i).waitForDepInserted = true
    · simp [Routine.step, hins, Routine.weight]
    · -- still waiting: the step does not move
      simp [Routine.step, hins] at hs
  | waitResult kid j pending =>
    cases pending with
    | nil => simp [Routine.step, Routine.weight]
    | cons t pending =>
      cases hres : (c.dep t).waitForAndRetrieveValidationResult kid.cc with
      | none => simp [Routine.step, hres] at hs
      | some x => cases x <;> simp [Routine.step, hres, Routine.weight]
  | returned => exact absurd rfl hs
  | finished => exact absurd rfl hs
  | panicked => exact absurd rfl hs
  | _ => simp [Routine.step, Routine.weight]

theorem Manager.step_ne_of_ready {st : Manager Err} {i : Nat} {r : Routine Err}
    (hi : st.routines[i]? = some r) (h : r.Ready st.validationCtx) (order : GoMap.RangeOrder Nat Unit) :
    st.step b v ⟨i, order⟩ ≠ st := by
  intro heq
  rw [Manager.step_of_getElem? hi] at heq
  have hroutine := congrArg (fun st : Manager Err => st.routines[i]?) heq
  simp only [List.getElem?_set_self (List.getElem?_eq_some_iff.mp hi).1, hi, Option.some.injEq]
    at hroutine
  exact Routine.step_fst_ne_of_ready h hroutine

/-- Every event that takes effect lowers the measure. -/
theorem Manager.measure_step {st : Manager Err} {ev : ManagerEvent} (h : st.step b v ev ≠ st) :
    (st.step b v ev).measure < st.measure := by
  obtain ⟨i, order⟩ := ev
  cases hi : st.routines[i]? with
  | none => exact absurd (Manager.step_of_getElem?_none hi order) h
  | some r =>
    have hs : r.step b v order st.validationCtx ≠ (r, st.validationCtx) :=
      fun hs => h (Manager.step_eq_self hi hs)
    have hlt := Routine.weight_step hs
    have hsum := FoldM.sum_map_set_add Routine.weight hi (r.step b v order st.validationCtx).1
    rw [Manager.step_of_getElem? hi]
    simp only [Manager.measure]
    omega

/-- A state whose calls have all returned moves no more. -/
theorem Manager.step_eq_self_of_done {st : Manager Err} (hdone : ∀ r ∈ st.routines, r.isDone = true)
    (ev : ManagerEvent) : st.step b v ev = st := by
  obtain ⟨i, order⟩ := ev
  cases hi : st.routines[i]? with
  | none => exact Manager.step_of_getElem?_none hi order
  | some r =>
    have hr := hdone r (List.mem_of_getElem? hi)
    apply Manager.step_eq_self hi
    cases r <;> simp_all [Routine.isDone, Routine.step]

variable [DecidableEq Err] {calls : List (Call Err)} {st : Manager Err}

/-- Every lookup of the calls has the extractions of the transactions before it and a result in
    the key's namespace for each of them that writes the key. -/
structure Complete (calls : List (Call Err)) : Prop where
  extracted : ∀ kid j, .getValidationParameterForKey kid j ∈ calls →
    ∀ t, t < j → ∃ rwset, .extractValidationParameterDependency t rwset ∈ calls
  validated : ∀ kid j, .getValidationParameterForKey kid j ∈ calls →
    ∀ t ∈ dependencies calls kid j, ∃ err, .setTxValidationResult kid.cc t err ∈ calls

theorem Manager.Inv.routine_of_call (h : st.Inv b v calls) {i : Nat} {call : Call Err}
    (hcall : calls[i]? = some call) : ∃ r, st.routines[i]? = some r := by
  have hlt := (List.getElem?_eq_some_iff.mp hcall).1
  rw [← h.length] at hlt
  exact ⟨_, List.getElem?_eq_getElem hlt⟩

/-- An extraction or a result never waits: it is ready or has returned. -/
theorem Manager.Inv.ready_or_finished (h : st.Inv b v calls) {i : Nat} {call : Call Err}
    (hcall : calls[i]? = some call) (hget : ∀ kid j, call ≠ .getValidationParameterForKey kid j) :
    (∃ r, st.routines[i]? = some r ∧ r.Ready st.validationCtx) ∨
      st.routines[i]? = some .finished := by
  obtain ⟨r, hr⟩ := h.routine_of_call hcall
  cases h.routines i call r hcall hr with
  | calling | extractDep | extractAdd | setDep | setSignal => exact .inl ⟨_, hr, trivial⟩
  | extracted | set => exact .inr hr
  | waitDep | waitInserted | waitResult | returned => exact absurd rfl (hget _ _)

/-- A call that has not returned has a routine that can move: a lookup waits only on an
    extraction or a result that has not yet returned. -/
theorem Manager.Inv.ready (hcomplete : Complete calls) (h : st.Inv b v calls) {i : Nat}
    {r : Routine Err} (hi : st.routines[i]? = some r) (hr : r.isDone = false) :
    ∃ (i' : Nat) (r' : Routine Err), st.routines[i']? = some r' ∧ r'.Ready st.validationCtx := by
  obtain ⟨call, hcall⟩ := h.call_of_routine hi
  cases h.routines i call r hcall hi with
  | calling | extractDep | extractAdd | setDep | setSignal => exact ⟨i, _, hi, trivial⟩
  | extracted | set | returned => simp [Routine.isDone] at hr
  | waitDep kid j left => cases left <;> exact ⟨i, _, hi, trivial⟩
  | waitInserted kid j k hk hinserted =>
    have hV := h.view_eq hi nofun
    by_cases hins : (st.validationCtx.dep k).depInserted = true
    · exact ⟨i, _, hi, hins⟩
    · -- waiting on the extraction of `k`, which has not returned
      obtain ⟨rwset, hmem⟩ := hcomplete.extracted kid j (List.mem_of_getElem? hcall) k hk
      obtain ⟨i', hcall'⟩ := List.mem_iff_getElem?.mp hmem
      rcases h.ready_or_finished hcall' nofun with ⟨r', hr', hready⟩ | hfin
      · exact ⟨i', r', hr', hready⟩
      · have := (h.inserted k).mpr ⟨rwset, i', hcall', hfin⟩
        rw [hV] at this
        exact absurd this hins
  | waitResult kid j done pending hinserted hperm hvalid =>
    cases pending with
    | nil => exact ⟨i, _, hi, trivial⟩
    | cons t pending =>
      have hV := h.view_eq hi nofun
      by_cases hres : ((st.validationCtx.dep t).validationResultMap.get? kid.cc).isSome = true
      · exact ⟨i, _, hi, hres⟩
      · -- waiting on the result of `t`, which has not been set
        obtain ⟨err, hmem⟩ := hcomplete.validated kid j (List.mem_of_getElem? hcall) t
          (hperm.subset (by simp))
        obtain ⟨i', hcall'⟩ := List.mem_iff_getElem?.mp hmem
        rcases h.ready_or_finished hcall' nofun with ⟨r', hr', hready⟩ | hfin
        · exact ⟨i', r', hr', hready⟩
        · have := (h.results t kid.cc err).mpr ⟨i', hcall', hfin⟩
          rw [hV] at this
          simp [this] at hres

end Progress

/-! ## One routine run on its own -/

section OneRoutine

variable {Err : Type} {b : Nat} {v : LedgerView}

theorem Manager.run_cons (st : Manager Err) (ev : ManagerEvent) (events : List ManagerEvent) :
    st.run b v (ev :: events) = (st.step b v ev).run b v events := rfl

theorem Manager.run_append (st : Manager Err) (events events' : List ManagerEvent) :
    st.run b v (events ++ events') = (st.run b v events).run b v events' :=
  List.foldl_append

/-- An event of routine `i` moves it, sets the context, and leaves the other routines. -/
theorem Manager.step_routine {st : Manager Err} {i : Nat} {r : Routine Err}
    (hi : st.routines[i]? = some r) (order : GoMap.RangeOrder Nat Unit) :
    (st.step b v ⟨i, order⟩).routines[i]? = some (r.step b v order st.validationCtx).1 ∧
      (st.step b v ⟨i, order⟩).validationCtx = (r.step b v order st.validationCtx).2 ∧
      ∀ i', i' ≠ i → (st.step b v ⟨i, order⟩).routines[i']? = st.routines[i']? := by
  rw [Manager.step_of_getElem? hi]
  exact ⟨List.getElem?_set_self (List.getElem?_eq_some_iff.mp hi).1, rfl,
    fun i' hne => List.getElem?_set_ne (Ne.symm hne)⟩

/-- An extraction files its pending dependencies, one event each, and touches no `*txDependency`. -/
theorem Manager.run_extractAdd {i t : Nat} : ∀ (pending : List LedgerKeyID) (st : Manager Err),
    st.routines[i]? = some (.extractAdd t pending) →
      (st.run b v (List.replicate pending.length ⟨i, .inOrder⟩)).routines[i]? =
          some (.extractAdd t []) ∧
        (st.run b v (List.replicate pending.length ⟨i, .inOrder⟩)).validationCtx.dep =
          st.validationCtx.dep ∧
        (st.run b v (List.replicate pending.length ⟨i, .inOrder⟩)).validationCtx.blockHeight =
          st.validationCtx.blockHeight ∧
        ∀ i', i' ≠ i →
          (st.run b v (List.replicate pending.length ⟨i, .inOrder⟩)).routines[i']? = st.routines[i']?
  | [], _, hi => ⟨hi, rfl, rfl, fun _ _ => rfl⟩
  | kid :: pending, st, hi => by
    obtain ⟨hr, hc, ho⟩ := Manager.step_routine (b := b) (v := v) hi .inOrder
    simp only [Routine.step] at hr hc
    obtain ⟨h1, h2, h3, h4⟩ := Manager.run_extractAdd pending _ hr
    rw [List.length_cons, List.replicate_succ, Manager.run_cons]
    refine ⟨h1, ?_, ?_, fun i' hne => (h4 i' hne).trans (ho i' hne)⟩
    · rw [h2, hc, ValidationContext.dep_addDependency]
    · rw [h3, hc, ValidationContext.blockHeight_addDependency]

/-- An extraction run on its own to its end closes `depInserted` of its transaction, or panics
    when the channel was already closed. -/
theorem Manager.run_extract {st : Manager Err} {i t : Nat} {rwset : Option TxRwSet}
    (hi : st.routines[i]? = some (.calling (.extractValidationParameterDependency t rwset)))
    (hb : st.validationCtx.blockHeight ≤ b) :
    let st' := st.run b v (List.replicate ((metadataKeys rwset).length + 3) ⟨i, .inOrder⟩)
    st'.validationCtx.blockHeight = b ∧ (∀ i', i' ≠ i → st'.routines[i']? = st.routines[i']?) ∧
      (((st.validationCtx.view b).dep t).depInserted = true → st'.routines[i]? = some .panicked) ∧
      (((st.validationCtx.view b).dep t).depInserted = false →
        st'.routines[i]? = some .finished ∧ (st'.validationCtx.dep t).depInserted = true) := by
  intro st'
  have hevents : List.replicate ((metadataKeys rwset).length + 3) (⟨i, .inOrder⟩ : ManagerEvent) =
      ⟨i, .inOrder⟩ :: ⟨i, .inOrder⟩ ::
        (List.replicate (metadataKeys rwset).length ⟨i, .inOrder⟩ ++ [⟨i, .inOrder⟩]) := by
    rw [← List.replicate_succ', List.replicate_succ, List.replicate_succ]
  have hst' : st' = (((st.step b v ⟨i, .inOrder⟩).step b v ⟨i, .inOrder⟩).run b v
      (List.replicate (metadataKeys rwset).length ⟨i, .inOrder⟩)).step b v ⟨i, .inOrder⟩ := by
    simp only [st', hevents, Manager.run_cons, Manager.run_append]
    rfl
  -- `forBlock`, then `getOrCreateDependencyByTxnum`
  obtain ⟨h1, hc1, ho1⟩ := Manager.step_routine (b := b) (v := v) hi .inOrder
  simp only [Routine.step, ValidationContext.forBlock_of_le hb, Call.begin] at h1 hc1
  obtain ⟨h2, hc2, ho2⟩ := Manager.step_routine (b := b) (v := v) h1 .inOrder
  simp only [Routine.step] at h2 hc2
  -- the dependencies, then `signalDepInserted`
  obtain ⟨h3, hd3, hb3, ho3⟩ := Manager.run_extractAdd (b := b) (v := v) _ _ h2
  have hdep : ((((st.step b v ⟨i, .inOrder⟩).step b v ⟨i, .inOrder⟩).run b v
      (List.replicate (metadataKeys rwset).length ⟨i, .inOrder⟩)).validationCtx.dep t) =
        (st.validationCtx.view b).dep t := by
    rw [hd3, hc2, ValidationContext.dep_getOrCreate, hc1]
  have hheight : (((st.step b v ⟨i, .inOrder⟩).step b v ⟨i, .inOrder⟩).run b v
      (List.replicate (metadataKeys rwset).length ⟨i, .inOrder⟩)).validationCtx.blockHeight = b := by
    rw [hb3, hc2, ValidationContext.blockHeight_getOrCreate, hc1,
      ValidationContext.blockHeight_view hb]
  obtain ⟨h4, hc4, ho4⟩ := Manager.step_routine (b := b) (v := v) h3 .inOrder
  rw [← hst'] at h4 hc4 ho4
  simp only [Routine.step, hdep] at h4 hc4
  refine ⟨?_, fun i' hne => (ho4 i' hne).trans ((ho3 i' hne).trans ((ho2 i' hne).trans
    (ho1 i' hne))), fun hins => ?_, fun hopen => ?_⟩
  · rw [hc4]
    split <;> simp [hheight]
  · simpa [TxDependency.signalDepInserted, hins] using h4
  · simp only [TxDependency.signalDepInserted, hopen, Bool.false_eq_true, ↓reduceIte] at h4 hc4
    refine ⟨h4, ?_⟩
    rw [hc4, ValidationContext.dep_setDep, if_pos rfl]

end OneRoutine

/-! ## Over every run of a block's calls -/

section Runs

/-- A read-write set of namespace `mycc` that writes the metadata of its key `k`. -/
def kMetadataWrite : TxRwSet := ⟨[⟨"mycc", ⟨[], [], [], [⟨"k", []⟩]⟩, []⟩]⟩

/-- The key `k` of namespace `mycc`. -/
def kKey : LedgerKeyID := ⟨"mycc", "", goBytes "k"⟩

/-- Transaction 0 of block 1 updates the metadata of `k` and is valid; transaction 1, whose read-write
    set does not unmarshal, looks up `k`'s validation parameter. -/
def updateThenRead : List (Call String) :=
  [.extractValidationParameterDependency 0 (some kMetadataWrite), .setTxValidationResult "mycc" 0 none,
    .extractValidationParameterDependency 1 none, .getValidationParameterForKey kKey 1]

/-- Each call of `updateThenRead` runs to its end in turn. -/
def updateThenReadEvents : List ManagerEvent :=
  (List.replicate 4 0 ++ List.replicate 3 1 ++ List.replicate 3 2 ++ List.replicate 5 3).map
    fun i => ⟨i, .inOrder⟩

/-- A ledger whose keys have no metadata, and whose translator hands the bytes back. -/
def emptyLedger : LedgerView :=
  ⟨.ok (), fun _ _ => .ok GoMap.empty, fun _ _ _ => .ok GoMap.empty, fun p => .ok p⟩

/-- The context before the first block. -/
def genesisContext : ValidationContext String := ⟨0, GoMap.empty, GoMap.empty⟩

variable {Err : Type} [DecidableEq Err]

/-- In every run of a block's calls on the context a lower block left, a lookup that returns
    answers what the calls alone say: `ValidationParameterUpdatedError` when a transaction before
    it writes the key's metadata and is valid in the key's namespace, and otherwise the
    parameter in the ledger. The answer depends neither on the interleaving nor on that context. -/
theorem get_returns_expected (b : Nat) (v : LedgerView) (c : ValidationContext Err)
    (calls : List (Call Err)) (events : List ManagerEvent) (hc : c.blockHeight < b)
    (hext : ExtractsOnce calls) (hset : SetsOnce calls) {i j : Nat} {kid : LedgerKeyID}
    {result : Except VpError Bytes} (hcall : calls[i]? = some (.getValidationParameterForKey kid j))
    (hret : ((Manager.init c calls).run b v events).routines[i]? = some (.returned result)) :
    result = expectedParameter calls b v kid j := by
  have h := Manager.inv_run b v hc hext hset events
  cases h.routines i _ _ hcall hret with
  | returned => rfl

theorem get_returns_expected_updateThenRead :
    ((Manager.init genesisContext updateThenRead).run 1 emptyLedger updateThenReadEvents).routines[3]? =
        some (.returned (.error (.validationParameterUpdated "mycc" "" (goBytes "k") 1 1))) ∧
      .error (.validationParameterUpdated "mycc" "" (goBytes "k") 1 1) =
        expectedParameter updateThenRead 1 emptyLedger kKey 1 := by
  have hret : ((Manager.init genesisContext updateThenRead).run 1 emptyLedger
      updateThenReadEvents).routines[3]? =
        some (.returned (.error (.validationParameterUpdated "mycc" "" (goBytes "k") 1 1))) := by decide
  exact ⟨hret, get_returns_expected 1 emptyLedger genesisContext updateThenRead updateThenReadEvents
    (by decide) (by decide) (by decide) rfl hret⟩

/-- No run of a block's calls panics, neither in `forBlock` nor by closing a closed `depInserted`,
    when each transaction's dependencies are extracted once and each result is set once. -/
theorem manager_never_panics (b : Nat) (v : LedgerView) (c : ValidationContext Err)
    (calls : List (Call Err)) (events : List ManagerEvent) (hc : c.blockHeight < b)
    (hext : ExtractsOnce calls) (hset : SetsOnce calls) (i : Nat) :
    ((Manager.init c calls).run b v events).routines[i]? ≠ some .panicked := by
  intro hpanic
  have h := Manager.inv_run b v hc hext hset events
  obtain ⟨call, hcall⟩ := h.call_of_routine hpanic
  cases h.routines i call _ hcall hpanic

theorem manager_never_panics_updateThenRead :
    ((Manager.init genesisContext updateThenRead).run 1 emptyLedger updateThenReadEvents).routines[0]? ≠
      some .panicked :=
  manager_never_panics 1 emptyLedger genesisContext updateThenRead updateThenReadEvents (by decide)
    (by decide) (by decide) 0

/-- A lookup for transaction `j` waits on every transaction before it: if one of them never
    extracts its dependencies, the lookup never returns. -/
theorem get_waits_for_extraction (b : Nat) (v : LedgerView) (c : ValidationContext Err)
    (calls : List (Call Err)) (events : List ManagerEvent) (hc : c.blockHeight < b)
    (hext : ExtractsOnce calls) (hset : SetsOnce calls) {i j t : Nat} {kid : LedgerKeyID}
    (hcall : calls[i]? = some (.getValidationParameterForKey kid j)) (ht : t < j)
    (hmissing : ∀ rwset, .extractValidationParameterDependency t rwset ∉ calls)
    (result : Except VpError Bytes) :
    ((Manager.init c calls).run b v events).routines[i]? ≠ some (.returned result) := by
  intro hret
  have h := Manager.inv_run b v hc hext hset events
  cases h.routines i _ _ hcall hret with
  | returned _ _ hextracted =>
    obtain ⟨rwset, hmem⟩ := hextracted t ht
    exact hmissing rwset hmem

theorem get_waits_for_extraction_updateThenRead :
    ((Manager.init genesisContext (updateThenRead.drop 1)).run 1 emptyLedger
        updateThenReadEvents).routines[2]? ≠ some (.returned (.ok [])) :=
  get_waits_for_extraction 1 emptyLedger genesisContext (updateThenRead.drop 1) updateThenReadEvents
    (by decide) (by decide) (by decide) (i := 2) rfl (Nat.zero_lt_one)
    (by simp [updateThenRead]) (.ok [])

/-- Deadlock freedom: when every lookup's earlier transactions are extracted and their results
    in the key's namespace are set, a state of any run in which some call has not returned has
    an event that takes effect. -/
theorem manager_progress (b : Nat) (v : LedgerView) (c : ValidationContext Err)
    (calls : List (Call Err)) (events : List ManagerEvent) (hc : c.blockHeight < b)
    (hext : ExtractsOnce calls) (hset : SetsOnce calls) (hcomplete : Complete calls)
    {r : Routine Err} (hr : r ∈ ((Manager.init c calls).run b v events).routines)
    (hdone : r.isDone = false) :
    ∃ ev, ((Manager.init c calls).run b v events).step b v ev ≠ (Manager.init c calls).run b v events := by
  have h := Manager.inv_run b v hc hext hset events
  obtain ⟨i, hi⟩ := List.mem_iff_getElem?.mp hr
  obtain ⟨i', r', hi', hready⟩ := h.ready hcomplete hi hdone
  exact ⟨⟨i', .inOrder⟩, Manager.step_ne_of_ready hi' hready _⟩

/-- Every lookup of `updateThenRead` has what it waits for. -/
theorem complete_updateThenRead : Complete updateThenRead := by
  constructor
  · intro kid j hmem t ht
    simp only [updateThenRead, List.mem_cons, reduceCtorEq, Call.getValidationParameterForKey.injEq,
      List.not_mem_nil, false_or, or_false] at hmem
    obtain ⟨rfl, rfl⟩ := hmem
    obtain rfl : t = 0 := by omega
    exact ⟨some kMetadataWrite, by simp [updateThenRead]⟩
  · intro kid j hmem t ht
    simp only [updateThenRead, List.mem_cons, reduceCtorEq, Call.getValidationParameterForKey.injEq,
      List.not_mem_nil, false_or, or_false] at hmem
    obtain ⟨rfl, rfl⟩ := hmem
    have hdeps : dependencies updateThenRead kKey 1 = [0] := by decide
    rw [hdeps, List.mem_singleton] at ht
    subst ht
    exact ⟨none, by simp [updateThenRead, kKey]⟩

theorem manager_progress_updateThenRead :
    ∃ ev, ((Manager.init genesisContext updateThenRead).run 1 emptyLedger []).step 1 emptyLedger ev ≠
      (Manager.init genesisContext updateThenRead).run 1 emptyLedger [] :=
  manager_progress 1 emptyLedger genesisContext updateThenRead [] (by decide) (by decide) (by decide)
    complete_updateThenRead (r := .calling (.getValidationParameterForKey kKey 1))
    (by simp [Manager.run, Manager.init, updateThenRead]) rfl

omit [DecidableEq Err] in
/-- Termination: a run in which every event takes effect has no more events than the calls'
    measure, so every run reaches a state no event moves. -/
theorem manager_returns (b : Nat) (v : LedgerView) (st : Manager Err) (events : List ManagerEvent)
    (h : Runs.Busy (Manager.step b v) st events) : events.length ≤ st.measure :=
  h.length_le Manager.measure fun _ _ hne => Manager.measure_step hne

theorem manager_returns_updateThenRead :
    Runs.Busy (Manager.step 1 emptyLedger) (Manager.init genesisContext (updateThenRead.drop 1))
        [⟨0, .inOrder⟩, ⟨0, .inOrder⟩, ⟨0, .inOrder⟩] ∧
      3 ≤ (Manager.init genesisContext (updateThenRead.drop 1)).measure := by
  have hbusy : Runs.Busy (Manager.step 1 emptyLedger) (Manager.init genesisContext (updateThenRead.drop 1))
      [⟨0, .inOrder⟩, ⟨0, .inOrder⟩, ⟨0, .inOrder⟩] :=
    .cons (Manager.step_ne_of_ready (r := .calling (.setTxValidationResult "mycc" 0 none)) rfl trivial _)
      (.cons (Manager.step_ne_of_ready (r := .setDep "mycc" 0 none) rfl trivial _)
        (.cons (Manager.step_ne_of_ready (r := .setSignal "mycc" 0 none) rfl trivial _) (.nil _)))
  exact ⟨hbusy, manager_returns 1 emptyLedger _ _ hbusy⟩

/-- Once no event moves a run of calls in which every lookup has what it waits for, every lookup
    has returned, with the answer the calls alone say. -/
theorem get_answers_when_stuck (b : Nat) (v : LedgerView) (c : ValidationContext Err)
    (calls : List (Call Err)) (events : List ManagerEvent) (hc : c.blockHeight < b)
    (hext : ExtractsOnce calls) (hset : SetsOnce calls) (hcomplete : Complete calls)
    (hstuck : ∀ ev, ((Manager.init c calls).run b v events).step b v ev =
      (Manager.init c calls).run b v events)
    {i j : Nat} {kid : LedgerKeyID} (hcall : calls[i]? = some (.getValidationParameterForKey kid j)) :
    ((Manager.init c calls).run b v events).routines[i]? =
      some (.returned (expectedParameter calls b v kid j)) := by
  have h := Manager.inv_run b v hc hext hset events
  obtain ⟨r, hi⟩ := h.routine_of_call hcall
  -- a lookup that has not returned could move
  have hdone : r.isDone = true := by
    by_contra hr
    obtain ⟨i', r', hi', hready⟩ := h.ready hcomplete hi (by simpa using hr)
    exact Manager.step_ne_of_ready hi' hready .inOrder (hstuck _)
  cases h.routines i _ r hcall hi with
  | returned => exact hi
  | calling | waitDep | waitInserted | waitResult => simp [Routine.isDone] at hdone

theorem get_answers_when_stuck_updateThenRead :
    ((Manager.init genesisContext updateThenRead).run 1 emptyLedger updateThenReadEvents).routines[3]? =
      some (.returned (expectedParameter updateThenRead 1 emptyLedger kKey 1)) :=
  get_answers_when_stuck 1 emptyLedger genesisContext updateThenRead updateThenReadEvents (by decide)
    (by decide) (by decide) complete_updateThenRead
    (Manager.step_eq_self_of_done (by decide)) rfl

omit [DecidableEq Err] in
/-- Extracting one transaction's dependencies twice panics the peer: the second extraction
    closes the transaction's `depInserted` again. The `sync.Once` of `PreValidate` keeps this
    from happening. -/
theorem extract_twice_panics (b : Nat) (v : LedgerView) (c : ValidationContext Err)
    (calls : List (Call Err)) (hc : c.blockHeight < b) (i i' : Nat) {t : Nat}
    {rwset rwset' : Option TxRwSet} (hne : i' ≠ i)
    (hi : calls[i]? = some (.extractValidationParameterDependency t rwset))
    (hi' : calls[i']? = some (.extractValidationParameterDependency t rwset')) :
    ∃ events, ((Manager.init c calls).run b v events).routines[i']? = some .panicked := by
  have h0 : (Manager.init c calls).routines[i]? =
      some (.calling (.extractValidationParameterDependency t rwset)) := by
    simp [Manager.init, hi]
  have h0' : (Manager.init c calls).routines[i']? =
      some (.calling (.extractValidationParameterDependency t rwset')) := by
    simp [Manager.init, hi']
  -- the first extraction closes `depInserted` of `t`, which the new block starts without
  have hfresh : (((Manager.init c calls).validationCtx.view b).dep t).depInserted = false := by
    simp [Manager.init, ValidationContext.view, hc, ValidationContext.dep, newTxDependency]
  obtain ⟨hb1, ho1, -, hfin1⟩ := Manager.run_extract (b := b) (v := v) h0 hc.le
  obtain ⟨-, hins⟩ := hfin1 hfresh
  -- the second finds it closed
  obtain ⟨-, -, hpanic, -⟩ := Manager.run_extract (b := b) (v := v) ((ho1 i' hne).trans h0') hb1.le
  refine ⟨List.replicate ((metadataKeys rwset).length + 3) ⟨i, .inOrder⟩ ++
    List.replicate ((metadataKeys rwset').length + 3) ⟨i', .inOrder⟩, ?_⟩
  rw [Manager.run_append]
  exact hpanic (by rwa [ValidationContext.view_of_eq hb1])

theorem extract_twice_panics_twice :
    ∃ events, ((Manager.init genesisContext [.extractValidationParameterDependency 0 none,
        .extractValidationParameterDependency 0 none]).run 1 emptyLedger events).routines[1]? =
      some (Routine.panicked : Routine String) :=
  extract_twice_panics 1 emptyLedger genesisContext _ (by decide) 0 1 (by decide) rfl rfl

end Runs

end Fabric.Statebased
