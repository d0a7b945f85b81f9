import Mathlib

/-
  Ledger versions (`core/ledger/internal/version/version.go`) and the byte strings the
  ledger code passes around.

  A `*version.Height` that may be nil is an `Option Height`. `BlockNum` and `TxNum` are
  `uint64` in Go; nothing in the modelled code adds to them, so they are `Nat` here.
  Go strings and `[]byte` values that are only hashed, stored or compared for equality
  are `Bytes`; keys whose order matters (range scans) are a type with a linear order in
  the modules that scan them. A call that can fail returns `Except Failure`: a returned
  `error`, or a runtime panic (an index out of range, a nil dereference).
-/

namespace Fabric.Ledger

/-- `[]byte`: a Go byte slice. A nil slice and an empty one are both `[]` unless the
    code tells them apart, in which case the model uses `Option Bytes`. -/
abbrev Bytes := List UInt8

/-- How a Go call fails: it returns a non-nil `error`, or the runtime panics. -/
inductive Failure where
  | error (msg : String)
  | panic (msg : String)
  deriving DecidableEq, Repr

/-- `version.Height`: the block number and the position in the block of a transaction. -/
structure Height where
  blockNum : Nat
  txNum : Nat
  deriving DecidableEq, Repr

/-- `version.NewHeight`. -/
def newHeight (blockNum txNum : Nat) : Height := ⟨blockNum, txNum⟩

/-- `Height.Compare`: `-1`, `0` or `1`, by block number first and transaction number
    second. -/
def Height.compare (h h1 : Height) : Int :=
  if h.blockNum < h1.blockNum then -1
  else if h.blockNum > h1.blockNum then 1
  else if h.txNum < h1.txNum then -1
  else if h.txNum > h1.txNum then 1
  else 0

/-- `version.AreSame`: both heights nil, or both present and equal under `Compare`. -/
def areSame : Option Height → Option Height → Bool
  | none, h2 => h2.isNone
  | some _, none => false
  | some h1, some h2 => h1.compare h2 == 0

theorem Height.compare_eq_zero_iff (h h1 : Height) : h.compare h1 = 0 ↔ h = h1 := by
  obtain ⟨b, t⟩ := h
  obtain ⟨b1, t1⟩ := h1
  simp only [Height.compare, Height.mk.injEq]
  constructor
  · intro h
    split_ifs at h <;> omega
  · rintro ⟨rfl, rfl⟩
    simp

/-- `AreSame` is equality of optional heights. -/
@[simp] theorem areSame_iff (h1 h2 : Option Height) : areSame h1 h2 = true ↔ h1 = h2 := by
  cases h1 <;> cases h2 <;> simp [areSame, Height.compare_eq_zero_iff]

end Fabric.Ledger
