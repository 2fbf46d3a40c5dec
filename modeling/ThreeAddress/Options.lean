/-!
# Settings of one compilation

Four numbers steer a compilation: where addresses and temporaries start, and
the limits on digits and on nesting. Each is a 64-bit word. What is computed
from them is computed in `Nat`. An address never passes the largest word, because
no instruction is emitted there, and the depth never passes its limit. The index
of a temporary can pass the largest word, and then its name is that of the word
that is left of it (`Temporaries.word`).
-/

set_option autoImplicit false

namespace ThreeAddress

/-- The settings of one compilation, with their usual values. -/
structure Options where
  /-- Address of the first instruction. -/
  firstAddress : UInt64 := 0
  /-- Index of the first temporary. -/
  firstTemp : UInt64 := 0
  /-- Longest digit run that is accepted without a diagnostic. -/
  maxDigits : UInt64 := 14
  /-- Levels of statements and expressions inside each other before a
  construct is skipped. -/
  maxDepth : UInt64 := 256
deriving DecidableEq, Repr, Inhabited

/-- The largest 64-bit word. It is the last address that may follow an
instruction, so no instruction stands at it. -/
def maxWord : Nat := UInt64.size - 1

/-- A 64-bit word is at most `maxWord`. -/
theorem toNat_le_maxWord (w : UInt64) : w.toNat ≤ maxWord :=
  Nat.le_pred_of_lt w.toNat_lt

end ThreeAddress
