/-!
# Decimal numerals

The value of a digit run, and the value that a literal of the language takes.
A literal is held in a signed 64-bit word. It is read digit by digit with
arithmetic that stops at the largest such word, and `literal_eq_min` says that
this comes to the same as to cut off the value of the whole run.
-/

set_option autoImplicit false

namespace ThreeAddress.Decimal

/-- The value of one decimal digit. -/
def digit (c : Char) : Nat := c.toNat - '0'.toNat

/-- The value of a run of decimal digits, the most significant first. -/
def value (digits : List Char) : Nat :=
  digits.foldl (fun n c => 10 * n + digit c) 0

/-- The largest literal, which is the largest signed 64-bit word. -/
def literalMax : Nat := 0x7fffffffffffffff

/-- A number as a literal can hold it. -/
def saturate (n : Nat) : Nat := min n literalMax

/-- A literal with one more digit behind it. Both the product and the sum stop
at the largest literal. -/
def push (n : Nat) (c : Char) : Nat := saturate (saturate (10 * n) + digit c)

/-- The value of a literal, read from its digits. -/
def literal (digits : List Char) : Nat := digits.foldl push 0

/-- A digit at the end of a run multiplies what stands before it by ten. -/
theorem value_append_singleton (digits : List Char) (c : Char) :
    value (digits ++ [c]) = 10 * value digits + digit c := by
  simp [value]

/-- To stop at the largest literal on the way or only in the end is the same. -/
theorem push_saturate (n : Nat) (c : Char) :
    push (saturate n) c = saturate (10 * n + digit c) := by
  simp only [push, saturate, literalMax]
  omega

/-- A literal has the value of its digits, or that of the largest literal if
they say more. -/
theorem literal_eq_min (digits : List Char) :
    literal digits = min (value digits) literalMax := by
  -- What is read so far is the value so far as a literal can hold it.
  have hfold (n : Nat) : digits.foldl push (saturate n)
      = saturate (digits.foldl (fun n c => 10 * n + digit c) n) := by
    induction digits generalizing n with
    | nil => rfl
    | cons c rest ih => rw [List.foldl_cons, List.foldl_cons, push_saturate, ih]
  exact hfold 0

/-- A literal has the value of its digits exactly when that value fits. -/
theorem literal_eq_value_iff (digits : List Char) :
    literal digits = value digits ↔ value digits ≤ literalMax := by
  rw [literal_eq_min]; omega

end ThreeAddress.Decimal
