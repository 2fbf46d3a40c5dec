/-!
# Operators

The four arithmetic operators and the six relations. A lexeme of the source
and an instruction of the listing name an operator with the same value of
these types, and both write it with the same symbol.
-/

set_option autoImplicit false

namespace ThreeAddress

/-- The arithmetic operators. -/
inductive ArithOp where
  | add
  | sub
  | mul
  | div
deriving DecidableEq, Repr, Inhabited

/-- The symbol of an arithmetic operator. -/
def ArithOp.symbol : ArithOp → String
  | .add => "+"
  | .sub => "-"
  | .mul => "*"
  | .div => "/"

/-- The relations that a condition may test. -/
inductive RelOp where
  | eq
  | ne
  | lt
  | le
  | gt
  | ge
deriving DecidableEq, Repr, Inhabited

/-- The symbol of a relation. -/
def RelOp.symbol : RelOp → String
  | .eq => "="
  | .ne => "<>"
  | .lt => "<"
  | .le => "<="
  | .gt => ">"
  | .ge => ">="

/-- Distinct arithmetic operators have distinct symbols. -/
theorem ArithOp.symbol_inj {a b : ArithOp} : a.symbol = b.symbol ↔ a = b := by
  cases a <;> cases b <;> decide

/-- Distinct relations have distinct symbols. -/
theorem RelOp.symbol_inj {a b : RelOp} : a.symbol = b.symbol ↔ a = b := by
  cases a <;> cases b <;> decide

end ThreeAddress
