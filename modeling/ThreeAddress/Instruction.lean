import ThreeAddress.Operator

/-!
# Three-address instructions

An instruction assigns the value of at most one operation, or it jumps. The
operands are texts: names, decimal literals, temporaries, or `?` where the
source has no operand. A jump may be *pending*, that is, without a target.
-/

set_option autoImplicit false

namespace ThreeAddress

/-- The right-hand side of an assignment. -/
inductive Rvalue where
  | copy (operand : String)
  | neg (operand : String)
  | binary (op : ArithOp) (lhs rhs : String)
deriving DecidableEq, Repr, Inhabited

/-- A right-hand side as the listing shows it. -/
def Rvalue.text : Rvalue → String
  | copy operand => operand
  | neg operand => "-" ++ operand
  | binary op lhs rhs => lhs ++ op.symbol ++ rhs

/-- An instruction. A jump without a target is pending. -/
inductive Instruction where
  /-- Assigns a value and goes on. -/
  | assign (dest : String) (value : Rvalue)
  /-- Jumps if the relation holds, else goes on. -/
  | branch (lhs : String) (op : RelOp) (rhs : String) (target : Option Nat)
  /-- Jumps. -/
  | jump (target : Option Nat)
deriving DecidableEq, Repr, Inhabited

namespace Instruction

/-- Whether an instruction has a place for a target. -/
def isJump : Instruction → Bool
  | assign _ _ => false
  | branch _ _ _ _ => true
  | jump _ => true

/-- The target of a jump, `none` for a pending jump and for an assignment. -/
def target? : Instruction → Option Nat
  | assign _ _ => none
  | branch _ _ _ target => target
  | jump target => target

/-- The instruction with its target filled in. An assignment stays as it
is. -/
def withTarget (target : Nat) : Instruction → Instruction
  | assign dest value => assign dest value
  | branch lhs op rhs _ => branch lhs op rhs (some target)
  | jump _ => jump (some target)

/-- Whether an instruction is a jump without a target. -/
def isPending (instruction : Instruction) : Bool :=
  instruction.isJump && instruction.target?.isNone

/-- A target as the listing shows it. A missing one leaves its place blank. -/
def targetText : Option Nat → String
  | some target => toString target
  | none => ""

/-- The line of the listing for an instruction at `address`. -/
def render (address : Nat) : Instruction → String
  | assign dest value => toString address ++ ":\t" ++ dest ++ ":=" ++ value.text
  | branch lhs op rhs target =>
    toString address ++ ":    if " ++ lhs ++ " " ++ op.symbol ++ " " ++ rhs ++
      " goto " ++ targetText target
  | jump target => toString address ++ ":    goto " ++ targetText target

/-- A jump has the target that is filled in. -/
theorem target?_withTarget {instruction : Instruction} (h : instruction.isJump = true)
    (target : Nat) : (instruction.withTarget target).target? = some target := by
  cases instruction <;> simp_all [isJump, withTarget, target?]

/-- With its target filled in, no instruction is pending. -/
@[simp] theorem isPending_withTarget (target : Nat) (instruction : Instruction) :
    (instruction.withTarget target).isPending = false := by
  cases instruction <;> rfl

end Instruction

end ThreeAddress
