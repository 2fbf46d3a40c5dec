/-!
# Faults

A fault stops a compilation. Only `Fault.addressOverflow` can be caused by a
program; each of the others would mean that the generator lost track of its
own bookkeeping.
-/

set_option autoImplicit false

namespace ThreeAddress

/-- What stops a compilation. -/
inductive Fault where
  /-- The address lies outside the emitted range, which ends before `stop`. -/
  | patchOutOfRange (address first stop : Nat)
  /-- The instruction at the address has no target to fill in. -/
  | notAJump (address : Nat)
  /-- The jump at the address has a target already. -/
  | alreadyPatched (address existing target : Nat)
  /-- Jumps without a target remain at the end. -/
  | danglingJumps (addresses : List Nat)
  /-- The address after one more instruction would not fit a word. -/
  | addressOverflow (first : Nat)
  /-- A level of nesting was left that was not entered. -/
  | unbalancedNesting
  /-- A loop did not end within its budget of rounds. -/
  | outOfFuel
deriving DecidableEq, Repr, Inhabited

/-- A list of addresses as it is shown, in brackets. -/
def showAddresses (addresses : List Nat) : String :=
  "[" ++ ", ".intercalate (addresses.map toString) ++ "]"

/-- The wording of a fault. -/
def Fault.message : Fault → String
  | patchOutOfRange address first stop =>
    s!"internal error: cannot patch address {address}, emitted range is {first}..{stop}"
  | notAJump address => s!"internal error: instruction at {address} is not a jump"
  | alreadyPatched address existing target =>
    s!"internal error: jump at {address} already targets {existing}, cannot retarget to {target}"
  | danglingJumps addresses =>
    s!"internal error: jumps left without a target at {showAddresses addresses}"
  | addressOverflow first => s!"no address left after {first} for another instruction"
  | unbalancedNesting => "internal error: nesting level left twice"
  | outOfFuel => "internal error: no progress"

end ThreeAddress
