import ThreeAddress.Store

/-!
# Jumps that wait for a common target

A jump list holds the addresses of pending jumps that are to reach the same
place. When the place is known, `JumpList.backpatch` fills it in, in the order
of the list.
-/

set_option autoImplicit false

namespace ThreeAddress

/-- Addresses of jumps that wait for the same target. -/
structure JumpList where
  addresses : List Nat
deriving DecidableEq, Repr, Inhabited

namespace JumpList

/-- The list without jumps. -/
def empty : JumpList := ⟨[]⟩

/-- The list of one jump. -/
def single (address : Nat) : JumpList := ⟨[address]⟩

/-- The jumps of one list and then those of another. -/
def merge (a b : JumpList) : JumpList := ⟨a.addresses ++ b.addresses⟩

/-- Fills in `target` at every address, one after the other. The first failure
stops; what was filled in before it stays. -/
def backpatch (list : JumpList) (target : Nat) : EStateM Fault Store Unit :=
  list.addresses.forM (Store.patch · target)

/-- A merged list is filled in as its two parts are, one after the other. -/
theorem backpatch_merge (a b : JumpList) (target : Nat) :
    (a.merge b).backpatch target =
      (do a.backpatch target; b.backpatch target : EStateM Fault Store Unit) := by
  simp [merge, backpatch, List.forM_append]

end JumpList

end ThreeAddress
