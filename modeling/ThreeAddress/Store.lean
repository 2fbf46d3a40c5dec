import ThreeAddress.Fault
import ThreeAddress.Instruction
import ThreeAddress.Options

/-!
# The instruction store

Instructions get addresses in the order of emission, from the first address on
and without gaps. Once emitted, an instruction changes only when a pending jump
receives its target, and that happens at most once.

The address after the last instruction is a word: `Store.emit` refuses an
instruction after which this would fail. The two operations that change a store
are actions that may fail with a `Fault`; a failed one leaves the store as it
was.
-/

set_option autoImplicit false

namespace ThreeAddress

/-- The emitted instructions and the address of the first. -/
structure Store where
  first : UInt64
  code : Array Instruction := #[]
deriving DecidableEq, Repr, Inhabited

namespace Store

/-- The address that the next emitted instruction gets. -/
def nextAddress (store : Store) : Nat :=
  store.first.toNat + store.code.size

/-- The instruction at an address. -/
def get? (store : Store) (address : Nat) : Option Instruction :=
  if address < store.first.toNat then none
  else store.code[address - store.first.toNat]?

/-- The store with another instruction in the place of the one at
`address`. -/
def set (store : Store) (address : Nat) (instruction : Instruction) : Store :=
  { store with code := store.code.setIfInBounds (address - store.first.toNat) instruction }

/-- The store with one more instruction. -/
def push (store : Store) (instruction : Instruction) : Store :=
  { store with code := store.code.push instruction }

/-- Adds an instruction and answers its address. -/
def emit (instruction : Instruction) : EStateM Fault Store Nat := fun store =>
  if store.nextAddress < maxWord then
    .ok store.nextAddress (store.push instruction)
  else
    .error (.addressOverflow store.first.toNat) store

/-- Fills in the target of the pending jump at `address`. -/
def patch (address target : Nat) : EStateM Fault Store Unit := fun store =>
  match store.get? address with
  | none => .error (.patchOutOfRange address store.first.toNat store.nextAddress) store
  | some instruction =>
    if instruction.isJump then
      -- A target is filled in only once.
      match instruction.target? with
      | some existing => .error (.alreadyPatched address existing target) store
      | none => .ok () (store.set address (instruction.withTarget target))
    else
      .error (.notAJump address) store

/-- The instructions with their addresses, in order. -/
def entries (store : Store) : List (Nat × Instruction) :=
  store.code.toList.zipIdx.map fun (instruction, index) =>
    (store.first.toNat + index, instruction)

/-- The addresses of the pending jumps, in order. -/
def unresolved (store : Store) : List Nat :=
  (store.entries.filter fun entry => entry.2.isPending).map Prod.fst

/-- The addresses with their lines of the listing, in order. -/
def listing (store : Store) : List (Nat × String) :=
  store.entries.map fun (address, instruction) => (address, instruction.render address)

/-- The listing as one text, one instruction on each line. -/
def render (store : Store) : String :=
  String.join (store.listing.map fun entry => entry.2 ++ "\n")

/-! ### What an address holds -/

/-- An address holds an instruction exactly when it lies in the emitted
range. -/
theorem isSome_get?_iff (store : Store) (address : Nat) :
    (store.get? address).isSome = true ↔
      store.first.toNat ≤ address ∧ address < store.nextAddress := by
  unfold get? nextAddress
  split
  · simp; omega
  · simp; omega

/-- The emitted instruction stands at the address that was next, and every
other address holds what it held. -/
theorem get?_push (store : Store) (instruction : Instruction) (address : Nat) :
    (store.push instruction).get? address =
      if address = store.nextAddress then some instruction else store.get? address := by
  unfold get? push nextAddress
  by_cases h : address < store.first.toNat
  · have : address ≠ store.first.toNat + store.code.size := by omega
    simp [h, this]
  · simp only [h, if_false, Array.getElem?_push]
    by_cases he : address = store.first.toNat + store.code.size
    · subst he; simp
    · have : address - store.first.toNat ≠ store.code.size := by omega
      simp [he, this]

/-- One more instruction moves the next address by one. -/
@[simp] theorem nextAddress_push (store : Store) (instruction : Instruction) :
    (store.push instruction).nextAddress = store.nextAddress + 1 := by
  simp [push, nextAddress]; omega

/-- An exchange of instructions keeps the emitted range. -/
@[simp] theorem nextAddress_set (store : Store) (address : Nat) (instruction : Instruction) :
    (store.set address instruction).nextAddress = store.nextAddress := by
  simp [set, nextAddress]

/-- An exchange at an emitted address is seen there and nowhere else. -/
theorem get?_set (store : Store) {address : Nat} (instruction : Instruction)
    (h : (store.get? address).isSome = true) (other : Nat) :
    (store.set address instruction).get? other =
      if other = address then some instruction else store.get? other := by
  rw [isSome_get?_iff] at h
  unfold nextAddress at h
  unfold get? set
  by_cases hlow : other < store.first.toNat
  · have : other ≠ address := by omega
    simp [hlow, this]
  · simp only [hlow, if_false, Array.getElem?_setIfInBounds]
    by_cases he : other = address
    · subst he; simp; omega
    · have : address - store.first.toNat ≠ other - store.first.toNat := by omega
      simp [he, this]

/-! ### What a patch does -/

/-- What a patch answers, by what stands at the address. -/
theorem patch_cases (store : Store) (address target : Nat) :
    (store.get? address = none ∧ patch address target store
      = .error (.patchOutOfRange address store.first.toNat store.nextAddress) store) ∨
    (∃ dest value, store.get? address = some (.assign dest value) ∧
      patch address target store = .error (.notAJump address) store) ∨
    (∃ instruction existing, store.get? address = some instruction ∧
      instruction.target? = some existing ∧
      patch address target store = .error (.alreadyPatched address existing target) store) ∨
    ∃ instruction, store.get? address = some instruction ∧ instruction.isPending = true ∧
      patch address target store = .ok () (store.set address (instruction.withTarget target)) := by
  unfold patch
  cases hget : store.get? address with
  | none => exact .inl ⟨rfl, rfl⟩
  | some instruction =>
      cases instruction with
      | assign dest value => exact .inr (.inl ⟨dest, value, rfl, rfl⟩)
      | branch lhs op rhs target? =>
          cases target? with
          | none => exact .inr (.inr (.inr ⟨_, rfl, rfl, rfl⟩))
          | some existing => exact .inr (.inr (.inl ⟨_, existing, rfl, rfl, rfl⟩))
      | jump target? =>
          cases target? with
          | none => exact .inr (.inr (.inr ⟨_, rfl, rfl, rfl⟩))
          | some existing => exact .inr (.inr (.inl ⟨_, existing, rfl, rfl, rfl⟩))

/-- A patch succeeds exactly where a jump is pending, and it fills in the target. -/
theorem patch_eq_ok_iff {store store' : Store} {address target : Nat} :
    patch address target store = .ok () store' ↔
      ∃ instruction, store.get? address = some instruction ∧ instruction.isPending = true ∧
        store' = store.set address (instruction.withTarget target) := by
  rcases store.patch_cases address target with ⟨hget, hrun⟩ | ⟨dest, value, hget, hrun⟩ |
    ⟨instruction, existing, hget, htarget, hrun⟩ | ⟨instruction, hget, hpending, hrun⟩
  · simp [hget, hrun]
  · simp [hget, hrun, Instruction.isPending, Instruction.isJump]
  · simp [hget, hrun, Instruction.isPending, htarget]
  · rw [hrun]
    constructor
    · rintro ⟨⟩
      exact ⟨instruction, hget, hpending, rfl⟩
    · rintro ⟨other, hother, -, rfl⟩
      rw [hget] at hother
      cases hother
      rfl

/-! ### The entries of a store -/

/-- The entries are the instructions, each with its address. -/
theorem getElem?_entries (store : Store) (index : Nat) :
    store.entries[index]?
      = store.code[index]?.map fun instruction => (store.first.toNat + index, instruction) := by
  rw [entries, List.getElem?_map, List.getElem?_zipIdx, Array.getElem?_toList, Option.map_map,
    Nat.zero_add]
  rfl

/-- What an entry shows is in the code. -/
theorem mem_of_mem_entries {store : Store} {entry : Nat × Instruction}
    (h : entry ∈ store.entries) : entry.2 ∈ store.code := by
  obtain ⟨index, hindex⟩ := List.mem_iff_getElem?.mp h
  rw [getElem?_entries, Option.map_eq_some_iff] at hindex
  obtain ⟨instruction, hget, rfl⟩ := hindex
  exact Array.mem_of_getElem? hget

end Store

end ThreeAddress
