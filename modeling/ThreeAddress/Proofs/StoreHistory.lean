import Mathlib.Data.List.Nodup
import ThreeAddress.Store

/-!
# The history of a store

A store is changed by calls of `emit` and `patch` only, and their arguments may be
anything. A `Store.History` is a store with the calls that succeeded on the way to it. What
the store holds is determined by them: the instructions in the order of their emission, each
with the target of the one call that patched it, if there was one.

* `Store.Answers` says how a store answers the next call. A call that fails changes nothing.
* `Store.Keeps` says what later calls can do to an instruction: a jump without a target may
  get one, once, and that is all.
* `Store.History.Faithful` says how a store follows from its history.

`Store.History.call_cases` has the three things that a call can do to a history. What holds
after a whole sequence of calls is shown from it, one call after the other.
-/

set_option autoImplicit false

namespace ThreeAddress.Store

/-! ### Calls -/

/-- A call of one of the operations that change a store. -/
inductive Call where
  | emit (instruction : Instruction)
  | patch (address target : Nat)
deriving DecidableEq, Repr

/-- A store and the calls that succeeded on the way to it. -/
structure History where
  store : Store
  /-- The addresses that were answered, each with the instruction that was given. -/
  emissions : List (Nat × Instruction) := []
  /-- The addresses that were patched, each with the target that was given. -/
  patches : List (Nat × Nat) := []
deriving Repr

namespace History

/-- What becomes of a history by one more call. -/
def call (h : History) : Call → History
  | .emit instruction =>
    match Store.emit instruction h.store with
    | .ok address store => ⟨store, h.emissions ++ [(address, instruction)], h.patches⟩
    | .error _ store => { h with store }
  | .patch address target =>
    match Store.patch address target h.store with
    | .ok _ store => ⟨store, h.emissions, h.patches ++ [(address, target)]⟩
    | .error _ store => { h with store }

/-- The history of an empty store after some calls. -/
def ofCalls (first : UInt64) (calls : List Call) : History :=
  calls.foldl call ⟨⟨first, #[]⟩, [], []⟩

/-- The target that was given for an address in a call that succeeded. -/
def patched? (h : History) (address : Nat) : Option Nat := h.patches.lookup address

/-- What has become of an instruction since its emission. -/
def settled (h : History) (entry : Nat × Instruction) : Instruction :=
  match h.patched? entry.1 with
  | some target => entry.2.withTarget target
  | none => entry.2

end History

/-! ### Answers -/

/-- How a store answers the next call: which calls succeed, which fail and with what fault.
A call that fails leaves the store as it is. -/
structure Answers (store : Store) : Prop where
  emit_fails (instruction : Instruction) :
    emit instruction store = .error (.addressOverflow store.first.toNat) store ↔
      store.nextAddress = maxWord
  emit_succeeds (instruction : Instruction) :
    emit instruction store = .ok store.nextAddress (store.push instruction) ↔
      store.nextAddress ≠ maxWord
  patch_outOfRange (address target : Nat) :
    patch address target store
        = .error (.patchOutOfRange address store.first.toNat store.nextAddress) store ↔
      ¬(store.first.toNat ≤ address ∧ address < store.nextAddress)
  patch_notAJump (address target : Nat) :
    patch address target store = .error (.notAJump address) store ↔
      ∃ dest value, store.get? address = some (.assign dest value)
  patch_alreadyPatched (address target existing : Nat) :
    patch address target store = .error (.alreadyPatched address existing target) store ↔
      ∃ instruction, store.get? address = some instruction ∧ instruction.target? = some existing
  patch_succeeds (address target : Nat) (store' : Store) :
    patch address target store = .ok () store' ↔
      ∃ instruction, store.get? address = some instruction ∧ instruction.isPending = true ∧
        store' = store.set address (instruction.withTarget target)
  patch_frame (address target : Nat) (store' : Store)
    (h : patch address target store = .ok () store') (other : Nat) (hother : other ≠ address) :
    store'.get? other = store.get? other
  emit_error (instruction : Instruction) (fault : Fault) (store' : Store)
    (h : emit instruction store = .error fault store') :
    fault = .addressOverflow store.first.toNat ∧ store' = store
  patch_error (address target : Nat) (fault : Fault) (store' : Store)
    (h : patch address target store = .error fault store') :
    (fault = .patchOutOfRange address store.first.toNat store.nextAddress ∨
      fault = .notAJump address ∨ ∃ existing, fault = .alreadyPatched address existing target) ∧
    store' = store

/-- Every instruction of `store` is still in `store'`, and it has not changed except that a
pending jump may have got its target. -/
def Keeps (store store' : Store) : Prop :=
  ∀ address instruction, store.get? address = some instruction →
    store'.get? address = some instruction ∨
      instruction.isPending = true ∧
        ∃ target, store'.get? address = some (instruction.withTarget target)

/-- **A store answers as it should** as long as its next address is a word. -/
theorem answers {store : Store} (h : store.nextAddress ≤ maxWord) : store.Answers where
  emit_fails instruction := by
    unfold emit
    split
    · next hroom => simp [Nat.ne_of_lt hroom]
    · -- The next address is not beyond the last one, so it is the last one.
      next hfull => simp [Nat.le_antisymm h (Nat.not_lt.mp hfull)]
  emit_succeeds instruction := by
    unfold emit
    split
    · next hroom => simp [Nat.ne_of_lt hroom]
    · next hfull => simp [Nat.le_antisymm h (Nat.not_lt.mp hfull)]
  patch_outOfRange address target := by
    rw [← isSome_get?_iff]
    rcases store.patch_cases address target with ⟨hget, hrun⟩ | ⟨dest, value, hget, hrun⟩ |
      ⟨instruction, existing, hget, htarget, hrun⟩ | ⟨instruction, hget, hpending, hrun⟩
    · simp [hget, hrun]
    · simp [hget, hrun]
    · simp [hget, hrun]
    · simp [hget, hrun]
  patch_notAJump address target := by
    rcases store.patch_cases address target with ⟨hget, hrun⟩ | ⟨dest, value, hget, hrun⟩ |
      ⟨instruction, existing, hget, htarget, hrun⟩ | ⟨instruction, hget, hpending, hrun⟩
    · simp [hget, hrun]
    · simp [hget, hrun]
    · have hjump : ∀ dest value, instruction ≠ .assign dest value := by
        rintro dest value rfl
        cases htarget
      simp [hget, hrun, hjump]
    · have hjump : ∀ dest value, instruction ≠ .assign dest value := by
        rintro dest value rfl
        cases hpending
      simp [hget, hrun, hjump]
  patch_alreadyPatched address target existing := by
    rcases store.patch_cases address target with ⟨hget, hrun⟩ | ⟨dest, value, hget, hrun⟩ |
      ⟨instruction, existing', hget, htarget, hrun⟩ | ⟨instruction, hget, hpending, hrun⟩
    · simp [hget, hrun]
    · simp [hget, hrun, Instruction.target?]
    · simp [hget, hrun, htarget]
    · simp only [Instruction.isPending, Bool.and_eq_true, Option.isNone_iff_eq_none] at hpending
      simp [hget, hrun, hpending]
  patch_succeeds address target store' := patch_eq_ok_iff
  patch_frame address target store' hok other hother := by
    obtain ⟨instruction, hget, -, rfl⟩ := patch_eq_ok_iff.mp hok
    rw [get?_set store _ (by rw [hget]; rfl), if_neg hother]
  emit_error instruction fault store' herror := by
    unfold emit at herror
    split at herror
    · cases herror
    · cases herror
      exact ⟨rfl, rfl⟩
  patch_error address target fault store' herror := by
    rcases store.patch_cases address target with ⟨-, hrun⟩ | ⟨_, _, -, hrun⟩ |
      ⟨_, existing, -, -, hrun⟩ | ⟨_, -, -, hrun⟩
    · rw [hrun] at herror
      cases herror
      exact ⟨.inl rfl, rfl⟩
    · rw [hrun] at herror
      cases herror
      exact ⟨.inr (.inl rfl), rfl⟩
    · rw [hrun] at herror
      cases herror
      exact ⟨.inr (.inr ⟨existing, rfl⟩), rfl⟩
    · rw [hrun] at herror
      cases herror

namespace Keeps
variable {store store' store'' : Store}

/-- A store keeps what it has. -/
theorem refl (store : Store) : store.Keeps store := fun _ _ hget => .inl hget

/-- What has got its target keeps it. -/
theorem trans (h : store.Keeps store') (h' : store'.Keeps store'') : store.Keeps store'' := by
  intro address instruction hget
  rcases h address instruction hget with hsame | ⟨hpending, target, hfilled⟩
  · exact h' address instruction hsame
  · -- A jump that has got its target is not pending, so it can not get another one.
    rcases h' address _ hfilled with hsame | ⟨hpending', -⟩
    · exact .inr ⟨hpending, target, hsame⟩
    · rw [Instruction.isPending_withTarget] at hpending'
      exact nomatch hpending'

/-- What is emitted stands behind everything else. -/
theorem push (store : Store) (instruction : Instruction) :
    store.Keeps (store.push instruction) := by
  intro address held hget
  have hin := (store.isSome_get?_iff address).mp (by rw [hget]; rfl)
  rw [get?_push, if_neg (Nat.ne_of_lt hin.2)]
  exact .inl hget

/-- A patch writes the target of one pending jump. -/
theorem set {address : Nat} {instruction : Instruction}
    (hget : store.get? address = some instruction) (hpending : instruction.isPending = true)
    (target : Nat) : store.Keeps (store.set address (instruction.withTarget target)) := by
  intro other held hheld
  rw [get?_set store _ (by rw [hget]; rfl)]
  by_cases hother : other = address
  · subst hother
    rw [hget] at hheld
    cases hheld
    exact .inr ⟨hpending, target, if_pos rfl⟩
  · rw [if_neg hother]
    exact .inl hheld

end Keeps

/-! ### One call after another -/

namespace History

/-- How the store of a history that started at `first` follows from it. -/
structure Faithful (first : UInt64) (h : History) : Prop where
  base : h.store.first = first
  length : h.store.code.size = h.emissions.length
  /-- The address behind the code is a word. -/
  fits : first.toNat + h.store.code.size ≤ maxWord
  /-- Addresses are answered in order and without gaps, and each holds what was emitted there,
  with the target that it was given later, if any. -/
  emitted (k : Nat) (entry : Nat × Instruction) (hentry : h.emissions[k]? = some entry) :
    entry.1 = first.toNat + k ∧ h.store.get? entry.1 = some (h.settled entry)
  /-- No target is written twice. -/
  patchedOnce : (h.patches.map Prod.fst).Nodup
  /-- A target is written only where an instruction was emitted that misses one. -/
  patchedPending (address target : Nat) (hpatch : (address, target) ∈ h.patches) :
    ∃ instruction, (address, instruction) ∈ h.emissions ∧ instruction.isPending = true

/-- What a call does to a history: it appends an instruction, it fills in the target of a
pending jump, or it fails. -/
theorem call_cases (h : History) (call : Call) :
    (∃ instruction, call = .emit instruction ∧ h.store.nextAddress < maxWord ∧
      h.call call = ⟨h.store.push instruction,
        h.emissions ++ [(h.store.nextAddress, instruction)], h.patches⟩) ∨
    (∃ address target instruction, call = .patch address target ∧
      h.store.get? address = some instruction ∧ instruction.isPending = true ∧
      h.call call = ⟨h.store.set address (instruction.withTarget target), h.emissions,
        h.patches ++ [(address, target)]⟩) ∨
    h.call call = h := by
  cases call with
  | emit instruction =>
      by_cases hroom : h.store.nextAddress < maxWord
      · have hrun : emit instruction h.store
            = .ok h.store.nextAddress (h.store.push instruction) := if_pos hroom
        exact .inl ⟨instruction, rfl, hroom, by simp only [History.call, hrun]⟩
      · have hrun : emit instruction h.store
            = .error (.addressOverflow h.store.first.toNat) h.store := if_neg hroom
        exact .inr (.inr (by simp only [History.call, hrun]))
  | patch address target =>
      rcases h.store.patch_cases address target with ⟨-, hrun⟩ | ⟨_, _, -, hrun⟩ |
        ⟨_, _, -, -, hrun⟩ | ⟨instruction, hget, hpending, hrun⟩
      · exact .inr (.inr (by simp only [History.call, hrun]))
      · exact .inr (.inr (by simp only [History.call, hrun]))
      · exact .inr (.inr (by simp only [History.call, hrun]))
      · exact .inr (.inl ⟨address, target, instruction, rfl, hget, hpending,
          by simp only [History.call, hrun]⟩)

/-- The address of the last call is patched, and the others are as they were. -/
theorem patched?_append (h : History) (store : Store) (emissions : List (Nat × Instruction))
    (address target other : Nat) :
    (⟨store, emissions, h.patches ++ [(address, target)]⟩ : History).patched? other
      = (h.patched? other).or (if other = address then some target else none) := by
  unfold patched?
  rw [List.lookup_append, List.lookup_cons, List.lookup_nil]
  by_cases hother : other = address
  · simp [hother]
  · simp [hother, beq_eq_false_iff_ne.mpr hother]

/-- Nothing was patched at an address that does not occur in the calls. -/
theorem patched?_eq_none_iff (h : History) (address : Nat) :
    h.patched? address = none ↔ address ∉ h.patches.map Prod.fst := by
  unfold patched?
  rw [List.lookup_eq_none_iff]
  simp only [List.mem_map, not_exists, not_and, bne_iff_ne]
  exact forall₂_congr fun _ _ => ne_comm

/-- An instruction that has got its target is not pending any more. -/
theorem isPending_settled (h : History) (entry : Nat × Instruction) :
    (h.settled entry).isPending = (entry.2.isPending && (h.patched? entry.1).isNone) := by
  unfold settled
  cases h.patched? entry.1 with
  | none => simp
  | some target => simp

namespace Faithful
variable {first : UInt64} {h : History} (hf : h.Faithful first)
include hf

/-- What stands at an address was emitted there. -/
theorem exists_entry {address : Nat} {instruction : Instruction}
    (hget : h.store.get? address = some instruction) :
    ∃ entry ∈ h.emissions, entry.1 = address ∧ h.settled entry = instruction := by
  have hin := (h.store.isSome_get?_iff address).mp (by rw [hget]; rfl)
  -- Addresses are counted from the first one, so this one belongs to an emission.
  have hindex : address - first.toNat < h.emissions.length := by
    have hlength := hf.length
    unfold nextAddress at hin
    rw [hf.base] at hin
    omega
  have hentry := List.getElem?_eq_getElem hindex
  obtain ⟨haddress, hsettled⟩ := hf.emitted _ _ hentry
  have hsame : (h.emissions[address - first.toNat]).1 = address := by
    rw [haddress, ← hf.base]
    omega
  rw [hsame, hget] at hsettled
  exact ⟨_, List.getElem_mem hindex, hsame, (Option.some.inj hsettled).symm⟩

/-- A pending jump was emitted as it is, and it was not patched. -/
theorem of_pending {address : Nat} {instruction : Instruction}
    (hget : h.store.get? address = some instruction) (hpending : instruction.isPending = true) :
    (address, instruction) ∈ h.emissions ∧ h.patched? address = none := by
  obtain ⟨⟨_, original⟩, hmem, rfl, rfl⟩ := hf.exists_entry hget
  rw [isPending_settled, Bool.and_eq_true, Option.isNone_iff_eq_none] at hpending
  refine ⟨?_, hpending.2⟩
  unfold settled
  rw [hpending.2]
  exact hmem

/-- Nothing was patched where nothing was emitted yet. -/
theorem patched?_nextAddress : h.patched? h.store.nextAddress = none := by
  rw [patched?_eq_none_iff]
  intro hmem
  obtain ⟨⟨_, target⟩, hpatch, rfl⟩ := List.mem_map.mp hmem
  obtain ⟨instruction, hemission, -⟩ := hf.patchedPending _ target hpatch
  obtain ⟨k, hk, hget⟩ := List.mem_iff_getElem.mp hemission
  -- A patched address belongs to an emission, and so it lies before the next one.
  obtain ⟨haddress, -⟩ := hf.emitted k _ (by rw [List.getElem?_eq_getElem hk, hget])
  rw [nextAddress, hf.base, hf.length] at haddress
  omega

/-- An instruction is emitted. -/
theorem emit (hroom : h.store.nextAddress < maxWord) (instruction : Instruction) :
    Faithful first ⟨h.store.push instruction,
      h.emissions ++ [(h.store.nextAddress, instruction)], h.patches⟩ where
  base := hf.base
  length := by
    simp [push, hf.length]
  fits := by
    unfold nextAddress at hroom
    rw [hf.base] at hroom
    simp only [push, Array.size_push]
    omega
  emitted k entry hentry := by
    have hnext : h.store.nextAddress = first.toNat + h.emissions.length := by
      rw [nextAddress, hf.base, hf.length]
    rw [List.getElem?_append] at hentry
    split at hentry
    · next hold =>
      obtain ⟨haddress, hget⟩ := hf.emitted k entry hentry
      refine ⟨haddress, ?_⟩
      rw [get?_push, if_neg (by omega)]
      exact hget
    · next hnew =>
      rw [List.getElem?_singleton] at hentry
      split at hentry
      · obtain rfl := Option.some.inj hentry
        refine ⟨by omega, ?_⟩
        -- No call has patched the new address, so the instruction is as it was given.
        rw [get?_push, if_pos rfl]
        show _ = some (h.settled (h.store.nextAddress, instruction))
        unfold settled
        rw [hf.patched?_nextAddress]
      · cases hentry
  patchedOnce := hf.patchedOnce
  patchedPending address target hpatch := by
    obtain ⟨emitted, hmem, hpending⟩ := hf.patchedPending address target hpatch
    exact ⟨emitted, List.mem_append_left _ hmem, hpending⟩

/-- A pending jump is patched. -/
theorem patch {address : Nat} {instruction : Instruction}
    (hget : h.store.get? address = some instruction) (hpending : instruction.isPending = true)
    (target : Nat) :
    Faithful first ⟨h.store.set address (instruction.withTarget target), h.emissions,
      h.patches ++ [(address, target)]⟩ where
  base := hf.base
  length := by
    simp [Store.set, hf.length]
  fits := by
    simpa [Store.set] using hf.fits
  emitted k entry hentry := by
    obtain ⟨haddress, hsettled⟩ := hf.emitted k entry hentry
    refine ⟨haddress, ?_⟩
    -- The jump was pending, so no earlier call has patched its address.
    have hnone := (hf.of_pending hget hpending).2
    rw [get?_set _ _ (by rw [hget]; rfl)]
    unfold settled at hsettled ⊢
    rw [patched?_append]
    by_cases hother : entry.1 = address
    · rw [hother, hnone, hget] at hsettled
      obtain rfl := Option.some.inj hsettled
      simp [hother, hnone]
    · simpa [hother] using hsettled
  patchedOnce := by
    -- For the same reason the address is new among the patched ones.
    have hfresh := (h.patched?_eq_none_iff address).mp (hf.of_pending hget hpending).2
    rw [List.map_append, List.map_singleton, ← List.concat_eq_append]
    exact hf.patchedOnce.concat hfresh
  patchedPending other target' hpatch := by
    rcases List.mem_append.mp hpatch with hold | hnew
    · exact hf.patchedPending other target' hold
    · obtain ⟨rfl, -⟩ := Prod.mk.inj (List.mem_singleton.mp hnew)
      exact ⟨instruction, (hf.of_pending hget hpending).1, hpending⟩

/-- **One call** keeps a store faithful to its history. -/
theorem call (call : Call) : (h.call call).Faithful first := by
  rcases h.call_cases call with ⟨instruction, -, hroom, heq⟩ |
    ⟨address, target, instruction, -, hget, hpending, heq⟩ | heq
  · rw [heq]
    exact hf.emit hroom instruction
  · rw [heq]
    exact hf.patch hget hpending target
  · rw [heq]
    exact hf

/-- What the store holds, in order. -/
theorem entries : h.store.entries = h.emissions.map fun entry => (entry.1, h.settled entry) := by
  refine List.ext_getElem? fun k => ?_
  rw [getElem?_entries, List.getElem?_map]
  cases hentry : h.emissions[k]? with
  | none =>
      rw [List.getElem?_eq_none_iff, ← hf.length] at hentry
      rw [Array.getElem?_eq_none hentry]
      rfl
  | some entry =>
      obtain ⟨haddress, hget⟩ := hf.emitted k entry hentry
      rw [haddress, get?, hf.base, if_neg (by omega), Nat.add_sub_cancel_left] at hget
      rw [hget, hf.base, ← haddress]
      rfl

/-- The unresolved addresses are those of the jumps that were emitted without a target and not
patched, in order. -/
theorem unresolved : h.store.unresolved
    = (h.emissions.filter fun entry => entry.2.isPending && (h.patched? entry.1).isNone).map
        Prod.fst := by
  rw [Store.unresolved, hf.entries, List.filter_map, List.map_map]
  simp only [Function.comp_def, isPending_settled]

/-- They increase. -/
theorem pairwise_unresolved : h.store.unresolved.Pairwise (· < ·) := by
  rw [hf.unresolved, List.pairwise_map]
  refine List.Pairwise.filter _ (List.pairwise_iff_getElem.mpr ?_)
  intro j k hj hk hlt
  obtain ⟨hleft, -⟩ := hf.emitted j _ (List.getElem?_eq_getElem hj)
  obtain ⟨hright, -⟩ := hf.emitted k _ (List.getElem?_eq_getElem hk)
  omega

end Faithful

/-- A history without calls. -/
theorem faithful_start (first : UInt64) : Faithful first ⟨⟨first, #[]⟩, [], []⟩ where
  base := rfl
  length := rfl
  fits := Nat.le_of_lt_succ first.toNat_lt
  emitted _ _ hentry := nomatch hentry
  patchedOnce := .nil
  patchedPending _ _ hpatch := nomatch hpatch

/-- Every sequence of calls keeps a store faithful to its history. -/
theorem faithful_foldl {first : UInt64} (calls : List Call) {h : History}
    (hf : h.Faithful first) : (calls.foldl call h).Faithful first := by
  induction calls generalizing h with
  | nil => exact hf
  | cons next calls ih => exact ih (hf.call next)

/-- One call keeps what is in the store. -/
theorem keeps_call (h : History) (call : Call) : h.store.Keeps (h.call call).store := by
  rcases h.call_cases call with ⟨instruction, -, -, heq⟩ |
    ⟨address, target, instruction, -, hget, hpending, heq⟩ | heq
  · rw [heq]
    exact .push h.store instruction
  · rw [heq]
    exact .set hget hpending target
  · rw [heq]
    exact .refl h.store

/-- Every sequence of calls keeps what is in the store. -/
theorem keeps_foldl (calls : List Call) (h : History) :
    h.store.Keeps (calls.foldl call h).store := by
  induction calls generalizing h with
  | nil => exact .refl h.store
  | cons next calls ih => exact (h.keeps_call next).trans (ih (h.call next))

end History

/-- **The store follows its history.** After every sequence of calls with any arguments, the
store is faithful to the calls that succeeded. It answers the next call as it should, and
what is in it is kept by all later calls. Its unresolved addresses are, in increasing order,
those of the jumps that were emitted without a target and not patched. -/
theorem faithful_ofCalls (first : UInt64) (calls : List Call) :
    (History.ofCalls first calls).Faithful first ∧
    (History.ofCalls first calls).store.Answers ∧
    (∀ later, (History.ofCalls first calls).store.Keeps
      (History.ofCalls first (calls ++ later)).store) ∧
    (History.ofCalls first calls).store.unresolved
      = ((History.ofCalls first calls).emissions.filter fun entry =>
          entry.2.isPending && ((History.ofCalls first calls).patched? entry.1).isNone).map
            Prod.fst ∧
    (History.ofCalls first calls).store.unresolved.Pairwise (· < ·) := by
  have hf : (History.ofCalls first calls).Faithful first :=
    History.faithful_foldl calls (History.faithful_start first)
  refine ⟨hf, answers ?_, fun later => ?_, hf.unresolved, hf.pairwise_unresolved⟩
  · rw [nextAddress, hf.base]
    exact hf.fits
  · rw [History.ofCalls, History.ofCalls, List.foldl_append]
    exact History.keeps_foldl later _

/-- The second patch fails, and so does the one below the first address. -/
example : (History.ofCalls 5 [.emit (.jump none), .patch 5 9, .patch 5 7, .patch 4 1]).store
    = ⟨5, #[.jump (some 9)]⟩ := by decide

end ThreeAddress.Store
