import Mathlib.Data.List.Induction
import Mathlib.Data.List.Nodup
import ThreeAddress.Proofs.Emission

/-!
# Backpatching any list in any store

The generator backpatches lists of waiting jumps only, and then nothing can fail. This module
says what happens to every list in every store. The addresses are filled in one after the
other, and each step changes the store that the next one looks at, so an address that occurs
twice is refused the second time.

* `Store.Refuses` says why an address refuses a target, in terms of the store before the call
  and of the addresses that precede it in the list.
* `Store.waiting_or_refuses`: either all the jumps of a list are waiting, or there is a first
  address that refuses.
* `JumpList.backpatch_refused` says what is left in the second case: the jumps before that
  address are resolved, and nothing else has changed.
* `Store.Waiting.resolve_perm`: waiting jumps may be resolved in any order.
* `JumpList.backpatch_outcome` puts this together.
-/

set_option autoImplicit false

namespace ThreeAddress

namespace Store

/-! ### Stores by what their addresses hold -/

/-- Two stores of the same extent are equal if every address holds the same in both. -/
theorem ext_get? {store store' : Store} (hfirst : store'.first = store.first)
    (hnext : store'.nextAddress = store.nextAddress)
    (hget : ∀ address, store'.get? address = store.get? address) : store' = store := by
  obtain ⟨first, code⟩ := store
  obtain ⟨first', code'⟩ := store'
  obtain rfl : first' = first := hfirst
  have hcode : code' = code := by
    refine Array.ext_getElem? fun index => ?_
    have hindex := hget (first'.toNat + index)
    unfold get? at hindex
    rw [if_neg (Nat.not_lt.mpr (Nat.le_add_right _ _)),
      if_neg (Nat.not_lt.mpr (Nat.le_add_right _ _)), Nat.add_sub_cancel_left] at hindex
    exact hindex
  rw [hcode]

/-- Waiting jumps may be resolved in any order. -/
theorem Waiting.resolve_perm {store : Store} {addresses addresses' : List Nat}
    (h : store.Waiting addresses) (hperm : addresses'.Perm addresses) (target : Nat) :
    store.Waiting addresses' ∧
      store.resolve addresses' target = store.resolve addresses target := by
  have hmem : ∀ address, address ∈ addresses' ↔ address ∈ addresses := fun _ => hperm.mem_iff
  have hwaiting : store.Waiting addresses' :=
    ⟨hperm.nodup_iff.mpr h.1, fun address hin => h.2 address ((hmem address).mp hin)⟩
  -- What an address holds afterwards depends on whether it is in the list, not on where.
  refine ⟨hwaiting, ext_get? ?_ ?_ fun address => ?_⟩
  · rw [first_resolve, first_resolve]
  · rw [nextAddress_resolve, nextAddress_resolve]
  · rw [hwaiting.get?_resolve, h.get?_resolve]
    simp only [hmem]

/-! ### The first address that refuses -/

/-- Why `address` refuses `target` if the jumps at the addresses `done` have just been sent to
`target`. All but the last case are about the store before that. -/
inductive Refuses (store : Store) (target : Nat) (done : List Nat) (address : Nat) :
    Fault → Prop where
  | outOfRange (h : ¬(store.first.toNat ≤ address ∧ address < store.nextAddress)) :
      Refuses store target done address
        (.patchOutOfRange address store.first.toNat store.nextAddress)
  | assignment (dest : String) (value : Rvalue)
      (h : store.get? address = some (.assign dest value)) :
      Refuses store target done address (.notAJump address)
  | targeted (instruction : Instruction) (existing : Nat)
      (h : store.get? address = some instruction) (htarget : instruction.target? = some existing) :
      Refuses store target done address (.alreadyPatched address existing target)
  | repeated (h : address ∈ done) :
      Refuses store target done address (.alreadyPatched address target target)

/-- An address that does not refuse holds a pending jump and is not repeated. -/
theorem pending_or_refuses (store : Store) (target : Nat) (done : List Nat) (address : Nat) :
    ((∃ instruction, store.get? address = some instruction ∧ instruction.isPending = true) ∧
        address ∉ done) ∨
      ∃ fault, store.Refuses target done address fault := by
  rcases store.patch_cases address target with ⟨hget, -⟩ | ⟨dest, value, hget, -⟩ |
    ⟨instruction, existing, hget, htarget, -⟩ | ⟨instruction, hget, hpending, -⟩
  · refine .inr ⟨_, .outOfRange ?_⟩
    rw [← isSome_get?_iff, hget]
    exact Bool.false_ne_true
  · exact .inr ⟨_, .assignment dest value hget⟩
  · exact .inr ⟨_, .targeted instruction existing hget htarget⟩
  · by_cases hdone : address ∈ done
    · exact .inr ⟨_, .repeated hdone⟩
    · exact .inl ⟨⟨instruction, hget, hpending⟩, hdone⟩

/-- In every list all the jumps are waiting, or there is a first address that refuses. The
induction is on the list from its end, so that what was done before an address is in front. -/
theorem waiting_or_refuses (store : Store) (target : Nat) (addresses : List Nat) :
    store.Waiting addresses ∨
      ∃ done address rest fault, addresses = done ++ address :: rest ∧ store.Waiting done ∧
        store.Refuses target done address fault := by
  induction addresses using List.reverseRecOn with
  | nil => exact .inl (waiting_nil store)
  | append_singleton init last ih =>
      rcases ih with hwaiting | ⟨done, address, rest, fault, rfl, hwaiting, hrefuses⟩
      · rcases store.pending_or_refuses target init last with ⟨hpending, hnew⟩ | ⟨fault, hrefuses⟩
        · refine .inl ⟨List.nodup_append_comm.mp (List.nodup_cons.mpr ⟨hnew, hwaiting.1⟩), ?_⟩
          intro address hmem
          rcases List.mem_append.mp hmem with hinit | hlast
          · exact hwaiting.2 address hinit
          · rw [List.mem_singleton.mp hlast]
            exact hpending
        · exact .inr ⟨init, last, [], fault, rfl, hwaiting, hrefuses⟩
      · -- The address that refuses first does so whatever follows it.
        refine .inr ⟨done, address, rest ++ [last], fault, ?_, hwaiting, hrefuses⟩
        rw [List.append_assoc, List.cons_append]

/-- A jump that has a target keeps it. -/
theorem patch_of_target {store : Store} {address existing : Nat} {instruction : Instruction}
    (hget : store.get? address = some instruction) (htarget : instruction.target? = some existing)
    (target : Nat) :
    patch address target store = .error (.alreadyPatched address existing target) store := by
  unfold patch
  cases instruction with
  | assign dest value => exact nomatch htarget
  | branch lhs op rhs held =>
      obtain rfl : held = some existing := htarget
      rw [hget]
      rfl
  | jump held =>
      obtain rfl : held = some existing := htarget
      rw [hget]
      rfl

/-- A patch of an address that refuses fails, and the fault says why. -/
theorem Refuses.patch_resolve {store : Store} {target : Nat} {done : List Nat} {address : Nat}
    {fault : Fault} (h : store.Refuses target done address fault) (hwaiting : store.Waiting done) :
    patch address target (store.resolve done target)
      = .error fault (store.resolve done target) := by
  have hheld := hwaiting.get?_resolve target address
  cases h with
  | outOfRange hout =>
      -- The fault names the extent of the store, which a resolved jump does not change.
      rw [← isSome_get?_iff, Option.not_isSome_iff_eq_none] at hout
      rw [hout, Option.map_none, ite_self] at hheld
      unfold patch
      rw [hheld, first_resolve, nextAddress_resolve]
  | assignment dest value hget =>
      rw [hget, Option.map_some, Instruction.withTarget, ite_self] at hheld
      unfold patch
      rw [hheld]
      rfl
  | targeted instruction existing hget htarget =>
      -- What is in `done` had no target before.
      have hnew : address ∉ done := by
        intro hdone
        obtain ⟨waiting, hsame, hpending⟩ := hwaiting.2 address hdone
        rw [hget] at hsame
        obtain rfl := Option.some.inj hsame
        rw [Instruction.isPending, htarget, Option.isNone_some, Bool.and_false] at hpending
        exact Bool.false_ne_true hpending
      rw [if_neg hnew, hget] at hheld
      exact patch_of_target hheld htarget target
  | repeated hdone =>
      -- Its jump has got `target` a moment ago.
      obtain ⟨instruction, hget, hpending⟩ := hwaiting.2 address hdone
      have hjump : instruction.isJump = true := (Bool.and_eq_true_iff.mp hpending).1
      rw [if_pos hdone, hget, Option.map_some] at hheld
      exact patch_of_target hheld (Instruction.target?_withTarget hjump target) target

/-- What a store is after some of its pending jumps were sent to `target`: those jumps have
it, and everything else is as before. -/
structure Sent (store : Store) (addresses : List Nat) (target : Nat) (store' : Store) : Prop where
  first : store'.first = store.first
  nextAddress : store'.nextAddress = store.nextAddress
  sent : ∀ address ∈ addresses, ∃ instruction, store.get? address = some instruction ∧
    instruction.isPending = true ∧ store'.get? address = some (instruction.withTarget target)
  kept : ∀ address, address ∉ addresses → store'.get? address = store.get? address

/-- Resolving waiting jumps sends them to their target. -/
theorem Waiting.sent {store : Store} {addresses : List Nat} (h : store.Waiting addresses)
    (target : Nat) : store.Sent addresses target (store.resolve addresses target) where
  first := first_resolve ..
  nextAddress := nextAddress_resolve ..
  sent address hmem := by
    obtain ⟨instruction, hget, hpending⟩ := h.2 address hmem
    refine ⟨instruction, hget, hpending, ?_⟩
    rw [h.get?_resolve, if_pos hmem, hget, Option.map_some]
  kept address hnot := by
    rw [h.get?_resolve, if_neg hnot]

end Store

namespace JumpList

/-! ### Backpatching -/

section
variable {a : JumpList} {target : Nat} {store store' : Store}

/-- If the first part of a merged list can be filled in, the second is filled in next. -/
theorem backpatch_merge_of_ok (h : a.backpatch target store = .ok () store') (b : JumpList) :
    (a.merge b).backpatch target store = b.backpatch target store' := by
  rw [backpatch_merge]
  show EStateM.bind _ _ _ = _
  unfold EStateM.bind
  rw [h]

/-- If the first part of a merged list cannot be filled in, the second is not tried. -/
theorem backpatch_merge_of_error {fault : Fault}
    (h : a.backpatch target store = .error fault store') (b : JumpList) :
    (a.merge b).backpatch target store = .error fault store' := by
  rw [backpatch_merge]
  show EStateM.bind _ _ _ = _
  unfold EStateM.bind
  rw [h]

end

/-- The first address that refuses stops a backpatch. The jumps before it are resolved. -/
theorem backpatch_refused {store : Store} {target : Nat} {done rest : List Nat} {address : Nat}
    {fault : Fault} (hwaiting : store.Waiting done)
    (hrefuses : store.Refuses target done address fault) :
    backpatch ⟨done ++ address :: rest⟩ target store
      = .error fault (store.resolve done target) := by
  have hdone : backpatch ⟨done⟩ target store = .ok () (store.resolve done target) :=
    backpatch_run hwaiting target
  have hlast : backpatch ⟨address :: rest⟩ target (store.resolve done target)
      = .error fault (store.resolve done target) := by
    show EStateM.bind (Store.patch address target) _ _ = _
    unfold EStateM.bind
    rw [hrefuses.patch_resolve hwaiting]
  exact (backpatch_merge_of_ok hdone ⟨address :: rest⟩).trans hlast

/-- A backpatch succeeds exactly if all the jumps of the list are waiting. -/
theorem backpatch_eq_ok_iff {list : JumpList} {target : Nat} {store store' : Store} :
    list.backpatch target store = .ok () store' ↔
      store.Waiting list.addresses ∧ store' = store.resolve list.addresses target := by
  rcases store.waiting_or_refuses target list.addresses with
    hwaiting | ⟨done, address, rest, fault, hsplit, hwaiting, hrefuses⟩
  · rw [backpatch_run hwaiting target]
    constructor
    · rintro ⟨⟩
      exact ⟨hwaiting, rfl⟩
    · rintro ⟨-, rfl⟩
      rfl
  · have hrun : list.backpatch target store = .error fault (store.resolve done target) := by
      obtain ⟨addresses⟩ := list
      obtain rfl : addresses = _ := hsplit
      exact backpatch_refused hwaiting hrefuses
    constructor
    · intro hok
      rw [hrun] at hok
      exact nomatch hok
    · rintro ⟨hall, -⟩
      rw [backpatch_run hall target] at hrun
      exact nomatch hrun

/-- A backpatch fails exactly if some address refuses, and then the first such address says
how. -/
theorem backpatch_eq_error_iff {list : JumpList} {target : Nat} {store store' : Store}
    {fault : Fault} :
    list.backpatch target store = .error fault store' ↔
      ∃ done address rest, list.addresses = done ++ address :: rest ∧ store.Waiting done ∧
        store.Refuses target done address fault ∧ store' = store.resolve done target := by
  obtain ⟨addresses⟩ := list
  constructor
  · intro herror
    rcases store.waiting_or_refuses target addresses with
      hwaiting | ⟨done, address, rest, fault', rfl, hwaiting, hrefuses⟩
    · rw [backpatch_run hwaiting target] at herror
      exact nomatch herror
    · rw [backpatch_refused hwaiting hrefuses] at herror
      cases herror
      exact ⟨done, address, rest, rfl, hwaiting, hrefuses, rfl⟩
  · rintro ⟨done, address, rest, hsplit, hwaiting, hrefuses, rfl⟩
    obtain rfl : addresses = _ := hsplit
    exact backpatch_refused hwaiting hrefuses

/-- **What a backpatch does to any store.** It succeeds exactly if the addresses are distinct
and each holds a pending jump. Then those jumps have the target, nothing else has changed, and
the order of the list does not matter. Otherwise it fails at the first address that is not in
the code, holds an assignment, had a target before, or occurs earlier in the list. The fault is
that of the patch of this address, and the store is the one in which the addresses before it
are backpatched. The backpatch of a merged list is that of its first part and then, if that
succeeded, that of the second. -/
theorem backpatch_outcome (list : JumpList) (target : Nat) (store : Store) :
    ((∃ store', list.backpatch target store = .ok () store') ↔
      list.addresses.Nodup ∧ ∀ address ∈ list.addresses, ∃ instruction,
        store.get? address = some instruction ∧ instruction.isPending = true) ∧
    (∀ store', list.backpatch target store = .ok () store' →
      store.Sent list.addresses target store' ∧
      ∀ list' : JumpList, list'.addresses.Perm list.addresses →
        list'.backpatch target store = .ok () store') ∧
    (∀ fault store', list.backpatch target store = .error fault store' ↔
      ∃ done address rest, list.addresses = done ++ address :: rest ∧
        backpatch ⟨done⟩ target store = .ok () store' ∧
        store.Refuses target done address fault ∧
        Store.patch address target store' = .error fault store') ∧
    ∀ other : JumpList,
      (∀ store', list.backpatch target store = .ok () store' →
        (list.merge other).backpatch target store = other.backpatch target store') ∧
      ∀ fault store', list.backpatch target store = .error fault store' →
        (list.merge other).backpatch target store = .error fault store' := by
  refine ⟨⟨?_, ?_⟩, ?_, ?_, ?_⟩
  · rintro ⟨store', hok⟩
    exact (backpatch_eq_ok_iff.mp hok).1
  · intro hwaiting
    exact ⟨_, backpatch_run hwaiting target⟩
  · intro store' hok
    obtain ⟨hwaiting, rfl⟩ := backpatch_eq_ok_iff.mp hok
    refine ⟨hwaiting.sent target, fun list' hperm => ?_⟩
    obtain ⟨hwaiting', hsame⟩ := hwaiting.resolve_perm hperm target
    exact backpatch_eq_ok_iff.mpr ⟨hwaiting', hsame.symm⟩
  · intro fault store'
    rw [backpatch_eq_error_iff]
    constructor
    · rintro ⟨done, address, rest, hsplit, hwaiting, hrefuses, rfl⟩
      exact ⟨done, address, rest, hsplit, backpatch_run hwaiting target, hrefuses,
        hrefuses.patch_resolve hwaiting⟩
    · rintro ⟨done, address, rest, hsplit, hok, hrefuses, -⟩
      obtain ⟨hwaiting, rfl⟩ := backpatch_eq_ok_iff.mp hok
      exact ⟨done, address, rest, hsplit, hwaiting, hrefuses, rfl⟩
  · intro other
    exact ⟨fun store' hok => backpatch_merge_of_ok hok other,
      fun fault store' herror => backpatch_merge_of_error herror other⟩

/-- Two pending jumps are backpatched in either order. With one of them repeated the backpatch
stops there, in front of an assignment that would be refused as well. -/
theorem backpatch_outcome_repeated :
    (∀ list' : JumpList, list'.addresses.Perm [5, 7] →
      list'.backpatch 8 ⟨5, #[.jump none, .assign "x" (.copy "1"), .branch "x" .lt "y" none]⟩
        = .ok () ⟨5, #[.jump (some 8), .assign "x" (.copy "1"), .branch "x" .lt "y" (some 8)]⟩) ∧
    backpatch ⟨[7, 5, 7, 6]⟩ 8
        ⟨5, #[.jump none, .assign "x" (.copy "1"), .branch "x" .lt "y" none]⟩
      = .error (.alreadyPatched 7 8 8)
        ⟨5, #[.jump (some 8), .assign "x" (.copy "1"), .branch "x" .lt "y" (some 8)]⟩ := by
  constructor
  · have hsuccess := (backpatch_outcome ⟨[5, 7]⟩ 8
      ⟨5, #[.jump none, .assign "x" (.copy "1"), .branch "x" .lt "y" none]⟩).2.1
    exact (hsuccess _ rfl).2
  · have hfailure := (backpatch_outcome ⟨[7, 5, 7, 6]⟩ 8
      ⟨5, #[.jump none, .assign "x" (.copy "1"), .branch "x" .lt "y" none]⟩).2.2.1
    exact (hfailure _ _).mpr ⟨[7, 5], 7, [6], rfl, rfl, .repeated (by decide), rfl⟩

end JumpList

end ThreeAddress
