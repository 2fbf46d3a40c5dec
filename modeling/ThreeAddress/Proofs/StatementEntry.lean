import ThreeAddress.Proofs.JumpBookkeeping

/-!
# The jumps that wait for a statement

A statement is handed the jumps that are to reach it. It may be called in any state, in the
middle of a program and with any tokens in front of it. If it emits nothing, it hands on the
same jumps and leaves the code alone. If it emits something, the jumps that waited go to its
first instruction, none is handed on, and every jump of its own is resolved.

* `Generate.Entered` says what a statement does that emits.
* `Generate.statement_passes_or_enters` is the contract.

How a statement comes to its code is not repeated here: `statement_executes` says that it is
the code of a tree.
-/

set_option autoImplicit false

namespace ThreeAddress

namespace Generate

/-- What a statement does that emits code. The jumps in `pending` were to reach it, and those
in `next` are to reach what follows it. -/
structure Entered (pending : JumpList) (s : State) (next : JumpList) (s' : State) : Prop where
  emitted : s.code.nextAddress < s'.code.nextAddress
  none_left : next = .empty
  /-- The jumps that waited go to the first instruction. -/
  reached : ∀ address ∈ pending.addresses, ∃ instruction,
    s.code.get? address = some instruction ∧
      s'.code.get? address = some (instruction.withTarget s.code.nextAddress)
  /-- Everything else that stood there before still stands there. -/
  kept : ∀ address instruction, address ∉ pending.addresses →
    s.code.get? address = some instruction → s'.code.get? address = some instruction
  /-- Every jump that was emitted stays in the code of the statement, or it goes to the
  address right behind it. -/
  resolved : ∀ address instruction, s.code.nextAddress ≤ address →
    s'.code.get? address = some instruction → instruction.isJump = true →
      ∃ target, instruction.target? = some target ∧
        s.code.nextAddress ≤ target ∧ target ≤ s'.code.nextAddress

/-- The code of a tree that is not empty enters it. -/
theorem entered_of_performs {s s' : State} {pending next : JumpList} {t : Stmt}
    (hwait : s.code.Waiting pending.addresses) (hsize : t.size ≠ 0)
    (h : Performs s.code s.temps.next pending t next s'.code s'.temps.next) :
    Entered pending s next s' := by
  obtain ⟨hcode, hnext⟩ := h.code hsize
  have hstop : s'.code.nextAddress = s.code.nextAddress + t.size := by
    rw [hcode, Store.nextAddress_append, Store.nextAddress_resolve, Stmt.length_code]
  -- What stood there before is not touched by the code that is appended.
  have hbefore : ∀ address instruction, s.code.get? address = some instruction →
      s'.code.get? address =
        (s.code.resolve pending.addresses s.code.nextAddress).get? address := by
    intro address instruction hget
    have hin := (s.code.isSome_get?_iff address).mp (by rw [hget]; rfl)
    rw [hcode, Store.get?_append_of_lt]
    rw [Store.nextAddress_resolve]
    exact hin.2
  refine ⟨by omega, hnext, ?_, ?_, ?_⟩
  · intro address hmem
    obtain ⟨instruction, hget, -⟩ := hwait.2 address hmem
    refine ⟨instruction, hget, ?_⟩
    rw [hbefore address instruction hget, hwait.get?_resolve, if_pos hmem, hget, Option.map_some]
  · intro address instruction hmem hget
    rw [hbefore address instruction hget, hwait.get?_resolve, if_neg hmem, hget]
  · intro address instruction hle hget hjump
    rw [hcode, Store.get?_append_of_le (by rwa [Store.nextAddress_resolve])] at hget
    rw [hstop]
    exact Stmt.target_mem_range (List.mem_of_getElem? hget) hjump

/-- **The contract of a statement**, in every state and for every list of jumps that wait.
It emits nothing, keeps the code and hands on the list, or it emits something and the list is
resolved. The only fault is that the addresses run out. -/
theorem statement_passes_or_enters {options : Options} {s : State} {pending : JumpList}
    {fuel : Nat} (hwait : s.code.Waiting pending.addresses) (hfuel : s.input.budget ≤ fuel) :
    Ends (· = .addressOverflow s.code.first.toNat) (statement fuel pending) options s
      fun next s' => (s'.code = s.code ∧ next = pending) ∨ Entered pending s next s' := by
  have hlength : s.input.lexemes.length < fuel - 1 := by
    rw [TokenStream.lexemes, List.length_map]
    unfold TokenStream.budget at hfuel
    omega
  -- Nothing is asked of the names and of the addresses, so every state is ready.
  have hready : Ready (fun _ => True) s.code.first.toNat
      (s.code.nextAddress + 3 * s.input.lexemes.length) 0 s :=
    ⟨rfl, Nat.le_refl _, fun _ _ => trivial⟩
  refine ((statement_executes fuel 0 s pending hlength hready hwait).weaken
    fun _ hfault => hfault.1).mono ?_
  rintro next s' ⟨-, -, t, -, hperforms⟩
  by_cases hsize : t.size = 0
  · exact .inl (hperforms.quiet hsize)
  · exact .inr (entered_of_performs hwait hsize hperforms)

/-- A state in the middle of a program. A branch and a jump wait, and a block is next, with a
parenthesis in it that is left over and a loop without a body. -/
def waitingState : State where
  input := scan "BEGIN ; ) WHILE x > 0 DO END"
  code := ⟨7, #[.assign "x" (.copy "1"), .branch "x" .lt "1" none, .jump none]⟩
  temps := ⟨4⟩
  depth := 3

/-- The two jumps reach the loop, which stands behind an empty statement and a stray one. -/
theorem statement_passes_or_enters_stray :
    ∃ next s', statement 20 ⟨[9, 8]⟩ {} waitingState = .ok next s' ∧
      Entered ⟨[9, 8]⟩ waitingState next s' := by
  have hwait : waitingState.code.Waiting [9, 8] := by
    refine ⟨by decide, ?_⟩
    intro address hmem
    rcases List.mem_cons.mp hmem with rfl | hlast
    · exact ⟨.jump none, rfl, rfl⟩
    · obtain rfl := List.mem_singleton.mp hlast
      exact ⟨.branch "x" .lt "1" none, rfl, rfl⟩
  have hnext : EStateM.run' (statement 20 ⟨[9, 8]⟩ {}) waitingState = some .empty := by
    decide +kernel
  have hends : Ends (· = .addressOverflow 7) (statement 20 ⟨[9, 8]⟩) {} waitingState
      fun next s' => (s'.code = waitingState.code ∧ next = ⟨[9, 8]⟩) ∨
        Entered ⟨[9, 8]⟩ waitingState next s' :=
    statement_passes_or_enters hwait (by decide +kernel)
  unfold Ends at hends
  unfold EStateM.run' EStateM.run at hnext
  cases hrun : statement 20 ⟨[9, 8]⟩ {} waitingState with
  | error fault s' =>
      rw [hrun] at hnext
      exact nomatch hnext
  | ok next s' =>
      rw [hrun] at hnext hends
      rcases hends with ⟨-, hnone⟩ | hentered
      · -- A list that is handed on is not empty.
        have hempty : next = .empty := Option.some.inj hnext
        exact absurd (hnone.symm.trans hempty) (by decide)
      · exact ⟨next, s', rfl, hentered⟩

end Generate

end ThreeAddress
