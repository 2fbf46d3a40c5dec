import ThreeAddress.Proofs.Lifetimes
import ThreeAddress.Proofs.Lockstep

/-!
# Code can be moved

The address of the first instruction has no influence on a compilation but where
the code stands. `Store.relocate` is the code at another address: the same
instructions, with every target moved along. `relocation` compares the run at one
first address with the run at another. Both runs do the same, step by step, until
the second one is out of addresses. That happens as soon as the code of the first
would not fit, so the comparison also says when the second run fails.
-/

set_option autoImplicit false

namespace ThreeAddress

/-! ### Moving instructions and stores -/

namespace Instruction

/-- The instruction with its target, if it has one, replaced by another. -/
def retarget (f : Nat → Nat) : Instruction → Instruction
  | assign dest value => assign dest value
  | branch lhs op rhs target => branch lhs op rhs (target.map f)
  | jump target => jump (target.map f)

variable (f : Nat → Nat) (instruction : Instruction)

/-- Moving the target of an instruction makes it neither a jump nor something else. -/
@[simp] theorem isJump_retarget : (instruction.retarget f).isJump = instruction.isJump := by
  cases instruction <;> rfl

/-- The target is moved, if there is one. -/
@[simp] theorem target?_retarget :
    (instruction.retarget f).target? = instruction.target?.map f := by
  cases instruction <;> rfl

/-- A jump without a target stays one, as there is nothing to move. -/
@[simp] theorem isPending_retarget :
    (instruction.retarget f).isPending = instruction.isPending := by
  unfold isPending
  rw [isJump_retarget, target?_retarget, Option.isNone_map]

/-- To fill in a target and to move it is to fill in the moved one. -/
theorem retarget_withTarget (target : Nat) :
    (instruction.withTarget target).retarget f
      = (instruction.retarget f).withTarget (f target) := by
  cases instruction <;> rfl

end Instruction

namespace Store

/-- The code of a store, moved so that it starts at `first`. -/
def relocate (store : Store) (first : UInt64) : Store where
  first := first
  code := store.code.map
    (Instruction.retarget fun target => target - store.first.toNat + first.toNat)

variable (store : Store) (first : UInt64)

/-- The next address is counted from the new first one. -/
theorem nextAddress_relocate :
    (store.relocate first).nextAddress = first.toNat + store.code.size := by
  unfold relocate nextAddress
  rw [Array.size_map]

/-- An emitted instruction is moved like those before it. -/
theorem push_relocate (instruction : Instruction) :
    (store.push instruction).relocate first
      = (store.relocate first).push (instruction.retarget
          fun target => target - store.first.toNat + first.toNat) := by
  unfold relocate push
  rw [Array.map_push]

/-- What stands at an address stands at the moved address, with its target
moved. -/
theorem get?_relocate {address : Nat} (h : store.first.toNat ≤ address) :
    (store.relocate first).get? (address - store.first.toNat + first.toNat)
      = (store.get? address).map
          (Instruction.retarget fun target => target - store.first.toNat + first.toNat) := by
  -- Both addresses lie in the code, at one distance from its start.
  have hmoved : ¬ address - store.first.toNat + first.toNat < first.toNat := by omega
  unfold get? relocate
  rw [if_neg hmoved, if_neg (by omega), Nat.add_sub_cancel, Array.getElem?_map]

/-- A replaced instruction is moved with its address. -/
theorem set_relocate (address : Nat) (instruction : Instruction) :
    (store.set address instruction).relocate first
      = (store.relocate first).set (address - store.first.toNat + first.toNat)
          (instruction.retarget fun target => target - store.first.toNat + first.toNat) := by
  unfold relocate set
  rw [Nat.add_sub_cancel, Array.map_setIfInBounds]

/-- No address is unresolved exactly when no instruction is pending. -/
theorem unresolved_eq_nil_iff {store : Store} :
    store.unresolved = [] ↔ ∀ instruction ∈ store.code, instruction.isPending = false := by
  refine ⟨?_, Generate.unresolved_eq_nil⟩
  intro hnil instruction hmem
  rw [unresolved, List.map_eq_nil_iff, List.filter_eq_nil_iff] at hnil
  obtain ⟨index, hget⟩ := Array.mem_iff_getElem?.mp hmem
  -- Every instruction of the code is an entry, so a pending one would be listed.
  have hentry : (store.first.toNat + index, instruction) ∈ store.entries := by
    refine List.mem_iff_getElem?.mpr ⟨index, ?_⟩
    rw [getElem?_entries, hget]
    rfl
  exact eq_false_of_ne_true (hnil _ hentry)

/-- A moved store has no unresolved address if the store has none. -/
theorem unresolved_relocate_eq_nil (h : store.unresolved = []) :
    (store.relocate first).unresolved = [] := by
  rw [unresolved_eq_nil_iff] at h ⊢
  intro instruction hmem
  obtain ⟨original, horiginal, rfl⟩ := Array.mem_map.mp hmem
  rw [Instruction.isPending_retarget, h original horiginal]

/-- Filling in a target keeps where the code is, and it can be done in a moved store
as well. -/
theorem patch_relocate {store store' : Store} {address target : Nat} {done : Unit}
    (haddress : store.first.toNat ≤ address)
    (hpatch : patch address target store = .ok done store') :
    store'.first = store.first ∧ store'.code.size = store.code.size ∧
      patch (address - store.first.toNat + first.toNat)
        (target - store.first.toNat + first.toNat) (store.relocate first)
          = .ok () (store'.relocate first) := by
  obtain ⟨instruction, hget, hpending, rfl⟩ := patch_eq_ok_iff.mp hpatch
  refine ⟨rfl, Array.size_setIfInBounds .., ?_⟩
  refine patch_eq_ok_iff.mpr
    ⟨instruction.retarget fun target => target - store.first.toNat + first.toNat, ?_, ?_, ?_⟩
  · rw [get?_relocate store first haddress, hget]
    rfl
  · rw [Instruction.isPending_retarget]
    exact hpending
  · rw [set_relocate, Instruction.retarget_withTarget]

end Store

/-- Filling in the targets of a list keeps where the code is, and it can be done in a
moved store as well. -/
theorem JumpList.backpatch_relocate (first : UInt64) {store store' : Store} {target : Nat}
    {done : Unit} {addresses addresses' : List Nat}
    (haddresses : List.Forall₂ (fun address address' =>
      store.first.toNat ≤ address ∧ address' = address - store.first.toNat + first.toNat)
      addresses addresses')
    (hrun : backpatch ⟨addresses⟩ target store = .ok done store') :
    store'.first = store.first ∧ store'.code.size = store.code.size ∧
      backpatch ⟨addresses'⟩ (target - store.first.toNat + first.toNat) (store.relocate first)
        = .ok () (store'.relocate first) := by
  induction addresses generalizing store addresses' with
  | nil =>
      obtain rfl := List.forall₂_nil_left_iff.mp haddresses
      injection hrun with _ hstore
      subst hstore
      exact ⟨rfl, rfl, rfl⟩
  | cons address rest ih =>
      obtain ⟨address', rest', ⟨haddress, rfl⟩, hrest, rfl⟩ :=
        List.forall₂_cons_left_iff.mp haddresses
      -- Both runs fill in the first address, and go on with the others.
      change EStateM.bind (Store.patch address target) _ store = _ at hrun
      unfold EStateM.bind at hrun
      cases hpatch : Store.patch address target store with
      | error fault between =>
          rw [hpatch] at hrun
          exact nomatch hrun
      | ok done' between =>
          rw [hpatch] at hrun
          obtain ⟨hfirst, hsize, hmoved⟩ := Store.patch_relocate first haddress hpatch
          -- The first target does not move the code, so the other addresses still correspond.
          rw [← hfirst] at hrest
          obtain ⟨hfirst', hsize', hmoved'⟩ := ih hrest hrun
          refine ⟨hfirst'.trans hfirst, hsize'.trans hsize, ?_⟩
          show EStateM.bind (Store.patch _ _) _ _ = _
          unfold EStateM.bind
          rw [hmoved, ← hfirst]
          exact hmoved'

namespace Generate

/-! ### Steps that have nothing to do with the code -/

namespace State

/-- The check of a number does not look at the code. -/
theorem checkNumber_code (s : State) (maxDigits : Nat) (code : Store) :
    { s with code }.checkNumber maxDigits = { s.checkNumber maxDigits with code } := by
  unfold checkNumber
  rw [show State.overlong? { s with code } maxDigits = s.overlong? maxDigits from rfl]
  split <;> rfl

/-- Moving on does not look at the code. -/
theorem advance_code (s : State) (maxDigits : Nat) (code : Store) :
    { s with code }.advance maxDigits = { s.advance maxDigits with code } :=
  checkNumber_code { s with input := s.input.tail } maxDigits code

/-- Skipping does not look at the code. -/
theorem skip_code (s : State) (maxDigits count : Nat) (code : Store) :
    { s with code }.skip maxDigits count = { s.skip maxDigits count with code } := by
  induction count generalizing s with
  | zero => rfl
  | succ count ih => rw [skip, skip, advance_code, ih]

/-- The report of the depth does not look at the code. -/
theorem noteDepth_code (s : State) (max : Nat) (code : Store) :
    { s with code }.noteDepth max = { s.noteDepth max with code } := by
  unfold noteDepth
  show (if s.depthReported then _ else _) = _
  split <;> rfl

/-- A refusal does not look at the code. -/
theorem refuse_code (s : State) (options : Options) (code : Store) :
    { s with code }.refuse options = { s.refuse options with code } := by
  unfold refuse
  rw [noteDepth_code, skip_code]

end State

/-! ### The run at another first address -/

/-- The run at `options.firstAddress` and the run at `first`. The states differ in
the code only, and the code fits at `first`. -/
def relocation (options : Options) (first : UInt64) : Lockstep where
  left := options
  right := { options with firstAddress := first }
  Rel s s' := s.code.first = options.firstAddress ∧
    first.toNat + s.code.code.size ≤ maxWord ∧ s' = { s with code := s.code.relocate first }
  Lost s := s.code.first = options.firstAddress ∧ maxWord < first.toNat + s.code.code.size
  Line := Eq
  Addr address address' := options.firstAddress.toNat ≤ address ∧
    address' = address - options.firstAddress.toNat + first.toNat
  Excused _ := True

section
variable {α : Type} {options : Options} {first : UInt64}

/-- A step that keeps the code and does not look at it does the same in both runs. -/
theorem follows_of_frame {x : Generate α}
    (hframe : ∀ s code, Ends (fun _ => True) x options s fun a t =>
      t.code = s.code ∧
        x { options with firstAddress := first } { s with code } = .ok a { t with code }) :
    (relocation options first).Follows Eq x x := by
  refine .of_agrees (fun _ => id) ?_ ?_
  · rintro s s' ⟨hfirst, hroom, rfl⟩
    refine ((hframe s (s.code.relocate first)).weaken fun _ _ => .inl trivial).mono ?_
    rintro a t ⟨hcode, hrun⟩
    rw [show (relocation options first).right = { options with firstAddress := first } from rfl,
      hrun, ← hcode]
    rw [← hcode] at hfirst hroom
    exact ⟨rfl, hfirst, hroom, rfl⟩
  · rintro s ⟨hfirst, hlarge⟩
    refine (hframe s s.code).mono ?_
    rintro a t ⟨hcode, -⟩
    rw [← hcode] at hfirst hlarge
    exact ⟨⟨a, rfl⟩, hfirst, hlarge⟩

/-- An action on the code is followed by another if the other does the same to the
moved code, as far as the outcome fits at `first`. -/
theorem follows_onCode {β : Type} {R : α → β → Prop} {x : EStateM Fault Store α}
    {y : EStateM Fault Store β}
    (h : ∀ store a store', store.first = options.firstAddress → x store = .ok a store' →
      store'.first = options.firstAddress ∧ store.code.size ≤ store'.code.size ∧
        ∃ b, R a b ∧
          (first.toNat + store'.code.size ≤ maxWord →
            y (store.relocate first) = .ok b (store'.relocate first)) ∧
          (first.toNat + store.code.size ≤ maxWord → maxWord < first.toNat + store'.code.size →
            ∃ fault code, y (store.relocate first) = .error fault code)) :
    (relocation options first).Follows R (onCode x) (onCode y) := by
  refine .of_agrees (fun _ => id) ?_ ?_
  · rintro s s' ⟨hfirst, hroom, rfl⟩
    unfold Ends onCode
    cases hx : x s.code with
    | error fault code => exact .inl trivial
    | ok a code =>
        obtain ⟨hfirst', -, b, hab, hfits, hfull⟩ := h s.code a code hfirst hx
        -- The second run fails exactly where the code has outgrown the addresses behind `first`.
        rcases Nat.lt_or_ge maxWord (first.toNat + code.code.size) with hlarge | hsmall
        · obtain ⟨fault, code', hy⟩ := hfull hroom hlarge
          rw [hy]
          exact ⟨⟨b, hab⟩, hfirst', hlarge⟩
        · rw [hfits hsmall]
          exact ⟨hab, hfirst', hsmall, rfl⟩
  · rintro s ⟨hfirst, hlarge⟩
    unfold Ends onCode
    cases hx : x s.code with
    | error fault code => trivial
    | ok a code =>
        obtain ⟨hfirst', hsize, b, hab, -⟩ := h s.code a code hfirst hx
        exact ⟨⟨b, hab⟩, hfirst', Nat.lt_of_lt_of_le hlarge (Nat.add_le_add_left hsize _)⟩

/-- The next addresses of the two runs correspond. -/
theorem relocation_addr {store : Store} (h : store.first = options.firstAddress) :
    (relocation options first).Addr store.nextAddress (first.toNat + store.code.size) := by
  show _ ≤ store.first.toNat + _ ∧ _ = store.first.toNat + _ - _ + _
  rw [h]
  omega

/-- An emitted instruction has a place in both runs, or it is the one that does not
fit at `first`. -/
theorem relocation_emit {instruction instruction' : Instruction}
    (h : (relocation options first).Same instruction instruction') :
    (relocation options first).Follows (relocation options first).Addr
      (emit instruction) (emit instruction') := by
  -- The two runs emit the same instruction but for its target, and a pending one has none.
  have hmoved : instruction' = instruction.retarget
      fun target => target - options.firstAddress.toNat + first.toNat := by
    cases h with
    | assign dest value => rfl
    | branch lhs op rhs => rfl
    | pending => rfl
    | jump htarget => rw [htarget.2]; rfl
  refine follows_onCode ?_
  intro store address store' hfirst hemit
  unfold Store.emit at hemit
  split at hemit
  · injection hemit with haddress hstore
    subst haddress hstore
    have hsize : (store.push instruction).code.size = store.code.size + 1 := Array.size_push _
    refine ⟨hfirst, by omega, first.toNat + store.code.size, relocation_addr hfirst, ?_, ?_⟩
    · intro hfits
      unfold Store.emit
      rw [Store.nextAddress_relocate, if_pos (by omega), Store.push_relocate, hfirst, hmoved]
    · -- The code fits before this instruction and not behind it, so this is the one that is
      -- refused.
      intro hroom hfull
      unfold Store.emit
      rw [Store.nextAddress_relocate, if_neg (by omega)]
      exact ⟨_, _, rfl⟩
  · exact nomatch hemit

/-- Jumps are filled in where they stand in each run. -/
theorem relocation_backpatch {list list' : JumpList} {target target' : Nat}
    (h : (relocation options first).Jumps list list')
    (htarget : (relocation options first).Addr target target') :
    (relocation options first).Follows Eq (backpatch list target) (backpatch list' target') := by
  obtain ⟨-, rfl⟩ := htarget
  refine follows_onCode ?_
  intro store done store' hfirst hrun
  have haddresses : List.Forall₂ (fun address address' =>
      store.first.toNat ≤ address ∧ address' = address - store.first.toNat + first.toNat)
      list.addresses list'.addresses := by
    rw [hfirst]
    exact h
  obtain ⟨hfirst', hsize, hmoved⟩ := JumpList.backpatch_relocate first haddresses hrun
  -- No instruction is added, so the code fits afterwards if it did before.
  rw [hfirst] at hmoved
  exact ⟨hfirst'.trans hfirst, Nat.le_of_eq hsize.symm, (), rfl, fun _ => hmoved,
    fun hroom hfull => by omega⟩

/-- **The run at another first address stays in step.** -/
theorem relocation_steady (options : Options) (first : UInt64) :
    (relocation options first).Steady where
  outOfFuel := trivial
  unbalancedNesting := trivial
  current? := follows_of_frame fun s code => ⟨rfl, rfl⟩
  line := follows_of_frame fun s code => ⟨rfl, rfl⟩
  checkNumber := follows_of_frame fun s code =>
    ⟨State.code_checkNumber s _, by rw [checkNumber_run, State.checkNumber_code]⟩
  advance := follows_of_frame fun s code =>
    ⟨State.code_advance s _, by rw [advance_run, State.advance_code]⟩
  expected what := follows_of_frame fun s code => ⟨rfl, rfl⟩
  expectEnd := by
    refine follows_of_frame fun s code => ?_
    simp only [Ends, expectEnd, bind_run, current?_run]
    cases s.input.current? with
    | none => exact ⟨rfl, rfl⟩
    | some lexeme => exact ⟨rfl, rfl⟩
  checkOperand name := by
    refine follows_of_frame fun s code => ?_
    simp only [Ends, checkOperand, get_bind_run]
    cases s.symbols.contains name with
    | true => exact ⟨rfl, rfl⟩
    | false => exact ⟨rfl, rfl⟩
  checkTarget name line line' hline := by
    subst hline
    refine follows_of_frame fun s code => ?_
    simp only [Ends, checkTarget, get_bind_run]
    rcases s.symbols.kindOf? name with _ | _ | _
    · exact ⟨rfl, rfl⟩
    · exact ⟨rfl, rfl⟩
    · exact ⟨rfl, rfl⟩
  declare name kind line line' hline := by
    subst hline
    refine follows_of_frame fun s code => ?_
    simp only [Ends, declare, get_bind_run]
    cases s.symbols.declare? ⟨name, kind, line⟩ with
    | none => exact ⟨rfl, rfl⟩
    | some symbols => exact ⟨rfl, rfl⟩
  descend := by
    refine follows_of_frame fun s code => ?_
    rw [ends_descend, descend_run]
    split
    · exact ⟨rfl, rfl⟩
    · exact ⟨State.code_refuse s options, congrArg _ (State.refuse_code s options code)⟩
  ascend := by
    refine follows_of_frame fun s code => ?_
    simp only [Ends, ascend, get_bind_run]
    cases s.depth with
    | zero => trivial
    | succ depth => exact ⟨rfl, rfl⟩
  freshTemp := follows_of_frame fun s code => ⟨rfl, rfl⟩
  nextAddress := by
    refine .of_agrees (fun _ => id) ?_ ?_
    · rintro s s' ⟨hfirst, hroom, rfl⟩
      show _ ∧ _
      rw [Store.nextAddress_relocate]
      exact ⟨relocation_addr hfirst, hfirst, hroom, rfl⟩
    · rintro s ⟨hfirst, hlarge⟩
      exact ⟨⟨_, relocation_addr hfirst⟩, hfirst, hlarge⟩
  emit := relocation_emit
  backpatch := relocation_backpatch
  checkResolved := by
    refine .of_agrees (fun _ => id) ?_ ?_
    · rintro s s' ⟨hfirst, hroom, rfl⟩
      simp only [Ends, checkResolved, get_bind_run]
      cases hunresolved : s.code.unresolved with
      | nil =>
          rw [Store.unresolved_relocate_eq_nil s.code first hunresolved]
          exact ⟨rfl, hfirst, hroom, rfl⟩
      | cons address rest => exact .inl trivial
    · rintro s ⟨hfirst, hlarge⟩
      simp only [Ends, checkResolved, get_bind_run]
      cases s.code.unresolved with
      | nil => exact ⟨⟨(), trivial⟩, hfirst, hlarge⟩
      | cons address rest => trivial

end

end Generate

/-- If tokens compile at one first address, then at every other one they compile to the
moved code, unless the addresses run out there. -/
theorem compileTokens_relocate {options : Options} {input : TokenStream}
    {compilation : Compilation} (hok : compileTokens options input = .ok compilation)
    (first : UInt64) :
    compileTokens { options with firstAddress := first } input =
      if first.toNat + compilation.code.code.size ≤ maxWord then
        .ok { compilation with code := compilation.code.relocate first }
      else .error (.addressOverflow first.toNat) := by
  have hcases := compileTokens_cases { options with firstAddress := first } input
  unfold compileTokens at hok hcases ⊢
  cases hrun : Generate.program input.budget options (.start options input) with
  | error fault s =>
      rw [hrun] at hok
      exact nomatch hok
  | ok name? s =>
      rw [hrun] at hok
      obtain rfl := Except.ok.inj hok
      -- Before the first token there is no code, so the two runs start in step.
      have hstart : (Generate.relocation options first).Rel (.start options input)
          (.start { options with firstAddress := first } input) := by
        refine ⟨rfl, toNat_le_maxWord first, ?_⟩
        rw [show (Generate.State.start options input).code.relocate first = ⟨first, #[]⟩ from
          congrArg _ Array.map_empty]
        rfl
      have hagrees := (((Generate.relocation_steady options first).program
        (Nat.le_refl input.budget)).agrees (fun _ => id) hstart).ok hrun
      rw [show (Generate.relocation options first).right
        = { options with firstAddress := first } from rfl] at hagrees
      cases hrun' : Generate.program input.budget { options with firstAddress := first }
          (.start { options with firstAddress := first } input) with
      | ok name?' s' =>
          rw [hrun'] at hagrees
          obtain ⟨rfl, -, hroom, rfl⟩ := hagrees
          exact (if_pos hroom).symm
      | error fault s' =>
          rw [hrun'] at hagrees hcases
          -- The second run has failed, and this is so only where the code does not fit.
          obtain ⟨-, -, hlarge⟩ := hagrees
          rw [if_neg (Nat.not_le.mpr hlarge)]
          rcases hcases with ⟨compilation, tree, hok', -⟩ | ⟨herror, -⟩
          · exact nomatch hok'
          · exact herror

/-- **Code is relocatable, and overflow is exact.** If a source compiles at one first
address, then at every other one it compiles to the same code, moved, unless the code
does not fit there. No target lies before the code, so each of them moves by the
distance of the two first addresses. -/
theorem compile_relocate {options : Options} {source : String} {compilation : Compilation}
    (hok : compile options source = .ok compilation) (first : UInt64) :
    compilation.code.first = options.firstAddress ∧
      (∀ instruction ∈ compilation.code.code, ∀ target, instruction.target? = some target →
        options.firstAddress.toNat ≤ target) ∧
      compile { options with firstAddress := first } source =
        if first.toNat + compilation.code.code.size ≤ maxWord then
          .ok { compilation with code := compilation.code.relocate first }
        else .error (.addressOverflow first.toNat) := by
  obtain ⟨tree, -, hcode⟩ := exists_tree_of_compile hok
  refine ⟨by rw [hcode]; rfl, ?_, compileTokens_relocate hok first⟩
  intro instruction hmem target htarget
  rw [hcode] at hmem
  simp only [Store.append, Generate.emptyStore, Array.empty_append, List.mem_toArray] at hmem
  obtain ⟨target', htarget', hlow, -⟩ :=
    Stmt.target_mem_range hmem (Instruction.isJump_of_target? htarget)
  -- In the code of a tree each jump has a target, and it lies behind the first address.
  rw [Option.some.inj (htarget.symm.trans htarget')]
  exact hlow

/-- A loop of five instructions at the last place where it fits, and one address
further. -/
theorem compile_relocate_top :
    ∃ compilation, compile {} "PROGRAM p VAR x; WHILE x < 3 DO x := x + 1" = .ok compilation ∧
      compile { firstAddress := 18446744073709551610 }
          "PROGRAM p VAR x; WHILE x < 3 DO x := x + 1"
        = .ok { compilation with code := compilation.code.relocate 18446744073709551610 } ∧
      compile { firstAddress := 18446744073709551611 }
          "PROGRAM p VAR x; WHILE x < 3 DO x := x + 1"
        = .error (.addressOverflow 18446744073709551611) := by
  have hsize : (compile {} "PROGRAM p VAR x; WHILE x < 3 DO x := x + 1").map
      (·.code.code.size) = .ok 5 := by decide +kernel
  obtain ⟨compilation, hok⟩ := exists_compilation
    (show (compile {} "PROGRAM p VAR x; WHILE x < 3 DO x := x + 1").isOk = true by decide +kernel)
  rw [hok] at hsize
  have hfive : compilation.code.code.size = 5 := Except.ok.inj hsize
  have hfits := (compile_relocate hok 18446744073709551610).2.2
  have hfull := (compile_relocate hok 18446744073709551611).2.2
  rw [hfive, if_pos (by decide)] at hfits
  rw [hfive, if_neg (by decide)] at hfull
  exact ⟨compilation, hok, hfits, hfull⟩

end ThreeAddress
