import ThreeAddress.Proofs.Emission
import ThreeAddress.Proofs.Semantics

/-!
# A machine for three-address code

A configuration of the machine is an address and a valuation. `Machine.step`
carries out the instruction at the address: an assignment gives a name a value
and goes on, a branch goes to its target if its relation holds and else goes on,
and a jump goes to its target. Where no instruction stands there is no step, and
none at a jump without a target either.

An operand that starts with a digit is a literal, and every other one is a name.
The literals that the generator writes have their values (`operandValue_literal`)
and temporaries are names. Two of them differ from each other if their indices are
less than 2⁶⁴ apart (`Temporaries.name_inj`).
The names of a source are words that start with a letter (`exists_word_of_ident_mem_scan`).

`Machine.run` takes a number of steps. The machine is a function, so a run that
comes to a halt passes every configuration that can be reached from its start:
this is `run_sub_of_halts`.
-/

set_option autoImplicit false

namespace ThreeAddress

/-! ### Operands -/

/-- Whether an operand is a literal: it starts with a digit. -/
def isLiteral (operand : String) : Bool :=
  operand.toList.head?.any Char.isDigit

/-- The value of an operand. -/
def operandValue (σ : Valuation) (operand : String) : Int :=
  if isLiteral operand then Decimal.value operand.toList else σ operand

/-- An operand that is no literal has the value of its name. -/
theorem operandValue_of_not_literal {operand : String} (h : isLiteral operand = false)
    (σ : Valuation) : operandValue σ operand = σ operand := by
  unfold operandValue
  rw [h]
  rfl

/-- Reading the decimal digits of a number gives the number. -/
theorem Decimal.value_toDigits (n : Nat) : Decimal.value (Nat.toDigits 10 n) = n := by
  have hvalue : Decimal.value (Nat.toDigits 10 n) = Nat.ofDigitChars 10 (Nat.toDigits 10 n) 0 := by
    rw [Nat.ofDigitChars_eq_foldl]
    rfl
  rw [hvalue, Nat.ofDigitChars_ten_toDigits]

/-- What the generator writes for a number is a literal. -/
theorem isLiteral_literalText (digits : String) : isLiteral (Lexeme.literalText digits) = true := by
  unfold isLiteral Lexeme.literalText
  rw [Nat.toString_eq_repr, Nat.toList_repr]
  cases hdigits : Nat.toDigits 10 (Decimal.literal digits.toList) with
  | nil => exact absurd hdigits Nat.toDigits_ne_nil
  | cons first rest =>
      have hmem : first ∈ Nat.toDigits 10 (Decimal.literal digits.toList) := by
        rw [hdigits]
        exact List.mem_cons_self
      exact Nat.isDigit_of_mem_toDigits (by decide) (by decide) hmem

/-- What the generator writes for a number has the value of the number. -/
theorem operandValue_literal (σ : Valuation) (digits : String) :
    operandValue σ (Lexeme.literalText digits) = Decimal.literal digits.toList := by
  unfold operandValue
  rw [isLiteral_literalText, if_pos rfl]
  unfold Lexeme.literalText
  rw [Nat.toString_eq_repr, Nat.toList_repr, Decimal.value_toDigits]

namespace Temporaries

/-- The characters of a temporary. -/
theorem toList_name (k : Nat) : (name k).toList = 't' :: Nat.toDigits 10 (word k).toNat := by
  have hword : toString (word k) = (word k).toNat.repr := rfl
  unfold name
  rw [hword, String.toList_append, Nat.toList_repr]
  rfl

/-- A temporary is no literal. -/
theorem isLiteral_name (k : Nat) : isLiteral (name k) = false := by
  unfold isLiteral
  rw [toList_name]
  rfl

/-- Temporaries with different indices have different names, if the indices are less than 2⁶⁴
apart. -/
theorem name_inj {j k : Nat} (hjk : j < k + UInt64.size) (hkj : k < j + UInt64.size)
    (h : name j = name k) : j = k := by
  have hlist := congrArg String.toList h
  rw [toList_name, toList_name, List.cons.injEq] at hlist
  -- Behind the `t` stand the digits of the word, which can be read back.
  have hvalue := congrArg Decimal.value hlist.2
  rw [Decimal.value_toDigits, Decimal.value_toDigits] at hvalue
  exact word_inj hjk hkj (UInt64.toNat_inj.mp hvalue)

/-- A temporary has the value that was assigned to it. -/
theorem operandValue_update_name (σ : Valuation) (k : Nat) (value : Int) :
    operandValue (Function.update σ (name k) value) (name k) = value := by
  rw [operandValue_of_not_literal (isLiteral_name k), Function.update_self]

/-- A name is that of a temporary with an index from `lo` on and below `hi`. -/
def Between (lo hi : Nat) (x : String) : Prop :=
  ∃ k, lo ≤ k ∧ k < hi ∧ x = name k

/-- A wider range has more temporaries. -/
theorem Between.mono {lo hi lo' hi' : Nat} {x : String} (h : Between lo hi x) (hlo : lo' ≤ lo)
    (hhi : hi ≤ hi') : Between lo' hi' x := by
  obtain ⟨k, hk, hk', rfl⟩ := h
  exact ⟨k, by omega, by omega, rfl⟩

end Temporaries

/-! ### The names of a source -/

/-- A letter is no digit. -/
theorem isDigit_eq_false_of_isAlpha {c : Char} (hc : c.isAlpha = true) : c.isDigit = false := by
  have hletter : (decide ('A'.val ≤ c.val ∧ c.val ≤ 'Z'.val) ||
      (decide ('a'.val ≤ c.val) && decide (c.val ≤ 'z'.val))) = true := hc
  rw [Bool.or_eq_true, decide_eq_true_eq, Bool.and_eq_true, decide_eq_true_eq] at hletter
  -- A letter lies above the digits.
  have habove : ¬ c.val ≤ '9'.val := by
    intro hle
    rcases hletter with hletter | hletter
    · exact absurd (Nat.le_trans hletter.1 hle) (by decide)
    · exact absurd (Nat.le_trans hletter.1 hle) (by decide)
  show (decide ('0'.val ≤ c.val) && decide (c.val ≤ '9'.val)) = false
  rw [decide_eq_false habove, Bool.and_false]

/-- A word that starts with a letter is no literal. -/
theorem isLiteral_of_isAlpha {c : Char} (hc : c.isAlpha = true) (cs : List Char) :
    isLiteral (String.ofList (c :: cs)) = false := by
  unfold isLiteral
  rw [String.toList_ofList]
  exact isDigit_eq_false_of_isAlpha hc

/-- Operators, marks and unknown characters are no names. -/
theorem munchSymbol_ne_ident (c : Char) (cs : List Char) (x : String) :
    (Lexeme.munchSymbol c cs).1 ≠ .ident x := by
  have hsingle : Lexeme.single c ≠ .ident x := by
    unfold Lexeme.single
    split <;> simp
  unfold Lexeme.munchSymbol
  split
  · exact hsingle
  · next d rest =>
    split
    · -- Two characters make an operator or a mark, and never a name.
      next lexeme hpair =>
      unfold Lexeme.pair? at hpair
      split at hpair
      case h_5 => simp at hpair
      all_goals
        rw [← Option.some.inj hpair]
        simp
    · exact hsingle

/-- A name that is read off a text is a letter with letters and digits behind it. -/
theorem exists_word_of_munch {c : Char} {cs : List Char} {x : String}
    (h : (Lexeme.munch c cs).1 = .ident x) :
    ∃ first rest, first.isAlpha = true ∧ (∀ d ∈ rest, d.isAlphanum = true) ∧
      x = String.ofList (first :: rest) := by
  unfold Lexeme.munch at h
  split at h
  · next hc =>
    -- The word is a name because it is not reserved.
    unfold Lexeme.ofWord at h
    split at h
    · exact nomatch h
    · obtain rfl := Lexeme.ident.inj h
      exact ⟨c, cs.takeWhile Char.isAlphanum, hc, List.all_eq_true.mp List.all_takeWhile, rfl⟩
  · split at h
    · exact nomatch h
    · exact absurd h (munchSymbol_ne_ident c cs x)

/-- **The names of a source are words.** -/
theorem exists_word_of_ident_mem_scan {source : String} {x : String}
    (h : .ident x ∈ (scan source).lexemes) :
    ∃ first rest, first.isAlpha = true ∧ (∀ d ∈ rest, d.isAlphanum = true) ∧
      x = String.ofList (first :: rest) := by
  have hfrom : ∀ (line : Nat) (cs : List Char), .ident x ∈ (scanFrom line cs).lexemes →
      ∃ first rest, first.isAlpha = true ∧ (∀ d ∈ rest, d.isAlphanum = true) ∧
        x = String.ofList (first :: rest) := by
    intro line cs
    -- The induction follows the scanner: it ends, skips a blank or reads a token.
    fun_induction scanFrom line cs with
    | case1 => exact fun h => nomatch h
    | case2 => exact fun h => nomatch h
    | case3 line c cs _ _ ih => exact ih
    | case4 line c cs _ _ ih =>
        intro hmem
        rcases List.mem_cons.mp hmem with heq | hrest
        · exact exists_word_of_munch heq.symm
        · exact ih hrest
  exact hfrom 1 source.toList h

/-- The names of a source are no literals. -/
theorem isLiteral_of_ident_mem_scan {source : String} {x : String}
    (h : .ident x ∈ (scan source).lexemes) : isLiteral x = false := by
  obtain ⟨first, rest, hfirst, -, rfl⟩ := exists_word_of_ident_mem_scan h
  exact isLiteral_of_isAlpha hfirst rest

/-! ### Steps and runs -/

/-- The value of a right-hand side. -/
def Rvalue.eval (M : Arithmetic) (σ : Valuation) : Rvalue → Int
  | copy operand => operandValue σ operand
  | neg operand => M.neg (operandValue σ operand)
  | binary op lhs rhs => M.binary op (operandValue σ lhs) (operandValue σ rhs)

/-- Where the machine is and what the names hold. -/
structure Config where
  pc : Nat
  valuation : Valuation

namespace Machine

/-- One step, if there is one. -/
def step (M : Arithmetic) (store : Store) (c : Config) : Option Config :=
  match store.get? c.pc with
  | some (.assign dest value) =>
    some ⟨c.pc + 1, Function.update c.valuation dest (value.eval M c.valuation)⟩
  | some (.branch lhs op rhs (some target)) =>
    if op.holds (operandValue c.valuation lhs) (operandValue c.valuation rhs) then
      some ⟨target, c.valuation⟩
    else
      some ⟨c.pc + 1, c.valuation⟩
  | some (.jump (some target)) => some ⟨target, c.valuation⟩
  | some (.branch _ _ _ none) => none
  | some (.jump none) => none
  | none => none

/-- A number of steps, if there are as many. -/
def run (M : Arithmetic) (store : Store) : Nat → Config → Option Config
  | 0, c => some c
  | n + 1, c => (step M store c).bind (run M store n)

/-- The second configuration is reached from the first. -/
def Reaches (M : Arithmetic) (store : Store) (c d : Config) : Prop :=
  ∃ n, run M store n c = some d

section
variable {M : Arithmetic} {store : Store} {c d e : Config} {m n : Nat}

/-- Steps after steps. -/
theorem run_add (hm : run M store m c = some d) (hn : run M store n d = some e) :
    run M store (m + n) c = some e := by
  induction m generalizing c with
  | zero =>
      obtain rfl := Option.some.inj hm
      rw [Nat.zero_add]
      exact hn
  | succ m ih =>
      rw [Nat.add_right_comm]
      show (step M store c).bind (run M store (m + n)) = some e
      obtain ⟨c', hstep, hrest⟩ := Option.bind_eq_some_iff.mp hm
      rw [hstep]
      exact ih hrest

/-- One step is a run. -/
theorem run_one (h : step M store c = some d) : run M store 1 c = some d := by
  show (step M store c).bind (run M store 0) = some d
  rw [h]
  rfl

/-- A run that comes to a halt in `e` passes what is reached from its start, and
the rest of it comes to a halt in `e` too. -/
theorem run_sub_of_halts (hm : run M store m c = some d) (hn : run M store n c = some e)
    (hhalt : step M store e = none) : m ≤ n ∧ run M store (n - m) d = some e := by
  induction m generalizing c n with
  | zero =>
      obtain rfl := Option.some.inj hm
      exact ⟨Nat.zero_le _, hn⟩
  | succ m ih =>
      obtain ⟨c', hstep, hrest⟩ := Option.bind_eq_some_iff.mp hm
      cases n with
      | zero =>
          -- At the halt there is no step, but one was taken.
          obtain rfl := Option.some.inj hn
          rw [hhalt] at hstep
          exact nomatch hstep
      | succ n =>
          have hn' : (step M store c).bind (run M store n) = some e := hn
          rw [hstep] at hn'
          obtain ⟨hle, hrun⟩ := ih hrest hn'
          rw [Nat.succ_sub_succ]
          exact ⟨Nat.succ_le_succ hle, hrun⟩

/-- Where the machine halts a run stays. -/
theorem eq_of_run_of_halts (hhalt : step M store c = none) (hn : run M store n c = some d) :
    d = c := by
  cases n with
  | zero => exact (Option.some.inj hn).symm
  | succ n =>
      have hbind : (step M store c).bind (run M store n) = some d := hn
      rw [hhalt] at hbind
      exact nomatch hbind

/-! ### What single instructions do -/

/-- An assignment is carried out. -/
theorem step_assign {dest : String} {value : Rvalue}
    (h : store.get? c.pc = some (.assign dest value)) :
    step M store c
      = some ⟨c.pc + 1, Function.update c.valuation dest (value.eval M c.valuation)⟩ := by
  unfold step
  rw [h]

/-- An assignment behind a run is carried out. -/
theorem run_assign {dest : String} {value : Rvalue} {pc : Nat} {τ : Valuation} {v : Int}
    (hrun : run M store n c = some ⟨pc, τ⟩) (hget : store.get? pc = some (.assign dest value))
    (hvalue : value.eval M τ = v) :
    run M store (n + 1) c = some ⟨pc + 1, Function.update τ dest v⟩ := by
  subst hvalue
  exact run_add hrun (run_one (step_assign hget))

/-- A branch whose relation holds goes to its target. -/
theorem step_branch_true {lhs rhs : String} {op : RelOp} {target : Nat}
    (h : store.get? c.pc = some (.branch lhs op rhs (some target)))
    (hop : op.holds (operandValue c.valuation lhs) (operandValue c.valuation rhs) = true) :
    step M store c = some ⟨target, c.valuation⟩ := by
  unfold step
  rw [h]
  exact if_pos hop

/-- A branch whose relation does not hold goes on. -/
theorem step_branch_false {lhs rhs : String} {op : RelOp} {target : Nat}
    (h : store.get? c.pc = some (.branch lhs op rhs (some target)))
    (hop : op.holds (operandValue c.valuation lhs) (operandValue c.valuation rhs) = false) :
    step M store c = some ⟨c.pc + 1, c.valuation⟩ := by
  unfold step
  rw [h]
  show (if _ then _ else _) = _
  rw [hop]
  rfl

/-- A jump goes to its target. -/
theorem step_jump {target : Nat} (h : store.get? c.pc = some (.jump (some target))) :
    step M store c = some ⟨target, c.valuation⟩ := by
  unfold step
  rw [h]

/-- Behind the last instruction the machine halts. -/
theorem step_nextAddress (σ : Valuation) : step M store ⟨store.nextAddress, σ⟩ = none := by
  have hnone : store.get? store.nextAddress = none := by
    cases hget : store.get? store.nextAddress with
    | none => rfl
    | some instruction =>
        have hsome : (store.get? store.nextAddress).isSome = true := by
          rw [hget]
          rfl
        have hrange := (store.isSome_get?_iff store.nextAddress).mp hsome
        exact absurd hrange.2 (Nat.lt_irrefl _)
  unfold step
  rw [hnone]

end

end Machine

/-! ### Code at an address -/

/-- The instructions in `code` stand in the store from the address `base` on. -/
def Store.HasCode (store : Store) (base : Nat) (code : List Instruction) : Prop :=
  ∀ i instruction, code[i]? = some instruction → store.get? (base + i) = some instruction

namespace Store.HasCode

variable {store : Store} {base : Nat} {xs ys : List Instruction} {instruction : Instruction}

/-- The front part of the code. -/
theorem left (h : store.HasCode base (xs ++ ys)) : store.HasCode base xs := by
  intro i instruction hi
  have hlt : i < xs.length := (List.getElem?_eq_some_iff.mp hi).1
  refine h i instruction ?_
  rw [List.getElem?_append_left hlt]
  exact hi

/-- The back part of the code. -/
theorem right (h : store.HasCode base (xs ++ ys)) : store.HasCode (base + xs.length) ys := by
  intro i instruction hi
  rw [Nat.add_assoc]
  refine h (xs.length + i) instruction ?_
  rw [List.getElem?_append_right (Nat.le_add_right _ _), Nat.add_sub_cancel_left]
  exact hi

/-- The first instruction. -/
theorem head (h : store.HasCode base (instruction :: xs)) :
    store.get? base = some instruction :=
  h 0 instruction rfl

/-- The instructions behind the first. -/
theorem tail (h : store.HasCode base (instruction :: xs)) : store.HasCode (base + 1) xs := by
  have hsplit : store.HasCode base ([instruction] ++ xs) := h
  exact hsplit.right

end Store.HasCode

/-- A store that was filled from the start has its code at its first address. -/
theorem Store.hasCode_first (store : Store) :
    store.HasCode store.first.toNat store.code.toList := by
  intro i instruction hi
  unfold Store.get?
  rw [if_neg (by omega), Nat.add_sub_cancel_left]
  rw [Array.getElem?_toList] at hi
  exact hi

end ThreeAddress
