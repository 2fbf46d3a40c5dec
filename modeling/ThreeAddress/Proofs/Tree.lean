import ThreeAddress.Compilation

/-!
# Trees and their plain translation

A tree says what a program computes and leaves out how it is written: an
expression is an operand or an operation on expressions, and a statement is
nothing, an assignment, a sequence, a choice or a loop. A tree can also stand
for a program with holes: `Expr.missing` is the operand that the source lacks.

`Expr.code` and `Stmt.code` translate a tree by recursion on it. Every target
is computed from the lengths of the parts, so no instruction is touched again
once it is there. The temporaries are numbered in the order of the code.

`Stmt.length_code` says that `Stmt.size` is the length of the code, and
`Stmt.target_mem_range` that a jump stays inside the code of its statement or
goes to the address right after it. `Stmt.minted_code` says which temporaries the
operations fill: those from the first index on, one after the other.
-/

set_option autoImplicit false

namespace ThreeAddress

/-! ### Expressions -/

/-- What an expression computes. -/
inductive Expr where
  | name (text : String)
  | number (digits : String)
  /-- An operand that the source does not have. -/
  | missing
  | neg (operand : Expr)
  | binary (op : ArithOp) (lhs rhs : Expr)
deriving DecidableEq, Repr, Inhabited

namespace Expr

/-- The number of temporaries: one for each operation. -/
def temps : Expr → Nat
  | name _ => 0
  | number _ => 0
  | missing => 0
  | neg operand => operand.temps + 1
  | binary _ lhs rhs => lhs.temps + rhs.temps + 1

/-- The operand that holds the value, `next` being the first free index of a
temporary. The last operation of the code has the last index. -/
def operand (next : Nat) : Expr → String
  | name text => text
  | number digits => Lexeme.literalText digits
  | missing => Generate.missing
  | neg operand => Temporaries.name (next + operand.temps)
  | binary _ lhs rhs => Temporaries.name (next + lhs.temps + rhs.temps)

/-- The names in an expression. -/
def names : Expr → List String
  | name text => [text]
  | number _ => []
  | missing => [Generate.missing]
  | neg operand => operand.names
  | binary _ lhs rhs => lhs.names ++ rhs.names

/-- The code: the operands first, the left one before the right one, then the
operation. -/
def code (next : Nat) : Expr → List Instruction
  | name _ => []
  | number _ => []
  | missing => []
  | neg operand =>
    operand.code next ++
      [.assign (Temporaries.name (next + operand.temps)) (.neg (operand.operand next))]
  | binary op lhs rhs =>
    lhs.code next ++ rhs.code (next + lhs.temps) ++
      [.assign (Temporaries.name (next + lhs.temps + rhs.temps))
        (.binary op (lhs.operand next) (rhs.operand (next + lhs.temps)))]

/-- Each instruction of an expression fills one temporary. -/
@[simp] theorem length_code (next : Nat) (e : Expr) : (e.code next).length = e.temps := by
  induction e generalizing next with
  | name _ => rfl
  | number _ => rfl
  | missing => rfl
  | neg operand ih => simp [code, temps, ih]
  | binary op lhs rhs ihl ihr => simp [code, temps, ihl, ihr]; omega

/-- The code of an expression has no jump. -/
theorem isJump_of_mem_code {next : Nat} {e : Expr} {instruction : Instruction}
    (h : instruction ∈ e.code next) : instruction.isJump = false := by
  induction e generalizing next with
  | name _ => simp [code] at h
  | number _ => simp [code] at h
  | missing => simp [code] at h
  | neg operand ih =>
      simp only [code, List.mem_append, List.mem_singleton] at h
      rcases h with h | rfl
      · exact ih h
      · rfl
  | binary op lhs rhs ihl ihr =>
      simp only [code, List.mem_append, List.mem_singleton] at h
      rcases h with (h | h) | rfl
      · exact ihl h
      · exact ihr h
      · rfl

end Expr

/-! ### Conditions -/

/-- What a condition compares. -/
structure Condition where
  lhs : Expr
  op : RelOp
  rhs : Expr
deriving DecidableEq, Repr, Inhabited

namespace Condition

/-- The number of temporaries of both sides. -/
def temps (c : Condition) : Nat := c.lhs.temps + c.rhs.temps

/-- The names in a condition. -/
def names (c : Condition) : List String := c.lhs.names ++ c.rhs.names

/-- The code that computes both sides. -/
def operandCode (next : Nat) (c : Condition) : List Instruction :=
  c.lhs.code next ++ c.rhs.code (next + c.lhs.temps)

/-- The branch on the condition. -/
def branch (next : Nat) (c : Condition) (target : Option Nat) : Instruction :=
  .branch (c.lhs.operand next) c.op (c.rhs.operand (next + c.lhs.temps)) target

/-- The code from `base` on: both sides, a branch over the jump that follows it,
and that jump, which goes to `exit`. -/
def code (base next : Nat) (c : Condition) (exit : Nat) : List Instruction :=
  c.operandCode next ++
    [c.branch next (some (base + c.temps + 2)), .jump (some exit)]

/-- The sides of a condition have one instruction for each temporary. -/
@[simp] theorem length_operandCode (next : Nat) (c : Condition) :
    (c.operandCode next).length = c.temps := by
  simp [operandCode, temps]

/-- A condition has two jumps behind them. -/
@[simp] theorem length_code (base next : Nat) (c : Condition) (exit : Nat) :
    (c.code base next exit).length = c.temps + 2 := by
  simp [code]

/-- The jumps of a condition go past the condition or to its exit. -/
theorem target?_of_mem_code {base next exit : Nat} {c : Condition} {instruction : Instruction}
    (h : instruction ∈ c.code base next exit) (hjump : instruction.isJump = true) :
    instruction.target? = some (base + c.temps + 2) ∨ instruction.target? = some exit := by
  simp only [code, operandCode, List.mem_append, List.mem_cons, List.not_mem_nil, or_false] at h
  rcases h with (h | h) | rfl | rfl
  · rw [Expr.isJump_of_mem_code h] at hjump
    exact absurd hjump (by decide)
  · rw [Expr.isJump_of_mem_code h] at hjump
    exact absurd hjump (by decide)
  · exact Or.inl rfl
  · exact Or.inr rfl

end Condition

/-! ### Statements -/

/-- What a statement does. -/
inductive Stmt where
  | skip
  | assign (name : String) (value : Expr)
  | seq (first second : Stmt)
  | choice (test : Condition) (body : Stmt)
  | loop (test : Condition) (body : Stmt)
deriving DecidableEq, Repr, Inhabited

namespace Stmt

/-- The number of instructions. -/
def size : Stmt → Nat
  | skip => 0
  | assign _ value => value.temps + 1
  | seq first second => first.size + second.size
  | choice test body => test.temps + 2 + body.size
  | loop test body => test.temps + 2 + body.size + 1

/-- The number of temporaries. -/
def temps : Stmt → Nat
  | skip => 0
  | assign _ value => value.temps
  | seq first second => first.temps + second.temps
  | choice test body => test.temps + body.temps
  | loop test body => test.temps + body.temps

/-- The names in a statement, those that are assigned to included. -/
def names : Stmt → List String
  | skip => []
  | assign name value => name :: value.names
  | seq first second => first.names ++ second.names
  | choice test body => test.names ++ body.names
  | loop test body => test.names ++ body.names

/-- The code from the address `base` on. The jump of a choice goes to what
follows the body. The jump of a loop goes past the jump that closes the loop,
and that one goes back to `base`, where the condition starts. -/
def code (base next : Nat) : Stmt → List Instruction
  | skip => []
  | assign name value => value.code next ++ [.assign name (.copy (value.operand next))]
  | seq first second =>
    first.code base next ++ second.code (base + first.size) (next + first.temps)
  | choice test body =>
    test.code base next (base + test.temps + 2 + body.size) ++
      body.code (base + test.temps + 2) (next + test.temps)
  | loop test body =>
    test.code base next (base + test.temps + 2 + body.size + 1) ++
      body.code (base + test.temps + 2) (next + test.temps) ++ [.jump (some base)]

/-- The code has the announced number of instructions. -/
@[simp] theorem length_code (base next : Nat) (t : Stmt) :
    (t.code base next).length = t.size := by
  induction t generalizing base next with
  | skip => rfl
  | assign name value => simp [code, size]
  | seq first second ihf ihs => simp [code, size, ihf, ihs]
  | choice test body ih => simp [code, size, ih]
  | loop test body ih => simp [code, size, ih]; omega

/-- A statement without code uses no temporary. -/
theorem temps_eq_zero_of_size {t : Stmt} (h : t.size = 0) : t.temps = 0 := by
  induction t with
  | skip => rfl
  | assign name value => simp [size] at h
  -- Every other statement has an instruction of its own.
  | seq first second ihf ihs =>
      simp only [size, Nat.add_eq_zero_iff] at h
      simp [temps, ihf h.1, ihs h.2]
  | choice test body ih => simp [size] at h
  | loop test body ih => simp [size] at h

/-- Every jump of a statement has a target, which lies in the code of the
statement or right after it. -/
theorem target_mem_range {base next : Nat} {t : Stmt} {instruction : Instruction}
    (h : instruction ∈ t.code base next) (hjump : instruction.isJump = true) :
    ∃ target, instruction.target? = some target ∧ base ≤ target ∧ target ≤ base + t.size := by
  induction t generalizing base next with
  | skip => simp [code] at h
  | assign name value =>
      simp only [code, List.mem_append, List.mem_singleton] at h
      rcases h with h | rfl
      · rw [Expr.isJump_of_mem_code h] at hjump
        exact absurd hjump (by decide)
      · exact absurd hjump Bool.false_ne_true
  | seq first second ihf ihs =>
      simp only [code, List.mem_append] at h
      simp only [size]
      rcases h with h | h
      · obtain ⟨target, htarget, hlow, hhigh⟩ := ihf h
        exact ⟨target, htarget, hlow, by omega⟩
      · obtain ⟨target, htarget, hlow, hhigh⟩ := ihs h
        exact ⟨target, htarget, by omega, by omega⟩
  | choice test body ih =>
      simp only [code, List.mem_append] at h
      simp only [size]
      rcases h with h | h
      · rcases Condition.target?_of_mem_code h hjump with htarget | htarget
        · exact ⟨_, htarget, by omega, by omega⟩
        · exact ⟨_, htarget, by omega, by omega⟩
      · obtain ⟨target, htarget, hlow, hhigh⟩ := ih h
        exact ⟨target, htarget, by omega, by omega⟩
  | loop test body ih =>
      simp only [code, List.mem_append, List.mem_singleton] at h
      simp only [size]
      rcases h with (h | h) | rfl
      · rcases Condition.target?_of_mem_code h hjump with htarget | htarget
        · exact ⟨_, htarget, by omega, by omega⟩
        · exact ⟨_, htarget, by omega, by omega⟩
      · obtain ⟨target, htarget, hlow, hhigh⟩ := ih h
        exact ⟨target, htarget, by omega, by omega⟩
      · exact ⟨base, rfl, Nat.le_refl _, by omega⟩

end Stmt

/-! ### The temporaries of some code -/

/-- The destination of an operation, which is a temporary. -/
def Instruction.minted? : Instruction → Option String
  | assign _ (.copy _) => none
  | assign dest (.neg _) => some dest
  | assign dest (.binary _ _ _) => some dest
  | branch _ _ _ _ => none
  | jump _ => none

namespace Temporaries

/-- The names of `count` temporaries from the index `next` on. -/
def names (next count : Nat) : List String := (List.range' next count).map name

/-- As many names are minted as are asked for. -/
@[simp] theorem length_names (next count : Nat) : (names next count).length = count := by
  simp [names]

/-- One range of temporaries after another. -/
theorem names_append (next m n : Nat) :
    names next m ++ names (next + m) n = names next (m + n) := by
  unfold names
  rw [← List.map_append, List.range'_append_1]

end Temporaries

/-- The operations of an expression fill the temporaries from `next` on. -/
theorem Expr.minted_code (next : Nat) (e : Expr) :
    (e.code next).filterMap Instruction.minted? = Temporaries.names next e.temps := by
  induction e generalizing next with
  | name text => rfl
  | number digits => rfl
  | missing => rfl
  | neg operand ih =>
      show _ = Temporaries.names next (operand.temps + 1)
      rw [code, List.filterMap_append, ih, ← Temporaries.names_append]
      rfl
  | binary op lhs rhs ihl ihr =>
      show _ = Temporaries.names next (lhs.temps + rhs.temps + 1)
      rw [code, List.filterMap_append, List.filterMap_append, ihl, ihr,
        Temporaries.names_append, ← Temporaries.names_append next (lhs.temps + rhs.temps) 1,
        ← Nat.add_assoc next]
      rfl

/-- The operations of a condition fill those from `next` on. -/
theorem Condition.minted_code (base next exit : Nat) (c : Condition) :
    (c.code base next exit).filterMap Instruction.minted? = Temporaries.names next c.temps := by
  rw [code, operandCode, List.filterMap_append, List.filterMap_append, Expr.minted_code,
    Expr.minted_code, Temporaries.names_append]
  exact List.append_nil _

/-- **The operations of a statement fill the temporaries in order.** -/
theorem Stmt.minted_code (base next : Nat) (t : Stmt) :
    (t.code base next).filterMap Instruction.minted? = Temporaries.names next t.temps := by
  induction t generalizing base next with
  | skip => rfl
  | assign name value =>
      rw [code, List.filterMap_append, Expr.minted_code]
      exact List.append_nil _
  | seq first second ihf ihs =>
      rw [code, List.filterMap_append, ihf, ihs, Temporaries.names_append]
      rfl
  | choice test body ih =>
      rw [code, List.filterMap_append, Condition.minted_code, ih, Temporaries.names_append]
      rfl
  | loop test body ih =>
      rw [code, List.filterMap_append, List.filterMap_append, Condition.minted_code, ih,
        Temporaries.names_append]
      exact List.append_nil _

end ThreeAddress
