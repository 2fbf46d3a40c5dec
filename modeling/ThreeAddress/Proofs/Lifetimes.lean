import ThreeAddress.Proofs.JumpBookkeeping
import ThreeAddress.Proofs.Machine
import ThreeAddress.Proofs.Recognition

/-!
# The lifetimes of temporaries

A temporary is the destination of an operation. This module says where temporaries
come from and where they go, for the code of every compilation, that of a source with
errors included.

* `Stmt.usesOf_code`: each temporary is an operand once, unless the source has a name
  that is written like it.
* `Stmt.exists_lifetime`: it is used behind its definition, no jump stands in between,
  and no jump enters there.

Both are proved on trees, by induction, and hold of a compilation because its code is
that of a tree. By `Stmt.minted_code` the temporaries are numbered in the order of the
code.

What does not hold is that a temporary is different from the names of the source: names
and temporaries are written alike, and nothing keeps them apart. A program that declares
`t0` gets a temporary `t0`, and its variable is overwritten. The names in danger are
those from the first temporary on, as many as the program has operations.
-/

set_option autoImplicit false

namespace ThreeAddress

/-! ### Definitions and uses -/

namespace Instruction

/-- The operands of an instruction. -/
def operands : Instruction → List String
  | assign _ (.copy operand) => [operand]
  | assign _ (.neg operand) => [operand]
  | assign _ (.binary _ lhs rhs) => [lhs, rhs]
  | branch lhs _ rhs _ => [lhs, rhs]
  | jump _ => []

/-- Only a jump has a target. -/
theorem isJump_of_target? {instruction : Instruction} {target : Nat}
    (h : instruction.target? = some target) : instruction.isJump = true := by
  cases instruction with
  | assign dest value => exact nomatch h
  | branch lhs op rhs target => rfl
  | jump target => rfl

end Instruction

/-- The temporaries in the order of the code. -/
def Store.minted (store : Store) : List String :=
  store.code.toList.filterMap Instruction.minted?

/-- The names that were minted are those of the counter between its first and its last value. -/
theorem Temporaries.mem_names {next count : Nat} {x : String} :
    x ∈ names next count ↔ Between next (next + count) x := by
  simp only [names, List.mem_map, List.mem_range'_1, Between, and_assoc, eq_comm]

/-! ### Temporaries are used once -/

/-- A number is not written like a temporary. -/
theorem Temporaries.literalText_ne_name (digits : String) (k : Nat) :
    Lexeme.literalText digits ≠ name k := by
  intro h
  have hliteral := isLiteral_literalText digits
  rw [h, isLiteral_name] at hliteral
  exact Bool.false_ne_true hliteral

/-- How often a text is an operand of some code. -/
def usesOf (x : String) (code : List Instruction) : Nat :=
  (code.flatMap Instruction.operands).count x

/-- No code has no operands. -/
@[simp] theorem usesOf_nil (x : String) : usesOf x [] = 0 := rfl

/-- The uses in two pieces of code add up. -/
theorem usesOf_append (x : String) (code more : List Instruction) :
    usesOf x (code ++ more) = usesOf x code + usesOf x more := by
  unfold usesOf
  rw [List.flatMap_append, List.count_append]

/-- The uses in one instruction are its operands. -/
theorem usesOf_singleton (x : String) (instruction : Instruction) :
    usesOf x [instruction] = instruction.operands.count x := by
  unfold usesOf
  rw [List.flatMap_singleton]

/-- The temporary `k` is used once if its index is one of those, else not at all. -/
def Temporaries.onceIn (next count k : Nat) : Nat :=
  if next ≤ k ∧ k < next + count then 1 else 0

/-- Of no temporaries none is used. -/
@[simp] theorem Temporaries.onceIn_zero (next k : Nat) : onceIn next 0 k = 0 := by
  unfold onceIn
  rw [if_neg (by omega)]

/-- Two blocks of temporaries, one behind the other, are one block. -/
theorem Temporaries.onceIn_add (next m n k : Nat) :
    onceIn next m k + onceIn (next + m) n k = onceIn next (m + n) k := by
  unfold onceIn
  split <;> split <;> split <;> omega

/-- A temporary is used once as an operand of its own, as far as names do not come
back. -/
theorem Temporaries.count_name {last k : Nat} (hlast : last < k + UInt64.size)
    (hk : k < last + UInt64.size) : [name last].count (name k) = onceIn last 1 k := by
  unfold onceIn
  by_cases heq : last = k
  · rw [heq, List.count_singleton_self, if_pos (by omega)]
  · have hne : (name last == name k) = false := by
      rw [beq_eq_false_iff_ne]
      exact fun hname => heq (name_inj hlast hk hname)
    rw [List.count_singleton, hne, if_neg Bool.false_ne_true, if_neg (by omega)]

/-- What stands for itself uses no temporary. -/
theorem Temporaries.count_of_ne {text : String} {k : Nat} (h : text ≠ name k) (next : Nat) :
    [text].count (name k) = onceIn next 0 k := by
  rw [onceIn_zero, List.count_eq_zero_of_not_mem]
  rw [List.mem_singleton]
  exact h.symm

/-- Two operands are counted one by one. -/
theorem count_pair (x left right : String) :
    [left, right].count x = [left].count x + [right].count x := by
  show ([left] ++ [right]).count x = _
  rw [List.count_append]

/-- An expression over other names uses each of its temporaries once, in its code or
as its value. The index `k` and those of the expression lie within 2⁶⁴ of each other. -/
theorem Expr.usesOf_code {next k : Nat} {e : Expr} (h : Temporaries.name k ∉ e.names)
    (hlow : k < next + UInt64.size) (hhigh : next + e.temps ≤ k + UInt64.size) :
    usesOf (Temporaries.name k) (e.code next) + [e.operand next].count (Temporaries.name k)
      = Temporaries.onceIn next e.temps k := by
  induction e generalizing next with
  | name text =>
      rw [code, usesOf_nil, Nat.zero_add]
      exact Temporaries.count_of_ne (fun heq => h (List.mem_singleton.mpr heq.symm)) next
  | number digits =>
      rw [code, usesOf_nil, Nat.zero_add]
      exact Temporaries.count_of_ne (Temporaries.literalText_ne_name digits k) next
  | missing =>
      rw [code, usesOf_nil, Nat.zero_add]
      exact Temporaries.count_of_ne (fun heq => h (List.mem_singleton.mpr heq.symm)) next
  | neg operand ih =>
      simp only [temps] at hhigh
      -- The value of the operand is used by the operation, whose own value is the last.
      show usesOf _ (_ ++ [_]) + [Temporaries.name _].count _
        = Temporaries.onceIn next (operand.temps + 1) k
      rw [usesOf_append, usesOf_singleton, Instruction.operands, ih h hlow (by omega),
        Temporaries.count_name (by omega) (by omega), Temporaries.onceIn_add]
  | binary op lhs rhs ihl ihr =>
      simp only [temps] at hhigh
      -- The two values are used by the operation, and the operation is the last temporary.
      have hl : Temporaries.name k ∉ lhs.names := fun hmem => h (List.mem_append_left _ hmem)
      have hr : Temporaries.name k ∉ rhs.names := fun hmem => h (List.mem_append_right _ hmem)
      show usesOf _ (_ ++ _ ++ [_]) + [Temporaries.name _].count _
        = Temporaries.onceIn next (lhs.temps + rhs.temps + 1) k
      rw [usesOf_append, usesOf_append, usesOf_singleton, Instruction.operands, count_pair,
        Temporaries.count_name (by omega) (by omega), ← Temporaries.onceIn_add,
        ← Temporaries.onceIn_add, ← ihl hl hlow (by omega), ← ihr hr (by omega) (by omega),
        Nat.add_assoc next]
      omega

/-- A condition over other names uses each of its temporaries once. -/
theorem Condition.usesOf_code {base next exit k : Nat} {c : Condition}
    (h : Temporaries.name k ∉ c.names) (hlow : k < next + UInt64.size)
    (hhigh : next + c.temps ≤ k + UInt64.size) :
    usesOf (Temporaries.name k) (c.code base next exit) = Temporaries.onceIn next c.temps k := by
  have hl : Temporaries.name k ∉ c.lhs.names := fun hmem => h (List.mem_append_left _ hmem)
  have hr : Temporaries.name k ∉ c.rhs.names := fun hmem => h (List.mem_append_right _ hmem)
  have hbranch : ∀ target, usesOf (Temporaries.name k) [c.branch next target, .jump (some exit)]
      = [c.lhs.operand next].count (Temporaries.name k)
        + [c.rhs.operand (next + c.lhs.temps)].count (Temporaries.name k) :=
    fun _ => count_pair _ _ _
  simp only [temps] at hhigh
  rw [code, operandCode, usesOf_append, usesOf_append, hbranch, temps, ← Temporaries.onceIn_add,
    ← Expr.usesOf_code hl hlow (by omega), ← Expr.usesOf_code hr (by omega) (by omega)]
  omega

/-- **A statement over other names uses each of its temporaries once.** -/
theorem Stmt.usesOf_code {base next k : Nat} {t : Stmt} (h : Temporaries.name k ∉ t.names)
    (hlow : k < next + UInt64.size) (hhigh : next + t.temps ≤ k + UInt64.size) :
    usesOf (Temporaries.name k) (t.code base next) = Temporaries.onceIn next t.temps k := by
  induction t generalizing base next with
  | skip => exact (Temporaries.onceIn_zero next k).symm
  | assign name value =>
      have hvalue : Temporaries.name k ∉ value.names := fun hmem => h (List.mem_cons_of_mem _ hmem)
      rw [code, usesOf_append, usesOf_singleton, Instruction.operands,
        Expr.usesOf_code hvalue hlow hhigh]
      rfl
  | seq first second ihf ihs =>
      simp only [temps] at hhigh
      have hf : Temporaries.name k ∉ first.names := fun hmem => h (List.mem_append_left _ hmem)
      have hs : Temporaries.name k ∉ second.names := fun hmem => h (List.mem_append_right _ hmem)
      rw [code, usesOf_append, ihf hf hlow (by omega), ihs hs (by omega) (by omega),
        Temporaries.onceIn_add]
      rfl
  | choice test body ih =>
      simp only [temps] at hhigh
      have htest : Temporaries.name k ∉ test.names := fun hmem => h (List.mem_append_left _ hmem)
      have hbody : Temporaries.name k ∉ body.names := fun hmem => h (List.mem_append_right _ hmem)
      rw [code, usesOf_append, Condition.usesOf_code htest hlow (by omega),
        ih hbody (by omega) (by omega), Temporaries.onceIn_add]
      rfl
  | loop test body ih =>
      simp only [temps] at hhigh
      have htest : Temporaries.name k ∉ test.names := fun hmem => h (List.mem_append_left _ hmem)
      have hbody : Temporaries.name k ∉ body.names := fun hmem => h (List.mem_append_right _ hmem)
      rw [code, usesOf_append, usesOf_append, Condition.usesOf_code htest hlow (by omega),
        ih hbody (by omega) (by omega), Temporaries.onceIn_add]
      rfl

/-- An expression copies nothing. -/
theorem Expr.copy_not_mem_code {next : Nat} {e : Expr} {dest operand : String} :
    .assign dest (.copy operand) ∉ e.code next := by
  induction e generalizing next with
  | name text => exact List.not_mem_nil
  | number digits => exact List.not_mem_nil
  | missing => exact List.not_mem_nil
  | neg inner ih => simp [code, ih]
  | binary op lhs rhs ihl ihr => simp [code, ihl, ihr]

/-- A condition copies nothing. -/
theorem Condition.copy_not_mem_code {base next exit : Nat} {c : Condition}
    {dest operand : String} : .assign dest (.copy operand) ∉ c.code base next exit := by
  simp [code, operandCode, branch, Expr.copy_not_mem_code]

/-- What a statement copies goes to one of its names. -/
theorem Stmt.mem_names_of_copy {base next : Nat} {t : Stmt} {dest operand : String}
    (h : .assign dest (.copy operand) ∈ t.code base next) : dest ∈ t.names := by
  induction t generalizing base next with
  | skip => exact absurd h List.not_mem_nil
  | assign name value =>
      have hdest : dest = name ∧ operand = value.operand next := by
        simpa [code, Expr.copy_not_mem_code] using h
      rw [hdest.1]
      exact List.mem_cons_self ..
  | seq first second ihf ihs =>
      rcases List.mem_append.mp h with h | h
      · exact List.mem_append_left _ (ihf h)
      · exact List.mem_append_right _ (ihs h)
  | choice test body ih =>
      rcases List.mem_append.mp h with h | h
      · exact absurd h Condition.copy_not_mem_code
      · exact List.mem_append_right _ (ih h)
  | loop test body ih =>
      rcases List.mem_append.mp h with h | h
      · rcases List.mem_append.mp h with h | h
        · exact absurd h Condition.copy_not_mem_code
        · exact List.mem_append_right _ (ih h)
      · exact absurd (List.mem_singleton.mp h) (by simp)

/-! ### Temporaries live in straight code -/

/-- In some code a temporary is filled at the index `i` and used at the index `j`
behind it, and no jump stands in between. -/
def Span (code : List Instruction) (x : String) (i j : Nat) : Prop :=
  ∃ front define between use back,
    code = front ++ define :: (between ++ use :: back) ∧
      define.minted? = some x ∧ x ∈ use.operands ∧
      (∀ instruction ∈ between, instruction.isJump = false) ∧
      i = front.length ∧ j = i + between.length + 1

namespace Span

variable {code : List Instruction} {x : String} {i j : Nat}

/-- Code in front moves both indices. -/
theorem append_left (h : Span code x i j) (more : List Instruction) :
    Span (more ++ code) x (more.length + i) (more.length + j) := by
  obtain ⟨front, define, between, use, back, rfl, hdefine, huse, hstraight, rfl, rfl⟩ := h
  refine ⟨more ++ front, define, between, use, back, ?_, hdefine, huse, hstraight, ?_, ?_⟩
  · rw [List.append_assoc]
  · rw [List.length_append]
  · omega

/-- Code behind changes nothing. -/
theorem append_right (h : Span code x i j) (more : List Instruction) :
    Span (code ++ more) x i j := by
  obtain ⟨front, define, between, use, back, rfl, hdefine, huse, hstraight, hi, hj⟩ := h
  refine ⟨front, define, between, use, back ++ more, ?_, hdefine, huse, hstraight, hi, hj⟩
  simp

/-- The value of the last instruction is used behind straight code. -/
theorem of_last {define use : Instruction} {between : List Instruction}
    (hdefine : define.minted? = some x) (huse : x ∈ use.operands)
    (hstraight : ∀ instruction ∈ between, instruction.isJump = false) :
    ∃ i j, Span (code ++ [define] ++ (between ++ [use])) x i j := by
  refine ⟨_, _, code, define, between, use, [], ?_, hdefine, huse, hstraight, rfl, rfl⟩
  rw [List.append_assoc]
  rfl

/-- The use lies in the code. -/
theorem lt_length (h : Span code x i j) : j < code.length := by
  obtain ⟨front, define, between, use, back, rfl, -, -, -, rfl, rfl⟩ := h
  simp only [List.length_append, List.length_cons]
  omega

end Span

/-- Each temporary of an expression is used inside its code or by the instruction `use`
that uses its value, if only straight code stands between. -/
def Expr.HasSpans (e : Expr) : Prop :=
  ∀ next k : Nat, next ≤ k → k < next + e.temps →
    ∀ between : List Instruction, (∀ instruction ∈ between, instruction.isJump = false) →
    ∀ use : Instruction, e.operand next ∈ use.operands →
    ∃ i j, Span (e.code next ++ (between ++ [use])) (Temporaries.name k) i j

/-- Two expressions whose values are used by one instruction. The left value waits while
the right one is computed. -/
theorem Expr.HasSpans.pair {lhs rhs : Expr} (hlhs : lhs.HasSpans) (hrhs : rhs.HasSpans)
    {next k : Nat} (hlow : next ≤ k) (hhigh : k < next + lhs.temps + rhs.temps)
    (use : Instruction)
    (huse : use.operands = [lhs.operand next, rhs.operand (next + lhs.temps)]) :
    ∃ i j, Span (lhs.code next ++ rhs.code (next + lhs.temps) ++ [use])
      (Temporaries.name k) i j := by
  -- A temporary of the left side is used in the left code, or it is the left value. Then it
  -- waits while the right code runs, which has no jump.
  by_cases hk : k < next + lhs.temps
  · have hleft : lhs.operand next ∈ use.operands := by
      rw [huse]
      exact List.mem_cons_self ..
    obtain ⟨i, j, hspan⟩ :=
      hlhs next k hlow hk _ (fun _ hmem => isJump_of_mem_code hmem) use hleft
    rw [← List.append_assoc] at hspan
    exact ⟨i, j, hspan⟩
  · have hright : rhs.operand (next + lhs.temps) ∈ use.operands := by
      rw [huse]
      exact List.mem_cons_of_mem _ (List.mem_singleton_self _)
    obtain ⟨i, j, hspan⟩ :=
      hrhs (next + lhs.temps) k (Nat.not_lt.mp hk) hhigh [] (List.forall_mem_nil _) use hright
    have hmore := hspan.append_left (lhs.code next)
    rw [List.nil_append, ← List.append_assoc] at hmore
    exact ⟨_, _, hmore⟩

/-- **Every expression has its spans.** -/
theorem Expr.hasSpans (e : Expr) : e.HasSpans := by
  induction e with
  | name text => exact fun _ _ hlow hhigh => absurd hhigh (Nat.not_lt.mpr hlow)
  | number digits => exact fun _ _ hlow hhigh => absurd hhigh (Nat.not_lt.mpr hlow)
  | missing => exact fun _ _ hlow hhigh => absurd hhigh (Nat.not_lt.mpr hlow)
  | neg operand ih =>
      intro next k hlow hhigh between hstraight use huse
      by_cases hk : k < next + operand.temps
      · -- The value of the operand is used by the operation.
        obtain ⟨i, j, hspan⟩ := ih next k hlow hk [] (List.forall_mem_nil _)
          (.assign (Temporaries.name (next + operand.temps)) (.neg (operand.operand next)))
          (List.mem_singleton_self _)
        exact ⟨i, j, hspan.append_right _⟩
      · -- The value of the operation is the value of the expression.
        have hlast : k = next + operand.temps := by
          simp only [temps] at hhigh
          omega
        rw [hlast]
        exact Span.of_last rfl huse hstraight
  | binary op lhs rhs ihl ihr =>
      intro next k hlow hhigh between hstraight use huse
      by_cases hk : k < next + lhs.temps + rhs.temps
      · obtain ⟨i, j, hspan⟩ := ihl.pair ihr hlow hk (.assign
          (Temporaries.name (next + lhs.temps + rhs.temps))
          (.binary op (lhs.operand next) (rhs.operand (next + lhs.temps)))) rfl
        exact ⟨i, j, hspan.append_right _⟩
      · have hlast : k = next + lhs.temps + rhs.temps := by
          simp only [temps] at hhigh
          omega
        rw [hlast]
        exact Span.of_last rfl huse hstraight

/-! ### No jump enters a lifetime -/

/-- A temporary with a span that no jump of the code enters. The code starts at the
address `base`. -/
structure Lifetime (base : Nat) (code : List Instruction) (x : String) (i j : Nat) : Prop where
  span : Span code x i j
  targets : ∀ instruction ∈ code, ∀ target, instruction.target? = some target →
    target ≤ base + i ∨ base + j < target

namespace Lifetime

variable {base start i j : Nat} {code more : List Instruction} {x : String}

/-- Code behind, whose jumps do not go inside, changes nothing. -/
theorem append_right (h : Lifetime base code x i j)
    (hmore : ∀ instruction ∈ more, ∀ target, instruction.target? = some target →
      target ≤ base ∨ base + code.length ≤ target) :
    Lifetime base (code ++ more) x i j := by
  refine ⟨h.span.append_right more, ?_⟩
  intro instruction hmem target htarget
  rcases List.mem_append.mp hmem with hmem | hmem
  · exact h.targets instruction hmem target htarget
  · have hlt := h.span.lt_length
    have hout := hmore instruction hmem target htarget
    omega

/-- Code in front, whose jumps do not go inside, moves the indices. -/
theorem append_left (h : Lifetime base code x i j) (hbase : base = start + more.length)
    (hmore : ∀ instruction ∈ more, ∀ target, instruction.target? = some target →
      target ≤ base ∨ base + code.length ≤ target) :
    Lifetime start (more ++ code) x (more.length + i) (more.length + j) := by
  refine ⟨h.span.append_left more, ?_⟩
  intro instruction hmem target htarget
  rcases List.mem_append.mp hmem with hmem | hmem
  · have hlt := h.span.lt_length
    have hout := hmore instruction hmem target htarget
    omega
  · have hin := h.targets instruction hmem target htarget
    omega

end Lifetime

/-- The jumps of a condition go past it or to its exit. -/
theorem Condition.target_of_mem_code {base next exit target : Nat} {c : Condition}
    {instruction : Instruction} (h : instruction ∈ c.code base next exit)
    (htarget : instruction.target? = some target) :
    target = base + c.temps + 2 ∨ target = exit := by
  rcases target?_of_mem_code h (Instruction.isJump_of_target? htarget) with hpast | hexit
  · exact .inl (Option.some.inj (htarget.symm.trans hpast))
  · exact .inr (Option.some.inj (htarget.symm.trans hexit))

/-- The jumps of a statement go into it or right behind it. -/
theorem Stmt.target_of_mem_code {base next target : Nat} {t : Stmt} {instruction : Instruction}
    (h : instruction ∈ t.code base next) (htarget : instruction.target? = some target) :
    base ≤ target ∧ target ≤ base + t.size := by
  obtain ⟨target', htarget', hrange⟩ :=
    target_mem_range h (Instruction.isJump_of_target? htarget)
  obtain rfl := Option.some.inj (htarget.symm.trans htarget')
  exact hrange

/-- Each temporary of a condition lives up to the branch, if the exit lies behind it. -/
theorem Condition.exists_lifetime {base next exit k : Nat} {c : Condition} (hlow : next ≤ k)
    (hhigh : k < next + c.temps) (hexit : base + c.temps < exit) :
    ∃ i j, Lifetime base (c.code base next exit) (Temporaries.name k) i j := by
  have hsum : k < next + c.lhs.temps + c.rhs.temps := by
    simp only [temps] at hhigh
    omega
  obtain ⟨i, j, hspan⟩ := Expr.HasSpans.pair c.lhs.hasSpans c.rhs.hasSpans hlow hsum
    (c.branch next (some (base + c.temps + 2))) rfl
  have hj : j < c.temps + 1 := by
    have hlt := hspan.lt_length
    simp only [List.length_append, Expr.length_code, List.length_singleton] at hlt
    exact hlt
  have hwhole := hspan.append_right [.jump (some exit)]
  rw [List.append_assoc] at hwhole
  refine ⟨i, j, hwhole, ?_⟩
  -- Both jumps of the condition go behind the branch.
  intro instruction hmem target htarget
  rcases target_of_mem_code hmem htarget with rfl | rfl
  · omega
  · omega

/-- **Each temporary of a statement has a lifetime.** The induction is on the tree. The
jumps of the parts around a part go to its start, to its end or further away. -/
theorem Stmt.exists_lifetime {base next k : Nat} {t : Stmt} (hlow : next ≤ k)
    (hhigh : k < next + t.temps) :
    ∃ i j, Lifetime base (t.code base next) (Temporaries.name k) i j := by
  induction t generalizing base next with
  | skip => exact absurd hhigh (Nat.not_lt.mpr hlow)
  | assign name value =>
      obtain ⟨i, j, hspan⟩ := value.hasSpans next k hlow hhigh [] (List.forall_mem_nil _)
        (.assign name (.copy (value.operand next))) (List.mem_singleton_self _)
      refine ⟨i, j, hspan, ?_⟩
      -- An assignment has no jump at all.
      intro instruction hmem target htarget
      have hjump := Instruction.isJump_of_target? htarget
      rcases List.mem_append.mp hmem with hmem | hmem
      · rw [Expr.isJump_of_mem_code hmem] at hjump
        exact absurd hjump Bool.false_ne_true
      · rw [List.mem_singleton.mp hmem] at hjump
        exact absurd hjump Bool.false_ne_true
  | seq first second ihf ihs =>
      by_cases hk : k < next + first.temps
      · obtain ⟨i, j, hlife⟩ := @ihf base next hlow hk
        refine ⟨i, j, hlife.append_right ?_⟩
        intro instruction hmem target htarget
        rw [length_code]
        exact .inr (target_of_mem_code hmem htarget).1
      · have hk' : k < next + first.temps + second.temps := by
          simp only [temps] at hhigh
          omega
        -- The temporary belongs to the second statement, whose indices are moved by the first.
        obtain ⟨i, j, hlife⟩ := @ihs (base + first.size) _ (Nat.not_lt.mp hk) hk'
        refine ⟨_, _, hlife.append_left (by rw [length_code]) ?_⟩
        intro instruction hmem target htarget
        exact .inl (target_of_mem_code hmem htarget).2
  | choice test body ih =>
      by_cases hk : k < next + test.temps
      · obtain ⟨i, j, hlife⟩ := Condition.exists_lifetime hlow hk
          (show base + test.temps < base + test.temps + 2 + body.size by omega)
        refine ⟨i, j, hlife.append_right ?_⟩
        intro instruction hmem target htarget
        have hrange := target_of_mem_code hmem htarget
        rw [Condition.length_code]
        omega
      · have hk' : k < next + test.temps + body.temps := by
          simp only [temps] at hhigh
          omega
        obtain ⟨i, j, hlife⟩ := @ih (base + test.temps + 2) _ (Nat.not_lt.mp hk) hk'
        refine ⟨_, _, hlife.append_left (by rw [Condition.length_code, Nat.add_assoc]) ?_⟩
        intro instruction hmem target htarget
        have htest := Condition.target_of_mem_code hmem htarget
        rw [length_code]
        omega
  | loop test body ih =>
      -- The jump that closes the loop goes to the start of the whole.
      have hback : ∀ instruction ∈ [Instruction.jump (some base)], ∀ target,
          instruction.target? = some target → target = base := by
        intro instruction hmem target htarget
        rw [List.mem_singleton.mp hmem] at htarget
        exact (Option.some.inj htarget).symm
      by_cases hk : k < next + test.temps
      · obtain ⟨i, j, hlife⟩ := Condition.exists_lifetime hlow hk
          (show base + test.temps < base + test.temps + 2 + body.size + 1 by omega)
        refine ⟨i, j, (hlife.append_right ?_).append_right ?_⟩
        · intro instruction hmem target htarget
          have hrange := target_of_mem_code hmem htarget
          rw [Condition.length_code]
          omega
        · intro instruction hmem target htarget
          exact .inl (Nat.le_of_eq (hback instruction hmem target htarget))
      · have hk' : k < next + test.temps + body.temps := by
          simp only [temps] at hhigh
          omega
        obtain ⟨i, j, hlife⟩ := @ih (base + test.temps + 2) _ (Nat.not_lt.mp hk) hk'
        refine ⟨_, _, (hlife.append_left (by rw [Condition.length_code, Nat.add_assoc])
          ?_).append_right ?_⟩
        · intro instruction hmem target htarget
          have htest := Condition.target_of_mem_code hmem htarget
          rw [length_code]
          omega
        · intro instruction hmem target htarget
          exact .inl (Nat.le_of_eq (hback instruction hmem target htarget))

/-! ### Lifetimes in a store -/

/-- What an address holds is an instruction of the code. -/
theorem Store.mem_of_get? {store : Store} {address : Nat} {instruction : Instruction}
    (h : store.get? address = some instruction) : instruction ∈ store.code.toList := by
  unfold Store.get? at h
  split at h
  · exact absurd h (by simp)
  · exact Array.mem_toList_iff.mpr (Array.mem_of_getElem? h)

/-- The value that the instruction at `defined` gives to a temporary is used at `used`,
and the code from one to the other runs from its start to its end or not at all. -/
structure Store.Lives (store : Store) (x : String) (defined used : Nat) : Prop where
  before : defined < used
  define : ∃ instruction, store.get? defined = some instruction ∧ instruction.minted? = some x
  use : ∃ instruction, store.get? used = some instruction ∧ x ∈ instruction.operands
  straight : ∀ address instruction, defined < address → address < used →
    store.get? address = some instruction → instruction.isJump = false
  closed : ∀ address instruction target, store.get? address = some instruction →
    instruction.target? = some target → ¬ (defined < target ∧ target ≤ used)

/-- The lifetimes of the code are lifetimes in the store. -/
theorem Lifetime.lives {store : Store} {x : String} {i j : Nat}
    (h : Lifetime store.first.toNat store.code.toList x i j) :
    store.Lives x (store.first.toNat + i) (store.first.toNat + j) := by
  have htargets := h.targets
  obtain ⟨front, define, between, use, back, hcode, hdefine, huse, hstraight, rfl, rfl⟩ := h.span
  have hhas := store.hasCode_first
  rw [hcode] at hhas
  have hdefined := hhas.right.head
  have hbetween := hhas.right.tail.left
  have hused := hhas.right.tail.right.head
  refine ⟨by omega, ⟨define, hdefined, hdefine⟩, ⟨use, ?_, huse⟩, ?_, ?_⟩
  · rw [← hused]
    congr 1
    omega
  · intro address instruction hlow hhigh hget
    have hlt : address - (store.first.toNat + front.length + 1) < between.length := by omega
    have hat := hbetween _ _ (List.getElem?_eq_getElem hlt)
    rw [Nat.add_sub_cancel' (by omega), hget] at hat
    rw [Option.some.inj hat]
    exact hstraight _ (List.getElem_mem hlt)
  · intro address instruction target hget htarget hinside
    have hout := htargets instruction (Store.mem_of_get? hget) target htarget
    omega

/-! ### The temporaries of a compilation -/

/-- A missing operand is not written like a temporary. -/
theorem Temporaries.missing_ne_name (k : Nat) : Generate.missing ≠ name k := by
  intro h
  have hlist := congrArg String.toList h
  rw [toList_name] at hlist
  exact absurd (List.cons.inj hlist).1 (by decide)

/-- The code that a compilation puts into its store. -/
theorem Generate.toList_code_append (options : Options) (code : List Instruction) :
    ((emptyStore options).append code).code.toList = code := by
  simp [Store.append, emptyStore]

/-- **A temporary is defined once and used once, in straight code.** If no name of the
source is written like a temporary, the temporaries are numbered from the first index
on, and nothing but its operation assigns to one. Each is an operand once, behind its
definition. No jump stands between, and no jump enters there. The source may have errors. -/
theorem compile_temporaries_live_in_block (options : Options) (source : String)
    (compilation : Compilation) (hok : compile options source = .ok compilation)
    (hfresh : ∀ x, .ident x ∈ (scan source).lexemes → x ∉ compilation.code.minted) :
    compilation.code.minted
        = Temporaries.names options.firstTemp.toNat compilation.code.minted.length ∧
      ∀ x ∈ compilation.code.minted,
        (∀ operand, .assign x (.copy operand) ∉ compilation.code.code.toList) ∧
          usesOf x compilation.code.code.toList = 1 ∧
          ∃ defined used, compilation.code.Lives x defined used := by
  obtain ⟨t, hknown, hcode⟩ := exists_tree_of_compile hok
  have hlist : compilation.code.code.toList
      = t.code options.firstAddress.toNat options.firstTemp.toNat := by
    rw [hcode, Generate.toList_code_append]
  have hminted : compilation.code.minted
      = Temporaries.names options.firstTemp.toNat t.temps := by
    rw [Store.minted, hlist, Stmt.minted_code]
  refine ⟨?_, ?_⟩
  · rw [hminted, Temporaries.length_names]
  intro x hmem
  -- The names of the tree stand in the source, or for an operand that is missing.
  have hname : x ∉ t.names := by
    intro hname
    rcases hknown x hname with hident | hmissing
    · exact hfresh x hident hmem
    · rw [hminted, Temporaries.mem_names] at hmem
      obtain ⟨k, -, -, hk⟩ := hmem
      exact Temporaries.missing_ne_name k (hmissing.symm.trans hk)
  rw [hminted, Temporaries.mem_names] at hmem
  obtain ⟨k, hlow, hhigh, rfl⟩ := hmem
  refine ⟨?_, ?_, ?_⟩
  · intro operand hcopy
    rw [hlist] at hcopy
    exact hname (Stmt.mem_names_of_copy hcopy)
  · -- Each temporary has an instruction with an address, so that none of their names comes back.
    have hroom : t.temps < UInt64.size := by
      rw [← Temporaries.length_names options.firstTemp.toNat t.temps, ← hminted]
      exact Nat.lt_of_le_of_lt (List.length_filterMap_le _ _) (size_lt_of_compile hok)
    rw [hlist, Stmt.usesOf_code hname (by omega) (by omega), Temporaries.onceIn,
      if_pos ⟨hlow, hhigh⟩]
  · have hfirst : compilation.code.first = options.firstAddress := by
      rw [hcode]
      rfl
    obtain ⟨i, j, hlife⟩ := Stmt.exists_lifetime hlow hhigh
    rw [← hlist, ← hfirst] at hlife
    exact ⟨_, _, hlife.lives⟩

/-- A loop whose body breaks off, with temporaries from `t7` on. -/
theorem compile_temporaries_live_in_block_cut_off :
    ∃ compilation,
      compile { firstTemp := 7 } "PROGRAM p VAR x; WHILE x * 2 > 1 DO x := 3 - (x *"
        = .ok compilation ∧
      compilation.code.minted = ["t7", "t8", "t9"] ∧
      ∃ defined used, compilation.code.Lives "t8" defined used := by
  have hcompile : compile { firstTemp := 7 }
      "PROGRAM p VAR x; WHILE x * 2 > 1 DO x := 3 - (x *" = .ok
        { program := some "p"
          symbols := ⟨#[⟨"x", .var, 1⟩]⟩
          code := ⟨0, #[.assign "t7" (.binary .mul "x" "2"), .branch "t7" .gt "1" (some 3),
            .jump (some 7), .assign "t8" (.binary .mul "x" "?"),
            .assign "t9" (.binary .sub "3" "t8"), .assign "x" (.copy "t9"), .jump (some 0)]⟩
          diagnostics := #[⟨1, .expected "identifier, number or '('" "end of input"⟩,
            ⟨1, .expected "')'" "end of input"⟩] } := by
    decide +kernel
  have hnames : ∀ lexeme ∈
      (scan "PROGRAM p VAR x; WHILE x * 2 > 1 DO x := 3 - (x *").lexemes,
      ∀ x ∈ ["t7", "t8", "t9"], lexeme ≠ .ident x := by
    decide +kernel
  have hlives := compile_temporaries_live_in_block _ _ _ hcompile
    (fun x hident hmem => hnames _ hident x hmem rfl)
  exact ⟨_, hcompile, hlives.1, (hlives.2 "t8" (by decide +kernel)).2.2⟩

/-! ### Temporaries and the names of the source -/

/-- **Which names a temporary can overwrite.** The temporaries of a program without errors
are fresh exactly if it declares none of the names from the first temporary on, as many
as it has operations. Behind the largest word the names go on with `t0`. -/
theorem compile_temporaries_fresh_iff (options : Options) (source : String)
    (compilation : Compilation) (hok : compile options source = .ok compilation)
    (hclean : compilation.diagnostics = #[]) :
    ∃ p : Program, p.lexemes = (scan source).lexemes ∧
      ((∀ x ∈ compilation.code.minted, compilation.symbols.contains x = false) ↔
        ∀ k, options.firstTemp.toNat ≤ k → k < options.firstTemp.toNat + p.body.tree.temps →
          compilation.symbols.contains (Temporaries.name k) = false) := by
  have hform : ∀ diagnostic ∈ compilation.diagnostics,
      diagnostic.problem.isSyntactic = false := by
    rw [hclean]
    exact fun _ hmem => absurd hmem (Array.not_mem_empty _)
  obtain ⟨p, hlex, hroom⟩ := mem_language_of_compile hok hform
  obtain ⟨-, hcode⟩ := code_of_compile hok hlex hroom
  have hminted : compilation.code.minted
      = Temporaries.names options.firstTemp.toNat p.body.tree.temps := by
    rw [Store.minted, hcode, Generate.toList_code_append, Program.minted_code]
  refine ⟨p, hlex, ?_⟩
  rw [hminted]
  constructor
  · intro hfree k hlow hhigh
    exact hfree _ (Temporaries.mem_names.mpr ⟨k, hlow, hhigh, rfl⟩)
  · intro hfree x hmem
    obtain ⟨k, hlow, hhigh, rfl⟩ := Temporaries.mem_names.mp hmem
    exact hfree k hlow hhigh

/-- A program that declares `t2` and has the temporaries `t0` and `t1`. -/
theorem compile_temporaries_fresh_iff_next_free :
    ∃ compilation,
      compile {} "PROGRAM p VAR t2, x; x := (1 + 2) * t2" = .ok compilation ∧
      compilation.diagnostics = #[] ∧
      ∃ p : Program, p.lexemes = (scan "PROGRAM p VAR t2, x; x := (1 + 2) * t2").lexemes ∧
        ∀ k, k < p.body.tree.temps →
          compilation.symbols.contains (Temporaries.name k) = false := by
  have hcompile : compile {} "PROGRAM p VAR t2, x; x := (1 + 2) * t2" = .ok
      { program := some "p"
        symbols := ⟨#[⟨"t2", .var, 1⟩, ⟨"x", .var, 1⟩]⟩
        code := ⟨0, #[.assign "t0" (.binary .add "1" "2"), .assign "t1" (.binary .mul "t0" "t2"),
          .assign "x" (.copy "t1")]⟩
        diagnostics := #[] } := by
    decide +kernel
  obtain ⟨p, hlex, hfresh⟩ := compile_temporaries_fresh_iff {} _ _ hcompile rfl
  refine ⟨_, hcompile, rfl, p, hlex, ?_⟩
  intro k hk
  rw [← Nat.zero_add p.body.tree.temps] at hk
  exact hfresh.mp (by decide +kernel) k (Nat.zero_le k) hk

/-- **A temporary can overwrite a variable.** The program declares `t0`, and its first
operation assigns to `t0` before the variable is read. Nothing is reported. -/
theorem compile_temporary_overwrites_variable :
    ¬ ∀ (options : Options) (source : String) (compilation : Compilation),
      compile options source = .ok compilation → compilation.diagnostics = #[] →
      ∀ x ∈ compilation.code.minted, compilation.symbols.contains x = false := by
  intro hclaim
  have hcompile : compile {} "PROGRAM p VAR t0, x; x := (1 + 2) * t0" = .ok
      { program := some "p"
        symbols := ⟨#[⟨"t0", .var, 1⟩, ⟨"x", .var, 1⟩]⟩
        code := ⟨0, #[.assign "t0" (.binary .add "1" "2"), .assign "t1" (.binary .mul "t0" "t0"),
          .assign "x" (.copy "t1")]⟩
        diagnostics := #[] } := by
    decide +kernel
  have hfree := hclaim {} _ _ hcompile rfl "t0" (by decide +kernel)
  exact absurd hfree (by decide +kernel)

end ThreeAddress
