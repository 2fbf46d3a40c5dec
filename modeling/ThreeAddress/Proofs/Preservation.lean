import ThreeAddress.Proofs.Machine
import ThreeAddress.Proofs.Recognition
import ThreeAddress.Proofs.SaturatedLiterals
import ThreeAddress.Proofs.StaticChecks

/-!
# Compilation preserves meaning

The code of a program, run by the machine, does what the program says. The
argument is a simulation between the big-step semantics and the machine.

* The invariant is `AgreesOff lo hi σ μ`: the valuation `μ` of the machine agrees
  with the valuation `σ` of the program, except on the temporaries from `lo` on
  and below `hi`. These are the temporaries of the whole compilation, so a loop
  may find old values in them when it starts a new round.
* `Expr.runs` and `Condition.runs` follow the code of an expression and of a
  condition, which has no loop.
* `Stmt.Exec.runs` goes from the semantics to the machine, by induction on the
  execution. `Stmt.exec_of_run` goes back, by induction on the statement, and for
  a loop by induction on the number of steps: a round takes a step at least.

What is written in a program must be read by the machine as it is meant: `Legible`.
Its names must not look like literals, which the scanner sees to, and must not be
those of its own temporaries, which is an assumption on the source. Its numbers must
fit the word of a literal. A limit of less than 19 digits sees to that. Under a higher
one, a number that does not fit is cut off without a report, and then the code computes
with another number than the program.
-/

set_option autoImplicit false

namespace ThreeAddress

open Machine

/-! ### Agreement off the temporaries -/

/-- The two valuations agree on all names but the temporaries from `lo` on and
below `hi`. -/
def AgreesOff (lo hi : Nat) (σ τ : Valuation) : Prop :=
  ∀ x, ¬ Temporaries.Between lo hi x → τ x = σ x

/-- A name that the machine reads as a name, and that is none of the temporaries
from `lo` on and below `hi`. -/
structure Plain (lo hi : Nat) (x : String) : Prop where
  name : isLiteral x = false
  foreign : ¬ Temporaries.Between lo hi x

/-- The machine reads what is written as it is meant: names are plain, and numbers
fit a literal. -/
def Legible (lo hi : Nat) : Lexeme → Prop
  | .ident x => Plain lo hi x
  | .number digits => Decimal.value digits.toList ≤ Decimal.literalMax
  | _ => True

/-- A literal that fits has the value of its digits. -/
theorem operandValue_literal_of_le {digits : String}
    (h : Decimal.value digits.toList ≤ Decimal.literalMax) (σ : Valuation) :
    operandValue σ (Lexeme.literalText digits) = Decimal.value digits.toList := by
  rw [operandValue_literal, (Decimal.literal_eq_value_iff _).mpr h]

namespace AgreesOff

variable {lo hi : Nat} {σ τ ρ : Valuation}

/-- A valuation agrees with itself. -/
theorem refl (lo hi : Nat) (σ : Valuation) : AgreesOff lo hi σ σ := fun _ _ => rfl

/-- Agreement is handed on if the same temporaries are left out. -/
theorem trans (h : AgreesOff lo hi σ τ) (h' : AgreesOff lo hi τ ρ) : AgreesOff lo hi σ ρ := by
  intro x hx
  rw [h' x hx, h x hx]

/-- Agreement off fewer temporaries is more. -/
theorem mono {lo' hi' : Nat} (h : AgreesOff lo hi σ τ) (hlo : lo' ≤ lo) (hhi : hi ≤ hi') :
    AgreesOff lo' hi' σ τ := by
  intro x hx
  exact h x fun hbetween => hx (hbetween.mono hlo hhi)

/-- A temporary may get any value. -/
theorem update_temp (h : AgreesOff lo hi σ τ) {k : Nat} (hlo : lo ≤ k) (hhi : k < hi)
    (value : Int) : AgreesOff lo hi σ (Function.update τ (Temporaries.name k) value) := by
  intro x hx
  have hne : x ≠ Temporaries.name k := fun heq => hx ⟨k, hlo, hhi, heq⟩
  rw [Function.update_of_ne hne]
  exact h x hx

/-- A name gets the same value on both sides. -/
theorem update_name (h : AgreesOff lo hi σ τ) (name : String) (value : Int) :
    AgreesOff lo hi (Function.update σ name value) (Function.update τ name value) := by
  intro x hx
  by_cases heq : x = name
  · rw [heq, Function.update_self, Function.update_self]
  · rw [Function.update_of_ne heq, Function.update_of_ne heq]
    exact h x hx

/-- A legible expression has the same value on both sides. -/
theorem eval_eq {M : Arithmetic} (h : AgreesOff lo hi σ τ) {e : Expr}
    (hlegible : ∀ leaf ∈ e.leaves, Legible lo hi leaf) : e.eval M τ = e.eval M σ := by
  apply Expr.eval_congr
  intro x hx
  have hplain : Plain lo hi x := hlegible (.ident x) (Expr.ident_mem_leaves hx)
  exact h x hplain.foreign

/-- A legible condition holds on both sides or on none. -/
theorem holds_eq {M : Arithmetic} (h : AgreesOff lo hi σ τ) {c : Condition}
    (hlegible : ∀ leaf ∈ c.leaves, Legible lo hi leaf) : c.holds M τ = c.holds M σ := by
  unfold Condition.holds
  have hl : c.lhs.eval M τ = c.lhs.eval M σ :=
    h.eval_eq fun leaf hleaf => hlegible leaf (List.mem_append_left _ hleaf)
  have hr : c.rhs.eval M τ = c.rhs.eval M σ :=
    h.eval_eq fun leaf hleaf => hlegible leaf (List.mem_append_right _ hleaf)
  rw [hl, hr]

/-- The operand of an expression keeps its value while later temporaries change. All
of them lie within 2⁶⁴ of each other, so that no name has come back. -/
theorem operandValue_eq {low high next : Nat} (h : AgreesOff low high σ τ) {e : Expr}
    (hlegible : ∀ leaf ∈ e.leaves, Legible lo hi leaf) (hlo : lo ≤ next) (hhi : high ≤ hi)
    (hnext : next + e.temps ≤ low) (hfits : hi ≤ lo + UInt64.size) :
    operandValue τ (e.operand next) = operandValue σ (e.operand next) := by
  -- A temporary of the expression itself has an index below `low`.
  have htemp : ∀ k, lo ≤ k → k < low →
      operandValue τ (Temporaries.name k) = operandValue σ (Temporaries.name k) := by
    intro k hlok hk
    rw [operandValue_of_not_literal (Temporaries.isLiteral_name k),
      operandValue_of_not_literal (Temporaries.isLiteral_name k)]
    apply h
    intro hbetween
    obtain ⟨j, hj, hjhigh, hname⟩ := hbetween
    have heq := Temporaries.name_inj (by omega) (by omega) hname
    omega
  have hname : ∀ x, Plain lo hi x → operandValue τ x = operandValue σ x := by
    intro x hx
    rw [operandValue_of_not_literal hx.name, operandValue_of_not_literal hx.name]
    exact h x fun hbetween => hx.foreign (hbetween.mono (by omega) hhi)
  cases e with
  | name text => exact hname text (hlegible (.ident text) List.mem_cons_self)
  | number digits =>
      show operandValue τ (Lexeme.literalText digits) = operandValue σ (Lexeme.literalText digits)
      rw [operandValue_literal, operandValue_literal]
  | missing => exact hname Generate.missing (hlegible (.ident _) List.mem_cons_self)
  | neg operand =>
      simp only [Expr.temps] at hnext
      exact htemp _ (by omega) (by omega)
  | binary op lhs rhs =>
      simp only [Expr.temps] at hnext
      exact htemp _ (by omega) (by omega)

end AgreesOff

/-! ### Code without loops -/

section
variable {M : Arithmetic} {store : Store} {lo hi : Nat}

/-- From `σ` to `τ` only the temporaries of an expression changed, and its operand
has got its value. -/
structure Expr.Filled (M : Arithmetic) (next : Nat) (e : Expr) (σ τ : Valuation) : Prop where
  agrees : AgreesOff next (next + e.temps) σ τ
  value : operandValue τ (e.operand next) = e.eval M σ

/-- The left side of an operation and then the right side: the left one keeps its
value, and it did not change that of the right one. -/
theorem Expr.Filled.both {lhs rhs : Expr} {next : Nat} {σ τ₁ τ₂ : Valuation}
    (hl : lhs.Filled M next σ τ₁) (hr : rhs.Filled M (next + lhs.temps) τ₁ τ₂)
    (hlo : lo ≤ next) (hhi : next + (lhs.temps + rhs.temps) ≤ hi) (hfits : hi ≤ lo + UInt64.size)
    (hlegiblel : ∀ leaf ∈ lhs.leaves, Legible lo hi leaf)
    (hlegibler : ∀ leaf ∈ rhs.leaves, Legible lo hi leaf) :
    AgreesOff next (next + (lhs.temps + rhs.temps)) σ τ₂ ∧
      operandValue τ₂ (lhs.operand next) = lhs.eval M σ ∧
      operandValue τ₂ (rhs.operand (next + lhs.temps)) = rhs.eval M σ := by
  have hagrees : AgreesOff lo hi σ τ₁ := hl.agrees.mono hlo (by omega)
  refine ⟨?_, ?_, ?_⟩
  · exact (hl.agrees.mono (Nat.le_refl _) (by omega)).trans (hr.agrees.mono (by omega) (by omega))
  · -- The temporaries of the right side come behind those of the left side.
    rw [hr.agrees.operandValue_eq hlegiblel hlo (by omega) (Nat.le_refl _) hfits, hl.value]
  · rw [hr.value, hagrees.eval_eq hlegibler]

/-- The code of an expression runs to its end, one step for each temporary, and
fills them. -/
theorem Expr.runs (e : Expr) {base next : Nat} {σ : Valuation}
    (hcode : store.HasCode base (e.code next)) (hlo : lo ≤ next) (hhi : next + e.temps ≤ hi)
    (hfits : hi ≤ lo + UInt64.size) (hlegible : ∀ leaf ∈ e.leaves, Legible lo hi leaf) :
    ∃ τ, run M store e.temps ⟨base, σ⟩ = some ⟨base + e.temps, τ⟩ ∧ e.Filled M next σ τ := by
  induction e generalizing base next σ with
  | name text =>
      have htext : Plain lo hi text := hlegible (.ident text) List.mem_cons_self
      exact ⟨σ, rfl, AgreesOff.refl _ _ σ, operandValue_of_not_literal htext.name σ⟩
  | number digits =>
      -- This is the only place where the value of a number matters.
      have hdigits : Decimal.value digits.toList ≤ Decimal.literalMax :=
        hlegible (.number digits) List.mem_cons_self
      exact ⟨σ, rfl, AgreesOff.refl _ _ σ, operandValue_literal_of_le hdigits σ⟩
  | missing =>
      have hmissing : Plain lo hi Generate.missing := hlegible (.ident _) List.mem_cons_self
      exact ⟨σ, rfl, AgreesOff.refl _ _ σ, operandValue_of_not_literal hmissing.name σ⟩
  | neg operand ih =>
      simp only [Expr.temps] at hhi ⊢
      obtain ⟨τ, hrun, hfilled⟩ := ih (σ := σ) hcode.left hlo (by omega) hlegible
      have hget := hcode.right.head
      rw [Expr.length_code] at hget
      have heval : (Rvalue.neg (operand.operand next)).eval M τ = M.neg (operand.eval M σ) := by
        show M.neg (operandValue τ (operand.operand next)) = _
        rw [hfilled.value]
      have hwide : AgreesOff next (next + (operand.temps + 1)) σ τ :=
        hfilled.agrees.mono (Nat.le_refl _) (by omega)
      exact ⟨_, run_assign hrun hget heval, hwide.update_temp (by omega) (by omega) _,
        Temporaries.operandValue_update_name _ _ _⟩
  -- The left side runs first. Its operand is a name, a literal or a temporary that
  -- the right side does not touch.
  | binary op lhs rhs ihl ihr =>
      simp only [Expr.temps] at hhi ⊢
      have hlegiblel : ∀ leaf ∈ lhs.leaves, Legible lo hi leaf :=
        fun leaf hleaf => hlegible leaf (List.mem_append_left _ hleaf)
      have hlegibler : ∀ leaf ∈ rhs.leaves, Legible lo hi leaf :=
        fun leaf hleaf => hlegible leaf (List.mem_append_right _ hleaf)
      have hcoder := hcode.left.right
      have hget := hcode.right.head
      rw [Expr.length_code] at hcoder
      rw [List.length_append, Expr.length_code, Expr.length_code, ← Nat.add_assoc] at hget
      obtain ⟨τ₁, hrun₁, hfilled₁⟩ := ihl (σ := σ) hcode.left.left hlo (by omega) hlegiblel
      obtain ⟨τ₂, hrun₂, hfilled₂⟩ := ihr (σ := τ₁) hcoder (by omega) (by omega) hlegibler
      obtain ⟨hagrees, hleft, hright⟩ :=
        hfilled₁.both hfilled₂ hlo (by omega) hfits hlegiblel hlegibler
      have heval : (Rvalue.binary op (lhs.operand next) (rhs.operand (next + lhs.temps))).eval M τ₂
          = M.binary op (lhs.eval M σ) (rhs.eval M σ) := by
        show M.binary op (operandValue τ₂ (lhs.operand next))
          (operandValue τ₂ (rhs.operand (next + lhs.temps))) = _
        rw [hleft, hright]
      have hwide : AgreesOff next (next + (lhs.temps + rhs.temps + 1)) σ τ₂ :=
        hagrees.mono (Nat.le_refl _) (by omega)
      have hrun := run_assign (run_add hrun₁ hrun₂) hget heval
      rw [show base + lhs.temps + rhs.temps + 1 = base + (lhs.temps + rhs.temps + 1) by omega]
        at hrun
      exact ⟨_, hrun, hwide.update_temp (by omega) (by omega) _,
        Temporaries.operandValue_update_name _ _ _⟩

/-- The code of a condition runs to the address behind it if the condition holds,
and to the exit if it does not. It takes a step at least. -/
theorem Condition.runs (c : Condition) {base next exit : Nat} {σ μ : Valuation}
    (hcode : store.HasCode base (c.code base next exit)) (hlo : lo ≤ next)
    (hhi : next + c.temps ≤ hi) (hfits : hi ≤ lo + UInt64.size)
    (hlegible : ∀ leaf ∈ c.leaves, Legible lo hi leaf)
    (hagrees : AgreesOff lo hi σ μ) :
    ∃ n μ', 0 < n ∧ AgreesOff lo hi σ μ' ∧
      run M store n ⟨base, μ⟩
        = some ⟨if c.holds M σ then base + c.temps + 2 else exit, μ'⟩ := by
  have hlegiblel : ∀ leaf ∈ c.lhs.leaves, Legible lo hi leaf :=
    fun leaf hleaf => hlegible leaf (List.mem_append_left _ hleaf)
  have hlegibler : ∀ leaf ∈ c.rhs.leaves, Legible lo hi leaf :=
    fun leaf hleaf => hlegible leaf (List.mem_append_right _ hleaf)
  have htemps : c.temps = c.lhs.temps + c.rhs.temps := rfl
  have hcoder := hcode.left.right
  have hbranch := hcode.right.head
  have hjump := hcode.right.tail.head
  rw [Expr.length_code] at hcoder
  rw [Condition.length_operandCode] at hbranch hjump
  obtain ⟨μ₁, hrun₁, hfilled₁⟩ :=
    c.lhs.runs (M := M) (σ := μ) hcode.left.left hlo (by omega) hfits hlegiblel
  obtain ⟨μ₂, hrun₂, hfilled₂⟩ :=
    c.rhs.runs (M := M) (σ := μ₁) hcoder (by omega) (by omega) hfits hlegibler
  obtain ⟨hsides, hleft, hright⟩ :=
    hfilled₁.both hfilled₂ hlo (by omega) hfits hlegiblel hlegibler
  have hrun := run_add hrun₁ hrun₂
  rw [Nat.add_assoc, ← htemps] at hrun
  have hdone : AgreesOff lo hi σ μ₂ := hagrees.trans (hsides.mono hlo (by omega))
  -- What the branch compares are the values of the two sides in `μ`, and so in `σ`.
  have hop : c.op.holds (operandValue μ₂ (c.lhs.operand next))
      (operandValue μ₂ (c.rhs.operand (next + c.lhs.temps))) = c.holds M σ := by
    rw [hleft, hright, ← hagrees.holds_eq hlegible]
    rfl
  cases hholds : c.holds M σ with
  | true =>
      have hstep := step_branch_true (M := M) (c := ⟨base + c.temps, μ₂⟩) hbranch (hop.trans hholds)
      exact ⟨_, μ₂, Nat.succ_pos _, hdone, run_add hrun (run_one hstep)⟩
  | false =>
      -- The branch goes on to the jump, and the jump goes to the exit.
      have hstep := step_branch_false (M := M) (c := ⟨base + c.temps, μ₂⟩) hbranch
        (hop.trans hholds)
      have hstep' := step_jump (M := M) (c := ⟨base + c.temps + 1, μ₂⟩) hjump
      exact ⟨_, μ₂, Nat.succ_pos _, hdone, run_add (run_add hrun (run_one hstep)) (run_one hstep')⟩

end

/-! ### Statements -/

/-- The code of a statement stands in the store, its temporaries are among those
of the compilation, which are fewer than there are words, and what is written in it
is legible. -/
structure Stmt.Placed (store : Store) (lo hi base next : Nat) (t : Stmt) : Prop where
  code : store.HasCode base (t.code base next)
  low : lo ≤ next
  high : next + t.temps ≤ hi
  fits : hi ≤ lo + UInt64.size
  legible : ∀ leaf ∈ t.leaves, Legible lo hi leaf

namespace Stmt.Placed

variable {store : Store} {lo hi base next : Nat} {first second body : Stmt} {test : Condition}

/-- The first statement of a sequence. -/
theorem seqFirst (h : Placed store lo hi base next (.seq first second)) :
    Placed store lo hi base next first := by
  have hhigh := h.high
  simp only [Stmt.temps] at hhigh
  exact ⟨h.code.left, h.low, by omega, h.fits,
    fun leaf hleaf => h.legible leaf (List.mem_append_left _ hleaf)⟩

/-- The second statement of a sequence. -/
theorem seqSecond (h : Placed store lo hi base next (.seq first second)) :
    Placed store lo hi (base + first.size) (next + first.temps) second := by
  have hhigh := h.high
  have hlow := h.low
  have hcode := h.code.right
  simp only [Stmt.temps] at hhigh
  rw [Stmt.length_code] at hcode
  exact ⟨hcode, by omega, by omega, h.fits,
    fun leaf hleaf => h.legible leaf (List.mem_append_right _ hleaf)⟩

/-- The body of a choice. -/
theorem choiceBody (h : Placed store lo hi base next (.choice test body)) :
    Placed store lo hi (base + test.temps + 2) (next + test.temps) body := by
  have hhigh := h.high
  have hlow := h.low
  have hcode := h.code.right
  simp only [Stmt.temps] at hhigh
  rw [Condition.length_code, ← Nat.add_assoc] at hcode
  exact ⟨hcode, by omega, by omega, h.fits,
    fun leaf hleaf => h.legible leaf (List.mem_append_right _ hleaf)⟩

/-- The body of a loop. -/
theorem loopBody (h : Placed store lo hi base next (.loop test body)) :
    Placed store lo hi (base + test.temps + 2) (next + test.temps) body := by
  have hhigh := h.high
  have hlow := h.low
  have hcode := h.code.left.right
  simp only [Stmt.temps] at hhigh
  rw [Condition.length_code, ← Nat.add_assoc] at hcode
  exact ⟨hcode, by omega, by omega, h.fits,
    fun leaf hleaf => h.legible leaf (List.mem_append_right _ hleaf)⟩

/-- The jump that closes a loop. -/
theorem closing (h : Placed store lo hi base next (.loop test body)) :
    store.get? (base + test.temps + 2 + body.size) = some (.jump (some base)) := by
  have hget := h.code.right.head
  rw [List.length_append, Condition.length_code, Stmt.length_code] at hget
  rw [← hget]
  congr 1
  omega

variable {M : Arithmetic} {σ μ : Valuation}

/-- The assignment runs to its end. -/
theorem runs_assign {name : String} {value : Expr}
    (h : Placed store lo hi base next (.assign name value)) (hagrees : AgreesOff lo hi σ μ) :
    ∃ μ', run M store (value.temps + 1) ⟨base, μ⟩ = some ⟨base + (value.temps + 1), μ'⟩ ∧
      AgreesOff lo hi (Function.update σ name (value.eval M σ)) μ' := by
  have hlegible : ∀ leaf ∈ value.leaves, Legible lo hi leaf :=
    fun leaf hleaf => h.legible leaf (List.mem_cons_of_mem _ hleaf)
  have hlow := h.low
  have hhigh : next + value.temps ≤ hi := h.high
  have hget := h.code.right.head
  rw [Expr.length_code] at hget
  obtain ⟨τ, hrun, hfilled⟩ :=
    value.runs (M := M) (σ := μ) h.code.left hlow hhigh h.fits hlegible
  have heval : (Rvalue.copy (value.operand next)).eval M τ = value.eval M σ := by
    show operandValue τ (value.operand next) = _
    rw [hfilled.value, hagrees.eval_eq hlegible]
  have hdone : AgreesOff lo hi σ τ := hagrees.trans (hfilled.agrees.mono hlow hhigh)
  exact ⟨_, run_assign hrun hget heval, hdone.update_name name _⟩

/-- The condition of a choice leads to the body or past it. -/
theorem runs_choiceTest (h : Placed store lo hi base next (.choice test body))
    (hagrees : AgreesOff lo hi σ μ) :
    ∃ n μ', AgreesOff lo hi σ μ' ∧ run M store n ⟨base, μ⟩
      = some ⟨if test.holds M σ then base + test.temps + 2
          else base + (test.temps + 2 + body.size), μ'⟩ := by
  have hlegible : ∀ leaf ∈ test.leaves, Legible lo hi leaf :=
    fun leaf hleaf => h.legible leaf (List.mem_append_left _ hleaf)
  have hhigh := h.high
  simp only [Stmt.temps] at hhigh
  obtain ⟨n, μ', -, hagrees', hrun⟩ :=
    test.runs (M := M) h.code.left h.low (by omega) h.fits hlegible hagrees
  rw [show base + test.temps + 2 + body.size = base + (test.temps + 2 + body.size) by omega] at hrun
  exact ⟨n, μ', hagrees', hrun⟩

/-- The condition of a loop leads to the body or past the loop, and takes a step at
least. -/
theorem runs_loopTest (h : Placed store lo hi base next (.loop test body))
    (hagrees : AgreesOff lo hi σ μ) :
    ∃ n μ', 0 < n ∧ AgreesOff lo hi σ μ' ∧ run M store n ⟨base, μ⟩
      = some ⟨if test.holds M σ then base + test.temps + 2
          else base + (test.temps + 2 + body.size + 1), μ'⟩ := by
  have hlegible : ∀ leaf ∈ test.leaves, Legible lo hi leaf :=
    fun leaf hleaf => h.legible leaf (List.mem_append_left _ hleaf)
  have hhigh := h.high
  simp only [Stmt.temps] at hhigh
  obtain ⟨n, μ', hpos, hagrees', hrun⟩ :=
    test.runs (M := M) h.code.left.left h.low (by omega) h.fits hlegible hagrees
  rw [show base + test.temps + 2 + body.size + 1
    = base + (test.temps + 2 + body.size + 1) by omega] at hrun
  exact ⟨n, μ', hpos, hagrees', hrun⟩

end Stmt.Placed

section
variable {M : Arithmetic} {store : Store} {lo hi : Nat}

/-- **What a statement does, its code does.** The induction is on the execution. -/
theorem Stmt.Exec.runs {t : Stmt} {σ σ' : Valuation} (h : t.Exec M σ σ') {base next : Nat}
    {μ : Valuation} (hplaced : t.Placed store lo hi base next) (hagrees : AgreesOff lo hi σ μ) :
    ∃ n μ', run M store n ⟨base, μ⟩ = some ⟨base + t.size, μ'⟩ ∧ AgreesOff lo hi σ' μ' := by
  induction h generalizing base next μ with
  | skip => exact ⟨0, μ, rfl, hagrees⟩
  | assign =>
      obtain ⟨μ', hrun, hagrees'⟩ := hplaced.runs_assign hagrees
      exact ⟨_, μ', hrun, hagrees'⟩
  | @seq first second σ σ₁ σ₂ _ _ ihf ihs =>
      obtain ⟨m, μ₁, hrun₁, hagrees₁⟩ := ihf hplaced.seqFirst hagrees
      obtain ⟨n, μ₂, hrun₂, hagrees₂⟩ := ihs hplaced.seqSecond hagrees₁
      rw [Nat.add_assoc] at hrun₂
      exact ⟨m + n, μ₂, run_add hrun₁ hrun₂, hagrees₂⟩
  | @choiceTrue test body σ σ₁ htest _ ih =>
      obtain ⟨m, μ₁, hagrees₁, hrun₁⟩ := hplaced.runs_choiceTest (M := M) hagrees
      rw [htest, if_pos rfl] at hrun₁
      obtain ⟨n, μ₂, hrun₂, hagrees₂⟩ := ih hplaced.choiceBody hagrees₁
      have hend : base + test.temps + 2 + body.size = base + (test.temps + 2 + body.size) := by
        omega
      rw [hend] at hrun₂
      exact ⟨m + n, μ₂, run_add hrun₁ hrun₂, hagrees₂⟩
  | choiceFalse htest =>
      obtain ⟨m, μ₁, hagrees₁, hrun₁⟩ := hplaced.runs_choiceTest (M := M) hagrees
      rw [htest, if_neg (by simp)] at hrun₁
      exact ⟨m, μ₁, hrun₁, hagrees₁⟩
  | loopTrue htest _ _ ihb ihr =>
      -- Condition, body and closing jump, and then the loop again.
      obtain ⟨m, μ₁, -, hagrees₁, hrun₁⟩ := hplaced.runs_loopTest (M := M) hagrees
      rw [htest, if_pos rfl] at hrun₁
      obtain ⟨n, μ₂, hrun₂, hagrees₂⟩ := ihb hplaced.loopBody hagrees₁
      have hback := run_one (step_jump (M := M) (c := ⟨_, μ₂⟩) hplaced.closing)
      obtain ⟨k, μ₃, hrun₃, hagrees₃⟩ := ihr hplaced hagrees₂
      exact ⟨_, μ₃, run_add (run_add (run_add hrun₁ hrun₂) hback) hrun₃, hagrees₃⟩
  | loopFalse htest =>
      obtain ⟨m, μ₁, -, hagrees₁, hrun₁⟩ := hplaced.runs_loopTest (M := M) hagrees
      rw [htest, if_neg (by simp)] at hrun₁
      exact ⟨m, μ₁, hrun₁, hagrees₁⟩

/-- **A halting run of the code comes from an execution of the statement.** The run
goes on behind the code of the statement, with no more steps than it had. -/
theorem Stmt.exec_of_run (t : Stmt) {n base next : Nat} {σ μ : Valuation} {halt : Config}
    (hplaced : t.Placed store lo hi base next) (hagrees : AgreesOff lo hi σ μ)
    (hrun : run M store n ⟨base, μ⟩ = some halt) (hhalt : step M store halt = none) :
    ∃ m σ' μ', m ≤ n ∧ t.Exec M σ σ' ∧ AgreesOff lo hi σ' μ' ∧
      run M store m ⟨base + t.size, μ'⟩ = some halt := by
  induction t generalizing n base next σ μ with
  | skip => exact ⟨n, σ, μ, Nat.le_refl _, .skip, hagrees, hrun⟩
  | assign name value =>
      obtain ⟨μ', hfirst, hagrees'⟩ := hplaced.runs_assign (M := M) hagrees
      -- The machine is a function, so the run that halts passes the end of the code.
      obtain ⟨hle, hrest⟩ := run_sub_of_halts hfirst hrun hhalt
      exact ⟨_, _, μ', Nat.sub_le _ _, .assign, hagrees', hrest⟩
  | seq first second ihf ihs =>
      obtain ⟨m, σ₁, μ₁, hm, hexec₁, hagrees₁, hrun₁⟩ := ihf hplaced.seqFirst hagrees hrun
      obtain ⟨k, σ₂, μ₂, hk, hexec₂, hagrees₂, hrun₂⟩ := ihs hplaced.seqSecond hagrees₁ hrun₁
      rw [Nat.add_assoc] at hrun₂
      exact ⟨k, σ₂, μ₂, Nat.le_trans hk hm, .seq hexec₁ hexec₂, hagrees₂, hrun₂⟩
  | choice test body ih =>
      obtain ⟨m, μ₁, hagrees₁, htest⟩ := hplaced.runs_choiceTest (M := M) hagrees
      obtain ⟨hle, hrest⟩ := run_sub_of_halts htest hrun hhalt
      cases hholds : test.holds M σ with
      | false =>
          rw [hholds, if_neg (by simp)] at hrest
          exact ⟨_, σ, μ₁, Nat.sub_le _ _, .choiceFalse hholds, hagrees₁, hrest⟩
      | true =>
          rw [hholds, if_pos rfl] at hrest
          obtain ⟨k, σ₂, μ₂, hk, hexec, hagrees₂, hrun₂⟩ := ih hplaced.choiceBody hagrees₁ hrest
          have hend : base + test.temps + 2 + body.size = base + (test.temps + 2 + body.size) := by
            omega
          rw [hend] at hrun₂
          exact ⟨k, σ₂, μ₂, by omega, .choiceTrue hholds hexec, hagrees₂, hrun₂⟩
  | loop test body ih =>
      -- Each round takes a step at least, so the number of steps gets less.
      induction n using Nat.strongRecOn generalizing σ μ with
      | ind n ihn =>
          obtain ⟨m, μ₁, hpos, hagrees₁, htest⟩ := hplaced.runs_loopTest (M := M) hagrees
          obtain ⟨hle, hrest⟩ := run_sub_of_halts htest hrun hhalt
          cases hholds : test.holds M σ with
          | false =>
              rw [hholds, if_neg (by simp)] at hrest
              exact ⟨_, σ, μ₁, Nat.sub_le _ _, .loopFalse hholds, hagrees₁, hrest⟩
          | true =>
              rw [hholds, if_pos rfl] at hrest
              obtain ⟨k, σ₂, μ₂, hk, hexec, hagrees₂, hrun₂⟩ := ih hplaced.loopBody hagrees₁ hrest
              -- The body ends at the closing jump, which leads to the start of the loop.
              have hback := run_one (step_jump (M := M) (c := ⟨_, μ₂⟩) hplaced.closing)
              obtain ⟨hle', hrest'⟩ := run_sub_of_halts hback hrun₂ hhalt
              obtain ⟨j, σ₃, μ₃, hj, hexec', hagrees₃, hrun₃⟩ :=
                ihn (k - 1) (by omega) hagrees₂ hrest'
              exact ⟨j, σ₃, μ₃, by omega, .loopTrue hholds hexec hexec', hagrees₃, hrun₃⟩

end

/-! ### Temporaries of a compilation -/

/-- Whether an instruction is an operation on values. Each operation fills a
temporary of its own. -/
def Instruction.isOperation : Instruction → Bool
  | assign _ (.neg _) => true
  | assign _ (.binary _ _ _) => true
  | assign _ (.copy _) => false
  | branch _ _ _ _ => false
  | jump _ => false

/-- The number of temporaries that the code of a store uses. -/
def Store.temporaries (store : Store) : Nat :=
  store.code.toList.countP Instruction.isOperation

/-- The operations are the instructions that fill a temporary. -/
theorem Instruction.isOperation_eq (instruction : Instruction) :
    instruction.isOperation = instruction.minted?.isSome := by
  cases instruction with
  | assign dest value => cases value <;> rfl
  | branch lhs op rhs target => rfl
  | jump target => rfl

/-- The operations of a program are those of its statement: a constant is a copy. -/
theorem Program.countP_code (base next : Nat) (p : Program) :
    (p.code base next).countP Instruction.isOperation = p.body.tree.temps := by
  rw [funext Instruction.isOperation_eq, ← List.length_filterMap_eq_countP, minted_code,
    Temporaries.length_names]

/-! ### Programs -/

/-- The constants are bound one after the other. -/
theorem runs_constants {M : Arithmetic} {store : Store} (ds : List Definition) {base : Nat}
    {σ : Valuation} (hcode : store.HasCode base (ds.map Definition.instruction))
    (hfit : ∀ d ∈ ds, Decimal.value d.digits.toList ≤ Decimal.literalMax) :
    run M store ds.length ⟨base, σ⟩ = some ⟨base + ds.length, ds.foldl Definition.bind σ⟩ := by
  induction ds generalizing base σ with
  | nil => rfl
  | cons d ds ih =>
      have heval : (Rvalue.copy (Lexeme.literalText d.digits)).eval M σ
          = Decimal.value d.digits.toList :=
        operandValue_literal_of_le (hfit d List.mem_cons_self) σ
      have hfirst : run M store 1 ⟨base, σ⟩ = some ⟨base + 1, Definition.bind σ d⟩ :=
        run_assign (n := 0) rfl hcode.head heval
      have hboth := run_add hfirst
        (ih hcode.tail fun later hlater => hfit later (List.mem_cons_of_mem _ hlater))
      rw [List.length_cons, List.foldl_cons, Nat.add_comm ds.length 1, ← Nat.add_assoc]
      exact hboth

/-- A name that no constant has keeps its value. -/
theorem foldl_bind_of_not_mem {ds : List Definition} {x : String}
    (hx : x ∉ ds.map Definition.name) (σ : Valuation) : ds.foldl Definition.bind σ x = σ x := by
  induction ds generalizing σ with
  | nil => rfl
  | cons d ds ih =>
      rw [List.map_cons, List.mem_cons, not_or] at hx
      rw [List.foldl_cons, ih hx.2]
      exact Function.update_of_ne hx.1 _ _

/-- A program changes no name that does not occur in it. -/
theorem Program.Runs.frame {M : Arithmetic} {p : Program} {σ σ' : Valuation}
    (h : p.Runs M σ σ') {x : String} (hx : .ident x ∉ p.lexemes) : σ' x = σ x := by
  have hbody : x ∉ p.body.tree.names :=
    fun hmem => hx (p.leaf_mem_lexemes (Stmt.ident_mem_leaves hmem))
  have hconstants : x ∉ p.constants.map Definition.name := by
    intro hmem
    obtain ⟨d, hd, rfl⟩ := List.mem_map.mp hmem
    exact hx (p.constant_mem_lexemes hd List.mem_cons_self)
  rw [Stmt.Exec.frame h hbody, foldl_bind_of_not_mem hconstants]

/-- **The plain translation of a program does what the program does.** -/
theorem Program.runs_iff_reaches {M : Arithmetic} {options : Options} {p : Program} {lo hi : Nat}
    {store : Store}
    (hstore : store = (Generate.emptyStore options).append (p.code options.firstAddress.toNat lo))
    (hhi : hi = lo + p.body.tree.temps) (hfits : p.body.tree.temps ≤ UInt64.size)
    (hlegible : ∀ lexeme ∈ p.lexemes, Legible lo hi lexeme) (σ σ' : Valuation) :
    p.Runs M σ σ' ↔
      ∃ μ, Reaches M store ⟨options.firstAddress.toNat, σ⟩ ⟨store.nextAddress, μ⟩ ∧
        AgreesOff lo hi σ' μ ∧ ∀ x, Temporaries.Between lo hi x → σ' x = σ x := by
  have hcode : store.HasCode options.firstAddress.toNat (p.code options.firstAddress.toNat lo) := by
    have hfirst := store.hasCode_first
    rw [hstore] at hfirst ⊢
    simpa [Store.append, Generate.emptyStore] using hfirst
  have hnext : store.nextAddress
      = options.firstAddress.toNat + p.constants.length + p.body.tree.size := by
    rw [hstore]
    simp [Program.code, Generate.emptyStore, Store.nextAddress, Store.append, Nat.add_assoc]
  have hplaced : p.body.tree.Placed store lo hi
      (options.firstAddress.toNat + p.constants.length) lo := by
    have hright := hcode.right
    rw [List.length_map] at hright
    exact ⟨hright, Nat.le_refl _, Nat.le_of_eq hhi.symm, by omega,
      fun leaf hleaf => hlegible leaf (p.leaf_mem_lexemes hleaf)⟩
  have hconstants : ∀ d ∈ p.constants, Decimal.value d.digits.toList ≤ Decimal.literalMax :=
    fun d hd => hlegible (.number d.digits)
      (p.constant_mem_lexemes hd (by simp [Definition.lexemes]))
  have hbound := runs_constants (M := M) p.constants (σ := σ) hcode.left hconstants
  -- The program leaves its temporaries alone, for their names do not occur in it.
  have hkept : ∀ {σ' : Valuation}, p.Runs M σ σ' →
      ∀ x, Temporaries.Between lo hi x → σ' x = σ x := by
    intro σ' hruns x hx
    refine hruns.frame fun hmem => ?_
    have hplain : Plain lo hi x := hlegible (.ident x) hmem
    exact hplain.foreign hx
  constructor
  · intro hruns
    obtain ⟨n, μ, hrun, hagrees⟩ := Stmt.Exec.runs hruns hplaced (AgreesOff.refl lo hi _)
    rw [← hnext] at hrun
    exact ⟨μ, ⟨_, run_add hbound hrun⟩, hagrees, hkept hruns⟩
  · intro hreaches
    obtain ⟨μ, ⟨n, hrun⟩, hagrees, hsame⟩ := hreaches
    obtain ⟨-, hrest⟩ := run_sub_of_halts hbound hrun (step_nextAddress μ)
    obtain ⟨m, τ, ν, -, hexec, hagrees', hrun'⟩ :=
      p.body.tree.exec_of_run hplaced (AgreesOff.refl lo hi _) hrest (step_nextAddress μ)
    rw [← hnext] at hrun'
    -- Behind the code the machine has halted, so nothing is left to run.
    have hend := eq_of_run_of_halts (step_nextAddress ν) hrun'
    have hvaluation : μ = ν := congrArg Config.valuation hend
    -- On the temporaries both valuations are as at the start, and off them both agree
    -- with that of the machine.
    have hfinal : τ = σ' := by
      funext x
      by_cases hx : Temporaries.Between lo hi x
      · rw [hkept hexec x hx, hsame x hx]
      · rw [← hagrees' x hx, ← hagrees x hx, hvaluation]
    rw [← hfinal]
    exact hexec

/-- Where fewer than 19 digits are let through, every number of a program that compiles
without a report fits a literal. -/
theorem value_le_of_compile {options : Options} {source : String} {p : Program}
    {compilation : Compilation} (hok : compile options source = .ok compilation)
    (hclean : compilation.diagnostics = #[]) (hlex : p.lexemes = (scan source).lexemes)
    (hroom : p.nesting ≤ options.maxDepth.toNat) (hlimit : options.maxDigits.toNat < 19)
    {digits : String} (hmem : .number digits ∈ (scan source).lexemes) :
    Decimal.value digits.toList ≤ Decimal.literalMax := by
  apply Decimal.value_le_of_length (isDigit_of_number_mem_scan hmem)
  rw [← hlex] at hmem
  have hshort := allShort_of_compile hok hclean hlex hroom digits hmem
  rw [String.length_toList]
  omega

/-- **Compilation preserves meaning.** Let a source compile without diagnostics, let
none of its names be that of a temporary of the compilation, and let its numbers fit
a literal, as they do under a limit of less than 19 digits. Then the source is a
program, and the program leads from one valuation to another exactly when the code,
started at its first address, reaches the address behind it with a valuation that
agrees with the latter off the temporaries, which the program leaves alone. -/
theorem compile_preserves_meaning (M : Arithmetic) (options : Options) (source : String)
    (compilation : Compilation) (hok : compile options source = .ok compilation)
    (hdiagnostics : compilation.diagnostics = #[])
    (hnames : ∀ x, .ident x ∈ (scan source).lexemes →
      ¬ Temporaries.Between options.firstTemp.toNat
        (options.firstTemp.toNat + compilation.code.temporaries) x)
    (hnumbers : options.maxDigits.toNat < 19 ∨
      ∀ digits, .number digits ∈ (scan source).lexemes →
        Decimal.value digits.toList ≤ Decimal.literalMax) :
    (∃ p : Program, p.lexemes = (scan source).lexemes) ∧
    ∀ p : Program, p.lexemes = (scan source).lexemes → ∀ σ σ' : Valuation,
      p.Runs M σ σ' ↔
        ∃ μ, Reaches M compilation.code ⟨options.firstAddress.toNat, σ⟩
            ⟨compilation.code.nextAddress, μ⟩ ∧
          AgreesOff options.firstTemp.toNat
            (options.firstTemp.toNat + compilation.code.temporaries) σ' μ ∧
          ∀ x, Temporaries.Between options.firstTemp.toNat
            (options.firstTemp.toNat + compilation.code.temporaries) x → σ' x = σ x := by
  constructor
  · have hform : ∀ diagnostic ∈ compilation.diagnostics,
        diagnostic.problem.isSyntactic = false := by
      rw [hdiagnostics]
      exact fun diagnostic hmem => absurd hmem (Array.not_mem_empty _)
    obtain ⟨p, hlex, -⟩ := mem_language_of_compile hok hform
    exact ⟨p, hlex⟩
  · intro p hlex σ σ'
    -- A program beyond the limit would have been reported.
    have hroom : p.nesting ≤ options.maxDepth.toNat := by
      by_contra hdeep
      obtain ⟨diagnostic, hmem, -⟩ := nestingTooDeep_of_compile hok hlex (Nat.lt_of_not_le hdeep)
      rw [hdiagnostics] at hmem
      exact absurd hmem (Array.not_mem_empty _)
    obtain ⟨-, hcode⟩ := code_of_compile hok hlex hroom
    -- Each operation has a temporary of its own, so they can be counted in the code.
    have htemps : compilation.code.temporaries = p.body.tree.temps := by
      rw [hcode, Store.temporaries]
      simp only [Store.append, Generate.emptyStore, Array.empty_append, List.toList_toArray]
      exact p.countP_code _ _
    have hfits : p.body.tree.temps ≤ UInt64.size := by
      rw [← htemps]
      exact Nat.le_of_lt (Nat.lt_of_le_of_lt List.countP_le_length (size_lt_of_compile hok))
    refine Program.runs_iff_reaches hcode (by rw [htemps]) hfits ?_ σ σ'
    intro lexeme hmem
    rw [hlex] at hmem
    cases lexeme with
    | ident x => exact ⟨isLiteral_of_ident_mem_scan hmem, hnames x hmem⟩
    | number digits =>
        rcases hnumbers with hlimit | hfit
        · exact value_le_of_compile hok hdiagnostics hlex hroom hlimit hmem
        · exact hfit digits hmem
    | _ => trivial

/-- The loop that counts `x` up to the constant `c`. From zero it ends with 2 in
`x`, and so does its code. -/
theorem compile_preserves_meaning_loop :
    ∃ compilation,
      compile {} "PROGRAM p CONST c := 2; VAR x; WHILE x < c DO x := x + 1" = .ok compilation ∧
      compilation.diagnostics = #[] ∧
      ∃ μ, Reaches .integers compilation.code ⟨0, fun _ => 0⟩
          ⟨compilation.code.nextAddress, μ⟩ ∧ μ "x" = 2 := by
  obtain ⟨compilation, hok⟩ : ∃ compilation,
      compile {} "PROGRAM p CONST c := 2; VAR x; WHILE x < c DO x := x + 1" = .ok compilation :=
    exists_compilation (by decide +kernel)
  have hchecked : (match compile {} "PROGRAM p CONST c := 2; VAR x; WHILE x < c DO x := x + 1" with
      | .ok c => c.diagnostics == #[] && c.code.temporaries == 1
      | .error _ => false) = true := by
    decide +kernel
  rw [hok] at hchecked
  simp only [Bool.and_eq_true, beq_iff_eq] at hchecked
  obtain ⟨hdiagnostics, htemporaries⟩ := hchecked
  -- The only temporary is `t0`, which the source does not mention.
  have hnames : ∀ x, .ident x ∈
      (scan "PROGRAM p CONST c := 2; VAR x; WHILE x < c DO x := x + 1").lexemes →
      ¬ Temporaries.Between 0 (0 + compilation.code.temporaries) x := by
    intro x hx hbetween
    rw [htemporaries] at hbetween
    obtain ⟨k, -, hk, rfl⟩ := hbetween
    obtain rfl : k = 0 := by omega
    exact absurd hx (by decide +kernel)
  have hmeaning := compile_preserves_meaning .integers {} _ compilation hok hdiagnostics hnames
    (.inl (by decide))
  have hruns : (⟨"p", [.consts ⟨"c", "2"⟩ [], .vars "x" []],
      .loop ⟨.expression (.term none (.factor (.name "x"))), .lt,
          .expression (.term none (.factor (.name "c")))⟩
        (.assign "x" (.expression (.sum (.term none (.factor (.name "x"))) .add
          (.factor (.number "1")))))⟩ : Program).Runs .integers (fun _ => 0) _ :=
    .loopTrue rfl .assign (.loopTrue rfl .assign (.loopFalse rfl))
  obtain ⟨μ, hreaches, hagrees, -⟩ := (hmeaning.2 _ (by decide +kernel) _ _).mp hruns
  refine ⟨compilation, hok, hdiagnostics, μ, hreaches, ?_⟩
  rw [hagrees "x" (hnames "x" (by decide +kernel))]
  decide +kernel

/-- **A number that does not fit a literal changes the meaning.** Under a limit of 19
digits nothing is reported, and the code assigns 2⁶³ - 1 where the program assigns 2⁶³. -/
theorem compile_changes_meaning_of_long_number :
    ¬ ∀ (M : Arithmetic) (options : Options) (source : String) (compilation : Compilation),
      compile options source = .ok compilation → compilation.diagnostics = #[] →
      (∀ x, .ident x ∈ (scan source).lexemes →
        ¬ Temporaries.Between options.firstTemp.toNat
          (options.firstTemp.toNat + compilation.code.temporaries) x) →
      (∃ p : Program, p.lexemes = (scan source).lexemes) ∧
      ∀ p : Program, p.lexemes = (scan source).lexemes → ∀ σ σ' : Valuation,
        p.Runs M σ σ' ↔
          ∃ μ, Reaches M compilation.code ⟨options.firstAddress.toNat, σ⟩
              ⟨compilation.code.nextAddress, μ⟩ ∧
            AgreesOff options.firstTemp.toNat
              (options.firstTemp.toNat + compilation.code.temporaries) σ' μ ∧
            ∀ x, Temporaries.Between options.firstTemp.toNat
              (options.firstTemp.toNat + compilation.code.temporaries) x → σ' x = σ x := by
  intro hclaim
  have hcompile : compile { maxDigits := 19 } "PROGRAM p VAR x; x := 9223372036854775808" = .ok
      { program := some "p"
        symbols := ⟨#[⟨"x", .var, 1⟩]⟩
        code := ⟨0, #[.assign "x" (.copy "9223372036854775807")]⟩
        diagnostics := #[] } := by
    decide +kernel
  -- Nothing is an operation, so no name is that of a temporary.
  have hnone : ∀ x, ¬ Temporaries.Between 0 0 x := by
    rintro x ⟨k, -, hk, -⟩
    exact Nat.not_lt_zero k hk
  have hruns : (⟨"p", [.vars "x" []],
      .assign "x" (.expression (.term none (.factor (.number "9223372036854775808"))))⟩
        : Program).Runs .integers (fun _ => 0) _ := .assign
  have hmeaning := hclaim .integers _ _ _ hcompile rfl fun x _ => hnone x
  obtain ⟨μ, ⟨n, hrun⟩, hagrees, -⟩ := (hmeaning.2 _ (by decide +kernel) _ _).mp hruns
  have hmeant : μ "x" = (9223372036854775808 : Int) := by
    rw [hagrees "x" (hnone "x"), Function.update_self]
    decide +kernel
  -- The code takes one step, and then it has halted.
  have hstep : run .integers ⟨0, #[.assign "x" (.copy "9223372036854775807")]⟩ 1 ⟨0, fun _ => 0⟩
      = some ⟨1, Function.update (fun _ => 0) "x" 9223372036854775807⟩ :=
    run_assign (n := 0) rfl rfl (by decide +kernel)
  obtain ⟨-, hrest⟩ := run_sub_of_halts hstep hrun (step_nextAddress μ)
  have hend : μ = Function.update (fun _ => 0) "x" 9223372036854775807 :=
    congrArg Config.valuation (eq_of_run_of_halts (step_nextAddress _) hrest)
  rw [hend, Function.update_self] at hmeant
  exact absurd hmeant (by decide)

end ThreeAddress
