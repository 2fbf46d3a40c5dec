import Mathlib.Logic.Function.Basic
import ThreeAddress.Proofs.Grammar

/-!
# What a program means

A valuation gives every name an integer. An expression has a value under a
valuation, and a statement leads from one valuation to another: `Stmt.Exec` is
the big-step semantics of assignment, sequence, choice and loop. A program first
binds its constants in order and then runs its statement.

The four operators and the unary minus are parameters, collected in
`Arithmetic`, so that nothing here rests on what division by zero or an overflow
should mean. The relations are those of the integers. A number stands for the
value of its digits, however many there are: that a literal of the code is held
in a word is no part of what a program means.

`Stmt.Exec.frame` says that a statement leaves alone every name that does not
occur in it, and `Expr.eval_congr` that only the names of an expression matter
for its value. The names and numbers at the leaves of a tree are written in the
program (`Program.leaf_mem_lexemes`).
-/

set_option autoImplicit false

namespace ThreeAddress

/-- An integer for every name. -/
abbrev Valuation := String → Int

/-- A total interpretation of the operators on integers. -/
structure Arithmetic where
  binary : ArithOp → Int → Int → Int
  neg : Int → Int

/-- The arithmetic of the integers, in which a quotient is rounded down. -/
def Arithmetic.integers : Arithmetic where
  binary
    | .add, a, b => a + b
    | .sub, a, b => a - b
    | .mul, a, b => a * b
    | .div, a, b => a.fdiv b
  neg a := -a

/-- Whether a relation holds between two integers. -/
def RelOp.holds : RelOp → Int → Int → Bool
  | eq, a, b => a = b
  | ne, a, b => a ≠ b
  | lt, a, b => a < b
  | le, a, b => a ≤ b
  | gt, a, b => b < a
  | ge, a, b => b ≤ a

/-! ### Expressions and conditions -/

namespace Expr

/-- The value of an expression. An operand that is missing from the source is
written as a name, and it has the value of this name. -/
def eval (M : Arithmetic) (σ : Valuation) : Expr → Int
  | name text => σ text
  | number digits => Decimal.value digits.toList
  | missing => σ Generate.missing
  | neg operand => M.neg (operand.eval M σ)
  | binary op lhs rhs => M.binary op (lhs.eval M σ) (rhs.eval M σ)

/-- Valuations that agree on the names of an expression give it one value. -/
theorem eval_congr {M : Arithmetic} {σ τ : Valuation} {e : Expr}
    (h : ∀ x ∈ e.names, σ x = τ x) : e.eval M σ = e.eval M τ := by
  induction e with
  | name text => exact h text List.mem_cons_self
  | number digits => rfl
  | missing => exact h Generate.missing List.mem_cons_self
  | neg operand ih =>
      show M.neg (operand.eval M σ) = M.neg (operand.eval M τ)
      rw [ih h]
  | binary op lhs rhs ihl ihr =>
      -- The names of the whole are those of both sides.
      have hl : ∀ x ∈ lhs.names, σ x = τ x := fun x hx => h x (List.mem_append_left _ hx)
      have hr : ∀ x ∈ rhs.names, σ x = τ x := fun x hx => h x (List.mem_append_right _ hx)
      show M.binary op (lhs.eval M σ) (rhs.eval M σ) = M.binary op (lhs.eval M τ) (rhs.eval M τ)
      rw [ihl hl, ihr hr]

end Expr

namespace Condition

/-- Whether a condition holds. -/
def holds (M : Arithmetic) (σ : Valuation) (c : Condition) : Bool :=
  c.op.holds (c.lhs.eval M σ) (c.rhs.eval M σ)

end Condition

/-! ### Statements -/

namespace Stmt

/-- The statement, started in the first valuation, ends in the second. -/
inductive Exec (M : Arithmetic) : Stmt → Valuation → Valuation → Prop where
  | skip {σ : Valuation} : Exec M .skip σ σ
  | assign {name : String} {value : Expr} {σ : Valuation} :
      Exec M (.assign name value) σ (Function.update σ name (value.eval M σ))
  | seq {first second : Stmt} {σ σ₁ σ₂ : Valuation} (hfirst : Exec M first σ σ₁)
      (hsecond : Exec M second σ₁ σ₂) : Exec M (.seq first second) σ σ₂
  | choiceTrue {test : Condition} {body : Stmt} {σ σ₁ : Valuation}
      (htest : test.holds M σ = true) (hbody : Exec M body σ σ₁) :
      Exec M (.choice test body) σ σ₁
  | choiceFalse {test : Condition} {body : Stmt} {σ : Valuation}
      (htest : test.holds M σ = false) : Exec M (.choice test body) σ σ
  | loopTrue {test : Condition} {body : Stmt} {σ σ₁ σ₂ : Valuation}
      (htest : test.holds M σ = true) (hbody : Exec M body σ σ₁)
      (hrest : Exec M (.loop test body) σ₁ σ₂) : Exec M (.loop test body) σ σ₂
  | loopFalse {test : Condition} {body : Stmt} {σ : Valuation}
      (htest : test.holds M σ = false) : Exec M (.loop test body) σ σ

/-- A name that does not occur in a statement keeps its value. -/
theorem Exec.frame {M : Arithmetic} {t : Stmt} {σ σ' : Valuation} (h : Exec M t σ σ')
    {x : String} (hx : x ∉ t.names) : σ' x = σ x := by
  induction h with
  | skip => rfl
  | assign =>
      rw [names, List.mem_cons, not_or] at hx
      exact Function.update_of_ne hx.1 _ _
  | seq _ _ ihf ihs =>
      rw [names, List.mem_append, not_or] at hx
      rw [ihs hx.2, ihf hx.1]
  | choiceTrue _ _ ih =>
      rw [names, List.mem_append, not_or] at hx
      exact ih hx.2
  | choiceFalse _ => rfl
  | loopTrue _ _ _ ihb ihr =>
      -- The rest is the loop again, so the name is outside of the whole and of the body.
      have hbody := hx
      rw [names, List.mem_append, not_or] at hbody
      rw [ihr hx, ihb hbody.2]
  | loopFalse _ => rfl

end Stmt

/-! ### Programs -/

/-- The valuation after a constant got its value. -/
def Definition.bind (σ : Valuation) (d : Definition) : Valuation :=
  Function.update σ d.name (Decimal.value d.digits.toList)

/-- The program, started in the first valuation, ends in the second. -/
def Program.Runs (M : Arithmetic) (p : Program) (σ σ' : Valuation) : Prop :=
  p.body.tree.Exec M (p.constants.foldl Definition.bind σ) σ'

/-! ### The leaves of a tree -/

namespace Expr

/-- The names and numbers of an expression as they are written. -/
def leaves : Expr → List Lexeme
  | name text => [.ident text]
  | number digits => [.number digits]
  | missing => [.ident Generate.missing]
  | neg operand => operand.leaves
  | binary _ lhs rhs => lhs.leaves ++ rhs.leaves

/-- The names are among the leaves. -/
theorem ident_mem_leaves {e : Expr} {x : String} (hx : x ∈ e.names) : .ident x ∈ e.leaves := by
  induction e with
  | name text =>
      rw [List.mem_singleton.mp hx]
      exact List.mem_cons_self
  | number digits => exact absurd hx List.not_mem_nil
  | missing =>
      rw [List.mem_singleton.mp hx]
      exact List.mem_cons_self
  | neg operand ih => exact ih hx
  | binary op lhs rhs ihl ihr =>
      rcases List.mem_append.mp hx with hx | hx
      · exact List.mem_append_left _ (ihl hx)
      · exact List.mem_append_right _ (ihr hx)

end Expr

namespace Condition

/-- The leaves of both sides. -/
def leaves (c : Condition) : List Lexeme := c.lhs.leaves ++ c.rhs.leaves

/-- The names are among the leaves. -/
theorem ident_mem_leaves {c : Condition} {x : String} (hx : x ∈ c.names) :
    .ident x ∈ c.leaves := by
  rcases List.mem_append.mp hx with hx | hx
  · exact List.mem_append_left _ (Expr.ident_mem_leaves hx)
  · exact List.mem_append_right _ (Expr.ident_mem_leaves hx)

end Condition

namespace Stmt

/-- The names and numbers of a statement, the names that are assigned to included. -/
def leaves : Stmt → List Lexeme
  | skip => []
  | assign name value => .ident name :: value.leaves
  | seq first second => first.leaves ++ second.leaves
  | choice test body => test.leaves ++ body.leaves
  | loop test body => test.leaves ++ body.leaves

/-- The names are among the leaves. -/
theorem ident_mem_leaves {t : Stmt} {x : String} (hx : x ∈ t.names) : .ident x ∈ t.leaves := by
  induction t with
  | skip => exact absurd hx List.not_mem_nil
  | assign name value =>
      rcases List.mem_cons.mp hx with rfl | hx
      · exact List.mem_cons_self
      · exact List.mem_cons_of_mem _ (Expr.ident_mem_leaves hx)
  | seq first second ihf ihs =>
      rcases List.mem_append.mp hx with hx | hx
      · exact List.mem_append_left _ (ihf hx)
      · exact List.mem_append_right _ (ihs hx)
  | choice test body ih =>
      rcases List.mem_append.mp hx with hx | hx
      · exact List.mem_append_left _ (Condition.ident_mem_leaves hx)
      · exact List.mem_append_right _ (ih hx)
  | loop test body ih =>
      rcases List.mem_append.mp hx with hx | hx
      · exact List.mem_append_left _ (Condition.ident_mem_leaves hx)
      · exact List.mem_append_right _ (ih hx)

end Stmt

/-! ### Leaves and lexemes -/

/-- The leaves in the tree of a phrase are written in it. -/
theorem Phrase.leaf_mem_lexemes {level : Level} (p : Phrase level) {leaf : Lexeme}
    (h : leaf ∈ p.tree.leaves) : leaf ∈ p.lexemes := by
  induction p with
  | name text => exact h
  | number digits => exact h
  | parens inner ih =>
      show leaf ∈ .punct .lparen :: inner.lexemes ++ [.punct .rparen]
      exact List.mem_append_left _ (List.mem_cons_of_mem _ (ih h))
  | factor first ih => exact ih h
  | product front op last ihf ihl =>
      show leaf ∈ front.lexemes ++ .arith op.arith :: last.lexemes
      rcases List.mem_append.mp h with h | h
      · exact List.mem_append_left _ (ihf h)
      · exact List.mem_append_right _ (List.mem_cons_of_mem _ (ihl h))
  | term sign first ih =>
      -- A sign adds an operator at most, and no leaf.
      have hfirst : leaf ∈ first.tree.leaves := by
        cases sign with
        | none => exact h
        | some sign => cases sign <;> exact h
      exact List.mem_append_right _ (ih hfirst)
  | sum front op last ihf ihl =>
      show leaf ∈ front.lexemes ++ .arith op.arith :: last.lexemes
      rcases List.mem_append.mp h with h | h
      · exact List.mem_append_left _ (ihf h)
      · exact List.mem_append_right _ (List.mem_cons_of_mem _ (ihl h))
  | expression whole ih => exact ih h

/-- The leaves in a condition are written in it. -/
theorem Comparison.leaf_mem_lexemes (c : Comparison) {leaf : Lexeme}
    (h : leaf ∈ c.tree.leaves) : leaf ∈ c.lexemes := by
  show leaf ∈ c.lhs.lexemes ++ .relation c.op :: c.rhs.lexemes
  rcases List.mem_append.mp h with h | h
  · exact List.mem_append_left _ (c.lhs.leaf_mem_lexemes h)
  · exact List.mem_append_right _ (List.mem_cons_of_mem _ (c.rhs.leaf_mem_lexemes h))

/-- The leaves in the tree of a statement are written in it. -/
theorem Clause.leaf_mem_lexemes {extent : Extent} (c : Clause extent) {leaf : Lexeme}
    (h : leaf ∈ c.tree.leaves) : leaf ∈ c.lexemes := by
  induction c with
  | empty => exact absurd h List.not_mem_nil
  | assign name value =>
      show leaf ∈ .ident name :: .punct .becomes :: value.lexemes
      rcases List.mem_cons.mp h with rfl | h
      · exact List.mem_cons_self
      · exact List.mem_cons_of_mem _ (List.mem_cons_of_mem _ (value.leaf_mem_lexemes h))
  | choice test body ih =>
      show leaf ∈ .keyword .ifKw :: test.lexemes ++ .keyword .thenKw :: body.lexemes
      rcases List.mem_append.mp h with h | h
      · exact List.mem_append_left _ (List.mem_cons_of_mem _ (test.leaf_mem_lexemes h))
      · exact List.mem_append_right _ (List.mem_cons_of_mem _ (ih h))
  | loop test body ih =>
      show leaf ∈ .keyword .whileKw :: test.lexemes ++ .keyword .doKw :: body.lexemes
      rcases List.mem_append.mp h with h | h
      · exact List.mem_append_left _ (List.mem_cons_of_mem _ (test.leaf_mem_lexemes h))
      · exact List.mem_append_right _ (List.mem_cons_of_mem _ (ih h))
  | compound body ih =>
      show leaf ∈ .keyword .beginKw :: body.lexemes ++ [.keyword .endKw]
      exact List.mem_append_left _ (List.mem_cons_of_mem _ (ih h))
  | one first ih => exact ih h
  | next front last ihf ihl =>
      show leaf ∈ front.lexemes ++ .punct .semicolon :: last.lexemes
      rcases List.mem_append.mp h with h | h
      · exact List.mem_append_left _ (ihf h)
      · exact List.mem_append_right _ (List.mem_cons_of_mem _ (ihl h))

/-- What a constant is written with is written in its section. -/
theorem Section.constant_mem_lexemes {part : Section} {d : Definition} (hd : d ∈ part.constants)
    {lexeme : Lexeme} (h : lexeme ∈ d.lexemes) : lexeme ∈ part.lexemes := by
  cases part with
  | vars first rest => exact absurd hd List.not_mem_nil
  | consts first rest =>
      show lexeme ∈ .keyword .constKw :: first.lexemes ++
        restLexemes Definition.lexemes rest ++ [.punct .semicolon]
      rcases List.mem_cons.mp hd with rfl | hd
      · exact List.mem_append_left _ (List.mem_append_left _ (List.mem_cons_of_mem _ h))
      · -- A definition after the first stands behind its comma.
        have hitem : lexeme ∈ restLexemes Definition.lexemes rest :=
          List.mem_flatMap.mpr ⟨d, hd, List.mem_cons_of_mem _ h⟩
        exact List.mem_append_left _ (List.mem_append_right _ hitem)

/-- What a constant is written with is written in the program. -/
theorem Program.constant_mem_lexemes (p : Program) {d : Definition} (hd : d ∈ p.constants)
    {lexeme : Lexeme} (h : lexeme ∈ d.lexemes) : lexeme ∈ p.lexemes := by
  obtain ⟨part, hpart, hd⟩ := List.mem_flatMap.mp hd
  -- The constants of a program are those of its sections, in front of the statement.
  have hsection : lexeme ∈ p.sections.flatMap Section.lexemes :=
    List.mem_flatMap.mpr ⟨part, hpart, Section.constant_mem_lexemes hd h⟩
  exact List.mem_append_left _ (List.mem_cons_of_mem _ (List.mem_cons_of_mem _ hsection))

/-- The leaves in the statement of a program are written in the program. -/
theorem Program.leaf_mem_lexemes (p : Program) {leaf : Lexeme} (h : leaf ∈ p.body.tree.leaves) :
    leaf ∈ p.lexemes :=
  List.mem_append_right _ (p.body.leaf_mem_lexemes h)

end ThreeAddress
