import ThreeAddress.Proofs.Run
import ThreeAddress.Proofs.Tree

/-!
# The grammar

```
program    := PROGRAM name { section } statement
section    := CONST definition { , definition } ; | VAR name { , name } ;
definition := name := number
statement  := assignment | choice | loop | compound | (nothing)
assignment := name := expression
choice     := IF condition THEN statement
loop       := WHILE condition DO statement
compound   := BEGIN statement { ; statement } END
condition  := expression relation expression
expression := [ + | - ] term { ( + | - ) term }
term       := factor { ( * | / ) factor }
factor     := name | number | ( expression )
```

A value of `Phrase`, `Clause` or `Program` is a derivation of this grammar, with
one constructor for each production. A repetition is written with the front
part first, so that operators of one level group to the left. `lexemes` is what
a derivation derives, `nesting` the number of statements and expressions inside
each other, and `tree` what is computed. `Program.code` is the plain translation
of a program.
-/

set_option autoImplicit false

namespace ThreeAddress

/-- The operators of a sum. -/
inductive SumOp where
  | add
  | sub
deriving DecidableEq, Repr, Inhabited

/-- An operator of a sum as an arithmetic operator. -/
def SumOp.arith : SumOp → ArithOp
  | add => .add
  | sub => .sub

/-- The operators of a product. -/
inductive ProductOp where
  | mul
  | div
deriving DecidableEq, Repr, Inhabited

/-- An operator of a product as an arithmetic operator. -/
def ProductOp.arith : ProductOp → ArithOp
  | mul => .mul
  | div => .div

namespace Generate

/-- The operators of a sum are read as such. -/
@[simp] theorem sumOp?_arith (op : SumOp) :
    sumOp? (some (.arith op.arith)) = some op.arith := by
  cases op <;> rfl

/-- The operators of a product are read as such. -/
@[simp] theorem productOp?_arith (op : ProductOp) :
    productOp? (some (.arith op.arith)) = some op.arith := by
  cases op <;> rfl

/-- An operator of a sum ends a product. -/
@[simp] theorem productOp?_sumOp (op : SumOp) : productOp? (some (.arith op.arith)) = none := by
  cases op <;> rfl

end Generate

/-! ### Expressions -/

/-- The levels of an expression, from the tightest to the whole. -/
inductive Level where
  | factor
  | term
  /-- What an expression consists of: terms with signs and operators. -/
  | sum
  | expression
deriving DecidableEq, Repr, Inhabited

/-- The derivations of expressions and their parts. -/
inductive Phrase : Level → Type where
  | name (text : String) : Phrase .factor
  | number (digits : String) : Phrase .factor
  | parens (inner : Phrase .expression) : Phrase .factor
  | factor (first : Phrase .factor) : Phrase .term
  | product (front : Phrase .term) (op : ProductOp) (last : Phrase .factor) : Phrase .term
  | term (sign : Option SumOp) (first : Phrase .term) : Phrase .sum
  | sum (front : Phrase .sum) (op : SumOp) (last : Phrase .term) : Phrase .sum
  | expression (whole : Phrase .sum) : Phrase .expression
deriving DecidableEq, Repr

namespace Phrase

/-- The lexeme of a sign, if there is one. -/
def signLexemes : Option SumOp → List Lexeme
  | some sign => [.arith sign.arith]
  | none => []

/-- The lexemes of a phrase. -/
def lexemes : {level : Level} → Phrase level → List Lexeme
  | _, name text => [.ident text]
  | _, number digits => [.number digits]
  | _, parens inner => .punct .lparen :: inner.lexemes ++ [.punct .rparen]
  | _, factor first => first.lexemes
  | _, product front op last => front.lexemes ++ .arith op.arith :: last.lexemes
  | _, term sign first => signLexemes sign ++ first.lexemes
  | _, sum front op last => front.lexemes ++ .arith op.arith :: last.lexemes
  | _, expression whole => whole.lexemes

/-- The number of expressions inside each other. -/
def nesting : {level : Level} → Phrase level → Nat
  | _, name _ => 0
  | _, number _ => 0
  | _, parens inner => inner.nesting
  | _, factor first => first.nesting
  | _, product front _ last => max front.nesting last.nesting
  | _, term _ first => first.nesting
  | _, sum front _ last => max front.nesting last.nesting
  | _, expression whole => whole.nesting + 1

/-- The tree of a term with a sign. A plus does nothing. -/
def signed : Option SumOp → Expr → Expr
  | some .sub, e => .neg e
  | some .add, e => e
  | none, e => e

/-- The tree of a phrase. A leading minus belongs to the first term. -/
def tree : {level : Level} → Phrase level → Expr
  | _, name text => .name text
  | _, number digits => .number digits
  | _, parens inner => inner.tree
  | _, factor first => first.tree
  | _, product front op last => .binary op.arith front.tree last.tree
  -- The sign binds the first term, not the sum that it starts.
  | _, term sign first => signed sign first.tree
  | _, sum front op last => .binary op.arith front.tree last.tree
  | _, expression whole => whole.tree

/-- Parentheses in front of what follows them. -/
theorem lexemes_parens_append (inner : Phrase .expression) (rest : List Lexeme) :
    (parens inner).lexemes ++ rest
      = .punct .lparen :: (inner.lexemes ++ .punct .rparen :: rest) := by
  simp [lexemes]

/-- A product in front of what follows it. -/
theorem lexemes_product_append (front : Phrase .term) (op : ProductOp) (last : Phrase .factor)
    (rest : List Lexeme) :
    (product front op last).lexemes ++ rest
      = front.lexemes ++ .arith op.arith :: (last.lexemes ++ rest) := by
  simp [lexemes]

/-- A sum in front of what follows it. -/
theorem lexemes_sum_append (front : Phrase .sum) (op : SumOp) (last : Phrase .term)
    (rest : List Lexeme) :
    (sum front op last).lexemes ++ rest
      = front.lexemes ++ .arith op.arith :: (last.lexemes ++ rest) := by
  simp [lexemes]

end Phrase

/-! ### Conditions -/

/-- The derivations of conditions. -/
structure Comparison where
  lhs : Phrase .expression
  op : RelOp
  rhs : Phrase .expression
deriving DecidableEq, Repr

namespace Comparison

/-- The lexemes of a condition. -/
def lexemes (c : Comparison) : List Lexeme :=
  c.lhs.lexemes ++ .relation c.op :: c.rhs.lexemes

/-- The number of expressions inside each other. -/
def nesting (c : Comparison) : Nat := max c.lhs.nesting c.rhs.nesting

/-- The tree of a condition. -/
def tree (c : Comparison) : Condition := ⟨c.lhs.tree, c.op, c.rhs.tree⟩

/-- A condition in front of what follows it. -/
theorem lexemes_append (c : Comparison) (rest : List Lexeme) :
    c.lexemes ++ rest = c.lhs.lexemes ++ .relation c.op :: (c.rhs.lexemes ++ rest) := by
  simp [lexemes]

end Comparison

/-! ### Statements -/

/-- A statement, or statements with semicolons between them. -/
inductive Extent where
  | statement
  | sequence
deriving DecidableEq, Repr, Inhabited

/-- The derivations of statements. -/
inductive Clause : Extent → Type where
  | empty : Clause .statement
  | assign (name : String) (value : Phrase .expression) : Clause .statement
  | choice (test : Comparison) (body : Clause .statement) : Clause .statement
  | loop (test : Comparison) (body : Clause .statement) : Clause .statement
  | compound (body : Clause .sequence) : Clause .statement
  | one (first : Clause .statement) : Clause .sequence
  | next (front : Clause .sequence) (last : Clause .statement) : Clause .sequence
deriving DecidableEq, Repr

namespace Clause

/-- The lexemes of a statement. -/
def lexemes : {extent : Extent} → Clause extent → List Lexeme
  | _, empty => []
  | _, assign name value => .ident name :: .punct .becomes :: value.lexemes
  | _, choice test body =>
    .keyword .ifKw :: test.lexemes ++ .keyword .thenKw :: body.lexemes
  | _, loop test body =>
    .keyword .whileKw :: test.lexemes ++ .keyword .doKw :: body.lexemes
  | _, compound body => .keyword .beginKw :: body.lexemes ++ [.keyword .endKw]
  | _, one first => first.lexemes
  | _, next front last => front.lexemes ++ .punct .semicolon :: last.lexemes

/-- The number of statements and expressions inside each other. The empty
statement is a level too. -/
def nesting : {extent : Extent} → Clause extent → Nat
  | _, empty => 1
  | _, assign _ value => value.nesting + 1
  | _, choice test body => max test.nesting body.nesting + 1
  | _, loop test body => max test.nesting body.nesting + 1
  | _, compound body => body.nesting + 1
  | _, one first => first.nesting
  | _, next front last => max front.nesting last.nesting

/-- The tree of a statement. -/
def tree : {extent : Extent} → Clause extent → Stmt
  | _, empty => .skip
  | _, assign name value => .assign name value.tree
  | _, choice test body => .choice test.tree body.tree
  | _, loop test body => .loop test.tree body.tree
  -- Brackets leave no trace in a tree.
  | _, compound body => body.tree
  | _, one first => first.tree
  | _, next front last => .seq front.tree last.tree

/-- A choice in front of what follows it. -/
theorem lexemes_choice_append (test : Comparison) (body : Clause .statement)
    (rest : List Lexeme) :
    (choice test body).lexemes ++ rest = .keyword .ifKw ::
      (test.lexemes ++ .keyword .thenKw :: (body.lexemes ++ rest)) := by
  simp [lexemes]

/-- A loop in front of what follows it. -/
theorem lexemes_loop_append (test : Comparison) (body : Clause .statement)
    (rest : List Lexeme) :
    (loop test body).lexemes ++ rest = .keyword .whileKw ::
      (test.lexemes ++ .keyword .doKw :: (body.lexemes ++ rest)) := by
  simp [lexemes]

/-- A compound in front of what follows it. -/
theorem lexemes_compound_append (body : Clause .sequence) (rest : List Lexeme) :
    (compound body).lexemes ++ rest
      = .keyword .beginKw :: (body.lexemes ++ .keyword .endKw :: rest) := by
  simp [lexemes]

/-- A sequence in front of what follows it. -/
theorem lexemes_next_append (front : Clause .sequence) (last : Clause .statement)
    (rest : List Lexeme) :
    (next front last).lexemes ++ rest
      = front.lexemes ++ .punct .semicolon :: (last.lexemes ++ rest) := by
  simp [lexemes]

end Clause

/-! ### Programs -/

/-- The definition of a constant. -/
structure Definition where
  name : String
  digits : String
deriving DecidableEq, Repr, Inhabited

/-- The lexemes of a definition. -/
def Definition.lexemes (d : Definition) : List Lexeme :=
  [.ident d.name, .punct .becomes, .number d.digits]

/-- The instruction that gives a constant its value. -/
def Definition.instruction (d : Definition) : Instruction :=
  .assign d.name (.copy (Lexeme.literalText d.digits))

/-- The derivations of sections: one item or more of one kind. -/
inductive Section where
  | consts (first : Definition) (rest : List Definition)
  | vars (first : String) (rest : List String)
deriving DecidableEq, Repr

namespace Section

/-- The lexemes of items after the first, each behind a comma. -/
def restLexemes {α : Type} (lexemes : α → List Lexeme) (rest : List α) : List Lexeme :=
  rest.flatMap fun item => .punct .comma :: lexemes item

/-- The lexemes of a section. -/
def lexemes : Section → List Lexeme
  | consts first rest =>
    .keyword .constKw :: first.lexemes ++ restLexemes Definition.lexemes rest ++
      [.punct .semicolon]
  | vars first rest =>
    .keyword .varKw :: [.ident first] ++ restLexemes (fun name => [.ident name]) rest ++
      [.punct .semicolon]

/-- The constants that a section defines, in order. -/
def constants : Section → List Definition
  | consts first rest => first :: rest
  | vars _ _ => []

end Section

/-- The derivations of programs. -/
structure Program where
  name : String
  sections : List Section
  body : Clause .statement
deriving DecidableEq, Repr

namespace Program

/-- The lexemes of a program. -/
def lexemes (p : Program) : List Lexeme :=
  .keyword .programKw :: .ident p.name :: p.sections.flatMap Section.lexemes ++ p.body.lexemes

/-- The number of statements and expressions inside each other. -/
def nesting (p : Program) : Nat := p.body.nesting

/-- The constants in the order of their definitions. -/
def constants (p : Program) : List Definition := p.sections.flatMap Section.constants

/-- The plain translation: one instruction for each constant, then the code of
the statement, whose addresses start behind them. -/
def code (base next : Nat) (p : Program) : List Instruction :=
  p.constants.map Definition.instruction ++ p.body.tree.code (base + p.constants.length) next

/-- Constants have no operations. -/
theorem minted_code (base next : Nat) (p : Program) :
    (p.code base next).filterMap Instruction.minted?
      = Temporaries.names next p.body.tree.temps := by
  -- A constant is copied to its own name, which is no temporary.
  have hconstants :
      (p.constants.map Definition.instruction).filterMap Instruction.minted? = [] := by
    rw [List.filterMap_map, List.filterMap_eq_nil_iff]
    intro definition _
    rfl
  rw [code, List.filterMap_append, hconstants, List.nil_append, Stmt.minted_code]

end Program

end ThreeAddress
