import ThreeAddress.Proofs.Lockstep

/-!
# Properties that every procedure has

The procedures of the generator are put together from few shared steps. What holds of these and
survives sequencing holds of all procedures, whatever the tokens and the budgets are.
`Generate.Compositional` lists what has to be shown of a property of actions, and the theorems in
its namespace are the conclusion, one for each procedure.

Two groups of steps are taken as a whole. A name is reported with the line that was current before
the generator moved past it (`target`, `declaration?`), and a level that was entered is left behind
its body: that of an expression where the expression has a value (`level`), and that of a statement
in any case (`levelFinally`). What a property says of such a group need not hold of its parts.
-/

set_option autoImplicit false

namespace ThreeAddress.Generate

/-- Work on the code leaves everything else as it is. -/
theorem ends_onCode {α : Type} {action : EStateM Fault Store α} {options : Options} {s : State}
    {Q : α → State → Prop} (h : ∀ a code, Q a { s with code }) :
    Ends (fun _ => True) (onCode action) options s Q := by
  unfold Ends onCode
  cases action s.code with
  | ok a code => exact h a code
  | error fault code => trivial

/-- Moves past the name that is assigned to, and reports it where it stands. -/
def target (name : String) : Generate Unit := do
  let start ← line
  advance
  checkTarget name start

/-- An action inside a level, with the value that stands for it where the limit is reached. -/
def level {α : Type} (body : Generate α) (otherwise : α) : Generate α := do
  if ← descend then
    let a ← body
    ascend
    return a
  else
    return otherwise

/-- An action inside a level that is left however the action ends, with the value that stands for
it where the limit is reached. -/
def levelFinally {α : Type} (body : Generate α) (otherwise : α) : Generate α := do
  if ← descend then
    try body finally ascend
  else
    return otherwise

/-- Where it does not matter that a level may be left which is not open, it makes no difference
whether a level is left after a fault. -/
theorem Ends.levelFinally {α : Type} {E : Fault → Prop} {options : Options} {s : State}
    {body : Generate α} {otherwise : α} {Q : α → State → Prop} (hE : E .unbalancedNesting)
    (h : Ends E (level body otherwise) options s Q) :
    Ends E (levelFinally body otherwise) options s Q := by
  rw [level, ends_bind, ends_descend] at h
  rw [Generate.levelFinally, ends_bind, ends_descend]
  split
  · next hlt =>
    rw [if_pos hlt, if_pos rfl, ends_bind] at h
    rw [if_pos rfl]
    -- Behind a value both do the same. Behind a fault the level is left in addition, and what
    -- this may fail with is in `E`.
    refine h.ensure (fun _ => ends_ascend_of_fault hE) fun a t ht => ?_
    rw [ends_bind] at ht
    exact ht
  · next hfull =>
    rw [if_neg hfull, if_neg Bool.false_ne_true] at h
    rw [if_neg Bool.false_ne_true]
    exact h

/-- A property of actions that the shared steps have and that sequencing keeps. -/
structure Compositional (P : {α : Type} → Generate α → Prop) : Prop where
  pure {α : Type} (a : α) : P (pure a)
  bind {α β : Type} {x : Generate α} {f : α → Generate β} (hx : P x) (hf : ∀ a, P (f a)) :
    P (x >>= f)
  outOfFuel {α : Type} : P (throw .outOfFuel : Generate α)
  current? : P current?
  advance : P advance
  expected (what : String) : P (expected what)
  checkOperand (name : String) : P (checkOperand name)
  target (name : String) : P (target name)
  declaration? (what : String) (kind : SymbolKind) : P (declaration? what kind)
  emit (instruction : Instruction) : P (emit instruction)
  backpatch (list : JumpList) (address : Nat) : P (backpatch list address)
  nextAddress : P nextAddress
  freshTemp : P freshTemp
  level {α : Type} {body : Generate α} (otherwise : α) (hbody : P body) :
    P (level body otherwise)
  levelFinally {α : Type} {body : Generate α} (otherwise : α) (hbody : P body) :
    P (levelFinally body otherwise)

namespace Compositional
variable {P : {α : Type} → Generate α → Prop} (h : Compositional P)
include h

/-! ### Shared steps -/

/-- A lexeme that may be there is looked at, and it is passed or left. -/
theorem eat (lexeme : Lexeme) : P (eat lexeme) := by
  refine h.bind h.current? fun _ => ?_
  split
  · exact h.bind h.advance fun _ => h.pure _
  · exact h.pure _

/-- A lexeme that must be there is passed or reported. -/
theorem expect (lexeme : Lexeme) : P (expect lexeme) := by
  refine h.bind (h.eat lexeme) fun _ => ?_
  split
  · exact h.pure _
  · exact h.expected _

/-- A name is passed and answered, or it is reported that there is none. -/
theorem ident? (what : String) : P (ident? what) := by
  refine h.bind h.current? fun _ => ?_
  split
  · exact h.bind h.advance fun _ => h.pure _
  · exact h.bind (h.expected _) fun _ => h.pure _

/-- The assignment operator is passed, or it is reported and a `=` in its place is passed. -/
theorem expectBecomes : P expectBecomes := by
  refine h.bind (h.eat _) fun _ => ?_
  split
  · exact h.pure _
  · exact h.bind (h.expected _) fun _ => h.bind (h.eat _) fun _ => h.pure _

/-- To resolve jumps with the next address is to ask for it and to resolve them. -/
theorem backpatchHere (list : JumpList) : P (backpatchHere list) :=
  h.bind h.nextAddress fun _ => h.bind (h.backpatch _ _) fun _ => h.pure _

/-- A value is kept in a fresh temporary. -/
theorem emitTemp (value : Rvalue) : P (emitTemp value) :=
  h.bind h.freshTemp fun _ => h.bind (h.emit _) fun _ => h.pure _

/-! ### Expressions and conditions -/

section
variable {inner : Generate String} (hinner : P inner)
include hinner

/-- The rule of a factor has a bracketed expression as its premise. -/
theorem factor : P (factor inner) := by
  refine h.bind h.current? fun _ => ?_
  split
  · rw [checkOperand_bind]
    exact h.bind (h.checkOperand _) fun _ => h.bind h.advance fun _ => h.pure _
  · exact h.bind h.advance fun _ => h.pure _
  · exact h.bind h.advance fun _ => h.bind hinner fun _ => h.bind (h.expect _) fun _ => h.pure _
  · exact h.bind (h.expected _) fun _ => h.pure _

omit hinner in
/-- A chain of operands, by induction on the budget. -/
theorem chain (op? : Option Lexeme → Option ArithOp) {operand : Generate String}
    (hoperand : P operand) (fuel : Nat) (lhs : String) : P (chain op? operand fuel lhs) := by
  induction fuel generalizing lhs with
  | zero => exact h.outOfFuel
  | succ fuel ih =>
      refine h.bind h.current? fun _ => ?_
      split
      · exact h.bind h.advance fun _ => h.bind hoperand fun _ => h.bind (h.emitTemp _) fun _ => ih _
      · exact h.pure _

/-- A term is a chain of factors. -/
theorem term (fuel : Nat) : P (term inner fuel) :=
  h.bind (h.factor hinner) fun _ => h.chain _ (h.factor hinner) fuel _

omit hinner in
/-- A minus in front is passed or left. -/
theorem leadingMinus : P leadingMinus := by
  refine h.bind h.current? fun _ => ?_
  split
  · exact h.bind h.advance fun _ => h.pure _
  · exact h.pure _

/-- The first term of an expression, and its negation if a minus stood in front. -/
theorem signedTerm (fuel : Nat) : P (signedTerm inner fuel) := by
  refine h.bind h.leadingMinus fun _ => h.bind (h.term hinner fuel) fun _ => ?_
  split
  · exact h.emitTemp _
  · exact h.pure _

end

/-- An expression, by induction on the budget. A refused one answers a placeholder. -/
theorem expression (fuel : Nat) : P (expression fuel) := by
  induction fuel with
  | zero => exact h.outOfFuel
  | succ fuel ih =>
      -- The rule takes the level as a whole; associativity gives the procedure as it is written.
      have hlevel := h.level missing
        (h.bind (h.signedTerm ih fuel) fun first => h.chain sumOp? (h.term ih fuel) fuel first)
      simp only [Generate.level, bind_assoc] at hlevel
      exact hlevel

/-- A relation is passed, or it is reported that there is none. -/
theorem relation : P relation := by
  refine h.bind h.current? fun _ => ?_
  split
  · exact h.bind h.advance fun _ => h.pure _
  · exact h.bind (h.expected _) fun _ => h.pure _

/-- A condition consists of two expressions and a relation, and of the two jumps that are
emitted. -/
theorem condition (fuel : Nat) : P (condition fuel) :=
  h.bind (h.expression fuel) fun _ => h.bind h.relation fun _ =>
    h.bind (h.expression fuel) fun _ => h.bind (h.emit _) fun _ =>
      h.bind (h.emit _) fun _ => h.pure _

/-! ### Statements -/

/-- An assignment uses the expression and the shared steps. -/
theorem assignment (fuel : Nat) (name : String) (pending : JumpList) :
    P (assignment fuel name pending) := by
  -- The line is asked for before the name is passed, so the two are one step of the rule.
  have hread := h.bind (h.backpatchHere pending) fun _ => h.bind (h.target name) fun _ =>
    h.bind h.expectBecomes fun _ => h.bind (h.expression fuel) fun value =>
      h.bind (h.emit (.assign name (.copy value))) fun _ => h.pure JumpList.empty
  simp only [Generate.target, bind_assoc] at hread
  exact hread

section
variable {inner : JumpList → Generate JumpList} (hinner : ∀ pending, P (inner pending))
include hinner

/-- The rule of an `IF` statement has the statement in it as its premise. -/
theorem choice (fuel : Nat) (pending : JumpList) : P (choice inner fuel pending) :=
  h.bind (h.backpatchHere _) fun _ => h.bind h.advance fun _ =>
    h.bind (h.condition fuel) fun _ => h.bind (h.expect _) fun _ =>
      h.bind (h.backpatchHere _) fun _ => h.bind (hinner _) fun _ =>
        h.bind (h.backpatchHere _) fun _ => h.pure _

/-- The rule of a `WHILE` statement has the statement in it as its premise. -/
theorem loop (fuel : Nat) (pending : JumpList) : P (loop inner fuel pending) :=
  h.bind (h.backpatchHere _) fun _ => h.bind h.advance fun _ =>
    h.bind (h.condition fuel) fun _ => h.bind (h.expect _) fun _ =>
      h.bind (h.backpatchHere _) fun _ => h.bind (hinner _) fun _ =>
        h.bind (h.backpatch _ _) fun _ => h.bind (h.emit _) fun _ =>
          h.bind (h.backpatchHere _) fun _ => h.pure _

/-- What follows the first statement of a `BEGIN` block, by induction on the budget. -/
theorem sequence (fuel : Nat) (pending : JumpList) : P (sequence inner fuel pending) := by
  induction fuel generalizing pending with
  | zero => exact h.outOfFuel
  | succ fuel ih =>
      refine h.bind (h.eat _) fun _ => ?_
      split
      · exact h.bind (hinner _) fun _ => ih _
      · refine h.bind h.current? fun _ => ?_
        split
        · exact h.bind (h.expected _) fun _ => h.bind (hinner _) fun _ => ih _
        · exact h.pure _

/-- A `BEGIN` block is a statement, a sequence and its end. -/
theorem compound (fuel : Nat) (pending : JumpList) : P (compound inner fuel pending) :=
  h.bind h.advance fun _ => h.bind (hinner _) fun _ =>
    h.bind (h.sequence hinner fuel _) fun _ => h.bind (h.expect _) fun _ => h.pure _

/-- Each of the constructs has its own rule above; the others are shared steps. -/
theorem construct (fuel : Nat) (pending : JumpList) : P (construct inner fuel pending) := by
  refine h.bind h.current? fun _ => ?_
  split
  · exact h.assignment fuel _ pending
  · exact h.choice hinner fuel pending
  · exact h.loop hinner fuel pending
  · exact h.compound hinner fuel pending
  · exact h.pure _
  · exact h.pure _
  · exact h.pure _
  · exact h.bind (h.expected _) fun _ => h.bind h.advance fun _ => h.pure _

end

/-- A statement, by induction on the budget: the construct in it is guarded by the level, which
is left on every way out. -/
theorem statement (fuel : Nat) (pending : JumpList) : P (statement fuel pending) := by
  induction fuel generalizing pending with
  | zero => exact h.outOfFuel
  | succ fuel ih => exact h.levelFinally pending (h.construct ih fuel pending)

/-! ### Declarations -/

/-- A number is passed and answered, or it is reported that there is none. -/
theorem number? : P number? := by
  refine h.bind h.current? fun _ => ?_
  split
  · exact h.bind h.advance fun _ => h.pure _
  · exact h.bind (h.expected _) fun _ => h.pure _

/-- The definition of a constant. -/
theorem definition : P definition := by
  refine h.bind (h.declaration? _ _) fun _ => h.bind h.expectBecomes fun _ =>
    h.bind h.number? fun _ => ?_
  split
  · exact h.bind (h.emit _) fun _ => h.pure _
  · exact h.pure _

/-- The declaration of a variable. -/
theorem variableName : P variableName := h.bind (h.declaration? _ _) fun _ => h.pure _

/-- Items between commas, by induction on the budget. -/
theorem items {item : Generate Unit} (hitem : P item) (fuel : Nat) : P (items item fuel) := by
  induction fuel with
  | zero => exact h.outOfFuel
  | succ fuel ih =>
      refine h.bind hitem fun _ => h.bind (h.eat _) fun _ => ?_
      split
      · exact ih
      · exact h.pure _

/-- A section of declarations has its items as its premise. -/
theorem declarationSection {item : Generate Unit} (hitem : P item) (fuel : Nat) :
    P (declarationSection item fuel) :=
  h.bind h.advance fun _ => h.bind (h.items hitem fuel) fun _ => h.expect _

/-- All sections of declarations, by induction on the budget. -/
theorem declarations (fuel : Nat) : P (declarations fuel) := by
  induction fuel with
  | zero => exact h.outOfFuel
  | succ fuel ih =>
      refine h.bind h.current? fun _ => ?_
      split
      · exact h.bind (h.declarationSection h.definition fuel) fun _ => ih
      · exact h.bind (h.declarationSection h.variableName fuel) fun _ => ih
      · exact h.pure _

end Compositional

end ThreeAddress.Generate
