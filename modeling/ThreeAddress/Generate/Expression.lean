import ThreeAddress.Generate.Nesting

/-!
# Expressions and conditions

```
condition  := expression relation expression
expression := [ + | - ] term { ( + | - ) term }
term       := factor { ( * | / ) factor }
factor     := name | number | ( expression )
```

An expression leaves its value in an operand: a name, a literal, or a temporary
that holds the result of the code emitted for it. Operators of one level group
to the left, and a leading minus belongs to the first term only.

The recursion through parentheses is bounded by a budget, and so are the loops.
Each round reads a token, so a budget of the number of tokens left and two more
is never used up.
-/

set_option autoImplicit false

namespace ThreeAddress.Generate

/-- The operand that stands for one that is missing from the source. -/
def missing : String := "?"

/-- A factor. `inner` reads the expression in parentheses. -/
def factor (inner : Generate String) : Generate String := do
  match ← current? with
  | some (.ident name) =>
    unless (← get).symbols.contains name do
      report (.undeclared name)
    advance
    return name
  | some (.number digits) =>
    advance
    return Lexeme.literalText digits
  | some (.punct .lparen) =>
    advance
    let value ← inner
    expect (.punct .rparen)
    return value
  -- The token stays, since it may be what the construct around waits for.
  | _ =>
    expected "identifier, number or '('"
    return missing

/-- The operator of a product, if the lexeme is one. -/
def productOp? : Option Lexeme → Option ArithOp
  | some (.arith .mul) => some .mul
  | some (.arith .div) => some .div
  | _ => none

/-- The operator of a sum, if the lexeme is one. -/
def sumOp? : Option Lexeme → Option ArithOp
  | some (.arith .add) => some .add
  | some (.arith .sub) => some .sub
  | _ => none

/-- A chain of operands after the first, whose value is `lhs`. Each operator
combines what stands left of it with the next operand. -/
def chain (op? : Option Lexeme → Option ArithOp) (operand : Generate String) :
    Nat → String → Generate String
  | 0, _ => throw .outOfFuel
  | fuel + 1, lhs => do
    match op? (← current?) with
    | some op =>
      advance
      let rhs ← operand
      let value ← emitTemp (.binary op lhs rhs)
      chain op? operand fuel value
    | none => return lhs

/-- A term: factors joined by the operators of a product. -/
def term (inner : Generate String) (fuel : Nat) : Generate String := do
  let first ← factor inner
  chain productOp? (factor inner) fuel first

/-- Moves past a leading sign and says whether it is a minus. -/
def leadingMinus : Generate Bool := do
  match sumOp? (← current?) with
  | some op =>
    advance
    return op = .sub
  | none => return false

/-- The first term of an expression with its sign. -/
def signedTerm (inner : Generate String) (fuel : Nat) : Generate String := do
  let negate ← leadingMinus
  let value ← term inner fuel
  if negate then emitTemp (.neg value) else return value

/-- An expression. One that lies too deep is skipped and counts as missing. -/
def expression : Nat → Generate String
  | 0 => throw .outOfFuel
  | fuel + 1 => do
    if ← descend then
      let first ← signedTerm (expression fuel) fuel
      let value ← chain sumOp? (term (expression fuel) fuel) fuel first
      ascend
      return value
    else
      return missing

/-- The relation of a condition. If it is missing this is reported, and
equality is taken. -/
def relation : Generate RelOp := do
  match ← current? with
  | some (.relation op) =>
    advance
    return op
  | _ =>
    expected "relational operator"
    return .eq

/-- The two ways out of a condition. -/
structure Exits where
  /-- The jumps that are taken if the condition holds. -/
  onTrue : JumpList
  /-- The jumps that are taken if it does not. -/
  onFalse : JumpList
deriving DecidableEq, Repr, Inhabited

/-- A condition. It ends in a pending branch for the case that it holds and,
right after it, a pending jump for the case that it does not. -/
def condition (fuel : Nat) : Generate Exits := do
  let lhs ← expression fuel
  let op ← relation
  let rhs ← expression fuel
  -- Neither target is known yet.
  let onTrue ← emit (.branch lhs op rhs none)
  let onFalse ← emit (.jump none)
  return ⟨.single onTrue, .single onFalse⟩

end ThreeAddress.Generate
