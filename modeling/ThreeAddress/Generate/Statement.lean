import ThreeAddress.Generate.Expression

/-!
# Statements

```
statement  := assignment | choice | loop | compound | (nothing)
assignment := name := expression
choice     := IF condition THEN statement
loop       := WHILE condition DO statement
compound   := BEGIN statement { ; statement } END
```

A statement is given the jumps that are to reach it and answers the jumps that
are to reach what follows it. A statement that emits code sends the given jumps
to its first instruction; an empty one hands them on.

A statement inside another one is read by `inner`, and `Generate.statement`
ties the knot. As for expressions, a budget bounds the recursion.
-/

set_option autoImplicit false

namespace ThreeAddress.Generate

/-- Reports `name`, which stands on `line`, unless it may be assigned to. -/
def checkTarget (name : String) (line : Nat) : Generate Unit := do
  match (← get).symbols.kindOf? name with
  | some .var => pure ()
  | some .const => reportAt line (.assignToConstant name)
  | none => reportAt line (.undeclared name)

/-- The assignment to `name`, which is the current token. -/
def assignment (fuel : Nat) (name : String) (pending : JumpList) : Generate JumpList := do
  let _ ← backpatchHere pending
  -- The name is judged once it is passed, but reported where it stands.
  let start ← line
  advance
  checkTarget name start
  expectBecomes
  let value ← expression fuel
  let _ ← emit (.assign name (.copy value))
  return .empty

/-- The choice whose `IF` is the current token. -/
def choice (inner : JumpList → Generate JumpList) (fuel : Nat) (pending : JumpList) :
    Generate JumpList := do
  let _ ← backpatchHere pending
  advance
  let exits ← condition fuel
  expect (.keyword .thenKw)
  let _ ← backpatchHere exits.onTrue
  -- The jumps that the body leaves pending are the caller's. Those of the failed condition go
  -- right behind the body.
  let next ← inner .empty
  let _ ← backpatchHere exits.onFalse
  return next

/-- The loop whose `WHILE` is the current token. -/
def loop (inner : JumpList → Generate JumpList) (fuel : Nat) (pending : JumpList) :
    Generate JumpList := do
  let start ← backpatchHere pending
  advance
  let exits ← condition fuel
  expect (.keyword .doKw)
  let _ ← backpatchHere exits.onTrue
  let next ← inner .empty
  -- What the body leaves pending is to test the condition again.
  backpatch next start
  let _ ← emit (.jump (some start))
  let _ ← backpatchHere exits.onFalse
  return .empty

/-- Whether a statement that emits code starts with this lexeme. -/
def startsStatement : Option Lexeme → Bool
  | some (.ident _) => true
  | some (.keyword .ifKw) => true
  | some (.keyword .whileKw) => true
  | some (.keyword .beginKw) => true
  | _ => false

/-- The statements of a compound after the first. A semicolon that is missing
between two statements is reported. -/
def sequence (inner : JumpList → Generate JumpList) : Nat → JumpList → Generate JumpList
  | 0, _ => throw .outOfFuel
  | fuel + 1, pending => do
    if ← eat (.punct .semicolon) then
      let next ← inner pending
      sequence inner fuel next
    else if startsStatement (← current?) then
      -- The statement is read as if the semicolon were there.
      expected (Lexeme.punct .semicolon).describe
      let next ← inner pending
      sequence inner fuel next
    else
      return pending

/-- The compound whose `BEGIN` is the current token. -/
def compound (inner : JumpList → Generate JumpList) (fuel : Nat) (pending : JumpList) :
    Generate JumpList := do
  advance
  let first ← inner pending
  let next ← sequence inner fuel first
  expect (.keyword .endKw)
  return next

/-- The statement that the current token starts. A token that cannot start or
follow a statement is reported and passed over. -/
def construct (inner : JumpList → Generate JumpList) (fuel : Nat) (pending : JumpList) :
    Generate JumpList := do
  match ← current? with
  | some (.ident name) => assignment fuel name pending
  | some (.keyword .ifKw) => choice inner fuel pending
  | some (.keyword .whileKw) => loop inner fuel pending
  | some (.keyword .beginKw) => compound inner fuel pending
  -- An empty statement. What follows belongs to the construct around it.
  | some (.punct .semicolon) => return pending
  | some (.keyword .endKw) => return pending
  | none => return pending
  -- If this token stayed, the construct around would meet it again.
  | some _ =>
    expected "statement"
    advance
    return pending

/-- A statement. One that lies too deep is skipped and counts as empty. The level
of a statement is left however its construct ends, by a fault too. That of an
expression is left only if the expression has a value. -/
def statement : Nat → JumpList → Generate JumpList
  | 0, _ => throw .outOfFuel
  | fuel + 1, pending => do
    if ← descend then
      try construct (statement fuel) fuel pending
      finally ascend
    else
      return pending

end ThreeAddress.Generate
