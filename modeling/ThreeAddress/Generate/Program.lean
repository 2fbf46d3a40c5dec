import ThreeAddress.Generate.Statement

/-!
# Declarations and programs

```
program  := PROGRAM name { section } statement
section  := CONST definition { , definition } ; | VAR name { , name } ;
definition := name := number
```

A constant is declared and also gets its value by an assignment at the start of
the code. Sections may come in any number and order.
-/

set_option autoImplicit false

namespace ThreeAddress.Generate

/-- Declares a name, or reports that it is declared before. -/
def declare (entry : Symbol) : Generate Unit := do
  match (← get).symbols.declare? entry with
  | some symbols => modify fun s => { s with symbols }
  | none => reportAt entry.line (.duplicateDeclaration entry.name)

/-- Moves past a name and declares it, or reports that `what` is missing. -/
def declaration? (what : String) (kind : SymbolKind) : Generate (Option String) := do
  let start ← line
  let name? ← ident? what
  if let some name := name? then
    declare ⟨name, kind, start⟩
  return name?

/-- Moves past a number and answers the operand it stands for, or reports that
it is missing. -/
def number? : Generate (Option String) := do
  match ← current? with
  | some (.number digits) =>
    advance
    return some (Lexeme.literalText digits)
  | _ =>
    expected "number"
    return none

/-- The definition of a constant. Code is emitted for it if both its name and
its number are there. -/
def definition : Generate Unit := do
  let name? ← declaration? "constant name" .const
  expectBecomes
  let value? ← number?
  match name?, value? with
  | some name, some value =>
    let _ ← emit (.assign name (.copy value))
  -- What is missing was reported where it was expected.
  | _, _ => pure ()

/-- The declaration of a variable. -/
def variableName : Generate Unit := do
  let _ ← declaration? "variable name" .var

/-- One item or more, with commas between them. -/
def items (item : Generate Unit) : Nat → Generate Unit
  | 0 => throw .outOfFuel
  | fuel + 1 => do
    item
    if ← eat (.punct .comma) then
      items item fuel

/-- The section of declarations whose keyword is the current token. -/
def declarationSection (item : Generate Unit) (fuel : Nat) : Generate Unit := do
  advance
  items item fuel
  expect (.punct .semicolon)

/-- The declarations before the statement of a program. -/
def declarations : Nat → Generate Unit
  | 0 => throw .outOfFuel
  | fuel + 1 => do
    match ← current? with
    | some (.keyword .constKw) =>
      declarationSection definition fuel
      declarations fuel
    | some (.keyword .varKw) =>
      declarationSection variableName fuel
      declarations fuel
    | _ => pure ()

/-- Reports what stands after the end of the program. -/
def expectEnd : Generate Unit := do
  match ← current? with
  | some lexeme => report (.trailingInput lexeme.describe)
  | none => pure ()

/-- Ends in a fault if a jump is still pending. -/
def checkResolved : Generate Unit := do
  match (← get).code.unresolved with
  | [] => pure ()
  | addresses => throw (.danglingJumps addresses)

/-- A whole program. Answers its name, if it has one. -/
def program (fuel : Nat) : Generate (Option String) := do
  -- A number is checked when it becomes current, and the first token is current from the start.
  checkNumber
  expect (.keyword .programKw)
  let name? ← ident? "program name"
  declarations fuel
  let next ← statement fuel .empty
  expectEnd
  -- What is still pending ends the program: it goes behind the last instruction.
  let _ ← backpatchHere next
  checkResolved
  return name?

end ThreeAddress.Generate
