import ThreeAddress.Proofs.Compositional
import ThreeAddress.Proofs.Skipping

/-!
# The procedures and their recursion equations

The generator is a family of procedures that call each other. To say which calls come about, the
calls have to be seen: `Generate.perform` is what each procedure does, with whatever answers its
calls as a parameter, and without a budget. A loop is a procedure that calls itself for its next
round.

* `bounded` collects the procedures as they are defined, each with a budget for the recursion and
  one for its rounds.
* `bounded_eq_perform`: they satisfy the recursion equations until a budget is used up.
-/

set_option autoImplicit false

namespace ThreeAddress.Generate

/-! ### The procedures and their calls -/

/-- The procedures that call each other. A loop is a procedure that calls itself for its next
round. -/
inductive Procedure where
  | program
  | declarations
  | constantItems
  | variableItems
  | statement
  | assignment
  | choice
  | loop
  | compound
  | sequence
  | condition
  | expression
  | sum
  | term
  | product
  | factor
  | descend
  | skipping
  | ascend
deriving DecidableEq, Repr

namespace Procedure

/-- What a procedure is given. -/
abbrev Args : Procedure → Type
  | statement => JumpList
  | assignment => String × JumpList
  | choice => JumpList
  | loop => JumpList
  | compound => JumpList
  | sequence => JumpList
  | sum => String
  | product => String
  | skipping => Nat
  | _ => Unit

/-- What a procedure answers. -/
abbrev Result : Procedure → Type
  | program => Option String
  | statement => JumpList
  | assignment => JumpList
  | choice => JumpList
  | loop => JumpList
  | compound => JumpList
  | sequence => JumpList
  | condition => Exits
  | expression => String
  | sum => String
  | term => String
  | product => String
  | factor => String
  | descend => Bool
  | _ => Unit

end Procedure

/-- An action for each procedure. -/
abbrev Procedures := (p : Procedure) → p.Args → Generate p.Result

/-- The statement that the current token starts. -/
def dispatch (call : Procedures) (pending : JumpList) : Generate JumpList := do
  match ← current? with
  | some (.ident name) => call .assignment (name, pending)
  | some (.keyword .ifKw) => call .choice pending
  | some (.keyword .whileKw) => call .loop pending
  | some (.keyword .beginKw) => call .compound pending
  | some (.punct .semicolon) => return pending
  | some (.keyword .endKw) => return pending
  | none => return pending
  | some _ =>
    expected "statement"
    advance
    return pending

/-- A term behind a sign. -/
def signed (first : Generate String) : Generate String := do
  let negate ← leadingMinus
  let value ← first
  if negate then emitTemp (.neg value) else return value

/-- What a procedure does, if `call` is what the procedures do that it calls. There is no budget:
these are the recursion equations of the generator. -/
def perform (call : Procedures) : Procedures
  | .program, () => do
    checkNumber
    expect (.keyword .programKw)
    let name? ← ident? "program name"
    call .declarations ()
    let next ← call .statement .empty
    expectEnd
    let _ ← backpatchHere next
    checkResolved
    return name?
  | .declarations, () => do
    match ← current? with
    | some (.keyword .constKw) =>
      advance
      call .constantItems ()
      expect (.punct .semicolon)
      call .declarations ()
    | some (.keyword .varKw) =>
      advance
      call .variableItems ()
      expect (.punct .semicolon)
      call .declarations ()
    | _ => pure ()
  | .constantItems, () => do
    definition
    if ← eat (.punct .comma) then
      call .constantItems ()
  | .variableItems, () => do
    variableName
    if ← eat (.punct .comma) then
      call .variableItems ()
  | .statement, pending => do
    -- To enter and to leave a level are calls, so that their number can be compared along a run.
    let entered : Bool ← call .descend ()
    if entered then
      try dispatch call pending
      finally call .ascend ()
    else
      return pending
  | .assignment, (name, pending) => do
    let _ ← backpatchHere pending
    target name
    expectBecomes
    let value ← call .expression ()
    let _ ← emit (.assign name (.copy value))
    return .empty
  | .choice, pending => do
    let _ ← backpatchHere pending
    advance
    let exits : Exits ← call .condition ()
    expect (.keyword .thenKw)
    let _ ← backpatchHere exits.onTrue
    let next ← call .statement .empty
    let _ ← backpatchHere exits.onFalse
    return next
  | .loop, pending => do
    let start ← backpatchHere pending
    advance
    let exits : Exits ← call .condition ()
    expect (.keyword .doKw)
    let _ ← backpatchHere exits.onTrue
    let next ← call .statement .empty
    backpatch next start
    let _ ← emit (.jump (some start))
    let _ ← backpatchHere exits.onFalse
    return .empty
  | .compound, pending => do
    advance
    let first ← call .statement pending
    let next ← call .sequence first
    expect (.keyword .endKw)
    return next
  | .sequence, pending => do
    if ← eat (.punct .semicolon) then
      let next ← call .statement pending
      call .sequence next
    else if startsStatement (← current?) then
      expected (Lexeme.punct .semicolon).describe
      let next ← call .statement pending
      call .sequence next
    else
      return pending
  | .condition, () => do
    let lhs ← call .expression ()
    let op ← relation
    let rhs ← call .expression ()
    let onTrue ← emit (.branch lhs op rhs none)
    let onFalse ← emit (.jump none)
    return ⟨.single onTrue, .single onFalse⟩
  | .expression, () => do
    let entered : Bool ← call .descend ()
    if entered then
      let first ← signed (call .term ())
      let value ← call .sum first
      call .ascend ()
      return value
    else
      return missing
  | .sum, lhs => do
    match sumOp? (← current?) with
    | some op =>
      advance
      let rhs ← call .term ()
      let value ← emitTemp (.binary op lhs rhs)
      call .sum value
    | none => return lhs
  | .term, () => do
    let first ← call .factor ()
    call .product first
  | .product, lhs => do
    match productOp? (← current?) with
    | some op =>
      advance
      let rhs ← call .factor ()
      let value ← emitTemp (.binary op lhs rhs)
      call .product value
    | none => return lhs
  | .factor, () => factor (call .expression ())
  | .descend, () => do
    let max := (← read).maxDepth.toNat
    if (← get).depth < max then
      modify fun s => { s with depth := s.depth + 1 }
      return true
    else
      unless (← get).depthReported do
        modify fun s => { s with depthReported := true }
        report (.nestingTooDeep max)
      call .skipping 0
      return false
  -- One token a round. The definition computes the number of tokens first and then passes over
  -- them; `skip_constructLength_run` says that this is the same.
  | .skipping, opened => do
    match ← current? with
    | some lexeme =>
      match lexeme.openBehind? opened with
      | some behind =>
        advance
        call .skipping behind
      | none => pure ()
    | none => pure ()
  | .ascend, () => ascend

/-- The procedures as they are defined, with a budget for the recursion and one for the rounds of
a loop. -/
def bounded (fuel rounds : Nat) : Procedures
  | .program, () => program fuel
  | .declarations, () => declarations rounds
  | .constantItems, () => items definition rounds
  | .variableItems, () => items variableName rounds
  | .statement, pending => statement fuel pending
  | .assignment, (name, pending) => assignment fuel name pending
  | .choice, pending => choice (statement fuel) fuel pending
  | .loop, pending => loop (statement fuel) fuel pending
  | .compound, pending => compound (statement fuel) fuel pending
  -- A loop has the budget of its statement for what it calls, and a budget of its own for its
  -- rounds.
  | .sequence, pending => sequence (statement fuel) rounds pending
  | .condition, () => condition fuel
  | .expression, () => expression fuel
  | .sum, lhs => chain sumOp? (term (expression fuel) fuel) rounds lhs
  | .term, () => term (expression fuel) fuel
  | .product, lhs => chain productOp? (factor (expression fuel)) rounds lhs
  | .factor, () => factor (expression fuel)
  | .descend, () => descend
  | .skipping, opened => do skip (constructLength opened (← get).input.tokens)
  | .ascend, () => ascend

/-- A construct is skipped token by token, with the count of open brackets. -/
theorem skip_constructLength_run (opened : Nat) (options : Options) (s : State) :
    skip (constructLength opened s.input.tokens) options s
      = (do
          match ← current? with
          | some lexeme =>
            match lexeme.openBehind? opened with
            | some behind =>
              advance
              let s ← get
              skip (constructLength behind s.input.tokens)
            | none => pure ()
          | none => pure () : Generate Unit) options s := by
  rw [bind_run, current?_run, TokenStream.current?]
  cases htokens : s.input.tokens with
  | nil => rfl
  | cons token rest =>
      rw [constructLength_cons]
      dsimp only [List.head?_cons, Option.map_some]
      cases hbehind : token.lexeme.openBehind? opened with
      | none => rfl
      | some behind =>
          dsimp only
          rw [skip, bind_run, advance_run, bind_run, advance_run]
          dsimp only
          rw [get_bind_run, State.input_advance, TokenStream.tail, htokens]
          rfl

/-- **The recursion equations hold of the procedures as they are defined.** A procedure whose
budget is not used up does what its equation says, with a part of the budget for its calls. -/
theorem bounded_eq_perform (fuel rounds : Nat) (p : Procedure) (a : p.Args) :
    bounded fuel rounds p a = throw .outOfFuel ∨
      ∃ fuel' rounds', bounded fuel rounds p a = perform (bounded fuel' rounds') p a := by
  cases p with
  | program => exact .inr ⟨fuel, fuel, rfl⟩
  | declarations =>
      cases rounds with
      | zero => exact .inl rfl
      | succ rounds =>
          refine .inr ⟨fuel, rounds, ?_⟩
          -- The definition reads a section by a function of its own; regrouped, it is the
          -- equation.
          show declarations (rounds + 1) = _
          simp only [declarations, declarationSection, bind_assoc]
          rfl
  | constantItems =>
      cases rounds with
      | zero => exact .inl rfl
      | succ rounds => exact .inr ⟨fuel, rounds, rfl⟩
  | variableItems =>
      cases rounds with
      | zero => exact .inl rfl
      | succ rounds => exact .inr ⟨fuel, rounds, rfl⟩
  | statement =>
      cases fuel with
      | zero => exact .inl rfl
      | succ fuel => exact .inr ⟨fuel, fuel, rfl⟩
  | assignment =>
      refine .inr ⟨fuel, fuel, ?_⟩
      -- The two steps that check the target are one step of the equation.
      show assignment fuel a.1 a.2 = perform _ .assignment (a.1, a.2)
      simp only [perform, target, bind_assoc]
      rfl
  | choice => exact .inr ⟨fuel, fuel, rfl⟩
  | loop => exact .inr ⟨fuel, fuel, rfl⟩
  | compound => exact .inr ⟨fuel, fuel, rfl⟩
  | sequence =>
      cases rounds with
      | zero => exact .inl rfl
      | succ rounds => exact .inr ⟨fuel, rounds, rfl⟩
  | condition => exact .inr ⟨fuel, fuel, rfl⟩
  | expression =>
      cases fuel with
      | zero => exact .inl rfl
      | succ fuel => exact .inr ⟨fuel, fuel, rfl⟩
  | sum =>
      cases rounds with
      | zero => exact .inl rfl
      | succ rounds => exact .inr ⟨fuel, rounds, rfl⟩
  | term => exact .inr ⟨fuel, fuel, rfl⟩
  | product =>
      cases rounds with
      | zero => exact .inl rfl
      | succ rounds => exact .inr ⟨fuel, rounds, rfl⟩
  | factor => exact .inr ⟨fuel, fuel, rfl⟩
  | descend => exact .inr ⟨fuel, fuel, rfl⟩
  | skipping =>
      -- Here the equation holds of the runs only: the number of rounds depends on the state.
      refine .inr ⟨fuel, fuel, funext fun options => funext fun s => ?_⟩
      exact skip_constructLength_run a options s
  | ascend => exact .inr ⟨fuel, fuel, rfl⟩

end ThreeAddress.Generate
