import ThreeAddress.Diagnostic
import ThreeAddress.JumpList
import ThreeAddress.SymbolTable
import ThreeAddress.Temporaries

/-!
# The one-pass generator: state and steps

Code is generated while the tokens are read, with one token of look-ahead and
no tree in between. The generator is an action on a `Generate.State`: what is
left to read, the declared names, the emitted code, the temporaries and the
diagnostics. A problem of the program is reported and generation goes on as if
the missing part were there. Only a `Fault` stops it.

This module has the steps that all constructs share: looking at the current
lexeme, moving on, reporting, and emitting. The lemmas `…_run` say what each
step does to a state. Looking, moving on and reporting never fail, and they
leave the code alone.
-/

set_option autoImplicit false

namespace ThreeAddress

namespace Generate

/-! ### States -/

/-- What the generator has read, found and made so far. -/
structure State where
  /-- The tokens from the current one on. -/
  input : TokenStream
  symbols : SymbolTable := .empty
  code : Store
  temps : Temporaries
  /-- The problems in the order in which they were reported. -/
  diagnostics : Array Diagnostic := #[]
  /-- How many statements and expressions are open around the current
  token. -/
  depth : Nat := 0
  /-- Whether a construct was skipped because it lies too deep. -/
  depthReported : Bool := false
deriving DecidableEq, Repr, Inhabited

namespace State

/-- The state before the first token. -/
def start (options : Options) (input : TokenStream) : State where
  input := input
  code := ⟨options.firstAddress, #[]⟩
  temps := ⟨options.firstTemp.toNat⟩

/-- The state with one more diagnostic. -/
def report (s : State) (diagnostic : Diagnostic) : State :=
  { s with diagnostics := s.diagnostics.push diagnostic }

/-- The diagnostic that the current token deserves by itself. -/
def overlong? (s : State) (maxDigits : Nat) : Option Diagnostic :=
  s.input.tokens.head?.bind (Token.overlong? maxDigits)

/-- The state with the current token reported if it is a number of more than
`maxDigits` digits. -/
def checkNumber (s : State) (maxDigits : Nat) : State :=
  match s.overlong? maxDigits with
  | some diagnostic => s.report diagnostic
  | none => s

/-- The state at the next token. A number is checked when it becomes the
current token, whatever becomes of it later. -/
def advance (s : State) (maxDigits : Nat) : State :=
  { s with input := s.input.tail }.checkNumber maxDigits

end State

end Generate

/-- An action of the generator: it reads the options, changes the state and may
end in a fault. -/
abbrev Generate := ReaderT Options (EStateM Fault Generate.State)

namespace Generate

/-! ### Looking and reporting -/

/-- The current lexeme, `none` at the end of input. -/
def current? : Generate (Option Lexeme) :=
  return (← get).input.current?

/-- The line of the current token. -/
def line : Generate Nat :=
  return (← get).input.line

/-- Reports a problem at a line. -/
def reportAt (line : Nat) (problem : Problem) : Generate Unit :=
  modify (·.report ⟨line, problem⟩)

/-- Reports a problem at the current token. -/
def report (problem : Problem) : Generate Unit := do
  reportAt (← line) problem

/-- Reports that the current token is not what should stand here. -/
def expected (what : String) : Generate Unit := do
  report (.expected what (Lexeme.describe? (← current?)))

/-! ### Moving on -/

/-- Reports the current token if it is a number of too many digits. -/
def checkNumber : Generate Unit := do
  let options ← read
  modify (·.checkNumber options.maxDigits.toNat)

/-- Moves to the next token. -/
def advance : Generate Unit := do
  let options ← read
  modify (·.advance options.maxDigits.toNat)

/-- Moves past `lexeme` if it is the current one, and says whether it was. -/
def eat (lexeme : Lexeme) : Generate Bool := do
  if (← current?) = some lexeme then
    advance
    return true
  else
    return false

/-- Moves past `lexeme`, or reports that it is missing and stays. -/
def expect (lexeme : Lexeme) : Generate Unit := do
  unless ← eat lexeme do
    expected lexeme.describe

/-- Moves past a name and answers it, or reports that `what` is missing and
stays. -/
def ident? (what : String) : Generate (Option String) := do
  match ← current? with
  | some (.ident name) =>
    advance
    return some name
  | _ =>
    expected what
    return none

/-- Moves past `:=`. If it is missing this is reported, and `=`, which is the
common slip, is taken in its place. -/
def expectBecomes : Generate Unit := do
  unless ← eat (.punct .becomes) do
    expected (Lexeme.punct .becomes).describe
    let _ ← eat (.relation .eq)

/-! ### Emitting -/

/-- Runs an action of the store on the emitted code. -/
def onCode {α : Type} (action : EStateM Fault Store α) : Generate α := fun _ s =>
  match action s.code with
  | .ok a code => .ok a { s with code }
  | .error fault code => .error fault { s with code }

/-- Emits an instruction and answers its address. -/
def emit (instruction : Instruction) : Generate Nat :=
  onCode (Store.emit instruction)

/-- The address that the next instruction gets. -/
def nextAddress : Generate Nat :=
  return (← get).code.nextAddress

/-- Gives the jumps of a list their target. -/
def backpatch (list : JumpList) (target : Nat) : Generate Unit :=
  onCode (list.backpatch target)

/-- Lets the jumps of a list reach the next instruction, and answers its
address. -/
def backpatchHere (list : JumpList) : Generate Nat := do
  let here ← nextAddress
  backpatch list here
  return here

/-- The next temporary. -/
def freshTemp : Generate String :=
  modifyGet fun s => (s.temps.fresh.1, { s with temps := s.temps.fresh.2 })

/-- Emits the assignment of a value to a new temporary, and answers its
name. -/
def emitTemp (value : Rvalue) : Generate String := do
  let dest ← freshTemp
  let _ ← emit (.assign dest value)
  return dest

/-! ### What the steps do to a state -/

/-- One action after another: the second starts where the first ended, and a
fault of the first is the fault of both. -/
theorem bind_run {α β : Type} (x : Generate α) (f : α → Generate β) (options : Options)
    (s : State) :
    (x >>= f) options s =
      match x options s with
      | .ok a s => f a options s
      | .error fault s => .error fault s := by
  show EStateM.bind (x options) (fun a => f a options) s = _
  unfold EStateM.bind
  cases x options s <;> rfl

/-- What is done finally is done after a value and after a fault. A fault of its
own takes the place of either. -/
theorem tryFinally_run {α β : Type} (x : Generate α) (y : Generate β) (options : Options)
    (s : State) :
    tryFinally x y options s =
      match x options s with
      | .ok a t =>
        match y options t with
        | .ok _ u => .ok a u
        | .error fault u => .error fault u
      | .error fault t =>
        match y options t with
        | .ok _ u => .error fault u
        | .error fault u => .error fault u := by
  show EStateM.map _ (tryFinally' (x options) fun _ => y options) s = _
  unfold EStateM.map tryFinally' EStateM.instMonadFinally
  dsimp only
  cases x options s with
  | ok a t =>
      dsimp only
      cases y options t <;> rfl
  | error fault t =>
      dsimp only
      cases y options t <;> rfl

/-- To answer at once leaves the state as it is. -/
@[simp] theorem pure_run {α : Type} (a : α) (options : Options) (s : State) :
    (pure a : Generate α) options s = .ok a s := rfl

/-- The current lexeme is answered. -/
@[simp] theorem current?_run (options : Options) (s : State) :
    current? options s = .ok s.input.current? s := rfl

/-- A report is made at the line of the current token. -/
@[simp] theorem report_run (problem : Problem) (options : Options) (s : State) :
    report problem options s = .ok () (s.report ⟨s.input.line, problem⟩) := rfl

/-- What was expected is reported together with what stands there. -/
@[simp] theorem expected_run (what : String) (options : Options) (s : State) :
    expected what options s =
      .ok () (s.report ⟨s.input.line, .expected what (Lexeme.describe? s.input.current?)⟩) := rfl

/-- The number of digits is compared with the limit of the options. -/
@[simp] theorem checkNumber_run (options : Options) (s : State) :
    checkNumber options s = .ok () (s.checkNumber options.maxDigits.toNat) := rfl

/-- Moving on can not fail. -/
@[simp] theorem advance_run (options : Options) (s : State) :
    advance options s = .ok () (s.advance options.maxDigits.toNat) := rfl

/-- A lexeme is passed if it is the current one. -/
theorem eat_run (lexeme : Lexeme) (options : Options) (s : State) :
    eat lexeme options s =
      if s.input.current? = some lexeme then
        .ok true (s.advance options.maxDigits.toNat)
      else
        .ok false s := by
  simp only [eat, bind_run, current?_run]
  split <;> rfl

/-- A lexeme is passed if it is the current one, and reported as missing if it is not. -/
theorem expect_run (lexeme : Lexeme) (options : Options) (s : State) :
    expect lexeme options s =
      if s.input.current? = some lexeme then
        .ok () (s.advance options.maxDigits.toNat)
      else
        expected lexeme.describe options s := by
  simp only [expect, bind_run, eat_run]
  by_cases h : s.input.current? = some lexeme <;> simp [h]

/-! ### What a step leaves alone -/

/-- A report does not move the input. -/
@[simp] theorem State.input_report (s : State) (diagnostic : Diagnostic) :
    (s.report diagnostic).input = s.input := rfl

/-- The check of a number does not move the input. -/
@[simp] theorem State.input_checkNumber (s : State) (maxDigits : Nat) :
    (s.checkNumber maxDigits).input = s.input := by
  unfold checkNumber; split <;> rfl

/-- The check of a number emits nothing. -/
@[simp] theorem State.code_checkNumber (s : State) (maxDigits : Nat) :
    (s.checkNumber maxDigits).code = s.code := by
  unfold checkNumber; split <;> rfl

/-- Moving on drops the current token. -/
@[simp] theorem State.input_advance (s : State) (maxDigits : Nat) :
    (s.advance maxDigits).input = s.input.tail := by
  simp [advance]

/-- Moving on keeps the code. -/
@[simp] theorem State.code_advance (s : State) (maxDigits : Nat) :
    (s.advance maxDigits).code = s.code := by
  simp [advance]

end Generate

end ThreeAddress
