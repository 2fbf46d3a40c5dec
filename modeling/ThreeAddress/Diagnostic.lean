import ThreeAddress.Token

/-!
# Diagnostics

A diagnostic is a problem of the program at a line of its source. It never
stops a compilation. The wording of every problem is in `Problem.message`.
-/

set_option autoImplicit false

namespace ThreeAddress

/-- What can be wrong with a program. -/
inductive Problem where
  /-- Something else was expected than what was found. -/
  | expected (what found : String)
  /-- The name is declared before. -/
  | duplicateDeclaration (name : String)
  /-- The name is used and not declared. -/
  | undeclared (name : String)
  /-- The name of a constant stands left of an assignment. -/
  | assignToConstant (name : String)
  /-- A digit run is longer than the limit. -/
  | numberTooLong (digits : String) (max : Nat)
  /-- A construct lies deeper than the limit and is skipped. -/
  | nestingTooDeep (max : Nat)
  /-- The program has ended and the source has not. -/
  | trailingInput (found : String)
deriving DecidableEq, Repr, Inhabited

/-- The wording of a problem. -/
def Problem.message : Problem → String
  | expected what found => s!"expected {what}, found {found}"
  | duplicateDeclaration name => s!"'{name}' is already declared"
  | undeclared name => s!"'{name}' is not declared"
  | assignToConstant name => s!"cannot assign to constant '{name}'"
  | numberTooLong digits max => s!"number {digits} has more than {max} digits"
  | nestingTooDeep max => s!"nesting deeper than {max} levels"
  | trailingInput found => s!"unexpected {found} after the end of the program"

/-- A problem and the line to which it belongs. -/
structure Diagnostic where
  line : Nat
  problem : Problem
deriving DecidableEq, Repr, Inhabited

/-- A diagnostic as it is shown, on one line. -/
def Diagnostic.message (diagnostic : Diagnostic) : String :=
  s!"line {diagnostic.line}: {diagnostic.problem.message}"

/-- The diagnostic that a token deserves by itself: a number of more than
`max` digits is too long, leading zeros counted. -/
def Token.overlong? (max : Nat) (token : Token) : Option Diagnostic :=
  match token.lexeme with
  | .number digits =>
    if max < digits.length then some ⟨token.line, .numberTooLong digits max⟩ else none
  | _ => none

/-- The diagnostics that the tokens of a stream deserve by themselves, in
order. -/
def TokenStream.overlong (max : Nat) (stream : TokenStream) : List Diagnostic :=
  stream.tokens.filterMap (Token.overlong? max)

end ThreeAddress
