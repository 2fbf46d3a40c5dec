import ThreeAddress.Generate.Program
import ThreeAddress.Token.Scanner

/-!
# Compiling a source

`compile` reads a source text and answers everything that became of it: the
name of the program, the declared names, the code and the diagnostics. A source
with problems compiles too. The only fault that a source can cause is that the
addresses run out.
-/

set_option autoImplicit false

namespace ThreeAddress

/-- What one compilation made of a source. -/
structure Compilation where
  /-- The name after `PROGRAM`, if there is one. -/
  program : Option String
  symbols : SymbolTable
  code : Store
  /-- The problems in the order in which they were found. -/
  diagnostics : Array Diagnostic
deriving DecidableEq, Repr, Inhabited

/-- Whether the source has no problem. -/
def Compilation.isClean (compilation : Compilation) : Bool :=
  compilation.diagnostics.isEmpty

/-- The budget of rounds for the loops and recursions of the generator. Each
round reads a token, so this is enough for a whole source. -/
def TokenStream.budget (input : TokenStream) : Nat :=
  input.tokens.length + 2

/-- Compiles a sequence of tokens. -/
def compileTokens (options : Options) (input : TokenStream) : Except Fault Compilation :=
  match Generate.program input.budget options (.start options input) with
  | .ok program s => .ok ⟨program, s.symbols, s.code, s.diagnostics⟩
  | .error fault _ => .error fault

/-- Compiles a source text. -/
def compile (options : Options) (source : String) : Except Fault Compilation :=
  compileTokens options (scan source)

end ThreeAddress
