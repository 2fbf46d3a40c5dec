import ThreeAddress.CommandLine.FileTree
import ThreeAddress.CommandLine.Invocation
import ThreeAddress.Compilation

/-!
# A run of the command

A run reads the arguments, reads the file, compiles it, and shows the listing
on the standard output and everything else on the standard error. How a file is
read is left open: `run` takes the reader, in whatever monad it works.

The exit code is 0 if the source has no problem, 1 if it has one or cannot be
compiled, and 2 if the arguments are wrong.
-/

set_option autoImplicit false

namespace ThreeAddress.CommandLine

/-- What a run of the command leaves behind. -/
structure Outcome where
  exitCode : UInt32
  stdout : String
  stderr : String
deriving DecidableEq, Repr, Inhabited

/-- The line that explains the arguments. -/
def usage (program : String) : String :=
  s!"usage: {program} [--symbols] [--first-address N] [--first-temp N] " ++
    "[--max-digits N] [--max-depth N] <file>"

/-- Texts as lines. -/
def lines (texts : List String) : String :=
  String.join (texts.map (· ++ "\n"))

/-- The outcome of wrong arguments. -/
def usageOutcome (program : String) (error : UsageError) : Outcome where
  exitCode := 2
  stdout := ""
  stderr := lines [error.message, usage program]

/-- The outcome of a run that cannot compile its file. -/
def failure (message : String) : Outcome where
  exitCode := 1
  stdout := ""
  stderr := lines [message]

/-- What is said about the problems of a source: each, and then how many. -/
def complaints (compilation : Compilation) : List String :=
  if compilation.isClean then []
  else
    compilation.diagnostics.toList.map Diagnostic.message ++
      [s!"{compilation.diagnostics.size} error(s) in program"]

/-- The outcome of a compilation. -/
def compiledOutcome (symbols : Bool) (compilation : Compilation) : Outcome where
  exitCode := if compilation.isClean then 0 else 1
  stdout := compilation.code.render ++ if symbols then compilation.symbols.render else ""
  stderr := lines (complaints compilation)

/-- The bytes of a file as text. -/
def decode (bytes : ByteArray) : Except ReadError String :=
  match String.fromUTF8? bytes with
  | some text => .ok text
  | none => .error .notText

/-- The outcome of an invocation whose file was read. -/
def Invocation.outcome (invocation : Invocation) (bytes : Except ReadError ByteArray) :
    Outcome :=
  match bytes.bind decode with
  | .error error => failure (ReadFailure.message ⟨invocation.path, error⟩)
  | .ok source =>
    match compile invocation.options source with
    | .error fault => failure fault.message
    | .ok compilation => compiledOutcome invocation.symbols compilation

/-- Runs the command, which is called `program`, on its arguments. -/
def run {m : Type → Type} [Monad m] (readFile : String → m (Except ReadError ByteArray))
    (program : String) (args : List String) : m Outcome :=
  match Invocation.parse args with
  | .error error => pure (usageOutcome program error)
  | .ok invocation => do
    let bytes ← readFile invocation.path
    return invocation.outcome bytes

end ThreeAddress.CommandLine
