import ThreeAddress.CommandLine.Numeral

/-!
# Arguments of the command

The arguments name one source file and may set the options. They are read from
the left, and the first that cannot be accepted is the one that is reported. An
option may be given more than once; the last value counts.
-/

set_option autoImplicit false

namespace ThreeAddress.CommandLine

/-! ### Settings -/

/-- The options that take a number. -/
inductive Setting where
  | firstAddress
  | firstTemp
  | maxDigits
  | maxDepth
deriving DecidableEq, Repr, Inhabited

namespace Setting

/-- All options that take a number. -/
def all : List Setting := [firstAddress, firstTemp, maxDigits, maxDepth]

/-- The argument that announces the number. -/
def flag : Setting → String
  | firstAddress => "--first-address"
  | firstTemp => "--first-temp"
  | maxDigits => "--max-digits"
  | maxDepth => "--max-depth"

/-- The option that an argument announces. -/
def ofFlag? (arg : String) : Option Setting :=
  all.find? (·.flag = arg)

/-- The options with one of them set. -/
def update (setting : Setting) (value : UInt64) (options : Options) : Options :=
  match setting with
  | firstAddress => { options with firstAddress := value }
  | firstTemp => { options with firstTemp := value }
  | maxDigits => { options with maxDigits := value }
  | maxDepth => { options with maxDepth := value }

end Setting

/-! ### Invocations -/

/-- What the arguments ask for. -/
structure Invocation where
  /-- The source file. -/
  path : String
  /-- Whether the declared names are to be shown. -/
  symbols : Bool
  options : Options
deriving DecidableEq, Repr, Inhabited

/-- What is wrong with the arguments. -/
inductive UsageError where
  | needsValue (flag : String)
  | invalidValue (flag value : String) (reason : NumeralError)
  | unknownOption (arg : String)
  | unexpectedArgument (arg : String)
  | missingFile
deriving DecidableEq, Repr, Inhabited

/-- The wording of what is wrong with the arguments. -/
def UsageError.message : UsageError → String
  | needsValue flag => s!"{flag} needs a value"
  | invalidValue flag value reason => s!"invalid value for {flag}: {value} ({reason.message})"
  | unknownOption arg => s!"unknown option {arg}"
  | unexpectedArgument arg => s!"unexpected argument {arg}"
  | missingFile => "missing source file"

/-- What the arguments that are read so far ask for. -/
structure Draft where
  path? : Option String := none
  symbols : Bool := false
  options : Options := {}
deriving DecidableEq, Repr, Inhabited

/-- Whether an argument has the form of an option. -/
def isOption (arg : String) : Bool :=
  match arg.toList with
  | '-' :: '-' :: _ => true
  | _ => false

/-- Reads arguments after those of `draft`. -/
def readArguments (draft : Draft) : List String → Except UsageError Draft
  | [] => .ok draft
  | arg :: rest =>
    if arg = "--symbols" then
      readArguments { draft with symbols := true } rest
    else
      match Setting.ofFlag? arg with
      | some setting =>
        -- Whatever stands behind the flag is its value, even another flag.
        match rest with
        | [] => .error (.needsValue arg)
        | value :: rest =>
          match readWord value with
          | .ok number =>
            readArguments { draft with options := setting.update number draft.options } rest
          | .error reason => .error (.invalidValue arg value reason)
      | none =>
        if isOption arg then
          .error (.unknownOption arg)
        else
          -- Only one file can be named.
          match draft.path? with
          | none => readArguments { draft with path? := some arg } rest
          | some _ => .error (.unexpectedArgument arg)

/-- Reads all arguments of the command. -/
def Invocation.parse (args : List String) : Except UsageError Invocation :=
  match readArguments {} args with
  | .error error => .error error
  | .ok draft =>
    match draft.path? with
    | none => .error .missingFile
    | some path => .ok ⟨path, draft.symbols, draft.options⟩

end ThreeAddress.CommandLine
