import ThreeAddress.CommandLine.Run

/-!
# The command

Reads the source file that the arguments name, and prints the listing and the
diagnostics. Everything but the reading and the printing is done by
`CommandLine.run`.
-/

set_option autoImplicit false

namespace ThreeAddress

/-- The cause of a failed reading that the system names by a code and a text.
Some calls of the system give the code as a negative word. -/
def CommandLine.ReadError.ofCode (code : UInt32) (details : String) : CommandLine.ReadError :=
  let code := if code < 0x80000000 then code else 0 - code
  if code = 2 then .notFound
  else if code = 20 then .notADirectory
  else if code = 21 then .isDirectory
  else if code = 36 then .nameTooLong
  else .other s!"{details} (os error {code})"

/-- The cause of a failed reading, from what the system says. -/
def CommandLine.ReadError.ofSystem : IO.Error → CommandLine.ReadError
  | .noFileOrDirectory _ code details => ofCode code details
  | .inappropriateType _ code details => ofCode code details
  | .permissionDenied _ code details => ofCode code details
  | .invalidArgument _ code details => ofCode code details
  | .resourceExhausted _ code details => ofCode code details
  | .otherError code details => ofCode code details
  | error => .other (toString error)

/-- The bytes of a file, or why they cannot be read. -/
def CommandLine.readFile (path : String) :
    IO (Except CommandLine.ReadError ByteArray) := do
  try
    return .ok (← IO.FS.readBinFile path)
  catch error =>
    return .error (.ofSystem error)

end ThreeAddress

/-- The command. -/
def main (args : List String) : IO UInt32 := do
  let program ← IO.appPath
  let outcome ← ThreeAddress.CommandLine.run ThreeAddress.CommandLine.readFile
    program.toString args
  IO.print outcome.stdout
  IO.eprint outcome.stderr
  return outcome.exitCode
