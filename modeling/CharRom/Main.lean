import CharRom.Cli.Run

/-!
# The viewer's command line

Runs the viewer on the process's arguments, reading the ROM file from the file system, and prints
what the run wrote to its two streams before exiting with its status.
-/

open CharRom

/-- An error number as the system numbers it; some calls report it negated. -/
def errno (code : UInt32) : Nat :=
  if code.toNat < Nat.pow 2 31 then code.toNat else Nat.pow 2 32 - code.toNat

/-- The system's refusal as an `IoFault`, by its error number. -/
def faultOfError : IO.Error → IoFault
  | .noFileOrDirectory .. => .notFound
  | .inappropriateType _ code details => .ofCode (errno code) details
  | .invalidArgument _ code details => .ofCode (errno code) details
  | .permissionDenied _ code details => .ofCode (errno code) details
  | .resourceExhausted _ code details => .ofCode (errno code) details
  | .noSuchThing _ code details => .ofCode (errno code) details
  | .alreadyExists _ code details => .ofCode (errno code) details
  | .otherError code details => .ofCode (errno code) details
  | .interrupted _ code details => .ofCode (errno code) details
  | .resourceBusy code details => .ofCode (errno code) details
  | .illegalOperation code details => .ofCode (errno code) details
  | .hardwareFault code details => .ofCode (errno code) details
  | e => .other 0 (toString e)

/-- The bytes of the file at `path`. -/
def readRom (path : String) : IO (Except IoFault (Array UInt8)) := do
  if path.contains (Char.ofNat 0) then return .error .nulInName
  try
    let bytes ← IO.FS.readBinFile path
    return .ok bytes.data
  catch e =>
    return .error (faultOfError e)

def main (args : List String) : IO UInt32 := do
  let outcome ← match Run.start "chargen" args with
    | .done outcome => pure outcome
    | .load path resume => do
      let contents ← readRom path
      pure (resume contents)
  IO.print outcome.stdout
  IO.eprint outcome.stderr
  return outcome.status.toUInt32
