import CharRom.Braille
import CharRom.Cli.Invocation
import CharRom.Sheet

/-!
# Runs of the viewer

A run of the viewer from its command line to its exit status and the text of its two output
streams. The only thing a run needs from outside is the bytes of one file, so `Run.start` either
finishes at once (a command line that cannot be read, or a request for help) or asks for that
file and goes on with what the system answers.

A command line that cannot be read ends with status 255 and the fault and the usage text on the
error stream. Help prints the usage text. Otherwise the file is read; if that fails the run ends
with status 1. Then the run reports how many bytes it read, checks the sheet (status 1 with the
fault if the check fails), prints it, and with `-b` a blank line and the braille preview.
-/

namespace CharRom

/-- How a run ends: its exit status and what it wrote to its output and error streams. -/
structure Outcome where
  status : Nat
  stdout : String
  stderr : String
  deriving DecidableEq, Repr

/-- A run as far as it goes without the file system. -/
inductive Run where
  /-- The run has ended. -/
  | done (outcome : Outcome)
  /-- The run waits for the bytes of the file at `path`, or the system's reason it cannot have
  them. -/
  | load (path : String) (resume : Except IoFault (Array UInt8) → Outcome)

namespace Run

/-- A fault reported on the error stream, with status 1. -/
def failed (out : String) (fault : Fault) : Outcome :=
  ⟨1, out, "chargen: " ++ fault.message ++ "\n"⟩

/-- The rest of a run once the file's bytes are in. -/
def draw (inv : Invocation) (contents : Except IoFault (Array UInt8)) : Outcome :=
  match contents with
  | .error cause => failed "" (.unreadable inv.file cause)
  | .ok bytes =>
    let rom : Rom := ⟨bytes⟩
    let read := "Read " ++ toString rom.size ++ " bytes from " ++ inv.file ++ "\n"
    match Sheet.new? rom inv.range.1 inv.range.2 inv.layout with
    | .error e => failed read e
    | .ok sheet =>
      let out := read ++ sheet.text
      if inv.braille then
        match Braille.preview rom sheet.first sheet.last with
        | .ok preview => ⟨0, out ++ "\n" ++ preview ++ "\n", ""⟩
        | .error e => failed out e
      else ⟨0, out, ""⟩

/-- A run of the program called `program` with the arguments `args`. -/
def start (program : String) (args : List String) : Run :=
  match Invocation.parse? args with
  | .error e =>
    .done ⟨255, "", program ++ ": " ++ e.message ++ "\n" ++ Usage.text program ++ "\n"⟩
  | .ok inv =>
    if inv.help then .done ⟨0, Usage.text program ++ "\n", ""⟩
    else .load inv.file (draw inv)

/-- The end of a run, with `read` answering for the file system. -/
def finish (run : Run) (read : String → Except IoFault (Array UInt8)) : Outcome :=
  match run with
  | .done outcome => outcome
  | .load path resume => resume (read path)

end Run

end CharRom
