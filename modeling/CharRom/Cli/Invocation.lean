import CharRom.Sheet

/-!
# Invocations

What a command line asks of the viewer: the ROM file, the first glyph and optionally the last,
optionally the glyphs per line, and four flags. The free arguments fill the file, the first
index, the last index and the glyphs per line in that order; the flags are `-h`/`--help`,
`-a`/`--ascii`, `-c`/`--color` and `-b`/`--braille`.

The arguments read as tokens. `--name` is a long option and `--name=value` one given a value
(split at the first `=`); `-xyz` is the short options `x`, `y` and `z` in turn; a lone `-`, and any
argument not starting with `-`, is free. The argument `--` ends the options: every argument after
it is free, whatever it looks like.

A count is an unsigned decimal numeral below `2^64`, optionally led by `+`. It is read left to
right: the first character that is not a digit makes it invalid, and the first digit that takes
the value to `2^64` or past makes it too large, whichever comes first. An empty text, and a lone
`+`, are refused; leading zeros are allowed.

Tokens are taken in order and the first that cannot be taken ends the reading with its fault.
When all are taken, the file and the first index must have been given, unless help was asked for.

The usage text names the program and its arguments on one line, then lists the free arguments
and the flags, each with what it does. Every entry is indented by two spaces, and the
descriptions start in one column, two spaces past the longest label.
-/

namespace CharRom

/-- Why a text is not a count. -/
inductive DecimalFault where
  | empty
  | invalidDigit
  | tooLarge
  deriving DecidableEq, Repr

/-- The sentence for a text that is not a count. -/
def DecimalFault.message : DecimalFault → String
  | .empty => "cannot parse integer from empty string"
  | .invalidDigit => "invalid digit found in string"
  | .tooLarge => "number too large to fit in target type"

namespace Decimal

/-- Counts are below this bound: they are sixty-four-bit words. -/
def bound : Nat := Nat.pow 2 64

/-- The digits `cs` read after the value `acc`. -/
def readDigits (acc : Nat) : List Char → Except DecimalFault Nat
  | [] => .ok acc
  | c :: cs =>
    if c.isDigit then
      let v := 10 * acc + (c.toNat - '0'.toNat)
      if v < bound then readDigits v cs else .error .tooLarge
    else .error .invalidDigit

/-- The count written as `s`. -/
def read? (s : String) : Except DecimalFault Nat :=
  match s.toList with
  | [] => .error .empty
  | ['+'] => .error .invalidDigit
  | '+' :: cs => readDigits 0 cs
  | cs => readDigits 0 cs

end Decimal

end CharRom

namespace CharRom

/-- One item of a command line. -/
inductive Token where
  | short (c : Char)
  | long (name : String)
  | longWithValue (name value : String)
  | free (text : String)
  deriving DecidableEq, Repr

namespace Token

/-- The tokens of one argument standing before `--`. -/
def ofArg (arg : String) : List Token :=
  match arg.toList with
  | '-' :: '-' :: rest =>
    match rest.dropWhile (· != '=') with
    | [] => [long (String.ofList rest)]
    | _ :: value => [longWithValue (String.ofList (rest.takeWhile (· != '='))) (String.ofList value)]
  | '-' :: c :: cs => (c :: cs).map short
  | _ => [free arg]

/-- The tokens of a command line. -/
def ofArgs : List String → List Token
  | [] => []
  | arg :: rest => if arg = "--" then rest.map free else ofArg arg ++ ofArgs rest

end Token

end CharRom

namespace CharRom

/-- The flags of the command line. -/
inductive Flag where
  | help
  | ascii
  | color
  | braille
  deriving DecidableEq, Repr

namespace Flag

/-- Every flag, in the order the usage text lists them. -/
def all : List Flag := [help, ascii, color, braille]

/-- The one-letter name. -/
def short : Flag → Char
  | help => 'h'
  | ascii => 'a'
  | color => 'c'
  | braille => 'b'

/-- The long name. -/
def long : Flag → String
  | help => "help"
  | ascii => "ascii"
  | color => "color"
  | braille => "braille"

/-- What the flag does, for the usage text. -/
def summary : Flag → String
  | help => "Print this help message."
  | ascii => "Draw set pixels with '#' instead of a block."
  | color => "Color the headers and offsets."
  | braille => "Also draw a compact braille preview."

/-- The flag with one-letter name `c`. -/
def ofShort? (c : Char) : Option Flag := all.find? (·.short == c)

/-- The flag with long name `name`. -/
def ofLong? (name : String) : Option Flag := all.find? (·.long == name)

end Flag

/-- The free arguments, in the order they are given. -/
inductive Slot where
  | file
  | first
  | last
  | perLine
  deriving DecidableEq, Repr

namespace Slot

/-- Every slot, in order. -/
def all : List Slot := [file, first, last, perLine]

/-- The slot's name in messages and in the usage text. -/
def name : Slot → String
  | file => "file"
  | first => "start"
  | last => "end"
  | perLine => "per_line"

/-- What the slot holds, for the usage text. -/
def summary : Slot → String
  | file => "Character ROM to view."
  | first => "Index of the first character to draw."
  | last => "Index of the last character to draw (default: start)."
  | perLine => "Characters drawn side by side (default: 4)."

end Slot

/-- Why a command line cannot be read. -/
inductive ArgFault where
  /-- A one-letter option that is no flag. -/
  | unrecognizedShort (c : Char)
  /-- A long option that is no flag. -/
  | unrecognizedLong (name : String)
  /-- A flag given a value. -/
  | unexpectedValue (name : String)
  /-- A free argument past the last slot. -/
  | unexpectedFree (text : String)
  /-- A slot's argument that is not a count. -/
  | badNumber (slot : Slot) (cause : DecimalFault)
  /-- The file or the first index is missing. -/
  | missingFree
  deriving DecidableEq, Repr

/-- The sentence for a command line that cannot be read. -/
def ArgFault.message : ArgFault → String
  | .unrecognizedShort c => "unrecognized option `-" ++ c.toString ++ "`"
  | .unrecognizedLong name => "unrecognized option `--" ++ name ++ "`"
  | .unexpectedValue name => "option `--" ++ name ++ "` does not accept an argument"
  | .unexpectedFree text => "unexpected free argument `" ++ text ++ "`"
  | .badNumber slot cause =>
    "invalid argument to option `" ++ slot.name ++ "`: " ++ cause.message
  | .missingFree => "missing required free argument"

/-- What a command line asks of the viewer. -/
structure Invocation where
  help : Bool := false
  file : String := ""
  first : Nat := 0
  last : Option Nat := none
  perLine : Option Nat := none
  ascii : Bool := false
  color : Bool := false
  braille : Bool := false
  deriving DecidableEq, Repr

namespace Invocation

/-- The invocation with a flag set. -/
def setFlag (inv : Invocation) : Flag → Invocation
  | .help => { inv with help := true }
  | .ascii => { inv with ascii := true }
  | .color => { inv with color := true }
  | .braille => { inv with braille := true }

/-- A count for a slot, or the fault naming the slot. -/
def count? (slot : Slot) (text : String) : Except ArgFault Nat :=
  match Decimal.read? text with
  | .ok n => .ok n
  | .error e => .error (.badNumber slot e)

/-- The invocation with a slot filled from its argument. -/
def fill (inv : Invocation) (text : String) : Slot → Except ArgFault Invocation
  | .file => .ok { inv with file := text }
  | .first => do let n ← count? .first text; pure { inv with first := n }
  | .last => do let n ← count? .last text; pure { inv with last := some n }
  | .perLine => do let n ← count? .perLine text; pure { inv with perLine := some n }

/-- Takes one token into the invocation read so far and the number of free arguments taken. -/
def take (state : Invocation × Nat) : Token → Except ArgFault (Invocation × Nat)
  | .short c =>
    match Flag.ofShort? c with
    | some f => .ok (state.1.setFlag f, state.2)
    | none => .error (.unrecognizedShort c)
  | .long name =>
    match Flag.ofLong? name with
    | some f => .ok (state.1.setFlag f, state.2)
    | none => .error (.unrecognizedLong name)
  | .longWithValue name _ =>
    match Flag.ofLong? name with
    | some _ => .error (.unexpectedValue name)
    | none => .error (.unrecognizedLong name)
  | .free text =>
    match Slot.all[state.2]? with
    | some slot => do
      let inv ← state.1.fill text slot
      pure (inv, state.2 + 1)
    | none => .error (.unexpectedFree text)

/-- The invocation a command line (program name left out) asks for. -/
def parse? (args : List String) : Except ArgFault Invocation := do
  let (inv, frees) ← (Token.ofArgs args).foldlM take ({}, 0)
  if !inv.help && frees < 2 then throw .missingFree
  pure inv

/-- The glyphs to draw: from the first index to the last, or to the first when no last is given. -/
def range (inv : Invocation) : Nat × Nat := (inv.first, inv.last.getD inv.first)

/-- The layout to draw with: the default, with the glyphs per line and the flags applied. -/
def layout (inv : Invocation) : Layout :=
  let base : Layout := {}
  ((base.withPerLine (inv.perLine.getD base.perLine)).withAscii inv.ascii).withColor inv.color

end Invocation

end CharRom

namespace CharRom.Usage

/-- The free arguments as the usage line shows them. -/
def freeLine : String :=
  "<rom filename> <character start index> [character end index] [chars per line]"

/-- A flag's label: its one-letter and its long name. -/
def flagLabel (f : Flag) : String := "-" ++ f.short.toString ++ ", --" ++ f.long

/-- Every entry as a label and a description, free arguments first. -/
def entries : List (String × String) × List (String × String) :=
  (Slot.all.map fun s => (s.name, s.summary), Flag.all.map fun f => (flagLabel f, f.summary))

/-- The column the descriptions start in, after the two-space indent. -/
def labelWidth : Nat :=
  (entries.1 ++ entries.2).foldl (fun w e => max w e.1.length) 0 + 2

/-- One entry as a line. -/
def entryLine (e : String × String) : String :=
  "  " ++ e.1 ++ String.ofList (List.replicate (labelWidth - e.1.length) ' ') ++ e.2

/-- The usage text for a program called `program`. -/
def text (program : String) : String :=
  "usage: " ++ program ++ " [OPTIONS] " ++ freeLine ++ "\n\n" ++
    "\n".intercalate ("Positional arguments:" :: entries.1.map entryLine) ++ "\n\n" ++
    "\n".intercalate ("Optional arguments:" :: entries.2.map entryLine)

end CharRom.Usage
