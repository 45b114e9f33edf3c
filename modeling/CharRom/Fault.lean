/-!
# Faults

The ways reading a character ROM and checking a range of its glyphs can fail, each with the
sentence the viewer prints for it. `IoFault` is the operating system's reason a file could not
be read; `Fault` adds the viewer's own checks on glyph indices and layouts.
-/

namespace CharRom

/-- Why the operating system refused to hand over the bytes of a file. -/
inductive IoFault where
  /-- No entry of that name exists along the path. -/
  | notFound
  /-- A component that has to be a directory is a file. -/
  | notDirectory
  /-- The path names a directory, which has no bytes to read. -/
  | isDirectory
  /-- The path, or one of its components, is longer than the system allows. -/
  | nameTooLong
  /-- The path holds a NUL character, which no file name can. -/
  | nulInName
  /-- Any other refusal, by its error number and the system's sentence for it. -/
  | other (code : Nat) (text : String)
  deriving DecidableEq, Repr

namespace IoFault

/-- A refusal of the system reads as its sentence followed by its error number. -/
def osText (text : String) (code : Nat) : String :=
  text ++ " (os error " ++ toString code ++ ")"

/-- The text of a refusal. -/
def message : IoFault → String
  | notFound => osText "No such file or directory" 2
  | notDirectory => osText "Not a directory" 20
  | isDirectory => osText "Is a directory" 21
  | nameTooLong => osText "File name too long" 36
  | nulInName => "file name contained an unexpected NUL byte"
  | other code text => osText text code

/-- The refusal for an error number of the system, with its sentence for numbers not named here. -/
def ofCode (code : Nat) (text : String) : IoFault :=
  match code with
  | 2 => notFound
  | 20 => notDirectory
  | 21 => isDirectory
  | 36 => nameTooLong
  | _ => other code text

end IoFault

/-- Why a ROM could not be read or a range of its glyphs could not be drawn. -/
inductive Fault where
  /-- The file at `path` could not be read. -/
  | unreadable (path : String) (cause : IoFault)
  /-- Glyph `index` does not lie wholly inside a ROM of `size` bytes, which holds `glyphs` glyphs. -/
  | glyphOutOfRange (index glyphs size : Nat)
  /-- The last index of a range comes before its first. -/
  | invertedRange (first last : Nat)
  /-- A layout asked for no glyphs per line. -/
  | zeroPerLine
  deriving DecidableEq, Repr

/-- The sentence printed for a fault. -/
def Fault.message : Fault → String
  | .unreadable path cause => "could not read " ++ path ++ ": " ++ cause.message
  | .glyphOutOfRange index glyphs size =>
    "glyph " ++ toString index ++ " is out of range (ROM holds " ++ toString glyphs ++
      " glyphs in " ++ toString size ++ " bytes)"
  | .invertedRange first last =>
    "end index " ++ toString last ++ " precedes start index " ++ toString first
  | .zeroPerLine => "glyphs per line must be at least 1"

end CharRom
