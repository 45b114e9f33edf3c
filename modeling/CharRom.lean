import CharRom.Fault
import CharRom.Scan
import CharRom.Glyph
import CharRom.Rom
import CharRom.Sheet
import CharRom.Braille
import CharRom.Volume
import CharRom.Cli.Invocation
import CharRom.Cli.Run
import CharRom.Main
import CharRom.Proofs.Numerals
import CharRom.Proofs.Batches
import CharRom.Proofs.RangeChecks
import CharRom.Proofs.Drawing
import CharRom.Proofs.PlainText
import CharRom.Proofs.Window
import CharRom.Proofs.Outcomes
import CharRom.Proofs.Colour
import CharRom.Proofs.BrailleText
import CharRom.Proofs.ScanQueues
import CharRom.Proofs.GlyphLookup
