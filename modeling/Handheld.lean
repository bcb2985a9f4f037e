import Handheld.Machine.Screen
import Handheld.Main
import Handheld.Proofs.Source.Execution
import Handheld.Proofs.Machine.Lvalues
import Handheld.Proofs.Source.Returns
import Handheld.Proofs.Session.Refusal
import Handheld.Proofs.Source.Folding
import Handheld.Proofs.Source.CharArrays
import Handheld.Proofs.Transcript
import Handheld.Proofs.Raster.Region
import Handheld.Proofs.Files.Confinement
import Handheld.Proofs.Files.Positions
import Handheld.Proofs.Machine.StringOperands
import Handheld.Proofs.Source.Elements
import Handheld.Proofs.Source.Binding
import Handheld.Proofs.Raster.Line
import Handheld.Proofs.Machine.Blocks
import Handheld.Proofs.Machine.Searching
import Handheld.Proofs.Printf
import Handheld.Proofs.Machine.Heap
import Handheld.Proofs.Source.LexicalErrors
import Handheld.Proofs.Source.MacroUses
