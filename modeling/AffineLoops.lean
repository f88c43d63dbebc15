import AffineLoops.Accelerator
import AffineLoops.Serial.Loops
import AffineLoops.Serial.Settings
import AffineLoops.Settings.Environment
import AffineLoops.Settings.File
import AffineLoops.Number.FloatText
import AffineLoops.Proofs.CodeGrammar
import AffineLoops.Proofs.MatrixPowers
import AffineLoops.Proofs.ProgressionElements
import AffineLoops.Proofs.Acceptance
import AffineLoops.Proofs.CompiledSafety
import AffineLoops.Proofs.CompilerCorrectness
import AffineLoops.Proofs.FlagIndependence
import AffineLoops.Proofs.LiteralProgress
import AffineLoops.Proofs.SessionTransparency
import AffineLoops.Proofs.WriteSet
import AffineLoops.Proofs.TypeGate
import AffineLoops.Proofs.CounterProgress
import AffineLoops.Proofs.FreedSlots
import AffineLoops.Proofs.Listings
import AffineLoops.Proofs.ConstantComposition
import AffineLoops.Proofs.MatrixProducts
import AffineLoops.Proofs.ProgressionViews
import AffineLoops.Proofs.IntegerOperations
