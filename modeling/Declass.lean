import Declass.Main
import Declass.Proofs.AlignedTemplates
import Declass.Proofs.CharacterKinds
import Declass.Proofs.Composition
import Declass.Proofs.ConstructorStatements
import Declass.Proofs.Destructurings
import Declass.Proofs.DryRuns
import Declass.Proofs.Flattenings
import Declass.Proofs.GeneratedModules
import Declass.Proofs.InputSafety
import Declass.Proofs.LinePositions
import Declass.Proofs.LiteralLayout
import Declass.Proofs.MatchedBrackets
import Declass.Proofs.ModeStacks
import Declass.Proofs.NoFaults
import Declass.Proofs.OptionalSemicolons
import Declass.Proofs.RoundTrip
import Declass.Proofs.SeparatedParts
import Declass.Proofs.SetterCalls
import Declass.Proofs.StateAccounts
import Declass.Proofs.StateInitializers
import Declass.Proofs.Surroundings
import Declass.Proofs.UnclosedMarkup
