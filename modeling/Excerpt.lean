import Excerpt.Demo.Functions
import Excerpt.Demo.MacroDefinitions
import Excerpt.Demo.MacroUses
import Excerpt.Main
import Excerpt.Proto.Grammar
import Excerpt.Round.Report
import Excerpt.Proofs.Region.Changed
import Excerpt.Proofs.Session.Order
import Excerpt.Proofs.Grammar.Total
import Excerpt.Proofs.Cpp.FunctionSection
import Excerpt.Proofs.Proto.Message
import Excerpt.Proofs.Diff.Lost
import Excerpt.Proofs.Region.Benign
import Excerpt.Proofs.Git.Blame
import Excerpt.Proofs.Session.Remap
import Excerpt.Proofs.Marker.Nested
import Excerpt.Proofs.Cpp.MacroSection
import Excerpt.Proofs.Macro.Extent
import Excerpt.Proofs.Macro.Argument
import Excerpt.Proofs.Macro.Splice
import Excerpt.Proofs.Tag.Locate
import Excerpt.Proofs.Cpp.QueriedRecord
import Excerpt.Proofs.Fixture.Copies
import Excerpt.Proofs.Git.Site
import Excerpt.Proofs.Command.InPlace
import Excerpt.Proofs.Command.Uncovered
import Excerpt.Proofs.Diff.Insertion
import Excerpt.Proofs.Marker.Fallback
