import UtilityCss.Main
import UtilityCss.Proofs.FirstSeen
import UtilityCss.Proofs.Scanning
import UtilityCss.Proofs.SheetLayout
import UtilityCss.Proofs.SelectorReading
import UtilityCss.Proofs.MinifiedSelector
import UtilityCss.Proofs.References
import UtilityCss.Proofs.ScriptLines
import UtilityCss.Proofs.ScriptPlan
import UtilityCss.Proofs.Gathering
import UtilityCss.Proofs.RuntimeSupport
import UtilityCss.Proofs.Passes
import UtilityCss.Proofs.SourceOrder
import UtilityCss.Proofs.VariableNames
import UtilityCss.Proofs.Chunks
import UtilityCss.Proofs.Headers
import UtilityCss.Proofs.Templates
import UtilityCss.Proofs.ScriptTemplate
import UtilityCss.Proofs.Entries
import UtilityCss.Proofs.PlaceChanges
import UtilityCss.Proofs.Saving
import UtilityCss.Proofs.Build
import UtilityCss.Proofs.PathOrder
import UtilityCss.Proofs.ProperTrees
import UtilityCss.Proofs.Discovery
import UtilityCss.Proofs.Confinement
import UtilityCss.Proofs.Ancestors
import UtilityCss.Proofs.SavingAgain
import UtilityCss.Proofs.Rebuild
import UtilityCss.Proofs.LongRoot
import UtilityCss.Proofs.Glyphs
import UtilityCss.Proofs.GlyphSites
import UtilityCss.Proofs.SecondPass
import UtilityCss.Proofs.OperatorSpacing
import UtilityCss.Proofs.Readings
import UtilityCss.Proofs.Mentions
import UtilityCss.Proofs.Substitution
import UtilityCss.Proofs.Parts
import UtilityCss.Proofs.Shapes
import UtilityCss.Proofs.RuleForms
import UtilityCss.Proofs.Breakpoints
import UtilityCss.Proofs.NestedValues
import UtilityCss.Proofs.ChunkLayout
import UtilityCss.Proofs.JoinedLines
import UtilityCss.Proofs.MinifiedSheet
import UtilityCss.Proofs.ThemeLookup
import UtilityCss.Proofs.TokenForms
import UtilityCss.Proofs.Attributes
import UtilityCss.Proofs.ClassCopies
import UtilityCss.Proofs.ElementLookup
import UtilityCss.Proofs.Overlays
import UtilityCss.Proofs.OuterCommas
