import Uncomment.Main
import Uncomment.Proofs.Grammar
import Uncomment.Proofs.Atoms
import Uncomment.Proofs.Standing
import Uncomment.Proofs.Emission
import Uncomment.Proofs.Buffer
import Uncomment.Proofs.Thinning
import Uncomment.Proofs.Fates
import Uncomment.Proofs.Rescan
import Uncomment.Proofs.Quiet
import Uncomment.Proofs.Idempotence
import Uncomment.Proofs.Removal
import Uncomment.Proofs.Layouts
import Uncomment.Proofs.Totality
import Uncomment.Proofs.LogicalLines
import Uncomment.Proofs.Clearing
import Uncomment.Proofs.Protection
import Uncomment.Proofs.LineCounts
import Uncomment.Proofs.DoubledQuotes
import Uncomment.Proofs.Utf8
import Uncomment.Proofs.Characters
import Uncomment.Proofs.Following
import Uncomment.Proofs.Concatenation
import Uncomment.Proofs.LineEnds
import Uncomment.Proofs.Paths
import Uncomment.Proofs.Disks
import Uncomment.Proofs.Walks
import Uncomment.Proofs.Rewriting
import Uncomment.Proofs.Files
import Uncomment.Proofs.Atomicity
import Uncomment.Proofs.Tasks
import Uncomment.Proofs.Stages
import Uncomment.Proofs.TerminalFailures
import Uncomment.Proofs.Enumeration
import Uncomment.Proofs.Distinct
import Uncomment.Proofs.Independence
import Uncomment.Proofs.Runs
import Uncomment.Proofs.Sources
import Uncomment.Proofs.Spellings
import Uncomment.Proofs.Totals
import Uncomment.Proofs.Schedules
import Uncomment.Proofs.Preview
import Uncomment.Proofs.Endings
import Uncomment.Proofs.Markup
import Uncomment.Proofs.JsonText
import Uncomment.Proofs.JsonComments
import Uncomment.Proofs.Selection
import Uncomment.Proofs.Siblings
import Uncomment.Proofs.GlobLanguage
import Uncomment.Proofs.Components
import Uncomment.Proofs.GlobSyntax
import Uncomment.Proofs.GlobRegions
import Uncomment.Proofs.GlobSearch
import Uncomment.Proofs.Expansion
import Uncomment.Proofs.Alternation
