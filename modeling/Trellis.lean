import Trellis.Dict
import Trellis.Key
import Trellis.Path
import Trellis.Value
import Trellis.Error
import Trellis.Tree
import Trellis.Children
import Trellis.Address
import Trellis.Step
import Trellis.Traversal
import Trellis.Linkage
import Trellis.Copy
import Trellis.Decimal
import Trellis.Json
import Trellis.Json.Reader
import Trellis.Document
import Trellis.Encoding
import Trellis.Table
import Trellis.Command.Arguments
import Trellis.Command.Invocation
import Trellis.Command.Run
import Trellis.Main
import Trellis.Proofs.Children
import Trellis.Proofs.Keys
import Trellis.Proofs.Held
import Trellis.Proofs.Below
import Trellis.Proofs.Outline
import Trellis.Proofs.Stepping
import Trellis.Proofs.WellLinked
import Trellis.Proofs.Rows
import Trellis.Proofs.Families
import Trellis.Proofs.Linking
import Trellis.Proofs.Search
import Trellis.Proofs.Siblings
import Trellis.Proofs.Offspring
import Trellis.Proofs.Composition
import Trellis.Proofs.Stamping
import Trellis.Proofs.Editing
import Trellis.Proofs.Removing
import Trellis.Proofs.Replacing
import Trellis.Proofs.Growing
import Trellis.Proofs.Removal
import Trellis.Proofs.Runs
import Trellis.Proofs.FullPath
import Trellis.Proofs.FreshStamp
import Trellis.Proofs.Restamping
import Trellis.Proofs.Overwriting
import Trellis.Proofs.Assigning
import Trellis.Proofs.Erasing
import Trellis.Proofs.Outcomes
import Trellis.Proofs.Failures
import Trellis.Proofs.Commuting
import Trellis.Proofs.Ownership
import Trellis.Proofs.Replacement
import Trellis.Proofs.Unfolding
import Trellis.Proofs.Copying
import Trellis.Proofs.Refusals
import Trellis.Proofs.Undoing
import Trellis.Proofs.PathText
import Trellis.Proofs.PathGrammar
import Trellis.Proofs.Positions
import Trellis.Proofs.Ending
import Trellis.Proofs.StepErrors
import Trellis.Proofs.Lookups
import Trellis.Proofs.Advancing
import Trellis.Proofs.Documents
import Trellis.Proofs.Conversion
import Trellis.Proofs.Arguments
import Trellis.Proofs.Inspection
import Trellis.Proofs.Walking
import Trellis.Proofs.Histories
import Trellis.Proofs.Orders
import Trellis.Proofs.PlainData
import Trellis.Proofs.Tables
