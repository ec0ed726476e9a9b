import RuleFlow.Main
import RuleFlow.Proofs.Graph.Site
import RuleFlow.Proofs.Layout.Queue
import RuleFlow.Proofs.Graph.Recovery
import RuleFlow.Proofs.Artifact.RoundTrip
import RuleFlow.Proofs.Layout.Numbering
import RuleFlow.Proofs.Layout.Traversal
import RuleFlow.Proofs.Layout.Compiled
import RuleFlow.Proofs.Form.RoundTrip
import RuleFlow.Proofs.Graph.Edges
import RuleFlow.Proofs.Graph.Routes
import RuleFlow.Proofs.Double.Rounding
import RuleFlow.Proofs.Json.Lexeme
import RuleFlow.Proofs.Json.Reading
import RuleFlow.Proofs.Json.Results
import RuleFlow.Proofs.Rule.RoundTrip
import RuleFlow.Proofs.Graph.WellFormed
import RuleFlow.Proofs.Layout.Centering
import RuleFlow.Proofs.Layout.Spacing
import RuleFlow.Proofs.Canvas.Reading
import RuleFlow.Proofs.Artifact.Locality
import RuleFlow.Proofs.Wire.Shortest
import RuleFlow.Proofs.Artifact.Shortest
import RuleFlow.Proofs.Logic.Shape
import RuleFlow.Proofs.Layout.Drawing
import RuleFlow.Proofs.Artifact.Summary
import RuleFlow.Proofs.Form.Editing
import RuleFlow.Proofs.Graph.Json
import RuleFlow.Proofs.Form.Json
import RuleFlow.Proofs.Rule.Stored
import RuleFlow.Proofs.Double.Printing
import RuleFlow.Proofs.Json.Numbers
import RuleFlow.Proofs.Layout.Safety
import RuleFlow.Proofs.Layout.Axis
import RuleFlow.Proofs.Logic.Phrase
import RuleFlow.Proofs.Logic.Infix
import RuleFlow.Proofs.Logic.Tolerance
import RuleFlow.Proofs.Scalar.Hashing
import RuleFlow.Proofs.Logic.Pruning
import RuleFlow.Proofs.Layout.Cycles
import RuleFlow.Proofs.Logic.Parentheses
import RuleFlow.Proofs.Double.TotalOrder
import RuleFlow.Proofs.Form.Rows
import RuleFlow.Proofs.Listing.Blocks
import RuleFlow.Proofs.Graph.Rollups
import RuleFlow.Proofs.Graph.LastRun
import RuleFlow.Proofs.Layout.Contiguity
