import GraphBoard.Scalar.Double
import GraphBoard.Document.Load
import GraphBoard.Sample.Bundled
import GraphBoard.Sample.Chain
import GraphBoard.Session.Basic
import GraphBoard.Proofs.Scalar.Order
import GraphBoard.Proofs.Editor.Answer
import GraphBoard.Proofs.Arises
import GraphBoard.Proofs.Graph.Generated
import GraphBoard.Proofs.Layout.Distance
import GraphBoard.Proofs.Layout.Placement
import GraphBoard.Proofs.Session.Gesture
import GraphBoard.Proofs.Scalar.Exact
import GraphBoard.Proofs.View.Pointer
import GraphBoard.Proofs.View.Held
import GraphBoard.Proofs.Editor.Edits
import GraphBoard.Proofs.Graph.Style
import GraphBoard.Proofs.Session.Run
import GraphBoard.Proofs.Session.Style
import GraphBoard.Proofs.Session.Pointer
import GraphBoard.Proofs.Document.Field
import GraphBoard.Proofs.Document.Record
import GraphBoard.Proofs.Document.Exact
import GraphBoard.Proofs.Editor.Single
import GraphBoard.Proofs.Drawing.Frame
import GraphBoard.Proofs.Drawing.Neutral
import GraphBoard.Proofs.Drawing.Grid
import GraphBoard.Proofs.View.Topmost
import GraphBoard.Proofs.Json.Written
import GraphBoard.Proofs.Json.Tree
import GraphBoard.Proofs.Document.Form
import GraphBoard.Proofs.Document.Rewriting
import GraphBoard.Proofs.Json.Front
import GraphBoard.Proofs.Json.Cut
import GraphBoard.Proofs.Document.Truncated
import GraphBoard.Proofs.Editor.Delete
import GraphBoard.Drawing.Figure
import GraphBoard.Proofs.Drawing.Whole
import GraphBoard.Proofs.Session.Release
import GraphBoard.Proofs.Session.Drop
import GraphBoard.Proofs.Graph.Undo
import GraphBoard.Proofs.Double.Value
import GraphBoard.Proofs.Double.Rounding
import GraphBoard.Proofs.Double.Arithmetic
import GraphBoard.Proofs.Drawing.GridEnd
import GraphBoard.Proofs.View.Spacing
import GraphBoard.Proofs.View.Nearness
import GraphBoard.Proofs.Session.Zoom
import GraphBoard.Drawing.Style
import GraphBoard.Proofs.Sample.Chain
import GraphBoard.Proofs.Editor.Created
import GraphBoard.Proofs.Drawing.Boundary
import GraphBoard.Proofs.Drawing.Arrow
import GraphBoard.Proofs.Document.Key
import GraphBoard.Proofs.Drawing.Draft
import GraphBoard.Proofs.Layout.Generations
import GraphBoard.Proofs.Graph.Draw
