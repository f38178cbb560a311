import MacroScript.Analysis
import MacroScript.Catalogue.Hints
import MacroScript.Catalogue.Members
import MacroScript.Command
import MacroScript.Completion.Candidate
import MacroScript.Completion.Description
import MacroScript.Completion.Offer
import MacroScript.Diagnostic.Basic
import MacroScript.Diagnostic.Comparison
import MacroScript.Diagnostic.Condition
import MacroScript.Diagnostic.Copy
import MacroScript.Diagnostic.Declaration
import MacroScript.Diagnostic.Header
import MacroScript.Diagnostic.Issue
import MacroScript.Diagnostic.Loop
import MacroScript.Diagnostic.Statement
import MacroScript.Document.Edit
import MacroScript.Document.Fingerprint
import MacroScript.Encoding
import MacroScript.Inference
import MacroScript.Json.Basic
import MacroScript.Json.Printer
import MacroScript.Json.Reader
import MacroScript.Line
import MacroScript.Main
import MacroScript.Path
import MacroScript.Position
import MacroScript.Proofs.Completion.Names
import MacroScript.Proofs.Completion.Owner
import MacroScript.Proofs.Diagnostic.Comment
import MacroScript.Proofs.Diagnostic.Comparison
import MacroScript.Proofs.Diagnostic.Condition
import MacroScript.Proofs.Diagnostic.Declaration
import MacroScript.Proofs.Diagnostic.DeclaredName
import MacroScript.Proofs.Diagnostic.Header
import MacroScript.Proofs.Diagnostic.Indent
import MacroScript.Proofs.Diagnostic.Issue
import MacroScript.Proofs.Diagnostic.Operator
import MacroScript.Proofs.Diagnostic.Placement
import MacroScript.Proofs.Diagnostic.Range
import MacroScript.Proofs.Diagnostic.Registration
import MacroScript.Proofs.Diagnostic.Renumber
import MacroScript.Proofs.Diagnostic.UnknownValue
import MacroScript.Proofs.Diagnostic.ValueEnd
import MacroScript.Proofs.Document.Place
import MacroScript.Proofs.Document.Splice
import MacroScript.Proofs.Inference.FindCall
import MacroScript.Proofs.Inference.Literal
import MacroScript.Proofs.Inference.Name
import MacroScript.Proofs.Inference.Opening
import MacroScript.Proofs.Inference.Pieces
import MacroScript.Proofs.Inference.Receiver
import MacroScript.Proofs.Line.Chain
import MacroScript.Proofs.Line.Code
import MacroScript.Proofs.Line.Comment
import MacroScript.Proofs.Line.Indent
import MacroScript.Proofs.Line.Layout
import MacroScript.Proofs.Line.Literal
import MacroScript.Proofs.Line.Mask
import MacroScript.Proofs.Line.Overlay
import MacroScript.Proofs.Program.Bracket
import MacroScript.Proofs.Program.Clean
import MacroScript.Proofs.Program.Condition
import MacroScript.Proofs.Program.Copy
import MacroScript.Proofs.Program.DoBlock
import MacroScript.Proofs.Program.Form
import MacroScript.Proofs.Program.Header
import MacroScript.Proofs.Program.Piece
import MacroScript.Proofs.Program.Statement
import MacroScript.Proofs.Program.Words
import MacroScript.Proofs.Report.ErrorLines
import MacroScript.Proofs.Server.DueOrder
import MacroScript.Proofs.Server.Interleaving
import MacroScript.Proofs.Server.Publication
import MacroScript.Proofs.Server.Reload
import MacroScript.Proofs.Server.Resolution
import MacroScript.Proofs.Server.Run
import MacroScript.Proofs.Server.Validation
import MacroScript.Proofs.Symbol.Action
import MacroScript.Proofs.Symbol.Alias
import MacroScript.Proofs.Symbol.Bare
import MacroScript.Proofs.Symbol.BraceScope
import MacroScript.Proofs.Symbol.Braces
import MacroScript.Proofs.Symbol.Clear
import MacroScript.Proofs.Symbol.DoBlockEnds
import MacroScript.Proofs.Symbol.Expiry
import MacroScript.Proofs.Symbol.Growth
import MacroScript.Proofs.Symbol.Halving
import MacroScript.Proofs.Symbol.History
import MacroScript.Proofs.Symbol.Indent
import MacroScript.Proofs.Symbol.Literal
import MacroScript.Proofs.Symbol.LoopVariable
import MacroScript.Proofs.Symbol.Nesting
import MacroScript.Proofs.Symbol.OpenNames
import MacroScript.Proofs.Symbol.Outermost
import MacroScript.Proofs.Symbol.Pending
import MacroScript.Proofs.Symbol.Renumber
import MacroScript.Proofs.Symbol.Sketch
import MacroScript.Proofs.Symbol.Step
import MacroScript.Proofs.Symbol.Value
import MacroScript.Proofs.Symbol.Written
import MacroScript.Proofs.Text.Column
import MacroScript.Proofs.Text.Hollow
import MacroScript.Proofs.Text.Part
import MacroScript.Proofs.Text.Quoting
import MacroScript.Proofs.Token.Ascii
import MacroScript.Proofs.Token.DecimalPoint
import MacroScript.Proofs.Token.Locality
import MacroScript.Proofs.Token.Name
import MacroScript.Proofs.Token.OpenLiteral
import MacroScript.Proofs.Token.Partner
import MacroScript.Proofs.Token.Span
import MacroScript.Proofs.Token.TopLevel
import MacroScript.Server.Document
import MacroScript.Server.Item
import MacroScript.Server.Message
import MacroScript.Server.Validation
import MacroScript.Server.World
import MacroScript.Settings
import MacroScript.Shape
import MacroScript.Symbol.Basic
import MacroScript.Symbol.Collector
import MacroScript.Symbol.Table
import MacroScript.Tag
import MacroScript.Text.Basic
import MacroScript.Text.Character
import MacroScript.Text.Lemmas
import MacroScript.Text.Letter
import MacroScript.Text.Numeral
import MacroScript.Text.Quoting
import MacroScript.Text.Word
import MacroScript.Token.Basic
import MacroScript.Token.Group
import MacroScript.Token.Lemmas
import MacroScript.Token.Scan
import MacroScript.Token.Split
import MacroScript.Url.Basic
import MacroScript.Url.Host
import MacroScript.Url.Percent
import MacroScript.Url.Punycode
