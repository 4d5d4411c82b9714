import BlockTemplate.Block
import BlockTemplate.Code.Base64
import BlockTemplate.Code.Basic
import BlockTemplate.Code.Bits
import BlockTemplate.Code.Gzip
import BlockTemplate.Code.Huffman
import BlockTemplate.Code.Inflate
import BlockTemplate.CommandLine.Options
import BlockTemplate.CommandLine.Run
import BlockTemplate.Compile
import BlockTemplate.Decimal.Basic
import BlockTemplate.Decimal.Layout
import BlockTemplate.Decimal.Shortest
import BlockTemplate.Emission.Arguments
import BlockTemplate.Emission.Basic
import BlockTemplate.Emission.Headers
import BlockTemplate.Error
import BlockTemplate.Json.Basic
import BlockTemplate.Json.Escape
import BlockTemplate.Json.Fields
import BlockTemplate.Json.Parser
import BlockTemplate.Json.Printer
import BlockTemplate.Limits
import BlockTemplate.Listing
import BlockTemplate.Main
import BlockTemplate.Proofs.Code.Base64
import BlockTemplate.Proofs.Code.Gzip
import BlockTemplate.Proofs.Code.Normal
import BlockTemplate.Proofs.Code.RoundTrip
import BlockTemplate.Proofs.Decimal.Arithmetic
import BlockTemplate.Proofs.Decimal.Digits
import BlockTemplate.Proofs.Decimal.Double
import BlockTemplate.Proofs.Decimal.Nearest
import BlockTemplate.Proofs.Decimal.Rounding
import BlockTemplate.Proofs.Decimal.Shortest
import BlockTemplate.Proofs.Decimal.Whole
import BlockTemplate.Proofs.Emission.Blame
import BlockTemplate.Proofs.Emission.Brackets
import BlockTemplate.Proofs.Emission.EmptyElse
import BlockTemplate.Proofs.Emission.Headers
import BlockTemplate.Proofs.Emission.Line
import BlockTemplate.Proofs.Emission.Matching
import BlockTemplate.Proofs.Emission.Placement
import BlockTemplate.Proofs.Emission.Renumbering
import BlockTemplate.Proofs.Emission.Slots
import BlockTemplate.Proofs.Emission.Sound
import BlockTemplate.Proofs.Emission.Steps
import BlockTemplate.Proofs.Emission.Tags
import BlockTemplate.Proofs.Emission.Variables
import BlockTemplate.Proofs.Json.Denoted
import BlockTemplate.Proofs.Json.Escape
import BlockTemplate.Proofs.Json.Layout
import BlockTemplate.Proofs.Json.Number
import BlockTemplate.Proofs.Json.Reading
import BlockTemplate.Proofs.Json.Real
import BlockTemplate.Proofs.Json.Written
import BlockTemplate.Proofs.Keys
import BlockTemplate.Proofs.Listing
import BlockTemplate.Proofs.Outcome
import BlockTemplate.Proofs.Record.Accepted
import BlockTemplate.Proofs.Record.Layout
import BlockTemplate.Proofs.Record.RoundTrip
import BlockTemplate.Proofs.Schema.Merge
import BlockTemplate.Proofs.Schema.Table
import BlockTemplate.Proofs.Script.Agreement
import BlockTemplate.Proofs.Script.ArgumentOrder
import BlockTemplate.Proofs.Script.Attempts
import BlockTemplate.Proofs.Script.Blame
import BlockTemplate.Proofs.Script.Completeness
import BlockTemplate.Proofs.Script.Cursor
import BlockTemplate.Proofs.Script.Evaluation
import BlockTemplate.Proofs.Script.Expressions
import BlockTemplate.Proofs.Script.Failures
import BlockTemplate.Proofs.Script.FirstFault
import BlockTemplate.Proofs.Script.Grammar
import BlockTemplate.Proofs.Script.Lexing
import BlockTemplate.Proofs.Script.Lookahead
import BlockTemplate.Proofs.Script.Nesting
import BlockTemplate.Proofs.Script.Parsing
import BlockTemplate.Proofs.Script.Places
import BlockTemplate.Proofs.Script.Recognition
import BlockTemplate.Proofs.Script.Respacing
import BlockTemplate.Proofs.Script.Soundness
import BlockTemplate.Proofs.Script.Spelling
import BlockTemplate.Proofs.Script.Tiling
import BlockTemplate.Proofs.Script.TokenText
import BlockTemplate.Proofs.Script.Variables
import BlockTemplate.Proofs.Script.Viability
import BlockTemplate.Proofs.Script.Writing
import BlockTemplate.Proofs.Session.CallTree
import BlockTemplate.Proofs.Session.Closed
import BlockTemplate.Proofs.Session.Coherence
import BlockTemplate.Proofs.Session.DeclarationLog
import BlockTemplate.Proofs.Session.DeclarationOrder
import BlockTemplate.Proofs.Session.ElseEntry
import BlockTemplate.Proofs.Session.Frames
import BlockTemplate.Proofs.Session.Indices
import BlockTemplate.Proofs.Session.LinearPass
import BlockTemplate.Proofs.Session.Renumbering
import BlockTemplate.Proofs.Session.Run
import BlockTemplate.Proofs.Session.Unclosed
import BlockTemplate.Proofs.Session.Visibility
import BlockTemplate.Proofs.Text.Color
import BlockTemplate.Proofs.TextMap
import BlockTemplate.Proofs.Value.Encoding
import BlockTemplate.Proofs.Value.ItemText
import BlockTemplate.Proofs.Value.OneLine
import BlockTemplate.Proofs.Value.Rules
import BlockTemplate.Proofs.Value.TagEntries
import BlockTemplate.Proofs.Value.TextComponent
import BlockTemplate.Record.Document
import BlockTemplate.Record.Parameter
import BlockTemplate.Record.Read
import BlockTemplate.Record.Write
import BlockTemplate.Report
import BlockTemplate.Schema.Basic
import BlockTemplate.Schema.Builtin
import BlockTemplate.Schema.Table
import BlockTemplate.Schema.Toml
import BlockTemplate.Script.Attempt
import BlockTemplate.Script.Constructor
import BlockTemplate.Script.Error
import BlockTemplate.Script.Lexer
import BlockTemplate.Script.Parser
import BlockTemplate.Script.Replay
import BlockTemplate.Script.Statement
import BlockTemplate.Script.Token
import BlockTemplate.Session.Basic
import BlockTemplate.Session.Call
import BlockTemplate.Session.Declarations
import BlockTemplate.Session.Flat
import BlockTemplate.Settings.Basic
import BlockTemplate.Settings.Toml
import BlockTemplate.Target
import BlockTemplate.Text.Basic
import BlockTemplate.Text.Quoted
import BlockTemplate.TextMap
import BlockTemplate.Toml.Basic
import BlockTemplate.Toml.Fields
import BlockTemplate.Toml.Moment
import BlockTemplate.Toml.Parser
import BlockTemplate.Toml.Tables
import BlockTemplate.Value.Basic
import BlockTemplate.Value.Display
import BlockTemplate.Value.Encode
import BlockTemplate.Value.Error
import BlockTemplate.Value.ItemText
import BlockTemplate.Value.Kind
