import SchemaLang.Attribute.Basic
import SchemaLang.Attribute.Reader
import SchemaLang.CommandLine.Arguments
import SchemaLang.CommandLine.Execution
import SchemaLang.CommandLine.Run
import SchemaLang.Definition.Basic
import SchemaLang.Definition.Reader
import SchemaLang.Diagnostic
import SchemaLang.Evaluator
import SchemaLang.FieldType.Basic
import SchemaLang.FieldType.Reader
import SchemaLang.Files.Basic
import SchemaLang.Files.Fault
import SchemaLang.Json
import SchemaLang.Main
import SchemaLang.Proofs.Blindness
import SchemaLang.Proofs.Boundaries
import SchemaLang.Proofs.Combining
import SchemaLang.Proofs.Commands
import SchemaLang.Proofs.Confinement
import SchemaLang.Proofs.Counting
import SchemaLang.Proofs.Decoding
import SchemaLang.Proofs.Documentation
import SchemaLang.Proofs.Exactness
import SchemaLang.Proofs.Extents
import SchemaLang.Proofs.Grammar.Attribute
import SchemaLang.Proofs.Grammar.Definition
import SchemaLang.Proofs.Grammar.Field
import SchemaLang.Proofs.Grammar.FieldType
import SchemaLang.Proofs.Grammar.Schema
import SchemaLang.Proofs.Grammar.Token
import SchemaLang.Proofs.Histories
import SchemaLang.Proofs.Integers
import SchemaLang.Proofs.Joining
import SchemaLang.Proofs.JsonReading
import SchemaLang.Proofs.Layout
import SchemaLang.Proofs.Lexemes
import SchemaLang.Proofs.Lexing
import SchemaLang.Proofs.Literals
import SchemaLang.Proofs.Modularity
import SchemaLang.Proofs.Naming
import SchemaLang.Proofs.Nesting
import SchemaLang.Proofs.NumberPlaces
import SchemaLang.Proofs.Numerals
import SchemaLang.Proofs.Opcodes
import SchemaLang.Proofs.Order
import SchemaLang.Proofs.Permissions
import SchemaLang.Proofs.Pinpointing
import SchemaLang.Proofs.Places
import SchemaLang.Proofs.Positions
import SchemaLang.Proofs.Printing
import SchemaLang.Proofs.Promptness
import SchemaLang.Proofs.Relocation
import SchemaLang.Proofs.Removal
import SchemaLang.Proofs.Reports
import SchemaLang.Proofs.Resolution
import SchemaLang.Proofs.RoundTrip
import SchemaLang.Proofs.Scanning
import SchemaLang.Proofs.Searching
import SchemaLang.Proofs.Spacing
import SchemaLang.Proofs.Spelling
import SchemaLang.Proofs.Streams
import SchemaLang.Proofs.Suggestions
import SchemaLang.Proofs.WellFormed
import SchemaLang.Proofs.Wording
import SchemaLang.Schema.Basic
import SchemaLang.Schema.Export
import SchemaLang.Schema.Reader
import SchemaLang.Schema.Recorder
import SchemaLang.Schema.References
import SchemaLang.Schema.Validation
import SchemaLang.Source
import SchemaLang.Span
import SchemaLang.Text.Blank
import SchemaLang.Text.DecimalDigit
import SchemaLang.Text.Numeral
import SchemaLang.Text.Pattern
import SchemaLang.Text.Quoted
import SchemaLang.Text.Separated
import SchemaLang.Token.Basic
import SchemaLang.Token.Element
import SchemaLang.Token.Lexer
import SchemaLang.Token.Reader
import SchemaLang.Workspace
