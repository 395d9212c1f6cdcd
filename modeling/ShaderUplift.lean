import ShaderUplift.Body
import ShaderUplift.CommandLine
import ShaderUplift.Conversion
import ShaderUplift.Declaration.Basic
import ShaderUplift.Declaration.Statement
import ShaderUplift.Document
import ShaderUplift.EntryPoint
import ShaderUplift.Error
import ShaderUplift.Files.Batch
import ShaderUplift.Files.Pairs
import ShaderUplift.Files.Path
import ShaderUplift.Files.Store
import ShaderUplift.Interface
import ShaderUplift.Layout.Basic
import ShaderUplift.Layout.Planner
import ShaderUplift.Lexing.Glyph
import ShaderUplift.Lexing.Lexeme
import ShaderUplift.Lexing.Literal
import ShaderUplift.Lexing.Token
import ShaderUplift.Lexing.Vocabulary
import ShaderUplift.Main
import ShaderUplift.Notice
import ShaderUplift.Preprocessing.Condition
import ShaderUplift.Preprocessing.Directive
import ShaderUplift.Preprocessing.Macro
import ShaderUplift.Preprocessing.Stream
import ShaderUplift.ShaderUnit
import ShaderUplift.Source.Comments
import ShaderUplift.Source.EntryPoint
import ShaderUplift.Source.Words
import ShaderUplift.Stage
import ShaderUplift.Table
import ShaderUplift.Text.Blank
import ShaderUplift.Text.Numeral
import ShaderUplift.Text.Quoted
import ShaderUplift.Proofs.Layout.Placing
import ShaderUplift.Proofs.Conversion
import ShaderUplift.Proofs.Classification
import ShaderUplift.Proofs.Layout.OneBlock
import ShaderUplift.Proofs.Locations
import ShaderUplift.Proofs.Members
import ShaderUplift.Proofs.Qualification.Exposure
import ShaderUplift.Proofs.Source.CommentFree
import ShaderUplift.Proofs.Lexing.PlainText
import ShaderUplift.Proofs.Lexing.Literal
import ShaderUplift.Proofs.Preprocessing.PlainStream
import ShaderUplift.Proofs.Qualification.Tidy
import ShaderUplift.Proofs.Qualification.Elements
import ShaderUplift.Proofs.Qualification.Uniforms
import ShaderUplift.Proofs.Preprocessing.Origins
import ShaderUplift.Proofs.Reproduction
import ShaderUplift.Proofs.Layout.Totals
import ShaderUplift.Proofs.Layout.Room
import ShaderUplift.Proofs.Acceptance
import ShaderUplift.Proofs.Strategy
import ShaderUplift.Proofs.Layout.Buffer
import ShaderUplift.Proofs.Declared
import ShaderUplift.Proofs.Retention
import ShaderUplift.Proofs.VaryingNames
import ShaderUplift.Proofs.Source.InsertedLine
import ShaderUplift.Proofs.Scanning
import ShaderUplift.Proofs.Source.EntryPosition
import ShaderUplift.Proofs.UnusedDeclaration
import ShaderUplift.Proofs.Bindings
import ShaderUplift.Proofs.Layout.Calls
import ShaderUplift.Proofs.VaryingTypes
import ShaderUplift.Proofs.Comments.Replacement
import ShaderUplift.Proofs.Comments.Symbols
import ShaderUplift.Proofs.Comments.Sections
import ShaderUplift.Proofs.Comments.Banners
import ShaderUplift.Proofs.Source.Braces
import ShaderUplift.Proofs.Extraction
import ShaderUplift.Proofs.Files.Places
import ShaderUplift.Proofs.Files.Found
import ShaderUplift.Proofs.Files.Turns
import ShaderUplift.Proofs.Files.Entries
import ShaderUplift.Proofs.Files.Effects
import ShaderUplift.Proofs.Files.Order
import ShaderUplift.Proofs.Source.Normalization
import ShaderUplift.Proofs.Source.EntrySearch
import ShaderUplift.Proofs.Accesses
import ShaderUplift.Proofs.IndexLiterals
import ShaderUplift.Proofs.Layout.NewFields
import ShaderUplift.Proofs.Layout.Interleaving
import ShaderUplift.Proofs.Layout.Budget
import ShaderUplift.Proofs.Layout.Capacity
import ShaderUplift.Proofs.Files.Slots
import ShaderUplift.Proofs.Files.Mirror
import ShaderUplift.Proofs.Source.WordPlaces
import ShaderUplift.Proofs.DefinitionLines
import ShaderUplift.Proofs.DroppedNames
