import Gsx.Analysis.Imports
import Gsx.Analysis.LetBinding
import Gsx.Analysis.NamedRef
import Gsx.Analysis.Naming
import Gsx.Analysis.Result
import Gsx.Analysis.Source
import Gsx.Analysis.Validation
import Gsx.Class.Catalogue
import Gsx.Class.ClassList
import Gsx.Class.EditDistance
import Gsx.Class.Mapping
import Gsx.Class.Suggestion
import Gsx.Class.Translation
import Gsx.Command.Arguments
import Gsx.Command.FileTree
import Gsx.Command.Log
import Gsx.Command.Run
import Gsx.Command.SourcePath
import Gsx.Command.Usage
import Gsx.Comment
import Gsx.Config
import Gsx.Diagnostic
import Gsx.Grammar.Attribute
import Gsx.Grammar.Body
import Gsx.Grammar.Capture
import Gsx.Grammar.Fault
import Gsx.Grammar.Landmark
import Gsx.Grammar.SourceFile
import Gsx.Grammar.TokenStream
import Gsx.Identifier
import Gsx.Json.Config
import Gsx.Json.Reader
import Gsx.Json.Tables
import Gsx.Json.Value
import Gsx.Json.Writer
import Gsx.Lexer
import Gsx.Lexer.Braces
import Gsx.Lexer.Cursor
import Gsx.Lexer.Fault
import Gsx.Lexer.GoText
import Gsx.Lexer.Lexeme
import Gsx.Main
import Gsx.Number.Binary64
import Gsx.Number.FloatLiteral
import Gsx.Number.Numeral
import Gsx.Position
import Gsx.Proofs.Attachment.Keeping
import Gsx.Proofs.Attributes
import Gsx.Proofs.Bindings
import Gsx.Proofs.Blanking.Files
import Gsx.Proofs.Checking
import Gsx.Proofs.Class.EditScripts
import Gsx.Proofs.Class.Lists
import Gsx.Proofs.Class.Names
import Gsx.Proofs.Class.Suggestions
import Gsx.Proofs.ClassRanges
import Gsx.Proofs.Complaints
import Gsx.Proofs.Completion
import Gsx.Proofs.Detection
import Gsx.Proofs.Editing
import Gsx.Proofs.Failures
import Gsx.Proofs.Grammar.AccountedBodies
import Gsx.Proofs.Grammar.AccountedFiles
import Gsx.Proofs.Grammar.Alike
import Gsx.Proofs.Grammar.Appending
import Gsx.Proofs.Grammar.BodiesAlike
import Gsx.Proofs.Grammar.CapturesAlike
import Gsx.Proofs.Grammar.Commented
import Gsx.Proofs.Grammar.Crossing
import Gsx.Proofs.Grammar.Endings
import Gsx.Proofs.Grammar.FilesAlike
import Gsx.Proofs.Grammar.Following
import Gsx.Proofs.Grammar.Forward
import Gsx.Proofs.Grammar.Functions
import Gsx.Proofs.Grammar.Heads
import Gsx.Proofs.Grammar.Helpers
import Gsx.Proofs.Grammar.ImportGroups
import Gsx.Proofs.Grammar.Meeting
import Gsx.Proofs.Grammar.Move
import Gsx.Proofs.Grammar.Nesting
import Gsx.Proofs.Grammar.ParameterLists
import Gsx.Proofs.Grammar.Plain
import Gsx.Proofs.Grammar.Readers
import Gsx.Proofs.Grammar.ReadersAlike
import Gsx.Proofs.Grammar.ShortNumerals
import Gsx.Proofs.Grammar.Spelling
import Gsx.Proofs.Grammar.Statements
import Gsx.Proofs.Grammar.Termination
import Gsx.Proofs.Grammar.WholeStatements
import Gsx.Proofs.Groups.BlankLines
import Gsx.Proofs.Groups.Splitting
import Gsx.Proofs.Isolation
import Gsx.Proofs.Lexer.Calls
import Gsx.Proofs.Lexer.Closing
import Gsx.Proofs.Lexer.Coordinates
import Gsx.Proofs.Lexer.Draining
import Gsx.Proofs.Lexer.Gaps
import Gsx.Proofs.Lexer.Items
import Gsx.Proofs.Lexer.Literals
import Gsx.Proofs.Lexer.Locality
import Gsx.Proofs.Lexer.Lookahead
import Gsx.Proofs.Lexer.Lossless
import Gsx.Proofs.Lexer.Newlines
import Gsx.Proofs.Lexer.Progress
import Gsx.Proofs.Lexer.Scanners
import Gsx.Proofs.Lexer.Skipping
import Gsx.Proofs.Likeness
import Gsx.Proofs.Linking
import Gsx.Proofs.Numbering
import Gsx.Proofs.Numerals
import Gsx.Proofs.Places
import Gsx.Proofs.Reanalysis
import Gsx.Proofs.References
import Gsx.Proofs.Relinking
import Gsx.Proofs.Rendering.Bodies
import Gsx.Proofs.Rendering.Captures
import Gsx.Proofs.Rendering.Files
import Gsx.Proofs.Rendering.Heads
import Gsx.Proofs.Rendering.Leaves
import Gsx.Proofs.Rendering.Nodes
import Gsx.Proofs.Rendering.Reads
import Gsx.Proofs.Rendering.Render
import Gsx.Proofs.Rendering.Stands
import Gsx.Proofs.RuntimeImports
import Gsx.Proofs.Scoping
import Gsx.Proofs.State.Declarations
import Gsx.Proofs.State.Listing
import Gsx.Proofs.State.Parameters
import Gsx.Proofs.State.ReadOrder
import Gsx.Proofs.State.Reads
import Gsx.Proofs.State.Refreshing
import Gsx.Proofs.State.Shapes
import Gsx.Proofs.State.SpelledOut
import Gsx.Proofs.Surroundings
import Gsx.Proofs.Tags
import Gsx.Report
import Gsx.State.Binding
import Gsx.State.Declaration
import Gsx.State.GoType
import Gsx.Text.Blank
import Gsx.Text.Hex
import Gsx.Text.Quoted
import Gsx.Text.Search
import Gsx.Text.Style
import Gsx.Token
import Gsx.Tree.Basic
import Gsx.Tree.Same
import Gsx.Tree.Site
import Gsx.Unicode.Case
import Gsx.Unicode.Digit
import Gsx.Unicode.Letter
import Gsx.Unicode.Printable
import Gsx.Unicode.Ranges
import Gsx.Proofs.Grammar.NodeEndings
import Gsx.Proofs.Recovery.Bodies
import Gsx.Proofs.Recovery.Components
import Gsx.Proofs.Recovery.Files
