import Interop.Emit.Bridge
import Interop.Emit.Keyword
import Interop.Emit.Managed
import Interop.Emit.ManagedFile
import Interop.Emit.Printer
import Interop.Export.Containers
import Interop.Export.Members
import Interop.Export.Scopes
import Interop.Files.Artifact
import Interop.Files.Tree
import Interop.Generator
import Interop.Header.Bracket
import Interop.Header.Configuration
import Interop.Header.DeclarationSyntax
import Interop.Header.Directive
import Interop.Header.FrontEnd
import Interop.Header.FunctionSyntax
import Interop.Header.Index
import Interop.Header.Lexeme
import Interop.Header.MemberSyntax
import Interop.Header.Parser
import Interop.Header.Pool
import Interop.Header.Region
import Interop.Header.Source
import Interop.Header.Survey
import Interop.Header.SyntaxError
import Interop.Header.Token
import Interop.Header.TypeSyntax
import Interop.Json.Printer
import Interop.Json.Reader
import Interop.Json.Real
import Interop.Json.Record
import Interop.Json.Value
import Interop.Marshal.Mapper
import Interop.Naming.Bridge
import Interop.Naming.Default
import Interop.Naming.Literal
import Interop.Native.Builtin
import Interop.Native.Declaration
import Interop.Native.Document
import Interop.Native.Type
import Interop.Native.Walk
import Interop.Overlay.Forest
import Interop.Overlay.Globals
import Interop.Overlay.Naming
import Interop.Overlay.Symbols
import Interop.Overlay.Walk
import Interop.Overlay.Workspace
import Interop.Pass
import Interop.Path
import Interop.Pattern
import Interop.Proofs.Emit.Agreement
import Interop.Proofs.Emit.Around
import Interop.Proofs.Emit.Blocks
import Interop.Proofs.Emit.ClassBlocks
import Interop.Proofs.Emit.Coverage
import Interop.Proofs.Emit.Distinct
import Interop.Proofs.Emit.Exports
import Interop.Proofs.Emit.Externs
import Interop.Proofs.Emit.Layout
import Interop.Proofs.Emit.MemberKeys
import Interop.Proofs.Emit.ParameterNames
import Interop.Proofs.Emit.Places
import Interop.Proofs.Emit.Publicity
import Interop.Proofs.Emit.Registration
import Interop.Proofs.Emit.Setters
import Interop.Proofs.Emit.Shift
import Interop.Proofs.Emit.TypeNames
import Interop.Proofs.Emit.TypePaths
import Interop.Proofs.Export.Admission
import Interop.Proofs.Export.Arrangement
import Interop.Proofs.Export.Definitions
import Interop.Proofs.Export.Entering
import Interop.Proofs.Export.Isolation
import Interop.Proofs.Export.Nesting
import Interop.Proofs.Export.Origin
import Interop.Proofs.Export.Placement
import Interop.Proofs.Export.Provenance
import Interop.Proofs.Export.Shift
import Interop.Proofs.Export.Signed
import Interop.Proofs.Export.Sites
import Interop.Proofs.Export.Walk
import Interop.Proofs.Export.Watch
import Interop.Proofs.Files.Artifact
import Interop.Proofs.Files.Tree
import Interop.Proofs.Generator.Afresh
import Interop.Proofs.Generator.Again
import Interop.Proofs.Generator.Frames
import Interop.Proofs.Generator.Isolation
import Interop.Proofs.Generator.Replay
import Interop.Proofs.Generator.Settled
import Interop.Proofs.Generator.Start
import Interop.Proofs.Generator.Titled
import Interop.Proofs.Header.AliasReading
import Interop.Proofs.Header.Aliases
import Interop.Proofs.Header.BaseReading
import Interop.Proofs.Header.Bracketed
import Interop.Proofs.Header.Conditionals
import Interop.Proofs.Header.Consuming
import Interop.Proofs.Header.CoreReading
import Interop.Proofs.Header.Covering
import Interop.Proofs.Header.DeclarationReading
import Interop.Proofs.Header.Declarators
import Interop.Proofs.Header.Definedness
import Interop.Proofs.Header.Elaborated
import Interop.Proofs.Header.Endings
import Interop.Proofs.Header.Forms
import Interop.Proofs.Header.Fronts
import Interop.Proofs.Header.Grammar
import Interop.Proofs.Header.Lexemes
import Interop.Proofs.Header.Lexing
import Interop.Proofs.Header.LineParts
import Interop.Proofs.Header.MemberReading
import Interop.Proofs.Header.Operators
import Interop.Proofs.Header.Outcome
import Interop.Proofs.Header.Phrases
import Interop.Proofs.Header.PlainType
import Interop.Proofs.Header.Progress
import Interop.Proofs.Header.Reading
import Interop.Proofs.Header.Recording
import Interop.Proofs.Header.Regions
import Interop.Proofs.Header.Regular
import Interop.Proofs.Header.Report
import Interop.Proofs.Header.Respelling
import Interop.Proofs.Header.Running
import Interop.Proofs.Header.Schedule
import Interop.Proofs.Header.Scoping
import Interop.Proofs.Header.Skipping
import Interop.Proofs.Header.Spellable
import Interop.Proofs.Header.Spelling
import Interop.Proofs.Header.Standalone
import Interop.Proofs.Header.Steady
import Interop.Proofs.Header.Success
import Interop.Proofs.Header.Survey
import Interop.Proofs.Header.Termination
import Interop.Proofs.Header.TokenLines
import Interop.Proofs.Header.TrailingComments
import Interop.Proofs.Header.TypeReading
import Interop.Proofs.Header.TypeSteps
import Interop.Proofs.Header.Units
import Interop.Proofs.Header.Uses
import Interop.Proofs.Marshal.Gate
import Interop.Proofs.Marshal.ManagedType
import Interop.Proofs.Marshal.Resolution
import Interop.Proofs.Marshal.Shift
import Interop.Proofs.Marshal.Widening
import Interop.Proofs.Naming.Constants
import Interop.Proofs.Naming.Defaults
import Interop.Proofs.Naming.LiteralValues
import Interop.Proofs.Naming.Literals
import Interop.Proofs.Naming.NumberTexts
import Interop.Proofs.Naming.Numbers
import Interop.Proofs.Naming.Paths
import Interop.Proofs.Naming.Reordering
import Interop.Proofs.Naming.Shape
import Interop.Proofs.Naming.Shift
import Interop.Proofs.Native.Events
import Interop.Proofs.Overlay.Branches
import Interop.Proofs.Overlay.ConstantLookup
import Interop.Proofs.Overlay.Events
import Interop.Proofs.Overlay.Forest
import Interop.Proofs.Overlay.Gathering
import Interop.Proofs.Overlay.Globals
import Interop.Proofs.Overlay.Growth
import Interop.Proofs.Overlay.Housing
import Interop.Proofs.Overlay.Lineage
import Interop.Proofs.Overlay.Moves
import Interop.Proofs.Overlay.Preorder
import Interop.Proofs.Overlay.Reshaped
import Interop.Proofs.Overlay.Reshaping
import Interop.Proofs.Overlay.Reworking
import Interop.Proofs.Overlay.Shift
import Interop.Proofs.Overlay.ShiftedGlobals
import Interop.Proofs.Overlay.ShiftedWalk
import Interop.Proofs.Overlay.Spared
import Interop.Proofs.Overlay.Trees
import Interop.Proofs.Overlay.TypeLookup
import Interop.Proofs.Overlay.Walk
import Interop.Proofs.Passes
import Interop.Proofs.Path.Order
import Interop.Proofs.Rules.Forced
import Interop.Proofs.Rules.Pattern
import Interop.Proofs.Rules.Selection
import Interop.Proofs.Rules.Templates
import Interop.Rules.Document
import Interop.Rules.Error
import Interop.Rules.Selection
import Interop.Rules.Template
import Interop.Rules.TypeMap
import Interop.Symbol
import Interop.Table
import Interop.Text.Blank
import Interop.Text.Digest
import Interop.Text.Lines
import Interop.Text.Split
