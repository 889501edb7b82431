import BarrelAlias.Alias.Directory
import BarrelAlias.Alias.Job
import BarrelAlias.Alias.Report
import BarrelAlias.Alias.Source
import BarrelAlias.Barrel.Draft
import BarrelAlias.Barrel.Job
import BarrelAlias.Barrel.Name
import BarrelAlias.Barrel.Order
import BarrelAlias.Barrel.Registry
import BarrelAlias.Barrel.Report
import BarrelAlias.Command.Arguments
import BarrelAlias.Command.Request
import BarrelAlias.Command.Run
import BarrelAlias.Config.Comments
import BarrelAlias.Config.Json
import BarrelAlias.Config.Project
import BarrelAlias.Config.ProjectFiles
import BarrelAlias.Declaration
import BarrelAlias.Extension
import BarrelAlias.Failure
import BarrelAlias.FileTree.Basic
import BarrelAlias.FileTree.Walk
import BarrelAlias.FileTree.Write
import BarrelAlias.Glob.Expand
import BarrelAlias.Glob.Pattern
import BarrelAlias.Ignore.Pattern
import BarrelAlias.Ignore.Rule
import BarrelAlias.Ignore.Scope
import BarrelAlias.Linkage.Exports
import BarrelAlias.Linkage.Resolve
import BarrelAlias.Linkage.Summary
import BarrelAlias.Main
import BarrelAlias.Path
import BarrelAlias.Proofs.Accepting
import BarrelAlias.Proofs.Acyclic
import BarrelAlias.Proofs.Alongside
import BarrelAlias.Proofs.AsciiName
import BarrelAlias.Proofs.Assembling
import BarrelAlias.Proofs.Atomic
import BarrelAlias.Proofs.Balance
import BarrelAlias.Proofs.Belonging
import BarrelAlias.Proofs.Beside
import BarrelAlias.Proofs.Bytes
import BarrelAlias.Proofs.Catalog
import BarrelAlias.Proofs.Choosing
import BarrelAlias.Proofs.Collect
import BarrelAlias.Proofs.Commented
import BarrelAlias.Proofs.Conflicts
import BarrelAlias.Proofs.Coverage
import BarrelAlias.Proofs.Declaration
import BarrelAlias.Proofs.Declaring
import BarrelAlias.Proofs.Decoding
import BarrelAlias.Proofs.Derivation
import BarrelAlias.Proofs.DerivedName
import BarrelAlias.Proofs.Entries
import BarrelAlias.Proofs.ExportList
import BarrelAlias.Proofs.FirstCome
import BarrelAlias.Proofs.History
import BarrelAlias.Proofs.Identities
import BarrelAlias.Proofs.ImportForm
import BarrelAlias.Proofs.Inputs
import BarrelAlias.Proofs.Interning
import BarrelAlias.Proofs.JsonReading
import BarrelAlias.Proofs.JsonText
import BarrelAlias.Proofs.LeadingBack
import BarrelAlias.Proofs.Load
import BarrelAlias.Proofs.Loader
import BarrelAlias.Proofs.Lockstep
import BarrelAlias.Proofs.Lookalike
import BarrelAlias.Proofs.Mapping
import BarrelAlias.Proofs.Marking
import BarrelAlias.Proofs.Mirror
import BarrelAlias.Proofs.ModuleRules
import BarrelAlias.Proofs.NamedModules
import BarrelAlias.Proofs.Numbering
import BarrelAlias.Proofs.ParentFirst
import BarrelAlias.Proofs.Parts
import BarrelAlias.Proofs.Path
import BarrelAlias.Proofs.Pieces
import BarrelAlias.Proofs.Place
import BarrelAlias.Proofs.Plain
import BarrelAlias.Proofs.Pointing
import BarrelAlias.Proofs.Probe
import BarrelAlias.Proofs.Published
import BarrelAlias.Proofs.Qualify
import BarrelAlias.Proofs.QueryOrder
import BarrelAlias.Proofs.Quoted
import BarrelAlias.Proofs.Registry
import BarrelAlias.Proofs.RelativeWay
import BarrelAlias.Proofs.Remembered
import BarrelAlias.Proofs.Renamed
import BarrelAlias.Proofs.Reparsing
import BarrelAlias.Proofs.Requoting
import BarrelAlias.Proofs.Rerun
import BarrelAlias.Proofs.Revising
import BarrelAlias.Proofs.Rewriting
import BarrelAlias.Proofs.Running
import BarrelAlias.Proofs.Searching
import BarrelAlias.Proofs.Settling
import BarrelAlias.Proofs.Sites
import BarrelAlias.Proofs.Sorting
import BarrelAlias.Proofs.Specifier
import BarrelAlias.Proofs.Spelling
import BarrelAlias.Proofs.StarNames
import BarrelAlias.Proofs.Table
import BarrelAlias.Proofs.Tally
import BarrelAlias.Proofs.Tandem
import BarrelAlias.Proofs.Tokens
import BarrelAlias.Proofs.Unread
import BarrelAlias.Proofs.Walk
import BarrelAlias.Proofs.Written
import BarrelAlias.Quote
import BarrelAlias.Script.Binding
import BarrelAlias.Script.Class
import BarrelAlias.Script.Control
import BarrelAlias.Script.Declare
import BarrelAlias.Script.Dialect
import BarrelAlias.Script.Element
import BarrelAlias.Script.Escape
import BarrelAlias.Script.Expression
import BarrelAlias.Script.Function
import BarrelAlias.Script.Grammar
import BarrelAlias.Script.Lexer
import BarrelAlias.Script.Literal
import BarrelAlias.Script.Module
import BarrelAlias.Script.Name
import BarrelAlias.Script.Parameter
import BarrelAlias.Script.Parser
import BarrelAlias.Script.Program
import BarrelAlias.Script.Split
import BarrelAlias.Script.Statement
import BarrelAlias.Script.Token
import BarrelAlias.Script.Type
import BarrelAlias.Style
import BarrelAlias.Table
import BarrelAlias.Text.Basic
import BarrelAlias.Text.Bytes
import BarrelAlias.Text.Casing
import BarrelAlias.Text.Identifier
import BarrelAlias.Text.Letter
import BarrelAlias.Verbosity
import BarrelAlias.Warning
import BarrelAlias.Workspace
