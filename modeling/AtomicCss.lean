import AtomicCss.Block
import AtomicCss.Build.Adapter
import AtomicCss.Build.Config
import AtomicCss.Build.Error
import AtomicCss.Build.WatchList
import AtomicCss.Css.Cut
import AtomicCss.Css.DeclarationList
import AtomicCss.Css.Identifier
import AtomicCss.Css.Lexeme
import AtomicCss.Css.Literal
import AtomicCss.Css.Name
import AtomicCss.Document.Basic
import AtomicCss.Document.Node
import AtomicCss.Engine
import AtomicCss.Error
import AtomicCss.Files.Path
import AtomicCss.Files.Tree
import AtomicCss.Format.Hex
import AtomicCss.Format.Json
import AtomicCss.Format.Json.Printer
import AtomicCss.Format.Json.Quoted
import AtomicCss.Format.Json.Reader
import AtomicCss.Format.Nesting
import AtomicCss.Format.Numeral
import AtomicCss.Format.Toml
import AtomicCss.Format.Toml.Reader
import AtomicCss.Format.Toml.Strings
import AtomicCss.Glob.Match
import AtomicCss.Glob.Pattern
import AtomicCss.Ids
import AtomicCss.Manifest.Basic
import AtomicCss.Manifest.Coding
import AtomicCss.Recipe.Basic
import AtomicCss.Selector
import AtomicCss.Session
import AtomicCss.Sheet
import AtomicCss.Text
import AtomicCss.Usage.Scanner
import AtomicCss.Usage.Token
import AtomicCss.Utility
import AtomicCss.Value
import AtomicCss.Variables.Basic
import AtomicCss.Variables.Resolve
import AtomicCss.Proofs.Document.Placement
import AtomicCss.Proofs.Document.WellFormed
import AtomicCss.Proofs.Document.Calls
import AtomicCss.Proofs.Document.Tree
import AtomicCss.Proofs.Keyed
import AtomicCss.Proofs.Block
import AtomicCss.Proofs.Document.Emission
import AtomicCss.Proofs.Document.Growth
import AtomicCss.Proofs.Engine.Sound
import AtomicCss.Proofs.Engine.Config
import AtomicCss.Proofs.Engine.Learning
import AtomicCss.Proofs.Session.Order
import AtomicCss.Proofs.Build.Calls
import AtomicCss.Proofs.Build.Run
import AtomicCss.Proofs.Sheet.Pieces
import AtomicCss.Proofs.Document.Extension
import AtomicCss.Proofs.Session.Extension
import AtomicCss.Proofs.Build.Renewal
import AtomicCss.Proofs.Build.ConfigFiles
import AtomicCss.Proofs.Build.Failure
import AtomicCss.Proofs.Files.Path
import AtomicCss.Proofs.Usage.Records
import AtomicCss.Proofs.Build.Incremental
import AtomicCss.Proofs.Build.Monotone
import AtomicCss.Proofs.Variables.Lexical
import AtomicCss.Proofs.Document.Outline
import AtomicCss.Proofs.Engine.Places
import AtomicCss.Proofs.Engine.Modes
import AtomicCss.Proofs.Sheet.Outline
import AtomicCss.Proofs.Session.Modes
import AtomicCss.Proofs.Session.Ordinals
import AtomicCss.Proofs.Session.Index
import AtomicCss.Proofs.Document.InPlace
import AtomicCss.Proofs.Session.InPlace
import AtomicCss.Proofs.Document.Persistence
import AtomicCss.Proofs.Session.Life
import AtomicCss.Proofs.Session.Styled
import AtomicCss.Proofs.Build.Served
import AtomicCss.Proofs.Build.Atomic
import AtomicCss.Proofs.Selector
import AtomicCss.Proofs.Sheet.Walk
import AtomicCss.Proofs.Sheet.Flattening
import AtomicCss.Proofs.Usage.History
import AtomicCss.Proofs.Document.Standing
import AtomicCss.Proofs.Build.Discovery
import AtomicCss.Proofs.Document.Settling
import AtomicCss.Proofs.Document.Alike
import AtomicCss.Proofs.Session.Sharing
import AtomicCss.Proofs.Document.Declared
import AtomicCss.Proofs.Session.Writings
import AtomicCss.Proofs.Session.Cascade
import AtomicCss.Proofs.Session.Following
import AtomicCss.Proofs.Format.Json.Quoted
import AtomicCss.Proofs.Format.Json.Tokens
import AtomicCss.Proofs.Format.Json
import AtomicCss.Proofs.Manifest
import AtomicCss.Proofs.Variables.Search
import AtomicCss.Proofs.Variables.Failure
import AtomicCss.Proofs.Recipe.Choosing
import AtomicCss.Proofs.Recipe.Table
import AtomicCss.Proofs.Text
import AtomicCss.Proofs.Recipe.ClassNames
import AtomicCss.Proofs.Sheet.Failure
import AtomicCss.Proofs.Selector.Cut
import AtomicCss.Proofs.Sheet.BlankLines
import AtomicCss.Proofs.Css.ClassIdentity
import AtomicCss.Proofs.Selector.Unambiguous
import AtomicCss.Proofs.Session.Bindings
import AtomicCss.Proofs.Sheet.Headers
import AtomicCss.Proofs.Document.Landing
import AtomicCss.Proofs.Css.DeclarationList
import AtomicCss.Proofs.Css.Lexeme
import AtomicCss.Proofs.Css.PlainDeclaration
import AtomicCss.Proofs.Document.Again
import AtomicCss.Proofs.Sheet.Bodies
import AtomicCss.Proofs.Session.Accounting
import AtomicCss.Proofs.Session.Again
import AtomicCss.Proofs.Sheet.ParentReferences
import AtomicCss.Proofs.Session.ModeChanges
import AtomicCss.Proofs.Manifest.Recipes
import AtomicCss.Proofs.Session.Exports
import AtomicCss.Proofs.Build.WatchList
import AtomicCss.Proofs.Variables.Storage
