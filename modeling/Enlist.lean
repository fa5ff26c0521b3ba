import Enlist.Digest
import Enlist.Digest.Blake3
import Enlist.Digest.Compression
import Enlist.Edit.Change
import Enlist.Edit.Splice
import Enlist.Event
import Enlist.Imports.Ensure
import Enlist.Imports.Table
import Enlist.Json.Members
import Enlist.Json.Numeral
import Enlist.Json.Record
import Enlist.Json.Token
import Enlist.Json.Value
import Enlist.Json.Written
import Enlist.Metadata.Declaration
import Enlist.Metadata.Error
import Enlist.Metadata.InsertionPoint
import Enlist.Metadata.Routes
import Enlist.Metadata.Slot
import Enlist.Proofs.Edit.Insertion
import Enlist.Proofs.Edit.Order
import Enlist.Proofs.Edit.Pieces
import Enlist.Proofs.Edit.Splice
import Enlist.Proofs.Imports.Places
import Enlist.Proofs.Metadata.Items
import Enlist.Proofs.Metadata.Places
import Enlist.Proofs.Metadata.Routes
import Enlist.Proofs.Session.Commit
import Enlist.Proofs.Session.Entries
import Enlist.Proofs.Session.Imports
import Enlist.Proofs.Session.Lossless
import Enlist.Proofs.Session.Reached
import Enlist.Proofs.Session.Registrations
import Enlist.Proofs.Session.Routes
import Enlist.Proofs.Session.Run
import Enlist.Proofs.Session.Shared
import Enlist.Proofs.Session.Slots
import Enlist.Proofs.Syntax.HashBang
import Enlist.Proofs.Syntax.Layout
import Enlist.Proofs.Syntax.Reading
import Enlist.Proofs.Syntax.Recovered
import Enlist.Proofs.Syntax.Regular
import Enlist.Proofs.Syntax.Tokens
import Enlist.Proofs.Syntax.Tree
import Enlist.Proofs.Text.Bytes
import Enlist.Proofs.Text.Weave
import Enlist.Session.Basic
import Enlist.Session.Cache
import Enlist.Session.Commit
import Enlist.Session.Decision
import Enlist.Session.Error
import Enlist.Session.ModulePath
import Enlist.Session.Register
import Enlist.Snapshot
import Enlist.Store.FileTree
import Enlist.Store.Path
import Enlist.Syntax.Cursor
import Enlist.Syntax.Form
import Enlist.Syntax.Kind
import Enlist.Syntax.Lexeme
import Enlist.Syntax.Lookup
import Enlist.Syntax.Node
import Enlist.Syntax.Tree
import Enlist.Syntax.TypeScript.Expressions
import Enlist.Syntax.TypeScript.Grammar
import Enlist.Syntax.TypeScript.Rule
import Enlist.Syntax.TypeScript.Statements
import Enlist.Syntax.TypeScript.Types
import Enlist.Syntax.Value
import Enlist.Syntax.Walk
import Enlist.Text.Blank
import Enlist.Text.Indent
import Enlist.Text.Quoted
import Enlist.Text.Split
import Enlist.Text.Utf8
import Enlist.Text.Visible
import Enlist.Version
import Enlist.Work
import Enlist.Workspace.Config
import Enlist.Workspace.Error
import Enlist.Workspace.RootModule
import Enlist.Proofs.Session.Recognition
import Enlist.Proofs.Session.Counterparts
import Enlist.Proofs.Session.Kept
import Enlist.Proofs.Session.Callers
import Enlist.Proofs.Store.Path
import Enlist.Proofs.Store.StoredPaths
import Enlist.Proofs.Store.Writers
import Enlist.Proofs.Session.Cache
import Enlist.Proofs.Imports.Written
import Enlist.Proofs.Session.HashBang
import Enlist.Proofs.Session.Reread
import Enlist.Proofs.Session.Lifecycle
import Enlist.Proofs.Session.CommitAgain
import Enlist.Proofs.Session.Keys
import Enlist.Proofs.Imports.Bindings
import Enlist.Proofs.Syntax.Walk
import Enlist.Proofs.Syntax.Trivia
import Enlist.Proofs.Metadata.NamedRoutes
import Enlist.Proofs.Imports.Rest
import Enlist.Proofs.Session.Duplicates
import Enlist.Proofs.Session.Spacing
import Enlist.Proofs.Session.Growth
import Enlist.Proofs.Session.Thinned
import Enlist.Proofs.Edit.InOrder
import Enlist.Proofs.Edit.Backwards
import Enlist.Proofs.Edit.Refusal
import Enlist.Proofs.Metadata.Target
import Enlist.Proofs.Syntax.Tour
import Enlist.Syntax.TreeCursor
import Enlist.Proofs.Metadata.Points
import Enlist.Proofs.Session.Commute
import Enlist.Proofs.Session.Imported
import Enlist.Proofs.Store.NormalForm
import Enlist.Proofs.Session.ModulePath
import Enlist.Proofs.Session.PathKind
import Enlist.Proofs.Text.Indent
import Enlist.Proofs.Metadata.OwnLines
import Enlist.Proofs.Metadata.Batches
import Enlist.Proofs.Workspace.RootModule
import Enlist.Proofs.Json.Members
import Enlist.Proofs.Json.Spelling
import Enlist.Proofs.Json.Order
import Enlist.Proofs.Json.Record
import Enlist.Proofs.Workspace.Config
import Enlist.Proofs.Imports.Views
import Enlist.Proofs.Text.Quoted
import Enlist.Proofs.Edit.Display
