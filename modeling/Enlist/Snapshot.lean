import Enlist.Digest
import Enlist.Event
import Enlist.Imports.Table
import Enlist.Text.Quoted

/-!
# Snapshots

A `Snapshot` is a text as it was read from a file, with its syntax tree and its import statements. It
is never changed: changes are computed against it and name its bytes.
-/

namespace Enlist

open Syntax Imports

/-- The text of a file, and what was read from it. -/
structure Snapshot where
  path : String
  text : String
  tree : SyntaxTree
  imports : ImportTable
  /-- In a text with errors, the tree may be any that a parser recovers. -/
  tree_eq : ∃ _ : Recovery, tree = .ofText text.toList
  imports_eq : imports = .ofTree text.toList tree.root := by rfl

namespace Snapshot

/-- Reads a text. A text with syntax errors has a snapshot too, over the tree that is recovered. -/
def ofText [Recovery] (path text : String) : Snapshot :=
  let tree := SyntaxTree.ofText text.toList
  { path, text, tree, imports := .ofTree text.toList tree.root, tree_eq := ⟨inferInstance, rfl⟩ }

def chars (s : Snapshot) : List Char :=
  s.text.toList

def length (s : Snapshot) : Nat :=
  s.text.utf8ByteSize

def root (s : Snapshot) : Node :=
  s.tree.root

def digest (s : Snapshot) : Digest :=
  .ofText s.text

/-- The text was not read without errors. -/
def hasSyntaxErrors (s : Snapshot) : Bool :=
  s.tree.hasErrors

def events (s : Snapshot) : List Event :=
  if s.hasSyntaxErrors then
    [⟨.debug, "source contains syntax errors, continuing with recovered tree", [("path", s.path)]⟩]
  else []

/-- A short form that tells snapshots apart. -/
def summary (s : Snapshot) : String :=
  s!"SourceFile \x7b path: {Text.quoted s.path}, len: {s.length}, hash: \"{s.digest.short}\", " ++
    s!"imports: {s.imports.decls.length}, .. \x7d"

end Snapshot

end Enlist
