import Enlist.Syntax.Cursor

/-!
# Grammars as data

A `Form R` says how a construct is written; the rules of a grammar are the forms of the names `R`,
and a form may call a rule. Choice is ordered: `a <|> b` takes `b` only where `a` cannot be read, and
looks ahead as far as it needs to.

A form reads from a `Cursor` and adds nodes to a `Frame`. `Grammar.read` bounds the depth of rule
calls by a number, so that reading always ends.
-/

namespace Enlist.Syntax

/-- How a construct is written, over rules named by `R`. -/
inductive Form (R : Type) where
  | empty
  /-- One token, kept as a leaf of kind `k`. -/
  | leaf (k : Kind) (l : Lexeme)
  | seq (a b : Form R)
  /-- Either `a` or, where `a` cannot be read, `b`. -/
  | alt (a b : Form R)
  /-- As many `a` as there are. -/
  | many (a : Form R)
  /-- `a` stands here, but is not read. -/
  | ahead (a : Form R)
  /-- `a` does not stand here. -/
  | absent (a : Form R)
  /-- The nodes of `a` under one node of kind `k`. -/
  | node (k : Kind) (a : Form R)
  /-- The nodes of `a`, labelled. -/
  | labelled (l : Label) (a : Form R)
  /-- `base`, and then as many `step` as there are; a step may `extend` what was read before it. -/
  | grow (base step : Form R)
  /-- `a`, put together with all that was read before it in the same `grow` under one node of kind
  `k`; what was read before becomes its part `l`. -/
  | extend (k : Kind) (l : Option Label) (a : Form R)
  /-- What the rule `r` says. -/
  | call (r : R)
  /-- A line ended before the next token. -/
  | newLine
  /-- No line ended before the next token. -/
  | sameLine
  | textEnd

instance (R : Type) : Append (Form R) := ⟨Form.seq⟩

instance (R : Type) : OrElse (Form R) := ⟨fun a b => Form.alt a (b ())⟩

/-- Puts the nodes of a frame under one node. Comments behind the last token stay outside. -/
def Frame.wrap (k : Kind) (f : Frame) : Frame :=
  let core := f.dropWhile fun n => n.kind.isExtra
  match core, core.getLast? with
  | last :: _, some first =>
    (f.takeWhile fun n => n.kind.isExtra) ++
      [.mk k none ⟨first.span.start, last.span.stop⟩ core.reverse]
  | _, _ => f

/-- Labels the nodes of a frame. -/
def Frame.label (l : Option Label) (f : Frame) : Frame :=
  match l with
  | some l => f.map (Node.labelled l)
  | none => f

/-- How a form or a rule goes on from a frame and a cursor. -/
abbrev Reader := Frame → Cursor → Option (Frame × Cursor)

/-- Runs a reader again and again, at most `n` times, as long as it moves forward. -/
def Reader.repeat (r : Reader) : Nat → Frame → Cursor → Frame × Cursor
  | 0, f, c => (f, c)
  | n + 1, f, c =>
    match r f c with
    | some (f', c') => if c.offset < c'.offset then Reader.repeat r n f' c' else (f, c)
    | none => (f, c)

namespace Form

variable {R : Type}

/-- Reads a form; `limit` bounds every repetition, and `rule` reads the rules that it calls. -/
def read (limit : Nat) (rule : R → Reader) : Form R → Reader
  | empty, f, c => some (f, c)
  | leaf k l, f, c => c.shift k l f
  | seq a b, f, c =>
    match read limit rule a f c with
    | some (f', c') => read limit rule b f' c'
    | none => none
  | alt a b, f, c =>
    match read limit rule a f c with
    | some r => some r
    | none => read limit rule b f c
  | many a, f, c => some (Reader.repeat (read limit rule a) limit f c)
  | ahead a, f, c =>
    match read limit rule a [] c with
    | some _ => some (f, c)
    | none => none
  | absent a, f, c =>
    match read limit rule a [] c with
    | some _ => none
    | none => some (f, c)
  | node k a, f, c =>
    match read limit rule a [] c with
    | some (g, c') => some (Frame.wrap k g ++ f, c')
    | none => none
  | labelled l a, f, c =>
    match read limit rule a [] c with
    | some (g, c') => some (Frame.label (some l) g ++ f, c')
    | none => none
  | grow base step, f, c =>
    match read limit rule base [] c with
    | some (g, c') =>
      let (g', c'') := Reader.repeat (read limit rule step) limit g c'
      some (g' ++ f, c'')
    | none => none
  | extend k l a, f, c =>
    match read limit rule a (Frame.label l f) c with
    | some (f', c') => some (Frame.wrap k f', c')
    | none => none
  | call r, f, c => rule r f c
  | newLine, f, c => if c.newLine then some (f, c) else none
  | sameLine, f, c => if c.newLine then none else some (f, c)
  | textEnd, f, c => if c.rest.isEmpty then some (f, c) else none

def opt (a : Form R) : Form R :=
  a <|> empty

/-- The first of several forms that can be read. -/
def firstOf : List (Form R) → Form R
  | [] => absent empty
  | [a] => a
  | a :: as => a <|> firstOf as

/-- One or more `a` with commas between them, and perhaps one behind the last. -/
def commaList (a : Form R) : Form R :=
  let comma := leaf .punctuation (.symbol [','] [])
  seq a (seq (many (seq comma a)) (opt comma))

end Form

namespace Grammar

variable {R : Type}

/-- Reads a rule of a grammar, with at most `depth` rules open at a time. -/
def read (rules : R → Form R) (limit : Nat) : Nat → R → Reader
  | 0, _, _, _ => none
  | depth + 1, r, f, c => (rules r).read limit (read rules limit depth) f c

end Grammar

end Enlist.Syntax
