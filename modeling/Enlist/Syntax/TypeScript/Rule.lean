import Enlist.Syntax.Form

/-!
# Rules of the TypeScript grammar

The names of the rules that call one another, and the forms that several parts of the grammar share:
names, properties, signatures, lists.
-/

namespace Enlist.Syntax.TypeScript

/-- The rules of the grammar. -/
inductive Rule where
  -- statements
  | program | statement | declaration | block
  -- expressions, from the loosest to the tightest
  | sequence | expression | conditional
  /-- Binary operators of one level, 0 being the loosest. -/
  | binary (level : Nat)
  | unary | callChain | memberChain | primary
  | array | object | arguments | template | decorator | classBody
  -- patterns and parameters
  | pattern | parameters
  -- types
  | type | unionType | intersectionType | prefixType | postfixType | primaryType | objectType
  | typeArguments | typeParameters
  deriving DecidableEq, Repr

/-- A form over the rules of this grammar. -/
abbrev Rules := Form Rule

open Form

/-! ## The smallest forms -/

abbrev leaf (k : Kind) (l : Lexeme) : Rules := Form.leaf k l

abbrev call (r : Rule) : Rules := Form.call r

abbrev sameLine : Rules := Form.sameLine

/-- A punctuation mark, unless one of the characters `stops` follows it. -/
def mark (text : String) (stops : String := "") : Rules :=
  leaf .punctuation (.symbol text.toList stops.toList)

/-- A keyword that is a node with a name of its own. -/
def wordAs (k : Kind) (text : String) : Rules := leaf k (.keyword text.toList)

def word (text : String) : Rules := wordAs .keyword text

/-! ## Brackets and names -/

def openBrace : Rules := mark "\x7b"

def closeBrace : Rules := mark "\x7d"

/-- Items between two brackets, each followed by a comma or by the closing bracket; between commas
there may be nothing. -/
def bracketed (opening : Rules) (item : Rules) (closing : Rules) : Rules :=
  opening ++ many (mark "," <|> item ++ (mark "," <|> ahead closing)) ++ closing

/-- A name that stands for a value. The word `undefined` is a value of its own. -/
def identifier : Rules := leaf .identifier (.name ["undefined".toList])

/-- A name that is bound here, or a keyword that is allowed as one. -/
def anyIdentifier : Rules := leaf .identifier .word

def typeName : Rules := leaf .typeIdentifier (.name [])

def string : Rules := leaf .string .string

/-- The name of a property behind a dot. -/
def propertyWord : Rules :=
  leaf .propertyIdentifier .word <|> leaf .privateProperty .privateName

/-- The name of a property in an object, a class or a type. -/
def propertyName : Rules :=
  propertyWord <|> string <|> leaf .number .number <|>
    node .computedPropertyName (mark "[" ++ call .sequence ++ mark "]")

/-- A dot, or a question mark and a dot. No digit follows the latter, which would make it a
conditional. -/
def optionalChain : Rules := mark "?." "0123456789"

/-- An equals sign that is neither a comparison nor an arrow. -/
def assignSign : Rules := mark "=" "=>"

/-- The end of a statement: a semicolon, or none where a block, a line or the text ends. -/
def semicolon : Rules := mark ";" <|> ahead closeBrace <|> newLine <|> textEnd

/-! ## Signatures -/

/-- A parameter or variable whose type a predicate tells. -/
def typePredicate : Rules :=
  node .typePredicate ((identifier <|> wordAs .this "this") ++ sameLine ++ word "is" ++ call .type)

def returnedType : Rules :=
  node .assertsType (word "asserts" ++ sameLine ++
      (typePredicate <|> (identifier <|> wordAs .this "this") ++ absent (mark "." <|> mark "<"))) <|>
    typePredicate <|> call .type

def typeAscription : Rules := node .typeAscription (mark ":" ++ returnedType)

def signature : Rules :=
  opt (call .typeParameters) ++ call .parameters ++ opt typeAscription

/-- A value that is given where a parameter, variable or field is introduced. -/
def initializer : Rules := assignSign ++ labelled .value (call .expression)

/-- A word that is a modifier only where a form of the class `next` follows it. -/
def modifier (k : Kind) (text : String) (next : Rules) : Rules :=
  wordAs k text ++ ahead next

/-- Words that say who may use a member. -/
def accessibility (next : Rules) : Rules :=
  firstOf (["public", "private", "protected"].map fun w => modifier .accessibilityModifier w next)

/-- The modifiers of a member of a class, an object or an object type, in any order. -/
def memberModifiers : Rules :=
  let next := propertyName <|> mark "*"
  many (accessibility next <|> modifier .overrideModifier "override" next <|>
      firstOf (["declare", "static", "abstract", "readonly", "accessor", "async", "get", "set"].map
        fun w => modifier .keyword w next)) ++
    opt (mark "*")

def methodDefinition : Rules :=
  node .methodDefinition
    (memberModifiers ++ labelled .name propertyName ++ opt (mark "?") ++ signature ++ call .block)

/-- A method without a body. -/
def methodSignature : Rules :=
  node .methodSignature (memberModifiers ++ labelled .name propertyName ++ opt (mark "?") ++ signature)

/-! ## Patterns and parameters -/

/-- The target of one position of a pattern: a pattern, or a place that is assigned to. -/
def patternTarget (closing : Rules) : Rules :=
  let next := mark "," <|> assignSign <|> closing
  call .pattern ++ ahead next <|> call .memberChain ++ ahead next

/-- The target of one position of a pattern, perhaps with a default value. -/
def patternItem (closing : Rules) : Rules :=
  grow (patternTarget closing) (extend .assignmentPattern none (assignSign ++ call .expression))

/-- The rest of an array, an object or an argument list. -/
def restPattern (closing : Rules) : Rules :=
  node .restPattern (mark "..." ++ patternTarget closing)

def arrayPattern : Rules :=
  let closing := mark "]"
  node .arrayPattern (bracketed (mark "[") (restPattern closing <|> patternItem closing) closing)

def objectPattern : Rules :=
  let shorthand := leaf .shorthandPropertyPattern (.name [])
  node .objectPattern (bracketed openBrace
    (restPattern closeBrace <|>
      node .pairPattern
        (labelled .key propertyName ++ mark ":" ++ labelled .value (patternItem closeBrace)) <|>
      node .objectAssignmentPattern (shorthand ++ assignSign ++ call .expression) <|>
      shorthand) closeBrace)

def pattern : Rules := identifier <|> arrayPattern <|> objectPattern

def parameter : Rules :=
  let target := call .pattern <|> wordAs .this "this"
  let next := leaf .identifier (.name []) <|> mark "[" <|> openBrace
  node .requiredParameter (many (call .decorator) ++
    many (accessibility next <|> modifier .overrideModifier "override" next <|>
      modifier .keyword "readonly" next) ++
    (node .restPattern (mark "..." ++ call .pattern) <|> target) ++ opt (mark "?") ++
    opt typeAscription ++ opt (assignSign ++ call .expression))

def parameters : Rules :=
  node .formalParameters (bracketed (mark "(") parameter (mark ")"))

/-! ## Decorators -/

/-- A decorator: `@` and a name, a member of a name, a call of one of these, or an expression in
parentheses. -/
def decorator : Rules :=
  let member := grow identifier
    (extend .memberExpression (some .object) (mark "." ++ labelled .property propertyWord))
  let called := extend .callExpression (some .function)
    (opt (call .typeArguments) ++ labelled .arguments (call .arguments))
  node .decorator (mark "@" ++
    (grow member called <|>
      node .parenthesizedExpression (mark "(" ++ call .sequence ++ mark ")")))

end Enlist.Syntax.TypeScript
