import Enlist.Syntax.TypeScript.Rule

/-!
# Expressions of TypeScript

The rules for expressions, from sequences down to names and literals, and for the bodies of classes.
-/

namespace Enlist.Syntax.TypeScript

open Form

/-! ## Literals -/

/-- Template text with the expressions in it. -/
def template : Rules :=
  let text (opens continues : Bool) : Rules := leaf .templateText (.template opens continues)
  node .templateString
    (text true false <|>
      text true true ++ call .sequence ++ many (text false true ++ call .sequence) ++ text false false)

def spread : Rules := node .spreadElement (mark "..." ++ call .expression)

def array : Rules :=
  node .array (bracketed (mark "[") (spread <|> call .expression) (mark "]"))

def arguments : Rules :=
  node .arguments (bracketed (mark "(") (spread <|> call .expression) (mark ")"))

def pair : Rules :=
  node .pair (labelled .key propertyName ++ mark ":" ++ labelled .value (call .expression))

def object : Rules :=
  node .object (bracketed openBrace
    (spread <|> pair <|> methodDefinition <|> leaf .shorthandProperty (.name [])) closeBrace)

def parenthesized : Rules :=
  node .parenthesizedExpression (mark "(" ++ call .sequence ++ mark ")")

/-! ## Functions and classes -/

def functionExpression : Rules :=
  let head := opt (word "async") ++ word "function"
  let tail := opt (labelled .name identifier) ++ signature ++ call .block
  node .generatorFunction (head ++ mark "*" ++ tail) <|> node .functionExpression (head ++ tail)

def arrowFunction : Rules :=
  let body := mark "=>" ++ (call .block <|> call .expression)
  node .arrowFunction (word "async" ++ sameLine ++ identifier ++ body) <|>
    node .arrowFunction (identifier ++ body) <|>
    node .arrowFunction (opt (word "async") ++ signature ++ body)

def classHeritage : Rules :=
  let implementsClause := node .implementsClause (word "implements" ++ commaList (call .type))
  let extendsClause := node .extendsClause
    (word "extends" ++ labelled .value (call .callChain) ++ opt (call .typeArguments))
  node .classHeritage (extendsClause ++ opt implementsClause <|> implementsClause)

/-- A class behind its name. -/
def classTail : Rules :=
  opt (call .typeParameters) ++ opt classHeritage ++ call .classBody

def classExpression : Rules :=
  node .classExpression
    (many (call .decorator) ++ word "class" ++
      opt (labelled .name (leaf .typeIdentifier (.name ["implements".toList]))) ++ classTail)

/-- A member of a class for all keys. -/
def classIndexSignature : Rules :=
  node .indexSignature
    (many (modifier .keyword "static" (word "readonly" <|> mark "[")) ++ opt (word "readonly") ++
      mark "[" ++ identifier ++ typeAscription ++ mark "]" ++ typeAscription)

/-- A field of a class. Decorators in front of it are its own. -/
def field : Rules :=
  node .publicFieldDefinition
    (many (call .decorator) ++ memberModifiers ++ labelled .name propertyName ++
      opt (mark "?" <|> mark "!") ++ opt typeAscription ++ opt initializer)

/-- The members of a class in braces. Decorators in front of a method stand beside it. -/
def classBody : Rules :=
  let ending := semicolon <|> mark ","
  node .classBody
    (openBrace ++
      many (mark ";" <|>
        node .staticBlock (word "static" ++ call .block) <|>
        (classIndexSignature <|> field) ++ ending <|>
        methodDefinition ++ opt (mark ";") <|>
        methodSignature ++ ending <|>
        call .decorator) ++
      closeBrace)

/-! ## Operators -/

def memberStep : Rules :=
  extend .memberExpression (some .object)
    ((mark "." <|> optionalChain) ++ labelled .property propertyWord)

def subscriptStep : Rules :=
  extend .subscriptExpression (some .object)
    (opt optionalChain ++ mark "[" ++ call .sequence ++ mark "]")

def nonNullStep : Rules :=
  sameLine ++ extend .nonNullExpression none (mark "!" "=")

def callStep : Rules :=
  extend .callExpression (some .function)
    (opt optionalChain ++ opt (call .typeArguments) ++ labelled .arguments (call .arguments)) <|>
    extend .callExpression (some .function)
      (opt (call .typeArguments) ++ labelled .arguments (call .template))

/-- Type arguments behind an expression that is not called. -/
def instantiationStep : Rules :=
  extend .instantiationExpression (some .function)
    (call .typeArguments ++
      ahead (firstOf (["," , ";", ":", ")", "]", "\x7d", "."].map fun m => mark m) <|> textEnd))

def newExpression : Rules :=
  node .metaProperty (word "new" ++ mark "." ++ word "target") <|>
    node .newExpression
      (word "new" ++ call .memberChain ++ opt (call .typeArguments) ++ opt (call .arguments))

/-- A name or a literal, and members of it that need no call. -/
def memberChain : Rules :=
  grow (newExpression <|> call .primary) (memberStep <|> subscriptStep <|> nonNullStep)

/-- An expression that nothing binds tighter. -/
def primary : Rules :=
  firstOf [
    string, functionExpression, identifier, call .array, call .object, leaf .number .number,
    call .template, parenthesized, wordAs .this "this", wordAs .super "super",
    wordAs .nullLiteral "null", wordAs .trueLiteral "true", wordAs .falseLiteral "false",
    wordAs .undefined "undefined", classExpression,
    node .metaProperty (word "import" ++ mark "." ++ word "meta"),
    wordAs .importKeyword "import" ++ ahead (mark "("),
    leaf .privateProperty .privateName ++ ahead (word "in"),
    leaf .regex .regex]

def callChain : Rules :=
  grow (newExpression <|> call .primary)
    (memberStep <|> callStep <|> subscriptStep <|> nonNullStep <|> instantiationStep)

/-- Operators in front of an expression, and counting up and down. -/
def unary : Rules :=
  let operator := firstOf
    [mark "!", mark "~", mark "-" "-=", mark "+" "+=", word "typeof", word "void", word "delete"]
  let count := mark "++" <|> mark "--"
  node .unaryExpression (operator ++ call .unary) <|>
    node .updateExpression (count ++ call .unary) <|>
    node .awaitExpression (word "await" ++ call .unary) <|>
    node .typeAssertion (mark "<" ++ (word "const" <|> call .type) ++ mark ">" ++ call .unary) <|>
    grow (call .callChain) (sameLine ++ extend .updateExpression none count)

def binaryOperator : Nat → Rules
  | 0 => mark "||" "=" <|> mark "??" "="
  | 1 => mark "&&" "="
  | 2 => mark "|" "|="
  | 3 => mark "^" "="
  | 4 => mark "&" "&="
  | 5 => mark "===" <|> mark "!==" <|> mark "==" <|> mark "!="
  | 6 => mark "<=" <|> mark ">=" <|> mark "<" "<" <|> mark ">" ">" <|> word "instanceof" <|> word "in"
  | 7 => mark "<<" "=" <|> mark ">>>" "=" <|> mark ">>" ">="
  | 8 => mark "+" "+=" <|> mark "-" "-="
  | 9 => mark "*" "*=" <|> mark "/" "=" <|> mark "%" "="
  | _ => mark "**" "="

/-- The tightest level of binary operators. -/
def tightest : Nat := 10

/-- An operator of a level behind an expression, and what stands to its right. -/
def binaryStep (level : Nat) : Rules :=
  extend .binaryExpression none (binaryOperator level ++ call (.binary (level + 1)))

/-- Expressions joined by the operators of a level and of all tighter ones. -/
def binary (level : Nat) : Rules :=
  if level ≤ tightest then grow (call (.binary (level + 1))) (binaryStep level) else call .unary

/-- A type assertion behind an expression, in front of `next`. -/
def assertionStep (next : Rules) : Rules :=
  extend .asExpression none (word "as" ++ (word "const" <|> call .type) ++ next) <|>
    extend .satisfiesExpression none (word "satisfies" ++ call .type ++ next)

/-- Expressions joined by any binary operator, by type assertions that follow them, and by the
conditional operator. A type assertion applies to all that stands to its left. It begins a line only
inside brackets, which shows in what follows it. -/
def conditional : Rules :=
  let inBrackets := firstOf
    [mark ",", mark ")", mark "]", closeBrace, word "as", word "satisfies"]
  let asserted := sameLine ++ assertionStep empty <|> assertionStep (ahead inBrackets)
  let question := mark "?" "?." <|> mark "?" "?" ++ ahead (leaf .number .number)
  let chosen := extend .ternaryExpression none
    (question ++
      (call .expression ++ mark ":" <|> call .conditional ++ mark ":") ++ call .expression)
  grow (call (.binary 0))
    (asserted <|> firstOf ((List.range (tightest + 1)).map binaryStep) <|> chosen)

/-- Assignment operators that first compute. -/
def augmentedOperator : Rules :=
  firstOf (["+=", "-=", "*=", "/=", "%=", "**=", "<<=", ">>=", ">>>=", "&=", "^=", "|=", "&&=",
    "||=", "??="].map fun m => mark m)

def expression : Rules :=
  let assign := assignSign ++ call .expression
  arrowFunction <|>
    node .yieldExpression (word "yield" ++ opt (sameLine ++ opt (mark "*") ++ call .expression)) <|>
    node .assignmentExpression ((arrayPattern <|> objectPattern) ++ assign) <|>
    node .assignmentExpression
      (opt (word "await") ++ word "using" ++ sameLine ++ identifier ++ assign) <|>
    grow (call .conditional)
      (extend .assignmentExpression none assign <|>
        extend .augmentedAssignment none (augmentedOperator ++ call .expression))

def sequence : Rules :=
  grow (call .expression) (extend .sequenceExpression none (mark "," ++ call .expression))

end Enlist.Syntax.TypeScript
