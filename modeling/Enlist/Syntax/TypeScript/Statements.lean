import Enlist.Syntax.TypeScript.Expressions

/-!
# Statements of TypeScript

The rules for imports, exports, declarations and the other statements.
-/

namespace Enlist.Syntax.TypeScript

open Form

def block : Rules := node .statementBlock (openBrace ++ many (call .statement) ++ closeBrace)

/-! ## Imports and exports -/

/-- The end of a name in a list in braces. -/
def listFollows : Rules := ahead (mark "," <|> closeBrace)

/-- The words in front of a name that is bound as a type, or as the type of a value. -/
def typeMark : Rules := word "type" <|> word "typeof"

/-- One name of an import statement. A word in front of it may bind it as a type; where no other name
follows, that word is the name. -/
def importSpecifier : Rules :=
  let name := labelled .name (anyIdentifier <|> string)
  let aliased := name ++ word "as" ++ labelled .alias anyIdentifier ++ listFollows
  node .importSpecifier
    (aliased <|> typeMark ++ aliased <|> typeMark ++ name ++ listFollows <|> name ++ listFollows)

def namedImports : Rules :=
  node .namedImports
    (openBrace ++ opt (importSpecifier ++ many (mark "," ++ importSpecifier)) ++ opt (mark ",") ++
      closeBrace)

def namespaceImport : Rules := node .namespaceImport (mark "*" ++ word "as" ++ anyIdentifier)

def importClause : Rules :=
  let several := namespaceImport <|> namedImports
  node .importClause (several <|> anyIdentifier ++ opt (mark "," ++ several))

/-- The module that names are taken from. -/
def fromClause : Rules := word "from" ++ labelled .source string

def importAttribute : Rules :=
  node .importAttribute ((word "with" <|> sameLine ++ word "assert") ++ call .object)

/-- A module under a name, by a call of `require`. -/
def importRequire : Rules :=
  node .importRequire
    (identifier ++ mark "=" ++ word "require" ++ mark "(" ++ labelled .source string ++ mark ")")

/-- What is imported, up to the name of the module. -/
def importSource : Rules :=
  let parts := importClause ++ fromClause <|> importRequire <|> labelled .source string
  (labelled .typeOnly (word "type") <|> word "typeof") ++ parts <|> parts

def importStatement : Rules :=
  node .importStatement (word "import" ++ importSource ++ opt importAttribute ++ semicolon)

/-- A name with members behind it. -/
def entityName : Rules :=
  grow identifier
    (extend .nestedIdentifier (some .object) (mark "." ++ leaf .propertyIdentifier .word))

/-- Another name for a member of a namespace. -/
def importAlias : Rules :=
  node .importAlias (word "import" ++ identifier ++ mark "=" ++ entityName ++ semicolon)

def exportClause : Rules :=
  let name := labelled .name (anyIdentifier <|> string)
  let aliased := name ++ word "as" ++ labelled .alias (anyIdentifier <|> string) ++ listFollows
  let specifier := node .exportSpecifier
    (aliased <|> typeMark ++ aliased <|> typeMark ++ name ++ listFollows <|> name ++ listFollows)
  node .exportClause
    (openBrace ++ opt (specifier ++ many (mark "," ++ specifier)) ++ opt (mark ",") ++ closeBrace)

/-- An export statement. Decorators in front of `export` are its own, though they decorate the class
that it declares. -/
def exportStatement : Rules :=
  let source := fromClause ++ opt importAttribute ++ semicolon
  let star := node .namespaceExport (mark "*" ++ word "as" ++ (anyIdentifier <|> string)) <|> mark "*"
  let declared := labelled .declaration (call .declaration)
  node .exportStatement
    (word "export" ++
        (opt (word "type") ++ star ++ source <|>
          opt (word "type") ++ exportClause ++ (source <|> semicolon) <|>
          mark "=" ++ call .sequence ++ semicolon <|>
          word "as" ++ word "namespace" ++ identifier ++ semicolon) <|>
      many (call .decorator) ++ word "export" ++
        (word "default" ++ (declared <|> labelled .value (call .sequence) ++ semicolon) <|> declared))

/-! ## Declarations -/

def variableDeclarator : Rules :=
  node .variableDeclarator
    (labelled .name (call .pattern) ++ opt (mark "!") ++ opt typeAscription ++ opt initializer)

def lexicalDeclaration : Rules :=
  node .lexicalDeclaration
    ((word "let" <|> word "const") ++ variableDeclarator ++ many (mark "," ++ variableDeclarator) ++
      semicolon)

/-- Variables of the function that they stand in. -/
def variableDeclaration : Rules :=
  node .variableDeclaration
    (word "var" ++ variableDeclarator ++ many (mark "," ++ variableDeclarator) ++ semicolon)

def functionDeclaration : Rules :=
  let head := opt (word "async") ++ word "function"
  let tail := labelled .name identifier ++ signature
  node .generatorDeclaration (head ++ mark "*" ++ tail ++ call .block) <|>
    node .functionDeclaration (head ++ tail ++ call .block) <|>
    node .functionSignature (head ++ tail ++ semicolon)

def classDeclaration : Rules :=
  let named := word "class" ++ labelled .name typeName ++ classTail
  node .classDeclaration (many (call .decorator) ++ named) <|>
    node .abstractClassDeclaration (many (call .decorator) ++ word "abstract" ++ named)

def interfaceDeclaration : Rules :=
  node .interfaceDeclaration
    (word "interface" ++ labelled .name typeName ++ opt (call .typeParameters) ++
      opt (word "extends" ++ commaList (call .type)) ++ call .objectType)

def typeAlias : Rules :=
  node .typeAliasDeclaration
    (word "type" ++ sameLine ++ labelled .name typeName ++ opt (call .typeParameters) ++ mark "=" ++
      call .type ++ semicolon)

def enumDeclaration : Rules :=
  let member := node .enumAssignment (propertyName ++ mark "=" ++ call .expression) <|> propertyName
  node .enumDeclaration
    (opt (word "const") ++ word "enum" ++ labelled .name identifier ++
      node .enumBody (bracketed openBrace member closeBrace))

def moduleDeclaration : Rules :=
  node .moduleDeclaration
    ((word "namespace" <|> word "module") ++ sameLine ++
      ((string <|> entityName) ++ call .block <|> string ++ semicolon))

/-- A declaration of what exists elsewhere. -/
def ambientDeclaration : Rules :=
  node .ambientDeclaration
    (word "declare" ++ sameLine ++ (call .declaration <|> word "global" ++ call .block))

def declaration : Rules :=
  firstOf [functionDeclaration, classDeclaration, enumDeclaration, lexicalDeclaration,
    variableDeclaration, interfaceDeclaration, typeAlias, moduleDeclaration, ambientDeclaration,
    importAlias]

/-! ## Control -/

def condition : Rules := parenthesized

def ifStatement : Rules :=
  node .ifStatement
    (word "if" ++ condition ++ call .statement ++
      opt (node .elseClause (word "else" ++ call .statement)))

/-- A loop over the elements or the keys of a value. -/
def forInStatement : Rules :=
  let bound := word "let" <|> word "const" <|> word "var"
  let relation := word "in" <|> word "of"
  node .forInStatement
    (word "for" ++ opt (word "await") ++ mark "(" ++
      (bound ++ call .pattern ++ relation <|> call .pattern ++ relation <|>
          call .memberChain ++ relation) ++
      call .sequence ++ mark ")" ++ call .statement)

def forStatement : Rules :=
  let start := lexicalDeclaration <|> variableDeclaration <|>
    node .expressionStatement (call .sequence ++ mark ";") <|> node .emptyStatement (mark ";")
  node .forStatement
    (word "for" ++ mark "(" ++ start ++ opt (call .sequence) ++ mark ";" ++ opt (call .sequence) ++
      mark ")" ++ call .statement)

def whileStatement : Rules :=
  node .whileStatement (word "while" ++ condition ++ call .statement) <|>
    node .doStatement
      (word "do" ++ call .statement ++ word "while" ++ condition ++ opt (mark ";"))

def switchStatement : Rules :=
  let choice := node .switchCase
      (word "case" ++ call .sequence ++ mark ":" ++ many (call .statement)) <|>
    node .switchDefault (word "default" ++ mark ":" ++ many (call .statement))
  node .switchStatement
    (word "switch" ++ condition ++ node .switchBody (openBrace ++ many choice ++ closeBrace))

def tryStatement : Rules :=
  let handler := node .catchClause
    (word "catch" ++ opt (mark "(" ++ call .pattern ++ opt typeAscription ++ mark ")") ++ call .block)
  let cleanup := node .finallyClause (word "finally" ++ call .block)
  node .tryStatement (word "try" ++ call .block ++ opt handler ++ opt cleanup)

/-- Statements that leave a place. -/
def jumpStatement : Rules :=
  let target := opt (sameLine ++ leaf .statementIdentifier (.name []))
  node .returnStatement (word "return" ++ opt (sameLine ++ call .sequence) ++ semicolon) <|>
    node .throwStatement (word "throw" ++ call .sequence ++ semicolon) <|>
    node .breakStatement (word "break" ++ target ++ semicolon) <|>
    node .continueStatement (word "continue" ++ target ++ semicolon) <|>
    node .debuggerStatement (word "debugger" ++ semicolon)

/-- A statement with a name to leave it by. -/
def labeledStatement : Rules :=
  node .labeledStatement (leaf .statementIdentifier (.name []) ++ mark ":" ++ call .statement)

/-- An expression as a statement. It begins with no brace and with no declaration. -/
def expressionStatement : Rules :=
  node .expressionStatement
    (absent (openBrace <|> word "function" <|> word "class") ++ call .sequence ++ semicolon)

def statement : Rules :=
  firstOf [
    importStatement, exportStatement, call .declaration, call .block,
    node .emptyStatement (mark ";"), ifStatement, forInStatement, forStatement, whileStatement,
    switchStatement, tryStatement, jumpStatement,
    node .withStatement (word "with" ++ condition ++ call .statement), labeledStatement,
    expressionStatement]

def program : Rules :=
  opt (leaf .hashBang .hashBang) ++ many (call .statement) ++ textEnd

end Enlist.Syntax.TypeScript
