import Enlist.Syntax.TypeScript.Rule

/-!
# Types of TypeScript

The rules for types, from conditional types down to type names, and for the members of object types.
-/

namespace Enlist.Syntax.TypeScript

open Form

def typeArguments : Rules :=
  node .typeArguments (mark "<" ++ commaList (call .type) ++ mark ">")

def typeParameter : Rules :=
  node .typeParameter
    (many (firstOf (["const", "in", "out"].map fun w => modifier .keyword w typeName)) ++
      typeName ++ opt (node .constraint (word "extends" ++ call .type)) ++
      opt (node .defaultType (mark "=" ++ call .type)))

def typeParameters : Rules :=
  node .typeParameters (mark "<" ++ commaList typeParameter ++ mark ">")

def functionType : Rules :=
  node .functionType
    (opt (call .typeParameters) ++ call .parameters ++ mark "=>" ++ returnedType)

def constructorType : Rules :=
  node .constructorType
    (opt (word "abstract") ++ word "new" ++ opt (call .typeParameters) ++ call .parameters ++
      mark "=>" ++ call .type)

def type : Rules :=
  let bound := functionType <|> constructorType <|> call .unionType
  functionType <|> constructorType <|>
    grow (call .unionType)
      (extend .conditionalType none
        (word "extends" ++ bound ++ mark "?" ++ call .type ++ mark ":" ++ call .type))

def unionType : Rules :=
  let bar := mark "|" "|="
  node .unionType (bar ++ call .intersectionType ++ many (bar ++ call .intersectionType)) <|>
    grow (call .intersectionType) (extend .unionType none (bar ++ call .intersectionType))

/-- Types that all hold. -/
def intersectionType : Rules :=
  let ampersand := mark "&" "&="
  node .intersectionType (ampersand ++ call .prefixType ++ many (ampersand ++ call .prefixType)) <|>
    grow (call .prefixType) (extend .intersectionType none (ampersand ++ call .prefixType))

/-- A type behind a word that works on it. -/
def prefixType : Rules :=
  node .indexTypeQuery (word "keyof" ++ call .prefixType) <|>
    node .readonlyType (word "readonly" ++ call .prefixType) <|>
    node .inferType (word "infer" ++ typeName ++
      opt (word "extends" ++ call .prefixType ++ absent (mark "?"))) <|>
    node .predefinedType (word "unique" ++ word "symbol") <|>
    call .postfixType

/-- A type with brackets behind it: an array of it, or one of its members. -/
def postfixType : Rules :=
  grow (call .primaryType)
    (sameLine ++
      (extend .arrayType none (mark "[" ++ mark "]") <|>
        extend .lookupType none (mark "[" ++ call .type ++ mark "]")))

/-- A named type, perhaps inside a module, perhaps with arguments. -/
def namedType : Rules :=
  let nested := node .nestedTypeIdentifier
    (identifier ++ mark "." ++ many (leaf .propertyIdentifier .word ++ mark ".") ++
      leaf .typeIdentifier .word)
  grow (nested <|> typeName) (sameLine ++ extend .genericType none (call .typeArguments))

def importedType : Rules :=
  let path := extend .callExpression (some .function) (labelled .arguments (call .arguments))
  let member := extend .memberExpression (some .object) (mark "." ++ labelled .property propertyWord)
  grow (grow (wordAs .importKeyword "import") path)
    (member <|> extend .genericType none (call .typeArguments))

/-- The type of a value that is named. -/
def typeQuery : Rules :=
  let value := identifier <|> wordAs .this "this" <|> wordAs .importKeyword "import"
  let member := extend .memberExpression (some .object) (mark "." ++ labelled .property propertyWord)
  let called :=
    extend .callExpression (some .function) (labelled .arguments (call .arguments))
  node .typeQuery
    (word "typeof" ++ grow value (member <|> called) ++ opt (sameLine ++ call .typeArguments))

def literalType : Rules :=
  node .literalType
    (string <|> leaf .number .number <|>
      node .unaryExpression ((mark "-" <|> mark "+") ++ leaf .number .number) <|>
      wordAs .trueLiteral "true" <|> wordAs .falseLiteral "false" <|> wordAs .nullLiteral "null" <|>
      wordAs .undefined "undefined")

def predefinedType : Rules :=
  node .predefinedType
    (wordAs .stringKeyword "string" <|> wordAs .objectKeyword "object" <|>
      firstOf (["any", "number", "boolean", "symbol", "void", "unknown", "never"].map word))

def tupleType : Rules :=
  let named := node .tupleParameter (identifier ++ opt (mark "?") ++ mark ":" ++ call .type)
  let item := node .restType (mark "..." ++ (named <|> call .type)) <|> named <|>
    grow (call .type) (extend .optionalType none (mark "?"))
  node .tupleType (bracketed (mark "[") item (mark "]"))

def templateType : Rules :=
  let text (opens continues : Bool) : Rules := leaf .templateText (.template opens continues)
  node .templateLiteralType
    (text true false <|>
      text true true ++ call .type ++ many (text false true ++ call .type) ++ text false false)

/-- A type that nothing binds tighter. -/
def primaryType : Rules :=
  node .parenthesizedType (mark "(" ++ call .type ++ mark ")") <|>
    predefinedType <|> wordAs .thisType "this" <|> literalType <|> templateType <|> tupleType <|>
    call .objectType <|> typeQuery <|> importedType <|> namedType

/-- A member that stands for all keys, or for each key of a type. -/
def indexSignature : Rules :=
  let sign := mark "+" <|> mark "-"
  let mapped := node .mappedTypeClause
    (typeName ++ word "in" ++ call .type ++ opt (word "as" ++ call .type))
  let keyed := identifier ++ typeAscription
  node .indexSignature
    (opt (opt sign ++ word "readonly") ++ mark "[" ++ (mapped <|> keyed) ++ mark "]" ++
      opt (opt sign ++ mark "?") ++ opt typeAscription)

def typeMember : Rules :=
  indexSignature <|>
    node .callSignature signature <|>
    node .constructSignature (opt (word "abstract") ++ word "new" ++ signature) <|>
    methodSignature <|>
    node .propertySignature
      (memberModifiers ++ labelled .name propertyName ++ opt (mark "?") ++ opt typeAscription)

def objectType : Rules :=
  let separator := mark ";" <|> mark ","
  node .objectType
    (openBrace ++ many (separator <|> typeMember ++ (separator <|> newLine <|> ahead closeBrace)) ++
      closeBrace)

end Enlist.Syntax.TypeScript
