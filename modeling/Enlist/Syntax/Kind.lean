/-!
# Kinds of syntax nodes

A node of a syntax tree is told by its `Kind`, and stands to its parent in the role of a `Label`.
`Kind.name` is the name under which a kind is reported; `Kind.role` sorts the kinds into the few
`Role`s that searches in a tree tell apart.
-/

namespace Enlist.Syntax

inductive Kind where
  -- the whole text, and what may stand anywhere
  | program | hashBang | comment
  -- what a parser that goes on behind an error found in front of it
  | error
  -- anonymous leaves: punctuation, keywords, and the two type keywords that name a kind of value
  | punctuation | keyword | stringKeyword | objectKeyword
  -- names
  | identifier | propertyIdentifier | shorthandProperty | shorthandPropertyPattern
  | typeIdentifier | privateProperty | statementIdentifier | nestedIdentifier
  -- imports and exports
  | importStatement | importClause | namedImports | importSpecifier | namespaceImport
  | importRequire | importAttribute | importAlias
  | exportStatement | exportClause | exportSpecifier | namespaceExport
  -- statements and declarations
  | expressionStatement | lexicalDeclaration | variableDeclaration | variableDeclarator
  | functionDeclaration | generatorDeclaration | functionSignature | classDeclaration
  | abstractClassDeclaration | interfaceDeclaration | typeAliasDeclaration | enumDeclaration
  | enumBody | enumAssignment | moduleDeclaration | ambientDeclaration
  | statementBlock | emptyStatement | ifStatement | elseClause | forStatement | forInStatement
  | whileStatement | doStatement | switchStatement | switchBody | switchCase | switchDefault
  | tryStatement | catchClause | finallyClause | throwStatement | returnStatement | breakStatement
  | continueStatement | debuggerStatement | withStatement | labeledStatement
  -- classes
  | decorator | classBody | classHeritage | extendsClause | implementsClause
  | publicFieldDefinition | methodDefinition | methodSignature | abstractMethodSignature
  | staticBlock | accessibilityModifier | overrideModifier
  -- expressions
  | number | string | templateString | templateText | regex | nullLiteral | trueLiteral | falseLiteral
  | undefined | this | super | importKeyword
  | array | object | pair | spreadElement | computedPropertyName
  | parenthesizedExpression | memberExpression | subscriptExpression | callExpression | arguments
  | newExpression | metaProperty | nonNullExpression | instantiationExpression
  | unaryExpression | updateExpression | awaitExpression | binaryExpression | asExpression
  | satisfiesExpression | typeAssertion | ternaryExpression | assignmentExpression
  | augmentedAssignment | yieldExpression | sequenceExpression | arrowFunction
  | functionExpression | generatorFunction | classExpression
  -- patterns and parameters
  | arrayPattern | objectPattern | pairPattern | restPattern | assignmentPattern
  | objectAssignmentPattern | formalParameters | requiredParameter | optionalParameter
  -- types
  | typeAscription | typeArguments | typeParameters | typeParameter | predefinedType
  | literalType | genericType | nestedTypeIdentifier | objectType | propertySignature
  | callSignature | constructSignature | indexSignature | arrayType | lookupType | tupleType
  | tupleParameter | optionalType | restType | functionType | constructorType
  | parenthesizedType | unionType | intersectionType | conditionalType | inferType
  | indexTypeQuery | typeQuery | readonlyType | templateLiteralType | typePredicate | assertsType
  | thisType | constraint | defaultType | mappedTypeClause
  deriving DecidableEq, Repr

/-- What a node is to its parent, where a search asks for it. -/
inductive Label where
  | source | name | alias | key | value | function | arguments | object | property | declaration
  /-- The word `type` that makes a whole import statement bind types only. -/
  | typeOnly
  deriving DecidableEq, Repr

/-- The roles that a search in a syntax tree tells apart. -/
inductive Role where
  | program | importStatement | decorator | call | object | pair | array | variableDeclarator
  | string | identifier
  | other
  deriving DecidableEq, Repr

namespace Kind

/-- A comment may stand between any two leaves, and so may what a parser goes on behind; neither is a
child that is asked for. -/
def isExtra : Kind → Bool
  | comment | error => true
  | _ => false

/-- Punctuation and keywords are leaves without a name of their own. -/
def isNamed : Kind → Bool
  | punctuation | keyword | stringKeyword | objectKeyword => false
  | _ => true

/-- The role of a kind. The type keywords `string` and `object` count with the values they name. -/
def role : Kind → Role
  | program => .program
  | importStatement => .importStatement
  | decorator => .decorator
  | callExpression => .call
  | object | objectKeyword => .object
  | pair => .pair
  | array => .array
  | variableDeclarator => .variableDeclarator
  | string | stringKeyword => .string
  | identifier | propertyIdentifier | shorthandProperty => .identifier
  | _ => .other

/-- The name under which a kind is reported. -/
def name : Kind → String
  | program => "program"
  | hashBang => "hash_bang_line"
  | comment => "comment"
  | error => "ERROR"
  | punctuation => "punctuation"
  | keyword => "keyword"
  | stringKeyword => "string"
  | objectKeyword => "object"
  | identifier => "identifier"
  | propertyIdentifier => "property_identifier"
  | shorthandProperty => "shorthand_property_identifier"
  | shorthandPropertyPattern => "shorthand_property_identifier_pattern"
  | typeIdentifier => "type_identifier"
  | privateProperty => "private_property_identifier"
  | statementIdentifier => "statement_identifier"
  | nestedIdentifier => "nested_identifier"
  | importStatement => "import_statement"
  | importClause => "import_clause"
  | namedImports => "named_imports"
  | importSpecifier => "import_specifier"
  | namespaceImport => "namespace_import"
  | importRequire => "import_require_clause"
  | importAttribute => "import_attribute"
  | importAlias => "import_alias"
  | exportStatement => "export_statement"
  | exportClause => "export_clause"
  | exportSpecifier => "export_specifier"
  | namespaceExport => "namespace_export"
  | expressionStatement => "expression_statement"
  | lexicalDeclaration => "lexical_declaration"
  | variableDeclaration => "variable_declaration"
  | variableDeclarator => "variable_declarator"
  | functionDeclaration => "function_declaration"
  | generatorDeclaration => "generator_function_declaration"
  | functionSignature => "function_signature"
  | classDeclaration => "class_declaration"
  | abstractClassDeclaration => "abstract_class_declaration"
  | interfaceDeclaration => "interface_declaration"
  | typeAliasDeclaration => "type_alias_declaration"
  | enumDeclaration => "enum_declaration"
  | enumBody => "enum_body"
  | enumAssignment => "enum_assignment"
  | moduleDeclaration => "module"
  | ambientDeclaration => "ambient_declaration"
  | statementBlock => "statement_block"
  | emptyStatement => "empty_statement"
  | ifStatement => "if_statement"
  | elseClause => "else_clause"
  | forStatement => "for_statement"
  | forInStatement => "for_in_statement"
  | whileStatement => "while_statement"
  | doStatement => "do_statement"
  | switchStatement => "switch_statement"
  | switchBody => "switch_body"
  | switchCase => "switch_case"
  | switchDefault => "switch_default"
  | tryStatement => "try_statement"
  | catchClause => "catch_clause"
  | finallyClause => "finally_clause"
  | throwStatement => "throw_statement"
  | returnStatement => "return_statement"
  | breakStatement => "break_statement"
  | continueStatement => "continue_statement"
  | debuggerStatement => "debugger_statement"
  | withStatement => "with_statement"
  | labeledStatement => "labeled_statement"
  | decorator => "decorator"
  | classBody => "class_body"
  | classHeritage => "class_heritage"
  | extendsClause => "extends_clause"
  | implementsClause => "implements_clause"
  | publicFieldDefinition => "public_field_definition"
  | methodDefinition => "method_definition"
  | methodSignature => "method_signature"
  | abstractMethodSignature => "abstract_method_signature"
  | staticBlock => "class_static_block"
  | accessibilityModifier => "accessibility_modifier"
  | overrideModifier => "override_modifier"
  | number => "number"
  | string => "string"
  | templateString => "template_string"
  | templateText => "template_text"
  | regex => "regex"
  | nullLiteral => "null"
  | trueLiteral => "true"
  | falseLiteral => "false"
  | undefined => "undefined"
  | this => "this"
  | super => "super"
  | importKeyword => "import"
  | array => "array"
  | object => "object"
  | pair => "pair"
  | spreadElement => "spread_element"
  | computedPropertyName => "computed_property_name"
  | parenthesizedExpression => "parenthesized_expression"
  | memberExpression => "member_expression"
  | subscriptExpression => "subscript_expression"
  | callExpression => "call_expression"
  | arguments => "arguments"
  | newExpression => "new_expression"
  | metaProperty => "meta_property"
  | nonNullExpression => "non_null_expression"
  | instantiationExpression => "instantiation_expression"
  | unaryExpression => "unary_expression"
  | updateExpression => "update_expression"
  | awaitExpression => "await_expression"
  | binaryExpression => "binary_expression"
  | asExpression => "as_expression"
  | satisfiesExpression => "satisfies_expression"
  | typeAssertion => "type_assertion"
  | ternaryExpression => "ternary_expression"
  | assignmentExpression => "assignment_expression"
  | augmentedAssignment => "augmented_assignment_expression"
  | yieldExpression => "yield_expression"
  | sequenceExpression => "sequence_expression"
  | arrowFunction => "arrow_function"
  | functionExpression => "function_expression"
  | generatorFunction => "generator_function"
  | classExpression => "class"
  | arrayPattern => "array_pattern"
  | objectPattern => "object_pattern"
  | pairPattern => "pair_pattern"
  | restPattern => "rest_pattern"
  | assignmentPattern => "assignment_pattern"
  | objectAssignmentPattern => "object_assignment_pattern"
  | formalParameters => "formal_parameters"
  | requiredParameter => "required_parameter"
  | optionalParameter => "optional_parameter"
  | typeAscription => "type_annotation"
  | typeArguments => "type_arguments"
  | typeParameters => "type_parameters"
  | typeParameter => "type_parameter"
  | predefinedType => "predefined_type"
  | literalType => "literal_type"
  | genericType => "generic_type"
  | nestedTypeIdentifier => "nested_type_identifier"
  | objectType => "object_type"
  | propertySignature => "property_signature"
  | callSignature => "call_signature"
  | constructSignature => "construct_signature"
  | indexSignature => "index_signature"
  | arrayType => "array_type"
  | lookupType => "lookup_type"
  | tupleType => "tuple_type"
  | tupleParameter => "tuple_parameter"
  | optionalType => "optional_type"
  | restType => "rest_type"
  | functionType => "function_type"
  | constructorType => "constructor_type"
  | parenthesizedType => "parenthesized_type"
  | unionType => "union_type"
  | intersectionType => "intersection_type"
  | conditionalType => "conditional_type"
  | inferType => "infer_type"
  | indexTypeQuery => "index_type_query"
  | typeQuery => "type_query"
  | readonlyType => "readonly_type"
  | templateLiteralType => "template_literal_type"
  | typePredicate => "type_predicate"
  | assertsType => "asserts"
  | thisType => "this_type"
  | constraint => "constraint"
  | defaultType => "default_type"
  | mappedTypeClause => "mapped_type_clause"

end Kind

end Enlist.Syntax
