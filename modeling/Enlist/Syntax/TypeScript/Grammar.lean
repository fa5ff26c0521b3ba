import Enlist.Syntax.TypeScript.Statements
import Enlist.Syntax.TypeScript.Types

/-!
# The TypeScript grammar

`grammar` says what each rule is.
-/

namespace Enlist.Syntax.TypeScript

/-- What each rule of the grammar says. -/
def grammar : Rule → Rules
  | .program => program
  | .statement => statement
  | .declaration => declaration
  | .block => block
  | .sequence => sequence
  | .expression => expression
  | .conditional => conditional
  | .binary level => binary level
  | .unary => unary
  | .callChain => callChain
  | .memberChain => memberChain
  | .primary => primary
  | .array => array
  | .object => object
  | .arguments => arguments
  | .template => template
  | .decorator => decorator
  | .classBody => classBody
  | .pattern => pattern
  | .parameters => parameters
  | .type => type
  | .unionType => unionType
  | .intersectionType => intersectionType
  | .prefixType => prefixType
  | .postfixType => postfixType
  | .primaryType => primaryType
  | .objectType => objectType
  | .typeArguments => typeArguments
  | .typeParameters => typeParameters

end Enlist.Syntax.TypeScript
