import ClassWeave.Literal.Numeral
/-!
# Faults of program text

Why a text is no program, and where. `Cause.message` is the only place that words a cause.
-/

namespace ClassWeave

inductive Cause where
  | expressionExpected
  | identifierExpected
  | statementEndExpected
  | tokenExpected (wanted found : String)
  | unexpectedToken (found wanted : String)
  | unexpectedEnd
  | unexpectedCharacter (c : Char)
  | unterminatedTemplate
  | unterminatedPattern
  | badEscape (fault : EscapeFault)
  | badNumeral (fault : NumeralFault)
  | escapeExpected
  | nameBehindNumber
  | spaceInPrivateName
  | emptyParentheses
  | arrowNotAllowed
  | lineBreakBeforeArrow
  | spreadInParentheses
  | lineBreakInThrow
  | awaitName
  | awaitStar
  | awaitLoop
  | yieldInParameters
  | notTarget
  | notPattern
  | optionalPattern
  | fieldParameter
  | patternWithoutValue
  | constructedChain
  | bareSuper
  | bareSuperCall
  | bareImport
  | assertedCallee (callee : String)
  | secondDefault
  | exchangeOutsideModule
  | decoratorsTwice
  | fieldNamedConstructor
  | asyncConstructor
  | readonlyMethod
  | reservedImport
  | unboundStringImport (name : String)
  | closingTagMismatch (name : String)
  | emptyAttribute
  | attributeValueExpected
  /-- More nesting than the text has room for. -/
  | tooDeep
deriving DecidableEq, Repr

def Cause.message : Cause → String
  | expressionExpected => "Expression expected"
  | identifierExpected => "Expected ident"
  | statementEndExpected => "Expected ';', '\x7d' or <eof>"
  | tokenExpected wanted found => s!"Expected '{wanted}', got '{found}'"
  | unexpectedToken found wanted => s!"Unexpected token `{found}`. Expected {wanted}"
  | unexpectedEnd => "Unexpected eof"
  | unexpectedCharacter c => s!"Unexpected character '{c}'"
  | unterminatedTemplate => "Unterminated template"
  | unterminatedPattern => "Unterminated regexp literal"
  | badEscape fault => fault.message
  | badNumeral fault => fault.message
  | escapeExpected => "Expected unicode escape"
  | nameBehindNumber => "Identifier cannot follow number"
  | spaceInPrivateName => "Unexpected space between # and identifier"
  | emptyParentheses => "Parenthesized expression cannot be empty"
  | arrowNotAllowed => "An arrow function is not allowed here"
  | lineBreakBeforeArrow => "Unexpected line break between arrow head and arrow"
  | spreadInParentheses => "Parenthesized expression cannot contain spread operator"
  | lineBreakInThrow => "LineBreak cannot follow 'throw'"
  | awaitName => "`await` cannot be used as an identifier in an async context"
  | awaitStar =>
    "await* has been removed from the async functions proposal. Use Promise.all() instead."
  | awaitLoop => "for await syntax is valid only for for-of statement"
  | yieldInParameters => "'yield' cannot be used as a parameter within generator"
  | notTarget => "Invalid assignment target"
  | notPattern => "Not a pattern"
  | optionalPattern =>
    "A binding pattern parameter cannot be optional in an implementation signature."
  | fieldParameter => "Typescript parameter property must be an identifier or assignment pattern"
  | patternWithoutValue => "Destructuring bindings require initializers"
  | constructedChain => "Constructors in/after an Optional Chain are not allowed."
  | bareSuper => "Invalid access to super"
  | bareSuperCall => "Invalid `super()`"
  | bareImport => "Import is not allowed here"
  | assertedCallee callee =>
    s!"Typescript non-null assertion operator is not allowed with '{callee}'"
  | secondDefault => "A switch block cannot have multiple defaults"
  | exchangeOutsideModule => "'import', and 'export' cannot be used outside of module code"
  | decoratorsTwice =>
    "Decorators may not appear after 'export' or 'export default' if they also appear before " ++
      "'export'."
  | fieldNamedConstructor => "Classes may not have a non-static field named 'constructor'"
  | asyncConstructor => "Constructor can't be an async function"
  | readonlyMethod => "A method cannot be readonly"
  | reservedImport => "cannot import as reserved word"
  | unboundStringImport name =>
    "A string literal cannot be used as an imported binding.\n- Did you mean `import \x7b \"" ++ name ++
      "\" as foo \x7d`?"
  | closingTagMismatch name => s!"Expected corresponding JSX closing tag for <{name}>"
  | emptyAttribute => "JSX attributes must only be assigned a non-empty expression"
  | attributeValueExpected => "JSX value should be either an expression or a quoted JSX text"
  | tooDeep => "Nested too deeply"

structure ScriptFault where
  cause : Cause
  offset : Nat
deriving DecidableEq, Repr

end ClassWeave
