import ClassWeave.Literal.TemplateText
import ClassWeave.Number.Binary64
import ClassWeave.Text.Span
/-!
# Program trees

A node has a shape, a span and its children in the order in which they are walked. The shapes that
rules look at carry what they need; every other construct is `Shape.other` of its form. Types
leave no nodes of their own, only the expressions inside them, and the type arguments of a tagged
template not even those.
-/

namespace ClassWeave

inductive Literal where
  | string (value : Text)
  | number (value : Binary64)
  | bigInteger (value : Nat)
  | boolean (value : Bool)
  | null
  | pattern
deriving DecidableEq, Repr

inductive ImportSpecifier where
  | single (span : Span) (binding : String)
  | everything (span : Span) (binding : String)
  | named (span : Span) (imported binding : String) (typeOnly : Bool)
deriving DecidableEq, Repr

structure ImportDeclaration where
  typeOnly : Bool
  specifiers : List ImportSpecifier
  source : Text
deriving DecidableEq, Repr

/-- Constructs whose content matters to rules only through their children. -/
inductive Form where
  | array | hole | object | property | shorthand | method | getter | setter | this | computed
  | member | index | superMember | superKeyword | importKeyword | metaProperty
  | optionalChain | optionalCall | nonNull | construct | privateName
  | sequence | arrow | yield | await | unary (operator : String) | update (operator : String)
  | function | classExpression | classDeclaration | field | staticBlock | decorator
  | parameter | rest | typed | constant | types | missing | element
  | variable | declarator | block | empty | branch | forLoop | forIn | forOf | whileLoop | doWhile
  | switch | switchCase | tryBlock | catchClause | throw | return | break | continue | label
  | debugger | withBlock | typeDeclaration | enumeration | enumMember | moduleBlock
  | importAlias | exportDeclaration | exportNames | exportDefault | exportAll | exportAssignment
  | exportNamespace
deriving DecidableEq, Repr

inductive Shape where
  | identifier (name : String)
  | literal (value : Literal)
  /-- An untagged template; the children are the embedded expressions. -/
  | template (chunks : List Chunk)
  /-- The children are the tag and the embedded expressions. -/
  | taggedTemplate (chunks : List Chunk)
  | parenthesized
  | binary (operator : String)
  | assignment (operator : String)
  | conditional
  /-- The children are the callee, as many arguments as it says, and the expressions in its type
  arguments; no call of an optional chain. -/
  | call (arity : Nat)
  | spread
  | importDeclaration (declaration : ImportDeclaration)
  | expressionStatement
  | other (form : Form)
deriving DecidableEq, Repr

inductive Node where
  | mk (shape : Shape) (span : Span) (children : List Node)
deriving Repr

namespace Node

def shape : Node → Shape
  | mk shape _ _ => shape

def span : Node → Span
  | mk _ span _ => span

def children : Node → List Node
  | mk _ _ children => children

instance : Inhabited Node := ⟨.mk (.other .missing) ⟨0, 0⟩ []⟩

def unparenthesized : Node → Node
  | mk .parenthesized _ [inner] => inner.unparenthesized
  | node => node

end Node
end ClassWeave
