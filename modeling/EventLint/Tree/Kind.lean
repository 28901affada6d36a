import EventLint.Token.Kind

/-!
# Kinds of nodes
-/

namespace EventLint

inductive NodeKind where
  | compilationUnit
  | usingDirective
  | namespaceDeclaration
  | classDeclaration
  | structDeclaration
  | recordDeclaration
  | interfaceDeclaration
  | enumDeclaration
  | attributeList
  | modifierList
  | eventFieldDeclaration
  | variableDeclaration
  | variableDeclarator
  | eventDeclaration
  | explicitInterfaceSpecifier
  | accessorList
  | accessorDeclaration
  | arrowExpressionClause
  | methodDeclaration
  | typeParameterList
  | parameterList
  | parameter
  | block
  | expressionStatement
  | returnStatement
  | otherStatement
  | assignmentExpression
  | identifierName
  | memberAccessExpression
  | expression
  | genericName
  | typeArgumentList
  | qualifiedName
  | nullableType
  | arrayType
  | tupleType
  | otherMember
  | errorNode
deriving DecidableEq, Repr

namespace NodeKind

def all : List NodeKind :=
  [compilationUnit, usingDirective, namespaceDeclaration, classDeclaration, structDeclaration,
   recordDeclaration, interfaceDeclaration, enumDeclaration, attributeList, modifierList,
   eventFieldDeclaration, variableDeclaration, variableDeclarator, eventDeclaration,
   explicitInterfaceSpecifier, accessorList, accessorDeclaration, arrowExpressionClause,
   methodDeclaration, typeParameterList, parameterList, parameter, block, expressionStatement,
   returnStatement, otherStatement, assignmentExpression, identifierName, memberAccessExpression,
   expression, genericName, typeArgumentList, qualifiedName, nullableType, arrayType, tupleType,
   otherMember, errorNode]

/-- A class, struct, record, interface or enum. -/
def isTypeDeclaration : NodeKind → Bool
  | classDeclaration | structDeclaration | recordDeclaration | interfaceDeclaration
  | enumDeclaration => true
  | _ => false

def isType : NodeKind → Bool
  | identifierName | genericName | qualifiedName | nullableType | arrayType | tupleType => true
  | _ => false

def isEvent : NodeKind → Bool
  | eventFieldDeclaration | eventDeclaration => true
  | _ => false

end NodeKind

inductive Kind where
  | token (kind : TokenKind)
  | node (kind : NodeKind)
deriving DecidableEq, Repr

def Kind.all : List Kind :=
  TokenKind.all.map .token ++ NodeKind.all.map .node

/-! ## Display names -/

def capitalized (word : String) : String :=
  match word.toList with
  | [] => ""
  | c :: cs => String.ofList (c.toUpper :: cs)

def TokenKind.name : TokenKind → String
  | ident => "Ident"
  | numericLiteral => "NumericLiteral"
  | stringLiteral => "StringLiteral"
  | charLiteral => "CharLiteral"
  | lbrace => "LBrace"
  | rbrace => "RBrace"
  | lparen => "LParen"
  | rparen => "RParen"
  | lbracket => "LBracket"
  | rbracket => "RBracket"
  | lt => "Lt"
  | gt => "Gt"
  | semicolon => "Semicolon"
  | comma => "Comma"
  | dot => "Dot"
  | question => "Question"
  | colon => "Colon"
  | colonColon => "ColonColon"
  | eq => "Eq"
  | plusEq => "PlusEq"
  | minusEq => "MinusEq"
  | compoundAssign => "CompoundAssign"
  | fatArrow => "FatArrow"
  | questionDot => "QuestionDot"
  | operator => "Operator"
  | error => "Error"
  | keyword k => capitalized k.text ++ "Kw"

def NodeKind.name : NodeKind → String
  | compilationUnit => "CompilationUnit"
  | usingDirective => "UsingDirective"
  | namespaceDeclaration => "NamespaceDeclaration"
  | classDeclaration => "ClassDeclaration"
  | structDeclaration => "StructDeclaration"
  | recordDeclaration => "RecordDeclaration"
  | interfaceDeclaration => "InterfaceDeclaration"
  | enumDeclaration => "EnumDeclaration"
  | attributeList => "AttributeList"
  | modifierList => "ModifierList"
  | eventFieldDeclaration => "EventFieldDeclaration"
  | variableDeclaration => "VariableDeclaration"
  | variableDeclarator => "VariableDeclarator"
  | eventDeclaration => "EventDeclaration"
  | explicitInterfaceSpecifier => "ExplicitInterfaceSpecifier"
  | accessorList => "AccessorList"
  | accessorDeclaration => "AccessorDeclaration"
  | arrowExpressionClause => "ArrowExpressionClause"
  | methodDeclaration => "MethodDeclaration"
  | typeParameterList => "TypeParameterList"
  | parameterList => "ParameterList"
  | parameter => "Parameter"
  | block => "Block"
  | expressionStatement => "ExpressionStatement"
  | returnStatement => "ReturnStatement"
  | otherStatement => "OtherStatement"
  | assignmentExpression => "AssignmentExpression"
  | identifierName => "IdentifierName"
  | memberAccessExpression => "MemberAccessExpression"
  | expression => "Expression"
  | genericName => "GenericName"
  | typeArgumentList => "TypeArgumentList"
  | qualifiedName => "QualifiedName"
  | nullableType => "NullableType"
  | arrayType => "ArrayType"
  | tupleType => "TupleType"
  | otherMember => "OtherMember"
  | errorNode => "ErrorNode"

def Kind.name : Kind → String
  | token k => k.name
  | node k => k.name

end EventLint
