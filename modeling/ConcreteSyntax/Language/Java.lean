import ConcreteSyntax.Grammar.Expr

/-! # Java

Source files of Java 8.  Trivia is blanks and comments. -/

namespace ConcreteSyntax

/-- The rules of the Java grammar.  Names in capitals are tokens. -/
inductive JavaRule where
  | EOI | compilationUnit | packageDeclaration | importDeclaration | typeDeclaration | modifier
  | classOrInterfaceModifier | variableModifier | classDeclaration | typeParameters
  | typeParameter | typeBound | enumDeclaration | enumConstants | enumConstant
  | enumBodyDeclarations | interfaceDeclaration | annotationTypeDeclaration | typeList | classBody
  | classBodyDeclaration | memberDeclaration | methodDeclaration | methodBody
  | genericMethodDeclaration | constructorDeclaration | genericConstructorDeclaration
  | fieldDeclaration | variableDeclarators | variableDeclarator | variableDeclaratorId
  | variableInitializer | arrayInitializer | formalParameters | formalParameterList
  | formalParameter | qualifiedName | qualifiedNameList | typeTypeOrVoid | typeType
  | classOrInterfaceType | primitiveType | typeArguments | typeArgument | dims | annotation
  | elementValuePairs | elementValuePair | elementValue | elementValueArrayInitializer | block
  | blockStatement | localVariableDeclaration | localTypeDeclaration | statement | catchClause
  | catchType | finallyBlock | resourceSpecification | resources | resource
  | switchBlockStatementGroup | switchLabel | forControl | forInit | enhancedForControl
  | parExpression | expressionList | expression | assignmentExpression | assignmentOperator
  | conditionalExpression | conditionalOrExpression | conditionalAndExpression
  | inclusiveOrExpression | exclusiveOrExpression | andExpression | equalityExpression
  | relationalExpression | shiftExpression | shiftOperator | additiveExpression
  | multiplicativeExpression | unaryExpression | unaryExpressionNotPlusMinus | castExpression
  | postfixExpression | primary | selector | superSuffix | creator | createdName
  | arrayCreatorRest | classCreatorRest | arguments | lambdaExpression | lambdaParameters
  | lambdaBody | literal | ABSTRACT | ASSERT | BOOLEAN | BREAK | BYTE | CASE | CATCH | CHAR
  | CLASS | CONST | CONTINUE | DEFAULT | DO | DOUBLE | ELSE | ENUM | EXTENDS | FINAL | FINALLY
  | FLOAT | FOR | GOTO | IF | IMPLEMENTS | IMPORT | INSTANCEOF | INT | INTERFACE | LONG | NATIVE
  | NEW | PACKAGE | PRIVATE | PROTECTED | PUBLIC | RETURN | SHORT | STATIC | STRICTFP | SUPER
  | SWITCH | SYNCHRONIZED | THIS | THROW | THROWS | TRANSIENT | TRY | VOID | VOLATILE | WHILE
  | reservedWord | IntegerLiteral | FloatingPointLiteral | digits | exponent | floatSuffix
  | CharacterLiteral | StringLiteral | escapeSequence | BooleanLiteral | NullLiteral | Identifier
  | identStart | identPart | LPAREN | RPAREN | LBRACE | RBRACE | LBRACK | RBRACK | SEMI | COMMA
  | ELLIPSIS | DOT | AT | COLONCOLON | COLON | ARROW | QUESTION | TILDE | EQUAL | NOTEQUAL | LE
  | GE | AND | OR | INC | DEC | ASSIGN | ADD_ASSIGN | SUB_ASSIGN | MUL_ASSIGN | DIV_ASSIGN
  | AND_ASSIGN | OR_ASSIGN | XOR_ASSIGN | MOD_ASSIGN | LSHIFT_ASSIGN | RSHIFT_ASSIGN
  | URSHIFT_ASSIGN | LT | GT | BANG | ADD | SUB | MUL | DIV | MOD | BITAND | BITOR | CARET
  | WHITESPACE | COMMENT
deriving DecidableEq, Repr

namespace JavaRule

open ConcreteSyntax.Expr ConcreteSyntax.Rule

def name : JavaRule → String
  | EOI => "EOI" | compilationUnit => "compilationUnit"
  | packageDeclaration => "packageDeclaration" | importDeclaration => "importDeclaration"
  | typeDeclaration => "typeDeclaration" | modifier => "modifier"
  | classOrInterfaceModifier => "classOrInterfaceModifier"
  | variableModifier => "variableModifier" | classDeclaration => "classDeclaration"
  | typeParameters => "typeParameters" | typeParameter => "typeParameter"
  | typeBound => "typeBound" | enumDeclaration => "enumDeclaration"
  | enumConstants => "enumConstants" | enumConstant => "enumConstant"
  | enumBodyDeclarations => "enumBodyDeclarations"
  | interfaceDeclaration => "interfaceDeclaration"
  | annotationTypeDeclaration => "annotationTypeDeclaration" | typeList => "typeList"
  | classBody => "classBody" | classBodyDeclaration => "classBodyDeclaration"
  | memberDeclaration => "memberDeclaration" | methodDeclaration => "methodDeclaration"
  | methodBody => "methodBody" | genericMethodDeclaration => "genericMethodDeclaration"
  | constructorDeclaration => "constructorDeclaration"
  | genericConstructorDeclaration => "genericConstructorDeclaration"
  | fieldDeclaration => "fieldDeclaration" | variableDeclarators => "variableDeclarators"
  | variableDeclarator => "variableDeclarator" | variableDeclaratorId => "variableDeclaratorId"
  | variableInitializer => "variableInitializer" | arrayInitializer => "arrayInitializer"
  | formalParameters => "formalParameters" | formalParameterList => "formalParameterList"
  | formalParameter => "formalParameter" | qualifiedName => "qualifiedName"
  | qualifiedNameList => "qualifiedNameList" | typeTypeOrVoid => "typeTypeOrVoid"
  | typeType => "typeType" | classOrInterfaceType => "classOrInterfaceType"
  | primitiveType => "primitiveType" | typeArguments => "typeArguments"
  | typeArgument => "typeArgument" | dims => "dims" | annotation => "annotation"
  | elementValuePairs => "elementValuePairs" | elementValuePair => "elementValuePair"
  | elementValue => "elementValue"
  | elementValueArrayInitializer => "elementValueArrayInitializer" | block => "block"
  | blockStatement => "blockStatement" | localVariableDeclaration => "localVariableDeclaration"
  | localTypeDeclaration => "localTypeDeclaration" | statement => "statement"
  | catchClause => "catchClause" | catchType => "catchType" | finallyBlock => "finallyBlock"
  | resourceSpecification => "resourceSpecification" | resources => "resources"
  | resource => "resource" | switchBlockStatementGroup => "switchBlockStatementGroup"
  | switchLabel => "switchLabel" | forControl => "forControl" | forInit => "forInit"
  | enhancedForControl => "enhancedForControl" | parExpression => "parExpression"
  | expressionList => "expressionList" | expression => "expression"
  | assignmentExpression => "assignmentExpression" | assignmentOperator => "assignmentOperator"
  | conditionalExpression => "conditionalExpression"
  | conditionalOrExpression => "conditionalOrExpression"
  | conditionalAndExpression => "conditionalAndExpression"
  | inclusiveOrExpression => "inclusiveOrExpression"
  | exclusiveOrExpression => "exclusiveOrExpression" | andExpression => "andExpression"
  | equalityExpression => "equalityExpression" | relationalExpression => "relationalExpression"
  | shiftExpression => "shiftExpression" | shiftOperator => "shiftOperator"
  | additiveExpression => "additiveExpression"
  | multiplicativeExpression => "multiplicativeExpression" | unaryExpression => "unaryExpression"
  | unaryExpressionNotPlusMinus => "unaryExpressionNotPlusMinus"
  | castExpression => "castExpression" | postfixExpression => "postfixExpression"
  | primary => "primary" | selector => "selector" | superSuffix => "superSuffix"
  | creator => "creator" | createdName => "createdName" | arrayCreatorRest => "arrayCreatorRest"
  | classCreatorRest => "classCreatorRest" | arguments => "arguments"
  | lambdaExpression => "lambdaExpression" | lambdaParameters => "lambdaParameters"
  | lambdaBody => "lambdaBody" | literal => "literal" | ABSTRACT => "ABSTRACT"
  | ASSERT => "ASSERT" | BOOLEAN => "BOOLEAN" | BREAK => "BREAK" | BYTE => "BYTE" | CASE => "CASE"
  | CATCH => "CATCH" | CHAR => "CHAR" | CLASS => "CLASS" | CONST => "CONST"
  | CONTINUE => "CONTINUE" | DEFAULT => "DEFAULT" | DO => "DO" | DOUBLE => "DOUBLE"
  | ELSE => "ELSE" | ENUM => "ENUM" | EXTENDS => "EXTENDS" | FINAL => "FINAL"
  | FINALLY => "FINALLY" | FLOAT => "FLOAT" | FOR => "FOR" | GOTO => "GOTO" | IF => "IF"
  | IMPLEMENTS => "IMPLEMENTS" | IMPORT => "IMPORT" | INSTANCEOF => "INSTANCEOF" | INT => "INT"
  | INTERFACE => "INTERFACE" | LONG => "LONG" | NATIVE => "NATIVE" | NEW => "NEW"
  | PACKAGE => "PACKAGE" | PRIVATE => "PRIVATE" | PROTECTED => "PROTECTED" | PUBLIC => "PUBLIC"
  | RETURN => "RETURN" | SHORT => "SHORT" | STATIC => "STATIC" | STRICTFP => "STRICTFP"
  | SUPER => "SUPER" | SWITCH => "SWITCH" | SYNCHRONIZED => "SYNCHRONIZED" | THIS => "THIS"
  | THROW => "THROW" | THROWS => "THROWS" | TRANSIENT => "TRANSIENT" | TRY => "TRY"
  | VOID => "VOID" | VOLATILE => "VOLATILE" | WHILE => "WHILE" | reservedWord => "reservedWord"
  | IntegerLiteral => "IntegerLiteral" | FloatingPointLiteral => "FloatingPointLiteral"
  | digits => "digits" | exponent => "exponent" | floatSuffix => "floatSuffix"
  | CharacterLiteral => "CharacterLiteral" | StringLiteral => "StringLiteral"
  | escapeSequence => "escapeSequence" | BooleanLiteral => "BooleanLiteral"
  | NullLiteral => "NullLiteral" | Identifier => "Identifier" | identStart => "identStart"
  | identPart => "identPart" | LPAREN => "LPAREN" | RPAREN => "RPAREN" | LBRACE => "LBRACE"
  | RBRACE => "RBRACE" | LBRACK => "LBRACK" | RBRACK => "RBRACK" | SEMI => "SEMI"
  | COMMA => "COMMA" | ELLIPSIS => "ELLIPSIS" | DOT => "DOT" | AT => "AT"
  | COLONCOLON => "COLONCOLON" | COLON => "COLON" | ARROW => "ARROW" | QUESTION => "QUESTION"
  | TILDE => "TILDE" | EQUAL => "EQUAL" | NOTEQUAL => "NOTEQUAL" | LE => "LE" | GE => "GE"
  | AND => "AND" | OR => "OR" | INC => "INC" | DEC => "DEC" | ASSIGN => "ASSIGN"
  | ADD_ASSIGN => "ADD_ASSIGN" | SUB_ASSIGN => "SUB_ASSIGN" | MUL_ASSIGN => "MUL_ASSIGN"
  | DIV_ASSIGN => "DIV_ASSIGN" | AND_ASSIGN => "AND_ASSIGN" | OR_ASSIGN => "OR_ASSIGN"
  | XOR_ASSIGN => "XOR_ASSIGN" | MOD_ASSIGN => "MOD_ASSIGN" | LSHIFT_ASSIGN => "LSHIFT_ASSIGN"
  | RSHIFT_ASSIGN => "RSHIFT_ASSIGN" | URSHIFT_ASSIGN => "URSHIFT_ASSIGN" | LT => "LT"
  | GT => "GT" | BANG => "BANG" | ADD => "ADD" | SUB => "SUB" | MUL => "MUL" | DIV => "DIV"
  | MOD => "MOD" | BITAND => "BITAND" | BITOR => "BITOR" | CARET => "CARET"
  | WHITESPACE => "WHITESPACE" | COMMENT => "COMMENT"

/-- All rules; the end of the input comes first. -/
def all : List JavaRule :=
  [EOI, compilationUnit, packageDeclaration, importDeclaration, typeDeclaration, modifier,
   classOrInterfaceModifier, variableModifier, classDeclaration, typeParameters, typeParameter,
   typeBound, enumDeclaration, enumConstants, enumConstant, enumBodyDeclarations,
   interfaceDeclaration, annotationTypeDeclaration, typeList, classBody, classBodyDeclaration,
   memberDeclaration, methodDeclaration, methodBody, genericMethodDeclaration,
   constructorDeclaration, genericConstructorDeclaration, fieldDeclaration, variableDeclarators,
   variableDeclarator, variableDeclaratorId, variableInitializer, arrayInitializer,
   formalParameters, formalParameterList, formalParameter, qualifiedName, qualifiedNameList,
   typeTypeOrVoid, typeType, classOrInterfaceType, primitiveType, typeArguments, typeArgument,
   dims, annotation, elementValuePairs, elementValuePair, elementValue,
   elementValueArrayInitializer, block, blockStatement, localVariableDeclaration,
   localTypeDeclaration, statement, catchClause, catchType, finallyBlock, resourceSpecification,
   resources, resource, switchBlockStatementGroup, switchLabel, forControl, forInit,
   enhancedForControl, parExpression, expressionList, expression, assignmentExpression,
   assignmentOperator, conditionalExpression, conditionalOrExpression, conditionalAndExpression,
   inclusiveOrExpression, exclusiveOrExpression, andExpression, equalityExpression,
   relationalExpression, shiftExpression, shiftOperator, additiveExpression,
   multiplicativeExpression, unaryExpression, unaryExpressionNotPlusMinus, castExpression,
   postfixExpression, primary, selector, superSuffix, creator, createdName, arrayCreatorRest,
   classCreatorRest, arguments, lambdaExpression, lambdaParameters, lambdaBody, literal,
   ABSTRACT, ASSERT, BOOLEAN, BREAK, BYTE, CASE, CATCH, CHAR, CLASS, CONST, CONTINUE, DEFAULT,
   DO, DOUBLE, ELSE, ENUM, EXTENDS, FINAL, FINALLY, FLOAT, FOR, GOTO, IF, IMPLEMENTS, IMPORT,
   INSTANCEOF, INT, INTERFACE, LONG, NATIVE, NEW, PACKAGE, PRIVATE, PROTECTED, PUBLIC, RETURN,
   SHORT, STATIC, STRICTFP, SUPER, SWITCH, SYNCHRONIZED, THIS, THROW, THROWS, TRANSIENT, TRY,
   VOID, VOLATILE, WHILE, reservedWord, IntegerLiteral, FloatingPointLiteral, digits, exponent,
   floatSuffix, CharacterLiteral, StringLiteral, escapeSequence, BooleanLiteral, NullLiteral,
   Identifier, identStart, identPart, LPAREN, RPAREN, LBRACE, RBRACE, LBRACK, RBRACK, SEMI,
   COMMA, ELLIPSIS, DOT, AT, COLONCOLON, COLON, ARROW, QUESTION, TILDE, EQUAL, NOTEQUAL, LE, GE,
   AND, OR, INC, DEC, ASSIGN, ADD_ASSIGN, SUB_ASSIGN, MUL_ASSIGN, DIV_ASSIGN, AND_ASSIGN,
   OR_ASSIGN, XOR_ASSIGN, MOD_ASSIGN, LSHIFT_ASSIGN, RSHIFT_ASSIGN, URSHIFT_ASSIGN, LT, GT, BANG,
   ADD, SUB, MUL, DIV, MOD, BITAND, BITOR, CARET, WHITESPACE, COMMENT]

/-- A word that is not the start of a longer identifier. -/
def keyword (w : String) : Rule JavaRule := .atomic (seq [lit w, notAhead identPart])

/-- What a rule matches. -/
def definition : JavaRule → Rule JavaRule
  | EOI => .normal endOfInput
  | compilationUnit =>
    .normal (seq [
      startOfInput, opt packageDeclaration, star importDeclaration, star typeDeclaration, EOI])
  | packageDeclaration => .normal (seq [star annotation, PACKAGE, qualifiedName, SEMI])
  | importDeclaration =>
    .normal (seq [IMPORT, opt STATIC, qualifiedName, opt (seq [DOT, MUL]), SEMI])
  | typeDeclaration =>
    .normal (choice [
      seq [
        star classOrInterfaceModifier,
        choice [
          classDeclaration, enumDeclaration, interfaceDeclaration, annotationTypeDeclaration]],
      SEMI])
  | modifier =>
    .normal (choice [classOrInterfaceModifier, NATIVE, SYNCHRONIZED, TRANSIENT, VOLATILE])
  | classOrInterfaceModifier =>
    .normal (choice [
      annotation, PUBLIC, PROTECTED, PRIVATE, STATIC, ABSTRACT, FINAL, STRICTFP, DEFAULT])
  | variableModifier => .normal (choice [FINAL, annotation])
  | classDeclaration =>
    .normal (seq [
      CLASS,
      Identifier,
      opt typeParameters,
      opt (seq [EXTENDS, typeType]),
      opt (seq [IMPLEMENTS, typeList]),
      classBody])
  | typeParameters => .normal (seq [LT, typeParameter, star (seq [COMMA, typeParameter]), GT])
  | typeParameter => .normal (seq [star annotation, Identifier, opt (seq [EXTENDS, typeBound])])
  | typeBound => .normal (seq [typeType, star (seq [BITAND, typeType])])
  | enumDeclaration =>
    .normal (seq [
      ENUM,
      Identifier,
      opt (seq [IMPLEMENTS, typeList]),
      LBRACE,
      opt enumConstants,
      opt COMMA,
      opt enumBodyDeclarations,
      RBRACE])
  | enumConstants => .normal (seq [enumConstant, star (seq [COMMA, enumConstant])])
  | enumConstant => .normal (seq [star annotation, Identifier, opt arguments, opt classBody])
  | enumBodyDeclarations => .normal (seq [SEMI, star classBodyDeclaration])
  | interfaceDeclaration =>
    .normal (seq [
      INTERFACE,
      Identifier,
      opt typeParameters,
      opt (seq [EXTENDS, typeList]),
      classBody])
  | annotationTypeDeclaration => .normal (seq [AT, INTERFACE, Identifier, classBody])
  | typeList => .normal (seq [typeType, star (seq [COMMA, typeType])])
  | classBody => .normal (seq [LBRACE, star classBodyDeclaration, RBRACE])
  | classBodyDeclaration =>
    .normal (choice [SEMI, seq [opt STATIC, block], seq [star modifier, memberDeclaration]])
  | memberDeclaration =>
    .normal (choice [
      methodDeclaration, genericMethodDeclaration, constructorDeclaration,
      genericConstructorDeclaration, fieldDeclaration, classDeclaration, enumDeclaration,
      interfaceDeclaration, annotationTypeDeclaration])
  | methodDeclaration =>
    .normal (seq [
      typeTypeOrVoid,
      Identifier,
      formalParameters,
      opt dims,
      opt (seq [THROWS, qualifiedNameList]),
      opt (seq [DEFAULT, elementValue]),
      methodBody])
  | methodBody => .normal (choice [block, SEMI])
  | genericMethodDeclaration => .normal (seq [typeParameters, methodDeclaration])
  | constructorDeclaration =>
    .normal (seq [Identifier, formalParameters, opt (seq [THROWS, qualifiedNameList]), block])
  | genericConstructorDeclaration => .normal (seq [typeParameters, constructorDeclaration])
  | fieldDeclaration => .normal (seq [typeType, variableDeclarators, SEMI])
  | variableDeclarators =>
    .normal (seq [variableDeclarator, star (seq [COMMA, variableDeclarator])])
  | variableDeclarator =>
    .normal (seq [variableDeclaratorId, opt (seq [ASSIGN, variableInitializer])])
  | variableDeclaratorId => .normal (seq [Identifier, opt dims])
  | variableInitializer => .normal (choice [arrayInitializer, expression])
  | arrayInitializer =>
    .normal (seq [
      LBRACE,
      opt (seq [variableInitializer, star (seq [COMMA, variableInitializer]), opt COMMA]),
      RBRACE])
  | formalParameters => .normal (seq [LPAREN, opt formalParameterList, RPAREN])
  | formalParameterList => .normal (seq [formalParameter, star (seq [COMMA, formalParameter])])
  | formalParameter =>
    .normal (seq [star variableModifier, typeType, opt ELLIPSIS, variableDeclaratorId])
  | qualifiedName => .normal (seq [Identifier, star (seq [DOT, Identifier])])
  | qualifiedNameList => .normal (seq [qualifiedName, star (seq [COMMA, qualifiedName])])
  | typeTypeOrVoid => .normal (choice [typeType, VOID])
  | typeType =>
    .normal (seq [star annotation, choice [classOrInterfaceType, primitiveType], opt dims])
  | classOrInterfaceType =>
    .normal (seq [Identifier, opt typeArguments, star (seq [DOT, Identifier, opt typeArguments])])
  | primitiveType => .normal (choice [BOOLEAN, CHAR, BYTE, SHORT, INT, LONG, FLOAT, DOUBLE])
  | typeArguments =>
    .normal (seq [LT, opt (seq [typeArgument, star (seq [COMMA, typeArgument])]), GT])
  | typeArgument =>
    .normal (choice [
      typeType,
      seq [star annotation, QUESTION, opt (seq [choice [EXTENDS, SUPER], typeType])]])
  | dims => .normal (oneOrMore (seq [star annotation, LBRACK, RBRACK]))
  | annotation =>
    .normal (seq [
      AT,
      qualifiedName,
      opt (seq [LPAREN, opt (choice [elementValuePairs, elementValue]), RPAREN])])
  | elementValuePairs => .normal (seq [elementValuePair, star (seq [COMMA, elementValuePair])])
  | elementValuePair => .normal (seq [Identifier, ASSIGN, elementValue])
  | elementValue => .normal (choice [expression, annotation, elementValueArrayInitializer])
  | elementValueArrayInitializer =>
    .normal (seq [
      LBRACE,
      opt (seq [elementValue, star (seq [COMMA, elementValue])]),
      opt COMMA,
      RBRACE])
  | block => .normal (seq [LBRACE, star blockStatement, RBRACE])
  | blockStatement =>
    .normal (choice [seq [localVariableDeclaration, SEMI], localTypeDeclaration, statement])
  | localVariableDeclaration =>
    .normal (seq [star variableModifier, typeType, variableDeclarators])
  | localTypeDeclaration =>
    .normal (seq [
      star classOrInterfaceModifier,
      choice [classDeclaration, enumDeclaration, interfaceDeclaration]])
  | statement =>
    .normal (choice [
      block,
      seq [ASSERT, expression, opt (seq [COLON, expression]), SEMI],
      seq [IF, parExpression, statement, opt (seq [ELSE, statement])],
      seq [FOR, LPAREN, forControl, RPAREN, statement],
      seq [WHILE, parExpression, statement],
      seq [DO, statement, WHILE, parExpression, SEMI],
      seq [TRY, block, choice [seq [oneOrMore catchClause, opt finallyBlock], finallyBlock]],
      seq [TRY, resourceSpecification, block, star catchClause, opt finallyBlock],
      seq [
        SWITCH, parExpression, LBRACE, star switchBlockStatementGroup, star switchLabel, RBRACE],
      seq [SYNCHRONIZED, parExpression, block],
      seq [RETURN, opt expression, SEMI],
      seq [THROW, expression, SEMI],
      seq [BREAK, opt Identifier, SEMI],
      seq [CONTINUE, opt Identifier, SEMI],
      SEMI,
      seq [expression, SEMI],
      seq [Identifier, COLON, statement]])
  | catchClause =>
    .normal (seq [CATCH, LPAREN, star variableModifier, catchType, Identifier, RPAREN, block])
  | catchType => .normal (seq [qualifiedName, star (seq [BITOR, qualifiedName])])
  | finallyBlock => .normal (seq [FINALLY, block])
  | resourceSpecification => .normal (seq [LPAREN, resources, opt SEMI, RPAREN])
  | resources => .normal (seq [resource, star (seq [SEMI, resource])])
  | resource =>
    .normal (choice [
      seq [star variableModifier, classOrInterfaceType, variableDeclaratorId, ASSIGN, expression],
      qualifiedName])
  | switchBlockStatementGroup =>
    .normal (seq [oneOrMore switchLabel, blockStatement, star blockStatement])
  | switchLabel => .normal (choice [seq [CASE, expression, COLON], seq [DEFAULT, COLON]])
  | forControl =>
    .normal (choice [
      enhancedForControl,
      seq [opt forInit, SEMI, opt expression, SEMI, opt expressionList]])
  | forInit => .normal (choice [localVariableDeclaration, expressionList])
  | enhancedForControl =>
    .normal (seq [star variableModifier, typeType, variableDeclaratorId, COLON, expression])
  | parExpression => .normal (seq [LPAREN, expression, RPAREN])
  | expressionList => .normal (seq [expression, star (seq [COMMA, expression])])
  | expression => .normal (choice [lambdaExpression, assignmentExpression])
  | assignmentExpression =>
    .normal (seq [conditionalExpression, opt (seq [assignmentOperator, expression])])
  | assignmentOperator =>
    .normal (choice [
      ASSIGN, ADD_ASSIGN, SUB_ASSIGN, MUL_ASSIGN, DIV_ASSIGN, AND_ASSIGN, OR_ASSIGN, XOR_ASSIGN,
      MOD_ASSIGN, LSHIFT_ASSIGN, URSHIFT_ASSIGN, RSHIFT_ASSIGN])
  | conditionalExpression =>
    .normal (seq [
      conditionalOrExpression,
      opt (seq [QUESTION, expression, COLON, choice [lambdaExpression, conditionalExpression]])])
  | conditionalOrExpression =>
    .normal (seq [conditionalAndExpression, star (seq [OR, conditionalAndExpression])])
  | conditionalAndExpression =>
    .normal (seq [inclusiveOrExpression, star (seq [AND, inclusiveOrExpression])])
  | inclusiveOrExpression =>
    .normal (seq [exclusiveOrExpression, star (seq [BITOR, exclusiveOrExpression])])
  | exclusiveOrExpression => .normal (seq [andExpression, star (seq [CARET, andExpression])])
  | andExpression => .normal (seq [equalityExpression, star (seq [BITAND, equalityExpression])])
  | equalityExpression =>
    .normal (seq [
      relationalExpression,
      star (seq [choice [EQUAL, NOTEQUAL], relationalExpression])])
  | relationalExpression =>
    .normal (seq [
      shiftExpression,
      star (choice [seq [choice [LE, GE, LT, GT], shiftExpression], seq [INSTANCEOF, typeType]])])
  | shiftExpression =>
    .normal (seq [additiveExpression, star (seq [shiftOperator, additiveExpression])])
  | shiftOperator => .compound (choice [seq [LT, LT], seq [GT, GT, opt GT]])
  | additiveExpression =>
    .normal (seq [
      multiplicativeExpression,
      star (seq [choice [ADD, SUB], multiplicativeExpression])])
  | multiplicativeExpression =>
    .normal (seq [unaryExpression, star (seq [choice [MUL, DIV, MOD], unaryExpression])])
  | unaryExpression =>
    .normal (choice [
      seq [choice [INC, DEC, ADD, SUB], unaryExpression],
      unaryExpressionNotPlusMinus])
  | unaryExpressionNotPlusMinus =>
    .normal (choice [
      seq [choice [TILDE, BANG], unaryExpression],
      castExpression,
      postfixExpression])
  | castExpression =>
    .normal (seq [
      LPAREN,
      choice [
        seq [primitiveType, opt dims, RPAREN, unaryExpression],
        seq [
          typeType,
          star (seq [BITAND, typeType]),
          RPAREN,
          choice [lambdaExpression, unaryExpressionNotPlusMinus]]]])
  | postfixExpression => .normal (seq [primary, star selector, star (choice [INC, DEC])])
  | primary =>
    .normal (choice [
      parExpression,
      seq [THIS, opt arguments],
      seq [SUPER, superSuffix],
      literal,
      seq [NEW, creator],
      seq [primitiveType, opt dims, DOT, CLASS],
      seq [VOID, DOT, CLASS],
      seq [Identifier, opt arguments]])
  | selector =>
    .normal (choice [
      seq [DOT, opt typeArguments, Identifier, opt arguments],
      seq [DOT, THIS],
      seq [DOT, CLASS],
      seq [DOT, NEW, opt typeArguments, Identifier, opt typeArguments, classCreatorRest],
      seq [LBRACK, expression, RBRACK],
      seq [COLONCOLON, opt typeArguments, choice [Identifier, NEW]]])
  | superSuffix =>
    .normal (choice [
      arguments,
      seq [DOT, opt typeArguments, Identifier, opt arguments],
      seq [COLONCOLON, Identifier]])
  | creator =>
    .normal (seq [opt typeArguments, createdName, choice [arrayCreatorRest, classCreatorRest]])
  | createdName => .normal (choice [classOrInterfaceType, primitiveType])
  | arrayCreatorRest =>
    .normal (choice [
      seq [oneOrMore (seq [LBRACK, RBRACK]), arrayInitializer],
      seq [oneOrMore (seq [LBRACK, expression, RBRACK]), star (seq [LBRACK, RBRACK])]])
  | classCreatorRest => .normal (seq [arguments, opt classBody])
  | arguments => .normal (seq [LPAREN, opt expressionList, RPAREN])
  | lambdaExpression => .normal (seq [lambdaParameters, ARROW, lambdaBody])
  | lambdaParameters =>
    .normal (choice [
      Identifier,
      seq [
        LPAREN,
        choice [
          seq [opt formalParameterList, RPAREN],
          seq [Identifier, star (seq [COMMA, Identifier]), RPAREN]]]])
  | lambdaBody => .normal (choice [expression, block])
  | literal =>
    .normal (choice [
      FloatingPointLiteral, IntegerLiteral, CharacterLiteral, StringLiteral, BooleanLiteral,
      NullLiteral])
  | ABSTRACT => keyword "abstract"
  | ASSERT => keyword "assert"
  | BOOLEAN => keyword "boolean"
  | BREAK => keyword "break"
  | BYTE => keyword "byte"
  | CASE => keyword "case"
  | CATCH => keyword "catch"
  | CHAR => keyword "char"
  | CLASS => keyword "class"
  | CONST => keyword "const"
  | CONTINUE => keyword "continue"
  | DEFAULT => keyword "default"
  | DO => keyword "do"
  | DOUBLE => keyword "double"
  | ELSE => keyword "else"
  | ENUM => keyword "enum"
  | EXTENDS => keyword "extends"
  | FINAL => keyword "final"
  | FINALLY => keyword "finally"
  | FLOAT => keyword "float"
  | FOR => keyword "for"
  | GOTO => keyword "goto"
  | IF => keyword "if"
  | IMPLEMENTS => keyword "implements"
  | IMPORT => keyword "import"
  | INSTANCEOF => keyword "instanceof"
  | INT => keyword "int"
  | INTERFACE => keyword "interface"
  | LONG => keyword "long"
  | NATIVE => keyword "native"
  | NEW => keyword "new"
  | PACKAGE => keyword "package"
  | PRIVATE => keyword "private"
  | PROTECTED => keyword "protected"
  | PUBLIC => keyword "public"
  | RETURN => keyword "return"
  | SHORT => keyword "short"
  | STATIC => keyword "static"
  | STRICTFP => keyword "strictfp"
  | SUPER => keyword "super"
  | SWITCH => keyword "switch"
  | SYNCHRONIZED => keyword "synchronized"
  | THIS => keyword "this"
  | THROW => keyword "throw"
  | THROWS => keyword "throws"
  | TRANSIENT => keyword "transient"
  | TRY => keyword "try"
  | VOID => keyword "void"
  | VOLATILE => keyword "volatile"
  | WHILE => keyword "while"
  | reservedWord =>
    .silent (anyOf [
      ABSTRACT, ASSERT, BOOLEAN, BREAK, BYTE, CASE, CATCH, CHAR, CLASS, CONST, CONTINUE, DEFAULT,
      DO, DOUBLE, ELSE, ENUM, EXTENDS, FINAL, FINALLY, FLOAT, FOR, GOTO, IF, IMPLEMENTS, IMPORT,
      INSTANCEOF, INT, INTERFACE, LONG, NATIVE, NEW, PACKAGE, PRIVATE, PROTECTED, PUBLIC, RETURN,
      SHORT, STATIC, STRICTFP, SUPER, SWITCH, SYNCHRONIZED, THIS, THROW, THROWS, TRANSIENT, TRY,
      VOID, VOLATILE, WHILE, BooleanLiteral, NullLiteral])
  | IntegerLiteral =>
    .atomic (seq [
      choice [
        seq [lit "0", anyCase "x", hexDigit, star (choice [hexDigit, lit "_"])],
        seq [lit "0", anyCase "b", binaryDigit, star (choice [binaryDigit, lit "_"])],
        seq [digit, star (choice [digit, lit "_"])]],
      opt (anyCase "l")])
  | FloatingPointLiteral =>
    .atomic (choice [
      seq [digits, lit ".", opt digits, opt exponent, opt floatSuffix],
      seq [lit ".", digits, opt exponent, opt floatSuffix],
      seq [digits, choice [seq [exponent, opt floatSuffix], floatSuffix]]])
  | digits => .silent (seq [digit, star (choice [digit, lit "_"])])
  | exponent => .silent (seq [anyCase "e", opt (oneOf ["+", "-"]), digits])
  | floatSuffix => .silent (choice [anyCase "f", anyCase "d"])
  | CharacterLiteral =>
    .atomic (seq [
      lit "'",
      choice [escapeSequence, seq [notAhead (oneOf ["'", "\\", "\n", "\r"]), anyChar]],
      lit "'"])
  | StringLiteral =>
    .atomic (seq [
      lit "\"",
      star (choice [escapeSequence, seq [notAhead (oneOf ["\"", "\\", "\n", "\r"]), anyChar]]),
      lit "\""])
  | escapeSequence =>
    .silent (choice [
      seq [lit "\\", oneOf ["b", "t", "n", "f", "r", "s", "\"", "'", "\\"]],
      seq [
        lit "\\",
        choice [
          seq [octalDigit, opt octalDigit, opt octalDigit],
          seq [oneOrMore (lit "u"), hexDigit, hexDigit, hexDigit, hexDigit]]]])
  | BooleanLiteral => .atomic (seq [oneOf ["true", "false"], notAhead identPart])
  | NullLiteral => keyword "null"
  | Identifier => .atomic (seq [notAhead reservedWord, identStart, star identPart])
  | identStart => .silent (choice [asciiLetter, lit "_", lit "$", letter])
  | identPart => .silent (choice [identStart, digit, decimalNumber])
  | LPAREN => fixed "("
  | RPAREN => fixed ")"
  | LBRACE => .atomic (word ['{'])
  | RBRACE => .atomic (word ['}'])
  | LBRACK => fixed "["
  | RBRACK => fixed "]"
  | SEMI => fixed ";"
  | COMMA => fixed ","
  | ELLIPSIS => fixed "..."
  | DOT => fixed "."
  | AT => fixed "@"
  | COLONCOLON => fixed "::"
  | COLON => fixedUnless ":" [":"]
  | ARROW => fixed "->"
  | QUESTION => fixed "?"
  | TILDE => fixed "~"
  | EQUAL => fixed "=="
  | NOTEQUAL => fixed "!="
  | LE => fixed "<="
  | GE => fixed ">="
  | AND => fixed "&&"
  | OR => fixed "||"
  | INC => fixed "++"
  | DEC => fixed "--"
  | ASSIGN => fixedUnless "=" ["="]
  | ADD_ASSIGN => fixed "+="
  | SUB_ASSIGN => fixed "-="
  | MUL_ASSIGN => fixed "*="
  | DIV_ASSIGN => fixed "/="
  | AND_ASSIGN => fixed "&="
  | OR_ASSIGN => fixed "|="
  | XOR_ASSIGN => fixed "^="
  | MOD_ASSIGN => fixed "%="
  | LSHIFT_ASSIGN => fixed "<<="
  | RSHIFT_ASSIGN => fixed ">>="
  | URSHIFT_ASSIGN => fixed ">>>="
  | LT => fixedUnless "<" ["="]
  | GT => fixedUnless ">" ["="]
  | BANG => fixedUnless "!" ["="]
  | ADD => fixedUnless "+" ["+", "="]
  | SUB => fixedUnless "-" ["-", "=", ">"]
  | MUL => fixedUnless "*" ["="]
  | DIV => fixedUnless "/" ["=", "/", "*"]
  | MOD => fixedUnless "%" ["="]
  | BITAND => fixedUnless "&" ["&", "="]
  | BITOR => fixedUnless "|" ["|", "="]
  | CARET => fixedUnless "^" ["="]
  | WHITESPACE => .atomic (oneOrMore (oneOf [" ", "\t", "\r", "\n", "\x0c"]))
  | COMMENT =>
    .atomic (choice [
      seq [lit "/*", charsUpTo ["*/"], lit "*/"],
      seq [lit "//", charsUpTo ["\n", "\r"]]])

def grammar : Grammar JavaRule where
  rules := all
  name := name
  rule := definition
  trivia := seq [star WHITESPACE, star (seq [COMMENT, star WHITESPACE])]
  start := compilationUnit

end JavaRule

end ConcreteSyntax
