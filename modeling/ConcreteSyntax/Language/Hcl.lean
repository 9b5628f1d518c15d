import ConcreteSyntax.Grammar.Expr

/-! # HCL

The native configuration language of HCL 2.  A line end closes an attribute or a block; inside
brackets, parentheses and the braces of an expression it is a blank.  An empty mark is pushed while
such a bracket is open, and only then may `WHITESPACE` hold line ends.  String templates and heredocs
are single tokens. -/

namespace ConcreteSyntax

/-- The rules of the HCL grammar.  Names in capitals are tokens. -/
inductive HclRule where
  | EOI | configFile | body | itemEnd | attributeEntry | block | expression | conditional
  | orOperation | andOperation | comparisonOperation | additiveOperation | multiplicativeOperation
  | unaryOperation | exprTerm | primary | literalValue | variableUse | templateExpr | functionCall
  | collectionValue | tuple | object | objectElem | forExpr | forTupleExpr | forObjectExpr
  | forIntro | forCond | getAttr | index | splat | TRUE | FALSE | NULL | FOR | IN | IF
  | Identifier | identStart | identPart | NumericLit | StringLiteral | quotedTemplate
  | templateEscape | templateSeq | templateInner | Heredoc | heredocTag | heredocLine | lineBreak
  | LBRACE | RBRACE | LBRACK | RBRACK | LPAREN | RPAREN | COMMA | ELLIPSIS | DOT | COLON
  | QUESTION | FATARROW | EQUAL | NOTEQUAL | LE | GE | LT | GT | AND | OR | ASSIGN | BANG | PLUS
  | MINUS | STAR | SLASH | PERCENT | nestOpen | nestClose | nested | Newline | WHITESPACE
  | COMMENT
deriving DecidableEq, Repr

namespace HclRule

open ConcreteSyntax.Expr ConcreteSyntax.Rule

def name : HclRule → String
  | EOI => "EOI" | configFile => "configFile" | body => "body" | itemEnd => "itemEnd"
  | attributeEntry => "attribute" | block => "block" | expression => "expression"
  | conditional => "conditional" | orOperation => "orOperation" | andOperation => "andOperation"
  | comparisonOperation => "comparisonOperation" | additiveOperation => "additiveOperation"
  | multiplicativeOperation => "multiplicativeOperation" | unaryOperation => "unaryOperation"
  | exprTerm => "exprTerm" | primary => "primary" | literalValue => "literalValue"
  | variableUse => "variable" | templateExpr => "templateExpr" | functionCall => "functionCall"
  | collectionValue => "collectionValue" | tuple => "tuple" | object => "object"
  | objectElem => "objectElem" | forExpr => "forExpr" | forTupleExpr => "forTupleExpr"
  | forObjectExpr => "forObjectExpr" | forIntro => "forIntro" | forCond => "forCond"
  | getAttr => "getAttr" | index => "index" | splat => "splat" | TRUE => "TRUE" | FALSE => "FALSE"
  | NULL => "NULL" | FOR => "FOR" | IN => "IN" | IF => "IF" | Identifier => "Identifier"
  | identStart => "identStart" | identPart => "identPart" | NumericLit => "NumericLit"
  | StringLiteral => "StringLiteral" | quotedTemplate => "quotedTemplate"
  | templateEscape => "templateEscape" | templateSeq => "templateSeq"
  | templateInner => "templateInner" | Heredoc => "Heredoc" | heredocTag => "heredocTag"
  | heredocLine => "heredocLine" | lineBreak => "lineBreak" | LBRACE => "LBRACE"
  | RBRACE => "RBRACE" | LBRACK => "LBRACK" | RBRACK => "RBRACK" | LPAREN => "LPAREN"
  | RPAREN => "RPAREN" | COMMA => "COMMA" | ELLIPSIS => "ELLIPSIS" | DOT => "DOT"
  | COLON => "COLON" | QUESTION => "QUESTION" | FATARROW => "FATARROW" | EQUAL => "EQUAL"
  | NOTEQUAL => "NOTEQUAL" | LE => "LE" | GE => "GE" | LT => "LT" | GT => "GT" | AND => "AND"
  | OR => "OR" | ASSIGN => "ASSIGN" | BANG => "BANG" | PLUS => "PLUS" | MINUS => "MINUS"
  | STAR => "STAR" | SLASH => "SLASH" | PERCENT => "PERCENT" | nestOpen => "nestOpen"
  | nestClose => "nestClose" | nested => "nested" | Newline => "Newline"
  | WHITESPACE => "WHITESPACE" | COMMENT => "COMMENT"

/-- All rules; the end of the input comes first. -/
def all : List HclRule :=
  [EOI, configFile, body, itemEnd, attributeEntry, block, expression, conditional, orOperation,
   andOperation, comparisonOperation, additiveOperation, multiplicativeOperation, unaryOperation,
   exprTerm, primary, literalValue, variableUse, templateExpr, functionCall, collectionValue,
   tuple, object, objectElem, forExpr, forTupleExpr, forObjectExpr, forIntro, forCond, getAttr,
   index, splat, TRUE, FALSE, NULL, FOR, IN, IF, Identifier, identStart, identPart, NumericLit,
   StringLiteral, quotedTemplate, templateEscape, templateSeq, templateInner, Heredoc,
   heredocTag, heredocLine, lineBreak, LBRACE, RBRACE, LBRACK, RBRACK, LPAREN, RPAREN, COMMA,
   ELLIPSIS, DOT, COLON, QUESTION, FATARROW, EQUAL, NOTEQUAL, LE, GE, LT, GT, AND, OR, ASSIGN,
   BANG, PLUS, MINUS, STAR, SLASH, PERCENT, nestOpen, nestClose, nested, Newline, WHITESPACE,
   COMMENT]

/-- A word that is not the start of a longer identifier. -/
def keyword (w : String) : Rule HclRule := .atomic (seq [lit w, notAhead identPart])

/-- What a rule matches. -/
def definition : HclRule → Rule HclRule
  | EOI => .normal endOfInput
  | configFile => .normal (seq [startOfInput, body, EOI])
  | body => .normal (star (choice [Newline, seq [attributeEntry, itemEnd], seq [block, itemEnd]]))
  | itemEnd => .silent (choice [Newline, ahead RBRACE, ahead EOI])
  | attributeEntry => .normal (seq [Identifier, ASSIGN, expression])
  | block =>
    .normal (seq [Identifier, star (choice [StringLiteral, Identifier]), LBRACE, body, RBRACE])
  | expression => .normal conditional
  | conditional =>
    .normal (seq [orOperation, opt (seq [QUESTION, expression, COLON, expression])])
  | orOperation => .normal (seq [andOperation, star (seq [OR, andOperation])])
  | andOperation => .normal (seq [comparisonOperation, star (seq [AND, comparisonOperation])])
  | comparisonOperation =>
    .normal (seq [
      additiveOperation,
      star (seq [choice [EQUAL, NOTEQUAL, LE, GE, LT, GT], additiveOperation])])
  | additiveOperation =>
    .normal (seq [
      multiplicativeOperation,
      star (seq [choice [PLUS, MINUS], multiplicativeOperation])])
  | multiplicativeOperation =>
    .normal (seq [unaryOperation, star (seq [choice [STAR, SLASH, PERCENT], unaryOperation])])
  | unaryOperation => .normal (choice [seq [choice [MINUS, BANG], unaryOperation], exprTerm])
  | exprTerm => .normal (seq [primary, star (choice [splat, getAttr, index])])
  | primary =>
    .normal (choice [
      literalValue,
      forExpr,
      collectionValue,
      templateExpr,
      functionCall,
      variableUse,
      seq [LPAREN, nestOpen, expression, nestClose, RPAREN]])
  | literalValue => .normal (choice [NumericLit, TRUE, FALSE, NULL])
  | variableUse => .normal Identifier
  | templateExpr => .normal (choice [StringLiteral, Heredoc])
  | functionCall =>
    .normal (seq [
      Identifier,
      LPAREN,
      nestOpen,
      opt (seq [expression, star (seq [COMMA, expression]), opt (choice [COMMA, ELLIPSIS])]),
      nestClose,
      RPAREN])
  | collectionValue => .normal (choice [tuple, object])
  | tuple =>
    .normal (seq [
      LBRACK,
      nestOpen,
      opt (seq [expression, star (seq [COMMA, expression]), opt COMMA]),
      nestClose,
      RBRACK])
  | object =>
    .normal (seq [
      LBRACE,
      nestOpen,
      opt (seq [objectElem, opt COMMA, star (seq [objectElem, opt COMMA])]),
      nestClose,
      RBRACE])
  | objectElem =>
    .normal (seq [choice [Identifier, expression], choice [ASSIGN, COLON], expression])
  | forExpr => .normal (choice [forTupleExpr, forObjectExpr])
  | forTupleExpr =>
    .normal (seq [LBRACK, nestOpen, forIntro, expression, opt forCond, nestClose, RBRACK])
  | forObjectExpr =>
    .normal (seq [
      LBRACE, nestOpen, forIntro, expression, FATARROW, expression, opt ELLIPSIS, opt forCond,
      nestClose, RBRACE])
  | forIntro =>
    .normal (seq [FOR, Identifier, opt (seq [COMMA, Identifier]), IN, expression, COLON])
  | forCond => .normal (seq [IF, expression])
  | getAttr => .normal (seq [DOT, Identifier])
  | index => .normal (seq [LBRACK, nestOpen, expression, nestClose, RBRACK])
  | splat => .normal (choice [seq [DOT, STAR], seq [LBRACK, STAR, RBRACK]])
  | TRUE => keyword "true"
  | FALSE => keyword "false"
  | NULL => keyword "null"
  | FOR => keyword "for"
  | IN => keyword "in"
  | IF => keyword "if"
  | Identifier => .atomic (seq [identStart, star identPart])
  | identStart => .silent (choice [asciiLetter, lit "_", letter])
  | identPart => .silent (choice [identStart, digit, lit "-", decimalNumber])
  | NumericLit =>
    .atomic (seq [
      oneOrMore digit,
      opt (seq [lit ".", digit, star digit]),
      opt (seq [anyCase "e", opt (oneOf ["+", "-"]), digit, star digit])])
  | StringLiteral => .atomic quotedTemplate
  | quotedTemplate =>
    .silent (seq [
      lit "\"",
      star (choice [
        templateEscape,
        templateSeq,
        seq [notAhead (oneOf ["\"", "\\", "\n"]), anyChar]]),
      lit "\""])
  | templateEscape =>
    .silent (choice [
      seq [lit "\\", oneOf ["n", "r", "t", "\"", "\\"]],
      seq [lit "\\", lit "u", hexDigit, hexDigit, hexDigit, hexDigit],
      seq [
        lit "\\", lit "U", hexDigit, hexDigit, hexDigit, hexDigit, hexDigit, hexDigit, hexDigit,
        hexDigit],
      word ['$', '$', '{'],
      word ['%', '%', '{']])
  | templateSeq =>
    .silent (seq [choice [word ['$', '{'], word ['%', '{']], templateInner, word ['}']])
  | templateInner =>
    .silent (star (choice [
      quotedTemplate,
      seq [word ['{'], templateInner, word ['}']],
      seq [notAhead (word ['}']), anyChar]]))
  | Heredoc =>
    .atomic (seq [
      lit "<<",
      opt (lit "-"),
      mark heredocTag,
      lineBreak,
      star heredocLine,
      star (oneOf [" ", "\t"]),
      pop])
  | heredocTag => .silent (seq [identStart, star identPart])
  | heredocLine =>
    .silent (seq [
      notAhead (seq [star (oneOf [" ", "\t"]), peek, notAhead identPart]),
      star (seq [notAhead lineBreak, anyChar]),
      lineBreak])
  | lineBreak => .silent (oneOf ["\r\n", "\n"])
  | LBRACE => .atomic (word ['{'])
  | RBRACE => .atomic (word ['}'])
  | LBRACK => fixed "["
  | RBRACK => fixed "]"
  | LPAREN => fixed "("
  | RPAREN => fixed ")"
  | COMMA => fixed ","
  | ELLIPSIS => fixed "..."
  | DOT => fixed "."
  | COLON => fixed ":"
  | QUESTION => fixed "?"
  | FATARROW => fixed "=>"
  | EQUAL => fixed "=="
  | NOTEQUAL => fixed "!="
  | LE => fixed "<="
  | GE => fixed ">="
  | LT => fixedUnless "<" ["=", "<"]
  | GT => fixedUnless ">" ["="]
  | AND => fixed "&&"
  | OR => fixed "||"
  | ASSIGN => fixedUnless "=" ["=", ">"]
  | BANG => fixedUnless "!" ["="]
  | PLUS => fixed "+"
  | MINUS => fixed "-"
  | STAR => fixed "*"
  | SLASH => fixedUnless "/" ["/", "*"]
  | PERCENT => fixed "%"
  | nestOpen => .silent (mark (lit ""))
  | nestClose => .silent drop
  | nested => .silent peek
  | Newline => .atomic (oneOf ["\r\n", "\n"])
  | WHITESPACE =>
    .atomic (oneOrMore (choice [lit " ", lit "\t", seq [nested, oneOf ["\r", "\n"]]]))
  | COMMENT =>
    .atomic (choice [
      seq [lit "/*", charsUpTo ["*/"], lit "*/"],
      seq [oneOf ["#", "//"], charsUpTo ["\n", "\r"]]])

def grammar : Grammar HclRule where
  rules := all
  name := name
  rule := definition
  trivia := seq [star WHITESPACE, star (seq [COMMENT, star WHITESPACE])]
  start := configFile

end HclRule

end ConcreteSyntax
