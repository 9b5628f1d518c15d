import ConcreteSyntax.Grammar.Expr

/-! # JSON

The language of JSON texts (RFC 8259); blanks alone are accepted too.  Trivia is blanks. -/

namespace ConcreteSyntax

/-- The rules of the JSON grammar.  Names in capitals are tokens. -/
inductive JsonRule where
  | EOI | document | value | object | member | array | LBRACE | RBRACE | LBRACK | RBRACK | COLON
  | COMMA | TRUE | FALSE | NULL | StringLiteral | escape | NumberLiteral | WHITESPACE
deriving DecidableEq, Repr

namespace JsonRule

open ConcreteSyntax.Expr ConcreteSyntax.Rule

def name : JsonRule → String
  | EOI => "EOI" | document => "document" | value => "value" | object => "object"
  | member => "member" | array => "array" | LBRACE => "LBRACE" | RBRACE => "RBRACE"
  | LBRACK => "LBRACK" | RBRACK => "RBRACK" | COLON => "COLON" | COMMA => "COMMA" | TRUE => "TRUE"
  | FALSE => "FALSE" | NULL => "NULL" | StringLiteral => "StringLiteral" | escape => "escape"
  | NumberLiteral => "NumberLiteral" | WHITESPACE => "WHITESPACE"

/-- All rules; the end of the input comes first. -/
def all : List JsonRule :=
  [EOI, document, value, object, member, array, LBRACE, RBRACE, LBRACK, RBRACK, COLON, COMMA,
   TRUE, FALSE, NULL, StringLiteral, escape, NumberLiteral, WHITESPACE]

/-- What a rule matches. -/
def definition : JsonRule → Rule JsonRule
  | EOI => .normal endOfInput
  | document => .normal (seq [startOfInput, opt value, EOI])
  | value => .normal (choice [object, array, StringLiteral, NumberLiteral, TRUE, FALSE, NULL])
  | object => .normal (seq [LBRACE, opt (seq [member, star (seq [COMMA, member])]), RBRACE])
  | member => .normal (seq [StringLiteral, COLON, value])
  | array => .normal (seq [LBRACK, opt (seq [value, star (seq [COMMA, value])]), RBRACK])
  | LBRACE => .atomic (word ['{'])
  | RBRACE => .atomic (word ['}'])
  | LBRACK => fixed "["
  | RBRACK => fixed "]"
  | COLON => fixed ":"
  | COMMA => fixed ","
  | TRUE => fixed "true"
  | FALSE => fixed "false"
  | NULL => fixed "null"
  | StringLiteral =>
    .atomic (seq [
      lit "\"",
      star (choice [
        escape,
        seq [notAhead (choice [lit "\"", lit "\\", charRange '\x00' '\x1f']), anyChar]]),
      lit "\""])
  | escape =>
    .silent (seq [
      lit "\\",
      choice [
        lit "\"",
        lit "\\",
        lit "/",
        lit "b",
        lit "f",
        lit "n",
        lit "r",
        lit "t",
        seq [lit "u", hexDigit, hexDigit, hexDigit, hexDigit]]])
  | NumberLiteral =>
    .atomic (seq [
      opt (lit "-"),
      choice [lit "0", seq [nonzeroDigit, star digit]],
      opt (seq [lit ".", digit, star digit]),
      opt (seq [anyCase "e", opt (oneOf ["+", "-"]), digit, star digit])])
  | WHITESPACE => .atomic (oneOrMore (oneOf [" ", "\t", "\r", "\n"]))

def grammar : Grammar JsonRule where
  rules := all
  name := name
  rule := definition
  trivia := star WHITESPACE
  start := document

end JsonRule

end ConcreteSyntax
