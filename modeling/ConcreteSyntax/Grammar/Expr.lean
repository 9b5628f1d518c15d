import ConcreteSyntax.Text.Letter
import ConcreteSyntax.Text.DecimalNumber

/-! # Grammars as data

A grammar maps every rule to a body, a parsing expression over characters and rules, and says how
the rule is run.

* **Expressions** (`Expr`).  Words, characters of a class, references to rules, juxtaposition,
  ordered choice, options, repetitions, two lookaheads, and a stack of marks that an expression can
  push, compare with the input and drop.
* **Groups.**  Juxtaposition `cat` alone is not a unit of work: a sequence is a `group` around its
  juxtaposed parts, and only groups, options, repetitions, lookaheads and marks are counted when a
  parse is limited.
* **Rules** (`Rule`).  A normal rule leaves a node with the nodes of its parts below it, a silent
  rule only the nodes of its parts, an atomic rule a node with nothing below it.  Between the parts
  of a normal or silent rule stands trivia (blanks, comments), between those of an atomic or compound
  one nothing.

`seq`, `choice`, `oneOrMore` and the words below build expressions. -/

namespace ConcreteSyntax

/-- A class of characters that expressions can name. -/
inductive CharClass where
  | any
  | range (lo hi : Char)
  | asciiLetter
  | hexDigit
  | letter
  | decimalNumber
deriving DecidableEq, Repr

def CharClass.mem : CharClass → Char → Bool
  | any, _ => true
  | range lo hi, c => lo ≤ c && c ≤ hi
  | asciiLetter, c => ('a' ≤ c && c ≤ 'z') || ('A' ≤ c && c ≤ 'Z')
  | hexDigit, c => ('0' ≤ c && c ≤ '9') || ('a' ≤ c && c ≤ 'f') || ('A' ≤ c && c ≤ 'F')
  | letter, c => Text.isLetter c
  | decimalNumber, c => Text.isDecimalNumber c

/-- Parsing expressions over the rules `R`. -/
inductive Expr (R : Type) where
  /-- These characters. -/
  | word (w : List Char)
  /-- These characters, where the case of ASCII letters does not matter. -/
  | caseless (w : List Char)
  /-- One character of a class. -/
  | char (k : CharClass)
  /-- Nothing, at the start of the input only. -/
  | startOfInput
  /-- Nothing, at the end of the input only. -/
  | endOfInput
  /-- All characters up to the next of these words or the end of the input. -/
  | upTo (stops : List (List Char))
  /-- What a rule matches. -/
  | ref (r : R)
  /-- One part after another. -/
  | cat (a b : Expr R)
  /-- A sequence as one unit. -/
  | group (e : Expr R)
  /-- The first alternative that matches. -/
  | alt (a b : Expr R)
  /-- The expression, or nothing. -/
  | opt (e : Expr R)
  /-- The expression as often as it matches. -/
  | star (e : Expr R)
  /-- Nothing, where the expression would match. -/
  | ahead (e : Expr R)
  /-- Nothing, where the expression would not match. -/
  | notAhead (e : Expr R)
  /-- The expression; the text it matched is pushed as a mark. -/
  | mark (e : Expr R)
  /-- The text of the latest mark. -/
  | peek
  /-- The text of the latest mark, which is dropped. -/
  | pop
  /-- Nothing; the latest mark is dropped. -/
  | drop
deriving Repr

namespace Expr

variable {R : Type}

instance : Coe R (Expr R) := ⟨.ref⟩

def juxtapose : List (Expr R) → Expr R
  | [] => .word []
  | [e] => e
  | e :: es => .cat e (juxtapose es)

def seq (es : List (Expr R)) : Expr R := .group (juxtapose es)

/-- Ordered choice between several alternatives; with none, an expression that never matches. -/
def choice : List (Expr R) → Expr R
  | [] => .notAhead (.word [])
  | [e] => e
  | e :: es => .alt e (choice es)

/-- A word, written as a string. -/
def lit (w : String) : Expr R := .word w.toList

/-- A word in any ASCII case, written as a string. -/
def anyCase (w : String) : Expr R := .caseless w.toList

/-- Ordered choice between words. -/
def oneOf (ws : List String) : Expr R := choice (ws.map lit)

/-- Ordered choice between rules. -/
def anyOf (rs : List R) : Expr R := choice (rs.map .ref)

/-- The expression once or more, as a sequence of its own. -/
def oneOrMore (e : Expr R) : Expr R := seq [e, .star e]

/-- All characters up to the next of these words or the end of the input. -/
def charsUpTo (ws : List String) : Expr R := .upTo (ws.map String.toList)

/-- A character between two others. -/
def charRange (lo hi : Char) : Expr R := .char (.range lo hi)

def anyChar : Expr R := .char .any
/-- A digit from `0` to `9`. -/
def digit : Expr R := .char (.range '0' '9')
/-- A digit from `1` to `9`. -/
def nonzeroDigit : Expr R := .char (.range '1' '9')
def hexDigit : Expr R := .char .hexDigit
def octalDigit : Expr R := .char (.range '0' '7')
def binaryDigit : Expr R := .char (.range '0' '1')
def asciiLetter : Expr R := .char .asciiLetter
/-- A letter of any script. -/
def letter : Expr R := .char .letter
/-- A decimal digit of any script. -/
def decimalNumber : Expr R := .char .decimalNumber

end Expr

/-- How a rule is run and what it leaves in the tree. -/
inductive RuleKind where
  /-- A node with the nodes of its parts; trivia between the parts. -/
  | normal
  /-- No node of its own; trivia between the parts unless an atomic rule is being run. -/
  | silent
  /-- A node with nothing below it; no trivia. -/
  | atomic
  /-- A node with the nodes of its parts; no trivia. -/
  | compound
deriving DecidableEq, Repr

/-- A rule: how it is run, and what it matches. -/
structure Rule (R : Type) where
  kind : RuleKind
  body : Expr R

namespace Rule

variable {R : Type}

def normal (e : Expr R) : Rule R := ⟨.normal, e⟩
def silent (e : Expr R) : Rule R := ⟨.silent, e⟩
def atomic (e : Expr R) : Rule R := ⟨.atomic, e⟩
def compound (e : Expr R) : Rule R := ⟨.compound, e⟩
/-- An atomic rule for one word. -/
def fixed (w : String) : Rule R := .atomic (.lit w)
/-- An atomic rule for one word, where none of some other words follows. -/
def fixedUnless (w : String) (next : List String) : Rule R :=
  .atomic (.seq [.lit w, .notAhead (.oneOf next)])

end Rule

/-- A grammar over the rules `R`. -/
structure Grammar (R : Type) where
  /-- All rules, in the order in which expectations are reported. -/
  rules : List R
  /-- The name of a rule in trees and messages. -/
  name : R → String
  /-- What a rule matches. -/
  rule : R → Rule R
  /-- What may stand between the parts of a rule. -/
  trivia : Expr R
  /-- The rule for a whole source. -/
  start : R

end ConcreteSyntax
