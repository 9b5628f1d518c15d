import ConcreteSyntax.Grammar.Run

/-! # Parsing a source

`Grammar.parse` runs the start rule over a whole source.  A source that does not match is rejected
at the furthest position tried, with the rules expected there, each once and in the order of the
grammar.  A parse that a limit stops is abandoned instead: such a parse says nothing about the
source.  One that fails with its very last unit was not stopped, and is a rejection.

`Grammar.parse` ends with the first refused unit.  `Grammar.parseWithin` can also let refused units
fail: such a parse goes on, and if it fails in the end it is abandoned all the same. -/

namespace ConcreteSyntax

/-- Why a source has no parse. -/
inductive Rejection (R : Type) where
  /-- Nothing matches beyond a position, given in characters. -/
  | mismatch (pos : Nat) (expected : List R)
  | abandoned (why : Abandonment)

/-- How many rules may be open inside each other.  The number stands for the stack that a parse is given: three
hundred levels of any construct of the three languages take at most 53 rules each and fit, twenty thousand take at
least one each and do not.  What is proved about parsing holds for every other number as well. -/
def nestingLimit : Nat := 16000

namespace Grammar

variable {R : Type} [DecidableEq R] (g : Grammar R)

/-- The state before a source. -/
def initialState (source : List Char) : State R :=
  { rest := source, pos := 0, marks := [], nodes := [] }

/-- What is fixed for a parse of a source under a limit on units. -/
def initialContext (limit : Option Nat) (source : List Char) : Context :=
  { limit := limit, rounds := source.length + 1 }

/-- The rules expected at the furthest position. -/
def expected (a : Attempts R) : List R := g.rules.filter fun r => a.expected.contains r

/-- Parse a source with at most `nesting` rules open inside each other. -/
def parseWithin (refusal : Refusal) (nesting : Nat) (limit : Option Nat) (source : List Char) :
    Except (Rejection R) (List (Match R)) :=
  match g.invoke refusal nesting g.start (initialContext limit source) (initialState source) {} with
  | .matched s _ => .ok s.nodes.reverse
  | .failed l =>
    if (initialContext limit source).exceeded l then .error (.abandoned .callLimit)
    else .error (.mismatch l.attempts.pos (g.expected l.attempts))
  | .abandoned why => .error (.abandoned why)

def parse (limit : Option Nat) (source : List Char) : Except (Rejection R) (List (Match R)) :=
  g.parseWithin .abandon nestingLimit limit source

end Grammar

end ConcreteSyntax
