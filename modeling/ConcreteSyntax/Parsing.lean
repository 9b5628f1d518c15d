import ConcreteSyntax.Failure
import ConcreteSyntax.Grammar.Parse
import ConcreteSyntax.Tree.OfMatch

/-! # From a source to its tree

`Language.parseTree` parses a source with the grammar of a language and builds its tree.  Positions
of failures are turned from character offsets into bytes, lines and columns here. -/

namespace ConcreteSyntax

/-- An abandoned parse in words. -/
def Abandonment.reason : Abandonment → String
  | callLimit => "call limit reached"
  | nestingLimit => "stack limit reached"
  | endlessRepetition => "repetition without progress"

/-- How many bytes the UTF-8 form of characters takes. -/
def utf8Size (cs : List Char) : Nat := cs.foldl (fun n c => n + c.utf8Size) 0

/-- The mismatch at a character offset of a source. -/
def Mismatch.at (l : Language) (origin : String) (source : List Char) (pos : Nat)
    (expected : List String) : Mismatch :=
  let before := source.take pos
  let (line, column) := Text.lineCol 1 1 before
  { language := l
    origin := origin
    source := String.ofList source
    offset := utf8Size before
    line := line
    column := column
    expected := expected }

/-- Parse a source with the grammar of a language. -/
def Language.parseTree (l : Language) (origin source : String) (limit : Option Nat) :
    Except Failure (Tree l.Rules) :=
  let cs := source.toList
  match l.grammar.parse limit cs with
  | .error (.abandoned why) => .error (.exhausted .parsing why.reason)
  | .error (.mismatch pos expected) =>
    .error (.mismatched (.at l origin cs pos (expected.map l.grammar.name)))
  | .ok ms =>
    match Tree.ofMatches l.vocabulary cs ms with
    | some t => .ok t
    | none => .error (.mismatched (.at l origin cs 0 []))

end ConcreteSyntax
