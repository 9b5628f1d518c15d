/-! # Names of rules

A tree names its nodes after rules.  The symbolic name of a rule is written out for tokens; for a
production one trailing `Context` is left off, unless nothing would remain.  Rules whose symbolic
name starts with an ASCII capital are terminals. -/

namespace ConcreteSyntax

/-- The suffix that a production's name loses. -/
def generatedSuffix : List Char := "Context".toList

/-- A name without one trailing `Context`, unless nothing would remain. -/
def stripGeneratedSuffix (name : String) : String :=
  let cs := name.toList
  let kept := cs.take (cs.length - generatedSuffix.length)
  if !kept.isEmpty && kept ++ generatedSuffix = cs then String.ofList kept else name

/-- The symbolic names of rules. -/
structure Vocabulary (R : Type) where
  symbolicName : R → String

namespace Vocabulary

variable {R : Type} (v : Vocabulary R)

def ruleName (r : R) : String := stripGeneratedSuffix (v.symbolicName r)

/-- Terminals are the rules whose name starts with an ASCII capital. -/
def isTerminal (r : R) : Bool :=
  match (v.symbolicName r).toList with
  | [] => false
  | c :: _ => 'A' ≤ c && c ≤ 'Z'

end Vocabulary

end ConcreteSyntax
