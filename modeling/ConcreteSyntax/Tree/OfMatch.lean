import ConcreteSyntax.Grammar.Run
import ConcreteSyntax.Text.LineCursor
import ConcreteSyntax.Tree
import ConcreteSyntax.Vocabulary

/-! # Trees from matches

What a grammar matched becomes a tree, node by node in the order of the source.  A match of a
terminal becomes a token, whatever was matched inside it; any other match becomes a production with
its parts below.  One cursor walks through the source and gives every token its text, line and
column.

The walk keeps a frame (`Pending`) for every production that is still open, the innermost first. -/

namespace ConcreteSyntax

open Text (LineCursor)

variable {R : Type}

/-- Matches that are still to be added below one node. -/
structure Pending (R : Type) where
  parent : Option NodeId
  todo : List (Match R)

mutual

/-- The steps that a match takes, one to add it and one to leave it. -/
def Match.steps : Match R → Nat
  | .node _ _ _ children => Match.stepsAll children + 2

/-- The steps that several matches take. -/
def Match.stepsAll : List (Match R) → Nat
  | [] => 0
  | m :: ms => m.steps + Match.stepsAll ms

end

/-- The steps that are left, with one to leave each frame. -/
def Pending.steps : List (Pending R) → Nat
  | [] => 0
  | frame :: frames => Match.stepsAll frame.todo + 1 + Pending.steps frames

/-- Add what the open productions still lack. -/
def Pending.addAll (v : Vocabulary R) : List (Pending R) → Builder R → LineCursor → Builder R
  | [], b, _ => b
  | ⟨_, []⟩ :: frames, b, p => Pending.addAll v frames b p
  | ⟨parent, .node r start stop children :: ms⟩ :: frames, b, p =>
    if v.isTerminal r then
      let p := p.advanceTo start
      let text := String.ofList (p.rest.take (stop - start))
      let b := (b.push parent (.token ⟨r, text, p.line, p.column⟩)).1
      Pending.addAll v (⟨parent, ms⟩ :: frames) b p
    else
      let (b, i) := b.push parent (.production r #[])
      Pending.addAll v (⟨some i, children⟩ :: ⟨parent, ms⟩ :: frames) b p
termination_by frames => Pending.steps frames
decreasing_by all_goals simp only [Pending.steps, Match.stepsAll, Match.steps]; omega

/-- The tree of the matches found in a source, if there is one. -/
def Tree.ofMatches (v : Vocabulary R) (source : List Char) (ms : List (Match R)) :
    Option (Tree R) :=
  (Pending.addAll v [⟨none, ms⟩] {} (.ofText source)).finish

end ConcreteSyntax
