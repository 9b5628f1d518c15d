import ConcreteSyntax.Document.Pen
import ConcreteSyntax.Tree
import ConcreteSyntax.Vocabulary

/-! # Writing a tree as it is walked

A token is written as an object with its column, line, text and type, a production as an object whose
one member holds the array of its children.  The walk keeps a frame for every production that is
still open. -/

namespace ConcreteSyntax.Document

variable {R : Type}

/-- The children of an open production that are still to be written. -/
structure Frame where
  children : List NodeId
  /-- None was written yet. -/
  first : Bool

def putToken (v : Vocabulary R) (t : Token R) (p : Pen) : Pen :=
  let p := ((p.beginObject.putKey "c" true).putNumber t.column).endPart
  let p := ((p.putKey "l" false).putNumber t.line).endPart
  let p := ((p.putKey "text" false).putString t.text).endPart
  let p := ((p.putKey "type" false).putString (v.symbolicName t.kind)).endPart
  p.endObject

/-- Write a token, or begin a production, which then has a frame. -/
def openNode (v : Vocabulary R) (t : Tree R) (i : NodeId) (p : Pen) : Option Frame × Pen :=
  match t.node? i with
  | none => (none, p)
  | some (.token tok) => (none, putToken v tok p)
  | some (.production r children) =>
    (some ⟨children.toList, true⟩, (p.beginObject.putKey (v.ruleName r) true).beginArray)

def closeProduction (p : Pen) : Pen := p.endArray.endPart.endObject

/-- Write what the open productions still lack, in so many steps; nothing if the steps do not
suffice. -/
def walkWithin (v : Vocabulary R) (t : Tree R) : Nat → List Frame → Pen → Option Pen
  | _, [], p => some p
  | 0, _ :: _, _ => none
  | steps + 1, ⟨[], _⟩ :: frames, p =>
    let p := closeProduction p
    walkWithin v t steps frames (if frames.isEmpty then p else p.endPart)
  | steps + 1, ⟨i :: is, first⟩ :: frames, p =>
    match openNode v t i (p.separate first) with
    | (none, p) => walkWithin v t steps (⟨is, false⟩ :: frames) p.endPart
    | (some frame, p) => walkWithin v t steps (frame :: ⟨is, false⟩ :: frames) p

/-- Write a tree in at most so many steps after the root was opened. -/
def streamWithin (v : Vocabulary R) (layout : Layout) (t : Tree R) (steps : Nat) : Option Pen :=
  let (frame, p) := openNode v t Tree.root { layout := layout }
  walkWithin v t steps frame.toList p

/-- The pieces of a tree's document, written as the tree is walked.  Every linked node is opened
once and every production closed once, so two steps per node are enough; a tree that holds a node
below itself has no document. -/
def stream (v : Vocabulary R) (layout : Layout) (t : Tree R) : List ByteArray :=
  match streamWithin v layout t (2 * t.size) with
  | some p => p.pieces.toList
  | none => []

end ConcreteSyntax.Document
