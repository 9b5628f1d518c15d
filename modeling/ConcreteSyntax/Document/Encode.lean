import ConcreteSyntax.Document.Stream
import ConcreteSyntax.Document.Value

/-! # The document of a tree

Two strategies write the same bytes: one while the tree is walked, the other after the whole
document was built as a value. -/

namespace ConcreteSyntax.Document

/-- How a document is produced. -/
inductive Strategy where
  | stream
  | materialize
deriving DecidableEq, Repr

def Strategy.ofName? : String → Option Strategy
  | "stream" => some stream
  | "materialize" => some materialize
  | _ => none

def Strategy.name : Strategy → String
  | stream => "stream"
  | materialize => "materialize"

/-- How a document is produced and laid out. -/
structure Options where
  strategy : Strategy := .stream
  layout : Layout := .compact
deriving DecidableEq, Repr

variable {R : Type}

/-- The pieces of a tree's document, in the order in which they are written. -/
def pieces (v : Vocabulary R) (o : Options) (t : Tree R) : List ByteArray :=
  match o.strategy with
  | .stream => stream v o.layout t
  | .materialize => materialize v o.layout t

def bytes (v : Vocabulary R) (o : Options) (t : Tree R) : ByteArray :=
  (pieces v o t).foldl (· ++ ·) .empty

/-- Bytes as text; bytes that are no UTF-8 give the empty text. -/
def textOfBytes (bytes : ByteArray) : String := (String.fromUTF8? bytes).getD ""

def text (v : Vocabulary R) (o : Options) (t : Tree R) : String := textOfBytes (bytes v o t)

end ConcreteSyntax.Document
