import ConcreteSyntax.Document.Pen
import ConcreteSyntax.Tree
import ConcreteSyntax.Vocabulary

/-! # Writing a tree through its value

The document of a tree as a JSON value, built before anything is written.  The nodes are visited from
the last to the first: children come after their parent in the arena, so the values of all children
are there when the parent asks for them, and each is asked for once. -/

namespace ConcreteSyntax.Document

/-- A JSON value with natural numbers only. -/
inductive Value where
  | null
  | bool (b : Bool)
  | number (n : Nat)
  | string (s : String)
  | array (elements : List Value)
  | object (members : List (String × Value))

namespace Value

mutual

def write : Value → Pen → Pen
  | null, p => p.put "null"
  | bool b, p => p.put (if b then "true" else "false")
  | number n, p => p.putNumber n
  | string s, p => p.putString s
  | array vs, p => (writeElements vs true p.beginArray).endArray
  | object ms, p => (writeMembers ms true p.beginObject).endObject

def writeElements : List Value → Bool → Pen → Pen
  | [], _, p => p
  | v :: vs, first, p => writeElements vs false (write v (p.separate first)).endPart

def writeMembers : List (String × Value) → Bool → Pen → Pen
  | [], _, p => p
  | (key, v) :: ms, first, p => writeMembers ms false (write v (p.putKey key first)).endPart

end

end Value

variable {R : Type}

def tokenValue (v : Vocabulary R) (t : Token R) : Value :=
  .object [("c", .number t.column), ("l", .number t.line), ("text", .string t.text),
    ("type", .string (v.symbolicName t.kind))]

/-- Values that were built and not yet asked for, by the index of their node. -/
abbrev Slots := Array (Option Value)

/-- Take the values of some nodes; a value that is missing is `null`. -/
def takeValues : List NodeId → Slots → List Value × Slots
  | [], slots => ([], slots)
  | i :: is, slots =>
    let value := (slots[i.index]?.join).getD .null
    let (values, slots) := takeValues is (slots.setIfInBounds i.index none)
    (value :: values, slots)

/-- The value of a node, from the values of its children. -/
def nodeValue (v : Vocabulary R) (n : Node R) (slots : Slots) : Value × Slots :=
  match n with
  | .token t => (tokenValue v t, slots)
  | .production r children =>
    let (values, slots) := takeValues children.toList slots
    (.object [(v.ruleName r, .array values)], slots)

/-- Fill the slots of the last nodes, given in the reverse order of the arena with their
indices. -/
def fillSlots (v : Vocabulary R) : List (Node R × Nat) → Slots → Slots
  | [], slots => slots
  | (n, i) :: ns, slots =>
    let (value, slots) := nodeValue v n slots
    fillSlots v ns (slots.setIfInBounds i (some value))

/-- The document of a tree. -/
def ofTree (v : Vocabulary R) (t : Tree R) : Value :=
  let slots := fillSlots v t.nodes.toList.zipIdx.reverse (Array.replicate t.size none)
  (slots[Tree.root.index]?.join).getD .null

/-- The pieces of a value, written in a layout. -/
def Value.pieces (layout : Layout) (value : Value) : List ByteArray :=
  (value.write { layout := layout }).pieces.toList

/-- The pieces of a tree's document, written after the whole value was built. -/
def materialize (v : Vocabulary R) (layout : Layout) (t : Tree R) : List ByteArray :=
  (ofTree v t).pieces layout

end ConcreteSyntax.Document
