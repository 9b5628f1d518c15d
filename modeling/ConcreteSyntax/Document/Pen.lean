/-! # Writing JSON piece by piece

A pen writes a JSON text as a sequence of pieces of UTF-8.  The caller says what begins and ends;
the pen puts the punctuation of its layout.

* **Compact.**  No blanks at all.
* **Pretty.**  Every member and every element on a line of its own, two blanks per level, a blank
  after a colon; an array or object without parts stays on its line.
* **Strings** are copied in the longest runs of bytes that need no escape.  Quote and backslash get a
  backslash in front; backspace, form feed, line feed, carriage return and tab have short escapes; other
  control characters are written as four hexadecimal digits.  All bytes above are copied, so an escape
  never falls inside the bytes of one character. -/

namespace ConcreteSyntax.Document

/-- How a document is laid out. -/
inductive Layout where
  | compact
  | pretty
deriving DecidableEq, Repr

/-- The digit of a number below sixteen, in lower case. -/
def hexDigit (n : Nat) : Char := if n < 10 then Char.ofNat (48 + n) else Char.ofNat (87 + n)

/-- The escape of a byte inside a string, if it needs one. -/
def escape? (b : UInt8) : Option String :=
  if b = 0x22 then some "\\\""
  else if b = 0x5C then some "\\\\"
  else if b = 0x08 then some "\\b"
  else if b = 0x0C then some "\\f"
  else if b = 0x0A then some "\\n"
  else if b = 0x0D then some "\\r"
  else if b = 0x09 then some "\\t"
  else if b < 0x20 then
    some (String.ofList ['\\', 'u', '0', '0', hexDigit (b.toNat / 16), hexDigit (b.toNat % 16)])
  else none

/-- A JSON text in the making: how deep it stands, whether the innermost array or object has parts,
and what was written. -/
structure Pen where
  layout : Layout
  indent : Nat := 0
  filled : Bool := false
  pieces : Array ByteArray := #[]

namespace Pen

def putBytes (p : Pen) (bytes : ByteArray) : Pen := { p with pieces := p.pieces.push bytes }

def put (p : Pen) (text : String) : Pen := p.putBytes text.toUTF8

/-- Write two blanks per level. -/
def putIndent (p : Pen) : Pen := Nat.repeat (·.put "  ") p.indent p

/-- Begin an array or object. -/
def openWith (p : Pen) (bracket : String) : Pen :=
  { p with indent := p.indent + 1, filled := false }.put bracket

/-- End an array or object. -/
def closeWith (p : Pen) (bracket : String) : Pen :=
  let p := { p with indent := p.indent - 1 }
  match p.layout with
  | .compact => p.put bracket
  | .pretty => if p.filled then (p.put "\n").putIndent.put bracket else p.put bracket

/-- Come to the next member or element. -/
def separate (p : Pen) (first : Bool) : Pen :=
  match p.layout with
  | .compact => if first then p else p.put ","
  | .pretty => (p.put (if first then "\n" else ",\n")).putIndent

/-- Leave a member or element. -/
def endPart (p : Pen) : Pen := { p with filled := true }

def beginArray (p : Pen) : Pen := p.openWith "["
def endArray (p : Pen) : Pen := p.closeWith "]"
def beginObject (p : Pen) : Pen := p.openWith "\x7b"
def endObject (p : Pen) : Pen := p.closeWith "\x7d"

/-- Write the bytes of a string from `start` on, given that those before `index` need no escape. -/
def putRuns (bytes : ByteArray) (start index : Nat) (p : Pen) : Pen :=
  if h : index < bytes.size then
    match escape? bytes[index] with
    | none => putRuns bytes start (index + 1) p
    | some e =>
      let p := if start < index then p.putBytes (bytes.extract start index) else p
      putRuns bytes (index + 1) (index + 1) (p.put e)
  else if start < bytes.size then p.putBytes (bytes.extract start bytes.size)
  else p
termination_by bytes.size - index

def putString (p : Pen) (s : String) : Pen :=
  (putRuns s.toUTF8 0 0 (p.put "\"")).put "\""

def putNumber (p : Pen) (n : Nat) : Pen := p.put (Nat.repr n)

/-- Write the key of a member, and what stands before its value. -/
def putKey (p : Pen) (key : String) (first : Bool) : Pen :=
  let p := (p.separate first).putString key
  match p.layout with
  | .compact => p.put ":"
  | .pretty => p.put ": "

/-- All that was written. -/
def bytes (p : Pen) : ByteArray := p.pieces.foldl (· ++ ·) .empty

end Pen

end ConcreteSyntax.Document
