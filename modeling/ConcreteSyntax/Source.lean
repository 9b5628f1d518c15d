import ConcreteSyntax.Failure

/-! # Loading a source

A source comes from standard input or from a file.  It is read to its end, checked against a limit on
its size, and decoded as UTF-8, in this order.

* **Readers.**  What a reader gives is a list of answers (`ReadEvent`): some bytes, an interruption
  after which one just reads again, or an error in the reader's own words.  A reader that has
  nothing more to answer is at its end.
* **Limits.**  With a limit, reading stops one byte beyond it, which tells a source at the limit
  from a larger one.  A failure of the reader beyond that is never seen.
* **Space.**  The expected size, as far as the limit allows it, is reserved before reading.
* **Files.**  The size on record of a file is checked before it is read, and is the size expected.  What is
  read is checked all the same. -/

namespace ConcreteSyntax

/-- One answer of a reader. -/
inductive ReadEvent where
  | bytes (chunk : List UInt8)
  | interrupted
  | failed (cause : String)

namespace ReadEvent

/-- Bytes in chunks of a given size; zero stands for one. -/
def chunked (size : Nat) : Nat → List UInt8 → List ReadEvent
  | 0, _ => []
  | _, [] => []
  | fuel + 1, b :: bs => .bytes (b :: bs.take (size - 1)) :: chunked size fuel (bs.drop (size - 1))

/-- A reader that gives bytes in chunks. -/
def ofBytes (size : Nat) (bytes : List UInt8) : List ReadEvent := chunked size bytes.length bytes

/-- A reader that gives bytes in chunks and one other answer once it has given `stop` of them. -/
def ofBytesWith (size : Nat) (bytes : List UInt8) (stop : Nat) (event : ReadEvent) :
    List ReadEvent :=
  if bytes.length < stop then ofBytes size bytes
  else ofBytes size (bytes.take stop) ++ event :: ofBytes size (bytes.drop stop)

end ReadEvent

/-- Read to the end, or up to a number of bytes.  `acc` holds the bytes read before, latest first. -/
def readToEnd : List ReadEvent → Option Nat → List UInt8 → Except String (List UInt8)
  | [], _, acc => .ok acc.reverse
  | event :: events, left, acc =>
    if left = some 0 then .ok acc.reverse
    else
      match event with
      | .bytes [] => .ok acc.reverse
      | .bytes chunk =>
        match left with
        | none => readToEnd events none (chunk.reverse ++ acc)
        | some n => readToEnd events (some (n - chunk.length)) ((chunk.take n).reverse ++ acc)
      | .interrupted => readToEnd events left acc
      | .failed cause => .error cause

/-- The largest number of bytes that can be reserved, one less than half of `2 ^ 64`. -/
def reservable : Nat := 9223372036854775807

/-- The largest number of bytes that can be counted, one less than `2 ^ 64`. -/
def countable : Nat := 18446744073709551615

/-- Refuse a size beyond the limit. -/
def checkLimit (size : Nat) (limit : Option Nat) : Except Failure Unit :=
  match limit with
  | none => .ok ()
  | some max =>
    if max < size then
      .error (.exhausted .loading s!"input is larger than the {max} byte limit")
    else .ok ()

/-- Load a source from a reader. -/
def load (events : List ReadEvent) (origin : String) (limit : Option Nat) (sizeHint : Nat) :
    Except Failure String := do
  if reservable < limit.elim sizeHint (min sizeHint) then
    throw (.exhausted .loading
      "memory allocation failed because the computed capacity exceeded the collection's maximum")
  let bytes ← (readToEnd events (limit.map fun max => min (max + 1) countable) []).mapError
    (Failure.unreadable origin)
  checkLimit bytes.length limit
  (Text.Utf8.decode bytes).mapError (Failure.undecodable origin)

/-- What opening a path gives. -/
inductive FileAnswer where
  /-- It cannot be opened, or nothing is known about it. -/
  | refused (cause : String)
  | directory
  /-- A file with its size on record.  What its reader gives may be more or less: a file can grow while it is
  read. -/
  | regular (size : Nat) (reader : List ReadEvent)

namespace FileAnswer

/-- The answer for a path that does not exist. -/
def notFound : FileAnswer := .refused "No such file or directory (os error 2)"

/-- The answer for a path that goes on below a file. -/
def notDirectory : FileAnswer := .refused "Not a directory (os error 20)"

/-- The answer for a file that holds some bytes and gives them at once. -/
def ofBytes (content : List UInt8) : FileAnswer :=
  .regular content.length (ReadEvent.ofBytes content.length content)

end FileAnswer

/-- Where a source comes from. -/
inductive Input where
  | stdin
  | file (path : String)

namespace Input

def ofPath : Option String → Input
  | none => stdin
  | some path => file path

/-- The name of an input in messages. -/
def origin : Input → String
  | stdin => "<stdin>"
  | file path => path

def isStdin : Input → Bool
  | stdin => true
  | file _ => false

end Input

/-- Load a source from a file.  The size on record is checked before it is read, and what is read after. -/
def loadFile (answer : FileAnswer) (origin : String) (limit : Option Nat) :
    Except Failure String := do
  match answer with
  | .refused cause => throw (.unreadable origin cause)
  | .directory => throw (.unreadable origin "is a directory")
  | .regular size reader =>
    checkLimit size limit
    load reader origin limit size

end ConcreteSyntax
