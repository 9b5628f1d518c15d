import ConcreteSyntax.Output.Sink

/-! # Buffered writing

Bytes are gathered in a buffer of fixed size in front of a sink.  A piece that does not fit empties
the buffer into the sink first; a piece as large as the buffer goes to the sink directly.  What is in the
buffer when writing ends for a failure is offered to the sink once more. -/

namespace ConcreteSyntax.Output

def bufferSize : Nat := 8192

/-- A sink with a buffer in front. -/
structure Buffered where
  sink : Sink
  buffer : ByteArray := .empty

namespace Buffered

/-- Empty the buffer into the sink; what the sink does not take stays. -/
def drain (b : Buffered) : Buffered × Option String :=
  match Sink.writeFrom "failed to write the buffered data" b.buffer 0 b.sink with
  | (sink, none) => (⟨sink, .empty⟩, none)
  | (sink, some (n, cause)) => (⟨sink, b.buffer.extract n b.buffer.size⟩, some cause)

/-- Write a piece, given that it does not fit into the buffer beside what is there, or there is
nothing. -/
def writeThrough (b : Buffered) (piece : ByteArray) : Buffered × Option String :=
  if bufferSize ≤ piece.size then
    let (sink, stop) := b.sink.writeAll piece
    ({ b with sink := sink }, stop)
  else ({ b with buffer := b.buffer ++ piece }, none)

def write (b : Buffered) (piece : ByteArray) : Buffered × Option String :=
  let spare := bufferSize - b.buffer.size
  if piece.size < spare then ({ b with buffer := b.buffer ++ piece }, none)
  else if spare < piece.size then
    match b.drain with
    | (b, some cause) => (b, some cause)
    | (b, none) => b.writeThrough piece
  else b.writeThrough piece

/-- Write pieces one after another, up to the first that fails. -/
def writePieces : List ByteArray → Buffered → Buffered × Option String
  | [], b => (b, none)
  | piece :: pieces, b =>
    match b.write piece with
    | (b, some cause) => (b, some cause)
    | (b, none) => writePieces pieces b

def flush (b : Buffered) : Buffered × Option String :=
  match b.drain with
  | (b, some cause) => (b, some cause)
  | (b, none) =>
    let (sink, stop) := b.sink.flush
    ({ b with sink := sink }, stop)

/-- Write pieces, then flush. -/
def writeDocument (b : Buffered) (pieces : List ByteArray) : Buffered × Option String :=
  match writePieces pieces b with
  | (b, some cause) => (b, some cause)
  | (b, none) => b.flush

end Buffered

/-- Write pieces into a sink through a buffer and flush; when writing ends, the rest of the buffer is
offered to the sink. -/
def Sink.deliverBuffered (s : Sink) (pieces : List ByteArray) : Sink × Option String :=
  let (b, stop) := Buffered.writeDocument ⟨s, .empty⟩ pieces
  (b.drain.1.sink, stop)

end ConcreteSyntax.Output
