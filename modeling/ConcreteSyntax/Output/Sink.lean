/-! # Sinks

A sink takes bytes, at most so many in one write and so many in all.  It may take fewer of those it is
offered, as long as it takes one.  Once it is full, every further write is refused: with an error in the
sink's own words, or by taking no byte.  Writing everything means writing again and again what is
left. -/

namespace ConcreteSyntax.Output

/-- What a full sink answers to a write. -/
inductive Refusal where
  /-- An error. -/
  | error (cause : String)
  /-- That it took no byte. -/
  | nothing
deriving DecidableEq, Repr

/-- A sink and what it has taken. -/
structure Sink where
  /-- How many bytes it takes in all. -/
  capacity : Option Nat := none
  /-- How many bytes it takes in one write. -/
  chunk : Option Nat := none
  /-- How many of so many bytes it takes, given the number of writes before; zero stands for one. -/
  portion : Nat → Nat → Nat := fun _ n => n
  refusal : Refusal := .error "closed"
  /-- The error of a flush, if flushing fails. -/
  flushError : Option String := none
  accepted : ByteArray := .empty
  /-- How often it was written to, refused writes counted in. -/
  writes : Nat := 0
  /-- How often it was flushed. -/
  flushes : Nat := 0

namespace Sink

/-- How many bytes the sink still takes out of `n`. -/
def room (s : Sink) (n : Nat) : Nat :=
  match s.capacity with
  | none => n
  | some c => min n (c - s.accepted.size)

/-- How many bytes the sink may take out of `n` in one write. -/
def bound (s : Sink) (n : Nat) : Nat :=
  match s.chunk with
  | none => s.room n
  | some c => min (s.room n) c

/-- How many bytes the sink takes out of `n` in one write; an error if it is full. -/
def offer (s : Sink) (n : Nat) : Except String Nat :=
  match s.room n, s.refusal with
  | 0, .error cause => .error cause
  | _, _ => .ok (min (s.bound n) (max 1 (s.portion s.writes (s.bound n))))

/-- The sink after a write in which it took `n` bytes from `start` on. -/
def take (s : Sink) (bytes : ByteArray) (start n : Nat) : Sink :=
  { s with accepted := s.accepted ++ bytes.extract start (start + n), writes := s.writes + 1 }

/-- Write the bytes from `start` on.  The answer gives where the sink stopped and why, if it did not
take all; a write that takes no byte stops with `noByte`. -/
def writeFrom (noByte : String) (bytes : ByteArray) (start : Nat) (s : Sink) :
    Sink × Option (Nat × String) :=
  if _ : start < bytes.size then
    match s.offer (bytes.size - start) with
    | .error cause => (s.take bytes start 0, some (start, cause))
    | .ok 0 => (s.take bytes start 0, some (start, noByte))
    | .ok (n + 1) => writeFrom noByte bytes (start + (n + 1)) (s.take bytes start (n + 1))
  else (s, none)
termination_by bytes.size - start

def writeAll (s : Sink) (bytes : ByteArray) : Sink × Option String :=
  let (s, stop) := writeFrom "failed to write whole buffer" bytes 0 s
  (s, stop.map (·.2))

def flush (s : Sink) : Sink × Option String :=
  ({ s with flushes := s.flushes + 1 }, s.flushError)

/-- Write pieces directly one after another, up to the first that fails. -/
def writePieces : List ByteArray → Sink → Sink × Option String
  | [], s => (s, none)
  | piece :: pieces, s =>
    match s.writeAll piece with
    | (s, some cause) => (s, some cause)
    | (s, none) => writePieces pieces s

/-- Write pieces directly, then flush. -/
def deliver (s : Sink) (pieces : List ByteArray) : Sink × Option String :=
  match writePieces pieces s with
  | (s, some cause) => (s, some cause)
  | (s, none) => s.flush

end Sink

end ConcreteSyntax.Output
