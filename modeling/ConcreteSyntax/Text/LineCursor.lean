/-! # Lines and columns

* **Cursors** (`LineCursor`).  A cursor walks forward through a text and keeps the line and the column
  where it stands.  Lines count from one and end with a line feed; columns count the characters since
  the last line feed, from zero.  A carriage return is a character like any other.
* **Ends** (`lineCol`).  The place where a text ends, with lines and columns from one.  Here a carriage
  return together with the line feed after it is one line end. -/

namespace ConcreteSyntax.Text

/-- A place in a text, with what is left of the text there. -/
structure LineCursor where
  rest : List Char
  offset : Nat := 0
  line : Nat := 1
  column : Nat := 0

namespace LineCursor

/-- The cursor before a text. -/
def ofText (cs : List Char) : LineCursor := { rest := cs }

/-- The cursor after one more character. -/
def step (p : LineCursor) : LineCursor :=
  match p.rest with
  | [] => p
  | c :: cs =>
    if c = '\n' then { rest := cs, offset := p.offset + 1, line := p.line + 1, column := 0 }
    else { rest := cs, offset := p.offset + 1, line := p.line, column := p.column + 1 }

/-- The cursor after `n` more characters. -/
def advance : Nat → LineCursor → LineCursor
  | 0, p => p
  | n + 1, p => advance n p.step

/-- The cursor at a character offset; a cursor never goes back. -/
def advanceTo (p : LineCursor) (offset : Nat) : LineCursor := advance (offset - p.offset) p

end LineCursor

/-- The line and the column where a text ends that starts at this line and column. -/
def lineCol (line column : Nat) : List Char → Nat × Nat
  | [] => (line, column)
  | '\r' :: '\n' :: cs => lineCol (line + 1) 1 cs
  | '\n' :: cs => lineCol (line + 1) 1 cs
  | _ :: cs => lineCol line (column + 1) cs

end ConcreteSyntax.Text
