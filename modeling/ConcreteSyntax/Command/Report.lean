import ConcreteSyntax.Failure

/-! # Reports of failures

A failure is reported on one line, or in full: its code, its message, its cause, for a source that
does not match an excerpt around the place where parsing stopped, and its advice. -/

namespace ConcreteSyntax.Command

/-- A failure on one line. -/
def errorLine (f : Failure) : String := "error: " ++ f.message ++ "\n"

/-! ### Filling lines -/

def reportWidth : Nat := 80

/-- Fill lines with words up to a width; `line` is the one being filled. -/
def fillWords (width indent : Nat) (line : List Char) : List (List Char) → List (List Char)
  | [] => [line]
  | w :: ws =>
    if line.length + 1 + w.length ≤ width then fillWords width indent (line ++ ' ' :: w) ws
    else line :: fillWords width indent (List.replicate indent ' ' ++ w) ws

/-- A text behind a title, on lines of the report's width; further lines are indented under the
text. -/
def titled (title text : String) : String :=
  match text.splitOn " " with
  | [] => title ++ "\n"
  | w :: ws =>
    let lines := fillWords reportWidth title.length (title.toList ++ w.toList) (ws.map String.toList)
    String.join (lines.map fun l => String.ofList l ++ "\n")

/-! ### Excerpts -/

def tabWidth : Nat := 4

/-- A line as it is shown: tabs become blanks up to the next stop. -/
def expandTabs (column : Nat) : List Char → List Char
  | [] => []
  | '\t' :: cs =>
    let n := tabWidth - column % tabWidth
    List.replicate n ' ' ++ expandTabs (column + n) cs
  | c :: cs => c :: expandTabs (column + 1) cs

/-- A line without the carriage return that belongs to its end. -/
def stripReturn (line : String) : String :=
  match line.toList.reverse with
  | '\r' :: cs => String.ofList cs.reverse
  | _ => line

/-- The lines of a source; a line end at the very end starts no further line. -/
def sourceLines (source : String) : List String :=
  let lines := (source.splitOn "\n").map stripReturn
  if lines.getLast? = some "" then lines.dropLast else lines

def blanks (n : Nat) : String := String.ofList (List.replicate n ' ')

/-- The lines around the place where parsing stopped, with a mark below it.  The title gives the
place by its line and its byte in that line. -/
def excerpt (m : Mismatch) : String :=
  let lines := sourceLines m.source
  let shown (n : Nat) : Option String :=
    if n = 0 then none
    else (lines[n - 1]?).map fun l => String.ofList (expandTabs 0 l.toList)
  let before := ((lines[m.line - 1]?).getD "").toList.take (m.column - 1)
  let column := (expandTabs 0 before).length
  let byte := (String.ofList before).utf8ByteSize + 1
  let next := shown (m.line + 1)
  let width := (Nat.repr (if next.isSome then m.line + 1 else m.line)).length
  let gutter := blanks (width + 2)
  let numbered (n : Nat) (text : String) : String :=
    let number := Nat.repr n
    " " ++ blanks (width - number.length) ++ number ++ " │ " ++ text ++ "\n"
  let context (n : Nat) : String := ((shown n).map (numbered n)).getD ""
  gutter ++ "╭─[" ++ m.origin ++ ":" ++ Nat.repr m.line ++ ":" ++ Nat.repr byte ++ "]\n" ++
  context (m.line - 1) ++
  numbered m.line ((shown m.line).getD "") ++
  gutter ++ "· " ++ blanks column ++ "▲\n" ++
  gutter ++ "· " ++ blanks column ++ "╰── parsing stopped here\n" ++
  context (m.line + 1) ++
  gutter ++ "╰────\n"

/-- A failure in full. -/
def report (f : Failure) : String :=
  f.code ++ "\n\n  × " ++ f.message ++ "\n" ++
  (f.cause.map fun c => "  ╰─▶ " ++ c ++ "\n").getD "" ++
  (match f with
    | .mismatched m => excerpt m
    | _ => "") ++
  (f.help.map (titled "  help: ")).getD "" ++
  "\n"

end ConcreteSyntax.Command
