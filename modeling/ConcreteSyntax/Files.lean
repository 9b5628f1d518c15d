import ConcreteSyntax.Source

/-! # A directory of files

A working directory that holds some files and directories, and what opening a path there gives.
Components are taken one by one: empty ones and `.` stay, `..` goes up, and a name goes down into a
directory.  Going on below a file fails, also with a mere slash. -/

namespace ConcreteSyntax

/-- A file or directory, by its path below the working directory. -/
structure FileEntry where
  path : List String
  /-- The content of a file; none for a directory. -/
  content : Option (List UInt8)

/-- A working directory. -/
structure Files where
  entries : List FileEntry := []

namespace Files

/-- The components of a path that name something. -/
def names (path : String) : List String :=
  (path.splitOn "/").filter fun c => c ≠ "" ∧ c ≠ "."

/-- Add a file or directory; the directories above it come with it. -/
def add (fs : Files) (path : String) (content : Option (List UInt8)) : Files :=
  ⟨⟨names path, content⟩ :: fs.entries⟩

/-- What stands at a path of names. -/
def at? (fs : Files) (path : List String) : Option FileAnswer :=
  match fs.entries.find? (·.path = path) with
  | some ⟨_, some content⟩ => some (.ofBytes content)
  | some ⟨_, none⟩ => some .directory
  | none =>
    if path.isEmpty || fs.entries.any fun e => path.isPrefixOf e.path then some .directory
    else none

/-- Follow components from a directory, given by its names from the innermost up; outside the working
directory nothing is known but that its directories exist. -/
def follow (fs : Files) : Option (List String) → List String → FileAnswer
  | _, [] => .directory
  | here, c :: cs =>
    if c = "" ∨ c = "." then follow fs here cs
    else if c = ".." then
      match here with
      | some (_ :: up) => follow fs (some up) cs
      | _ => follow fs none cs
    else
      match here with
      | none => .notFound
      | some dir =>
        match fs.at? (c :: dir).reverse with
        | some .directory => follow fs (some (c :: dir)) cs
        | some (.regular size reader) => if cs.isEmpty then .regular size reader else .notDirectory
        | _ => .notFound

/-- What opening a path gives. -/
def openPath (fs : Files) (path : String) : FileAnswer :=
  if path.isEmpty then .notFound
  else if path.contains '\x00' then .refused "file name contained an unexpected NUL byte"
  else follow fs (if path.startsWith "/" then none else some []) (path.splitOn "/")

end Files

end ConcreteSyntax
