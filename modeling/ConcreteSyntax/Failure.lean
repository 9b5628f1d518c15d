import ConcreteSyntax.Language
import ConcreteSyntax.Text.Utf8

/-! # Failures

Every way a run can end without a document, with its wording.  A failure has a one-line message, a
class, a diagnostic code, and, where there is one, advice and the cause that lies below it.  All
classes end a run with the same exit status. -/

namespace ConcreteSyntax

/-- What a run was doing when it ran out of something. -/
inductive Stage where
  | loading | parsing | encoding
deriving DecidableEq, Repr

/-- A stage in words. -/
def Stage.name : Stage → String
  | loading => "loading"
  | parsing => "parsing"
  | encoding => "encoding"

inductive FailureClass where
  | usage | io | mismatch | exhausted
deriving DecidableEq, Repr

namespace FailureClass

/-- A class in words. -/
def name : FailureClass → String
  | usage => "Usage"
  | io => "Io"
  | mismatch => "Syntax"
  | exhausted => "ResourceExhausted"

/-- The exit status of a run that failed. -/
def exitCode : FailureClass → Nat
  | usage | io | mismatch | exhausted => 1

/-- The diagnostic code of a class. -/
def code : FailureClass → String
  | usage => "cstjson::usage"
  | io => "cstjson::io"
  | mismatch => "cstjson::syntax"
  | exhausted => "cstjson::resource"

end FailureClass

/-- Where and why a source does not match its grammar. -/
structure Mismatch where
  language : Language
  /-- The name of the source in messages. -/
  origin : String
  source : String
  /-- Where the parse stopped, in bytes. -/
  offset : Nat
  /-- The line of that place, from one. -/
  line : Nat
  /-- The column of that place in characters, from one. -/
  column : Nat
  /-- The names of what was expected there. -/
  expected : List String

/-- Why a run has no document. -/
inductive Failure where
  | invalidArguments (detail : Option String)
  | unsupportedLanguage (name : String)
  /-- The source could not be read; the cause is in the words of whoever refused. -/
  | unreadable (origin cause : String)
  | undecodable (origin : String) (fault : Text.Utf8.Fault)
  /-- The document could not be written. -/
  | unwritable (cause : String)
  | mismatched (m : Mismatch)
  | exhausted (stage : Stage) (reason : String)

namespace Failure

def message : Failure → String
  | invalidArguments _ => "Invalid arguments"
  | unsupportedLanguage name => s!"Invalid parser selected: {name}"
  | unreadable origin cause => s!"Could not read {origin}: {cause}"
  | undecodable origin _ => s!"Could not decode {origin}: input is not valid UTF-8"
  | unwritable cause => s!"Could not write the encoded document: {cause}"
  | mismatched m =>
    s!"Input does not match the {m.language.name} grammar at line {m.line}, column {m.column}"
  | exhausted stage reason => s!"Resource exhausted while {stage.name}: {reason}"

def failureClass : Failure → FailureClass
  | invalidArguments _ | unsupportedLanguage _ => .usage
  | unreadable .. | undecodable .. | unwritable _ => .io
  | mismatched _ => .mismatch
  | exhausted .. => .exhausted

/-- The advice that goes with a failure. -/
def help : Failure → Option String
  | invalidArguments detail => detail
  | unsupportedLanguage _ => some "run `cstjson --list-languages` to see the registered grammars"
  | unreadable .. | undecodable .. | unwritable _ => none
  | mismatched m =>
    if m.expected.isEmpty then none
    else some ("expected one of: " ++ ", ".intercalate m.expected)
  | exhausted .. =>
    some "the input is too large or too deeply nested for the configured limits"

/-- The cause below a failure. -/
def cause : Failure → Option String
  | unreadable _ cause => some cause
  | undecodable _ fault => some fault.message
  | unwritable cause => some cause
  | _ => none

def code (f : Failure) : String := f.failureClass.code

def exitCode (f : Failure) : Nat := f.failureClass.exitCode

end Failure

end ConcreteSyntax
