import ConcreteSyntax.Document.Value
import ConcreteSyntax.Language
import ConcreteSyntax.Output.Sink

/-! # The list of languages

The registered languages as one compact JSON text. -/

namespace ConcreteSyntax.Language

open Document (Value)

/-- The entry of a language as a value. -/
def Entry.value (e : Entry) : Value :=
  .object [("language", .string e.language.name), ("name", .string e.name),
    ("start_rule", .string e.startRule),
    ("extensions", .array (e.extensions.map .string)),
    ("retains_trivia", .bool e.retainsTrivia)]

/-- All entries as a value. -/
def listing : Value := .array (all.map fun l => l.entry.value)

/-- Write the list of languages into a sink. -/
def writeListing (sink : Output.Sink) : Output.Sink × Option String :=
  sink.deliver (listing.pieces .compact)

end ConcreteSyntax.Language
