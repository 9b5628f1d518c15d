import ConcreteSyntax.Document.Encode
import ConcreteSyntax.Output.Buffered
import ConcreteSyntax.Parsing
import ConcreteSyntax.Source

/-! # Extraction

One run of the pipeline: load a source, parse it, encode the tree into a sink.  The first failure
ends a run; a source that has no tree leaves the sink untouched.  Along the way a run reports what it did
(`Event`). -/

namespace ConcreteSyntax

open Document (Strategy Layout)
open Output (Sink)

/-- What tunes a run. -/
structure Options where
  strategy : Strategy := .stream
  pretty : Bool := false
  maxInputBytes : Option Nat := none
  callLimit : Option Nat := none

def Options.document (o : Options) : Document.Options :=
  { strategy := o.strategy, layout := if o.pretty then .pretty else .compact }

/-- The counts of a run. -/
structure Summary where
  language : Language
  inputBytes : Nat
  nodes : Nat
  tokens : Nat

/-- What a run reports. -/
inductive Event where
  | sourceLoaded (origin : String) (bytes : Nat)
  | parseFinished (language : Language) (nodes tokens height : Nat)
  | encodingFinished (strategy : Strategy) (pretty : Bool)
  | runFinished
  | runSucceeded (summary : Summary)
  | runFailed (failureClass : FailureClass)

/-- A run that ended: the sink it wrote into, what it reported, and its result. -/
structure Run where
  sink : Sink
  events : List Event
  result : Except Failure Summary

/-- Parse a source and encode its tree into a sink. -/
def extract (o : Options) (l : Language) (origin source : String) (sink : Sink) : Run :=
  match l.parseTree origin source o.callLimit with
  | .error f => ⟨sink, [], .error f⟩
  | .ok t =>
    let summary : Summary := ⟨l, source.utf8ByteSize, t.size, t.tokens.length⟩
    let parsed := Event.parseFinished l summary.nodes summary.tokens t.height
    match sink.deliverBuffered (Document.pieces l.vocabulary o.document t) with
    | (sink, some cause) => ⟨sink, [parsed], .error (.unwritable cause)⟩
    | (sink, none) =>
      ⟨sink, [parsed, .encodingFinished o.strategy o.pretty], .ok summary⟩

/-- The document of a source as text. -/
def extractToString (o : Options) (l : Language) (source : String) : Except Failure String :=
  let run := extract o l "<memory>" source {}
  run.result.map fun _ => Document.textOfBytes run.sink.accepted

/-- Extract a source that was loaded, or fail as loading did. -/
def extractLoaded (o : Options) (l : Language) (origin : String)
    (loaded : Except Failure String) (sink : Sink) : Run :=
  match loaded with
  | .error f => ⟨sink, [], .error f⟩
  | .ok source =>
    let run := extract o l origin source sink
    let loaded := Event.sourceLoaded origin source.utf8ByteSize
    match run.result with
    | .error f => ⟨run.sink, loaded :: run.events, .error f⟩
    | .ok summary => ⟨run.sink, loaded :: run.events ++ [.runFinished], .ok summary⟩

/-- What a run can read. -/
structure Inputs where
  /-- What standard input gives. -/
  stdin : List ReadEvent := []
  /-- What opening a path gives. -/
  openFile : String → FileAnswer := fun _ => .notFound

def Inputs.load (w : Inputs) (input : Input) (limit : Option Nat) : Except Failure String :=
  match input with
  | .stdin => ConcreteSyntax.load w.stdin input.origin limit 0
  | .file path => loadFile (w.openFile path) input.origin limit

/-- Load an input, parse it, and encode its tree into a sink. -/
def runPipeline (o : Options) (l : Language) (w : Inputs) (input : Input) (sink : Sink) : Run :=
  extractLoaded o l input.origin (w.load input o.maxInputBytes) sink

/-- Look up a language by its name. -/
def resolve (name : String) : Except Failure Language :=
  match Language.ofName? name with
  | some l => .ok l
  | none => .error (.unsupportedLanguage name)

end ConcreteSyntax
