import ConcreteSyntax.Command.Help
import ConcreteSyntax.Command.Log
import ConcreteSyntax.Command.Report
import ConcreteSyntax.Language.Listing

/-! # The program

A whole run of the command as a function of its arguments, its environment and what it can read.  A
run that fails leaves standard output empty and ends with status one. -/

namespace ConcreteSyntax.Command

open Output (Sink)

/-- What a run of the program starts from. -/
structure Invocation where
  arguments : List String
  environment : Environment
  inputs : Inputs

/-- What a run of the program leaves. -/
structure Outcome where
  exitCode : Nat
  /-- What was written to standard output. -/
  stdout : ByteArray
  /-- What was reported. -/
  events : List Event := []
  /-- What is shown of it. -/
  filter : LogFilter := []
  /-- The report of a failure. -/
  errors : String := ""

/-- What was written to standard error; `elapsed` is what a finished run shows as its time. -/
def Outcome.stderr (o : Outcome) (elapsed : String) : String :=
  logText o.filter elapsed o.events ++ o.errors

def Outcome.ofText (text : String) : Outcome := { exitCode := 0, stdout := text.toUTF8 }

/-- Do what the arguments ask for, writing into a sink. -/
def execute (a : Arguments) (w : Inputs) (sink : Sink) :
    Sink × List Event × Except Failure Unit :=
  if a.listLanguages then
    match Language.writeListing sink with
    | (sink, none) => (sink, [], .ok ())
    | (sink, some cause) => (sink, [], .error (.unwritable cause))
  else
    match a.language with
    | none => (sink, [], .error (.invalidArguments (some "a language name is required")))
    | some name =>
      match resolve name with
      | .error f => (sink, [], .error f)
      | .ok l =>
        let run := runPipeline a.options l w (.ofPath a.file) sink
        match run.result with
        | .error f => (run.sink, run.events, .error f)
        | .ok summary => (run.sink, run.events ++ [.runSucceeded summary], .ok ())

/-- What a run with these arguments reads, if it gets so far. -/
def requestedInput (arguments : List String) (env : Environment) : Option Input :=
  match parseArguments arguments env with
  | .error _ => none
  | .ok a =>
    if a.listLanguages || (a.language.bind Language.ofName?).isNone then none
    else some (.ofPath a.file)

def run (i : Invocation) : Outcome :=
  match parseArguments i.arguments i.environment with
  | .error (.help long) =>
    .ofText (if long then longHelp i.environment else shortHelp i.environment)
  | .error .version => .ofText versionText
  | .error .invalid =>
    let f := Failure.invalidArguments none
    { exitCode := f.exitCode, stdout := .empty, errors := errorLine f }
  | .ok a =>
    let filter := LogFilter.ofRun a.verbose (i.environment "RUST_LOG")
    match execute a i.inputs {} with
    | (sink, events, .ok ()) =>
      { exitCode := 0, stdout := sink.accepted, events := events, filter := filter }
    | (sink, events, .error f) =>
      { exitCode := f.exitCode
        stdout := sink.accepted
        events := events ++ [.runFailed f.failureClass]
        filter := filter
        errors := if a.explain then report f else errorLine f }

end ConcreteSyntax.Command
