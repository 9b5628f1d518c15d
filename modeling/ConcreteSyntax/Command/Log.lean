import ConcreteSyntax.Extraction

/-! # The log

What a run reports, written to standard error.  Every event has a target, the part of the program that
reports it, and a level.  How much is shown follows from how often `--verbose` was given, or from a
filter in the variable `RUST_LOG`.

* **Directives** (`LogDirective`).  A filter is a list of directives, each a level for everything, or
  `target=level` for the targets whose name starts so.
* **Choice.**  The directive with the longest target decides on an event, the later of two with the
  same; an event on which none decides is not shown.  A filter without directives shows errors.
* **Faults.**  A filter with a directive that cannot be read is as good as none. -/

namespace ConcreteSyntax.Command

/-- How much is shown, or how much an event matters. -/
inductive LogLevel where
  | off | error | warn | info | debug | trace
deriving DecidableEq, Repr

namespace LogLevel

/-- The place of a level in the order of increasing detail. -/
def rank : LogLevel → Nat
  | off => 0
  | error => 1
  | warn => 2
  | info => 3
  | debug => 4
  | trace => 5

/-- The level of a name, in any case, or of a number. -/
def ofName? (name : String) : Option LogLevel :=
  match name.toLower with
  | "off" | "0" => some off
  | "error" | "1" => some error
  | "warn" | "2" => some warn
  | "info" | "3" => some info
  | "debug" | "4" => some debug
  | "trace" | "5" => some trace
  | _ => none

def ofVerbose : Nat → LogLevel
  | 0 => error
  | 1 => warn
  | 2 => info
  | 3 => debug
  | _ => trace

end LogLevel

/-- What a filter says about the targets whose name starts with `target`. -/
structure LogDirective where
  target : String
  level : LogLevel
deriving DecidableEq, Repr

abbrev LogFilter := List LogDirective

/-- Whether a text can be the name of a target. -/
def isTargetName (s : String) : Bool :=
  !s.isEmpty && s.toList.all fun c => c.isAlphanum || c = '_' || c = ':' || c = '-'

/-- A directive as it is written; a target alone stands for everything it reports. -/
def LogDirective.ofText? (s : String) : Option LogDirective :=
  match s.splitOn "=" with
  | [name] =>
    match LogLevel.ofName? name with
    | some level => some ⟨"", level⟩
    | none => if isTargetName name then some ⟨name, .trace⟩ else none
  | [target, name] =>
    if isTargetName target then
      if name.isEmpty then some ⟨target, .trace⟩
      else (LogLevel.ofName? name).map fun level => ⟨target, level⟩
    else none
  | _ => none

namespace LogFilter

/-- A filter as it is written; nothing if it cannot be read. -/
def ofText? (s : String) : Option LogFilter := do
  let directives ← ((s.splitOn ",").filter (· ≠ "")).mapM LogDirective.ofText?
  return if directives.isEmpty then [⟨"", .error⟩] else directives

def ofVerbose (verbose : Nat) : LogFilter := [⟨"cstjson", .ofVerbose verbose⟩]

/-- The filter of a run: the one in the variable, or else the one for the count of `--verbose`. -/
def ofRun (verbose : Nat) (text : Option String) : LogFilter :=
  (text.bind ofText?).getD (ofVerbose verbose)

/-- How much is shown of a target. -/
def levelOf (f : LogFilter) (target : String) : LogLevel :=
  let decisive (best : Option LogDirective) (d : LogDirective) : Option LogDirective :=
    if d.target.isPrefixOf target && best.all fun b => b.target.length ≤ d.target.length then some d
    else best
  ((f.foldl decisive none).map (·.level)).getD .off

end LogFilter

/-- The part of the program that reports an event. -/
def Event.target : Event → String
  | .sourceLoaded .. | .parseFinished .. | .encodingFinished .. | .runFinished => "cstjson::engine"
  | .runSucceeded _ | .runFailed _ => "cstjson::cli"

/-- How much an event matters. -/
def Event.level : Event → LogLevel
  | .sourceLoaded .. | .parseFinished .. | .encodingFinished .. => .info
  | .runFinished | .runSucceeded _ | .runFailed _ => .debug

def boolText (b : Bool) : String := if b then "true" else "false"

def strategyText : Document.Strategy → String
  | .stream => "Stream"
  | .materialize => "Materialize"

/-- The counts of a run in the log. -/
def summaryText (s : Summary) : String :=
  s!"ExtractSummary \x7b language: {s.language.name}, input_bytes: {s.inputBytes}, " ++
  s!"nodes: {s.nodes}, tokens: {s.tokens} \x7d"

/-- The line of an event; `elapsed` is what a finished run shows as its time. -/
def Event.line (elapsed : String) : Event → String
  | .sourceLoaded origin bytes => s!" INFO source loaded origin={origin} bytes={bytes}"
  | .parseFinished l nodes tokens height =>
    s!" INFO parse finished language={l.name} nodes={nodes} tokens={tokens} height={height}"
  | .encodingFinished strategy pretty =>
    s!" INFO encoding finished strategy={strategyText strategy} pretty={boolText pretty}"
  | .runFinished => s!"DEBUG run finished elapsed_ms={elapsed}"
  | .runSucceeded summary => s!"DEBUG run succeeded summary={summaryText summary}"
  | .runFailed c => s!"DEBUG run failed class={c.name}"

def LogFilter.shows (f : LogFilter) (e : Event) : Bool :=
  (Event.level e).rank ≤ (f.levelOf (Event.target e)).rank

def logText (f : LogFilter) (elapsed : String) (events : List Event) : String :=
  String.join ((events.filter f.shows).map fun e => Event.line elapsed e ++ "\n")

end ConcreteSyntax.Command
