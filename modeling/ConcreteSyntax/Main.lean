import ConcreteSyntax.Command.Program

/-! # The command

The shell around `Command.run`: it asks the system for what the run depends on, and writes what the
run leaves. -/

namespace ConcreteSyntax.Command

/-- An error in the words of the system, with its number. -/
def systemCause : IO.Error → String
  | .alreadyExists _ code details | .otherError code details | .resourceBusy code details
  | .resourceVanished code details | .unsupportedOperation code details
  | .hardwareFault code details | .unsatisfiedConstraints code details
  | .illegalOperation code details | .protocolError code details | .timeExpired code details
  | .interrupted _ code details | .noFileOrDirectory _ code details
  | .invalidArgument _ code details | .permissionDenied _ code details
  | .resourceExhausted _ code details | .inappropriateType _ code details
  | .noSuchThing _ code details => s!"{details} (os error {code})"
  | .unexpectedEof => "unexpected end of file"
  | .userError message => message

/-- Read a stream to its end; `acc` holds what it gave before, latest first. -/
partial def drain (stream : IO.FS.Stream) (acc : List ReadEvent) : IO (List ReadEvent) := do
  match ← (stream.read 65536).toBaseIO with
  | .error e => return (.failed (systemCause e) :: acc).reverse
  | .ok chunk =>
    if chunk.isEmpty then return acc.reverse
    else drain stream (.bytes chunk.data.toList :: acc)

/-- Open a path and read what is there. -/
def openFile (path : String) : IO FileAnswer := do
  let read : IO FileAnswer := do
    let handle ← IO.FS.Handle.mk path .read
    let info ← (← IO.FS.realPath path).metadata
    if info.type == .dir then return .directory
    else return .regular info.byteSize.toNat (← drain (.ofHandle handle) [])
  match ← read.toBaseIO with
  | .ok answer => return answer
  | .error e => return .refused (systemCause e)

/-- The variables that a run looks at. -/
def consultedVariables : List String :=
  [strategyVariable, prettyVariable, maxInputBytesVariable, callLimitVariable, "RUST_LOG"]

/-- The environment, as far as a run looks at it. -/
def readEnvironment : IO Environment := do
  let values ← consultedVariables.mapM fun name => return (name, ← IO.getEnv name)
  return fun name => (values.lookup name).join

/-- Read what a run asks for. -/
def readInputs : Option Input → IO Inputs
  | none => return {}
  | some .stdin => return { stdin := ← drain (← IO.getStdin) [] }
  | some (.file path) => do
    let answer ← openFile path
    return { openFile := fun _ => answer }

end ConcreteSyntax.Command

open ConcreteSyntax in
def main (arguments : List String) : IO UInt32 := do
  let started ← IO.monoMsNow
  let environment ← Command.readEnvironment
  let inputs ← Command.readInputs (Command.requestedInput arguments environment)
  let outcome := Command.run { arguments, environment, inputs }
  let stdout ← IO.getStdout
  stdout.write outcome.stdout
  stdout.flush
  (← IO.getStderr).putStr (outcome.stderr (toString ((← IO.monoMsNow) - started)))
  return outcome.exitCode.toUInt32
