import ConcreteSyntax.Extraction

/-! # Command lines

`cstjson [OPTIONS] [LANGUAGE] [FILE]`.  Options may stand anywhere; `--` ends them, and a lone `-` is
an ordinary argument.

* **Reading** goes from left to right and stops at the first error, or at a request for help or the
  version.  What is missing or does not go together is checked at the end only.
* **Values** stand behind an equals sign or in the next argument, which must not look like an option.
  No option but `--verbose` may be given twice.
* **Environment.**  A variable stands in for an option that the command line leaves out.  It is read, and
  has to be right, only then. -/

namespace ConcreteSyntax.Command

open Document (Strategy)

/-- A command line, read. -/
structure Arguments where
  language : Option String := none
  file : Option String := none
  strategy : Strategy := .stream
  pretty : Bool := false
  maxInputBytes : Option Nat := none
  callLimit : Option Nat := none
  explain : Bool := false
  verbose : Nat := 0
  listLanguages : Bool := false
deriving DecidableEq, Repr

/-- What tunes the run. -/
def Arguments.options (a : Arguments) : Options where
  strategy := a.strategy
  pretty := a.pretty
  maxInputBytes := a.maxInputBytes
  callLimit := a.callLimit

/-- Why a command line gives no arguments. -/
inductive Stop where
  /-- Help is asked for, in its long or short form. -/
  | help (long : Bool)
  | version
  | invalid
deriving DecidableEq, Repr

/-! ### Values -/

/-- The largest value of an option, one less than `2 ^ 64`. -/
def maxValue : Nat := 18446744073709551615

/-- The value of decimal digits. -/
def digits? (cs : List Char) : Option Nat :=
  if cs.isEmpty then none
  else cs.foldlM (fun n c => if '0' ≤ c ∧ c ≤ '9' then some (10 * n + (c.toNat - 48)) else none) 0

/-- A number: decimal digits, after an optional plus sign. -/
def number? (s : String) : Option Nat :=
  let value := match s.toList with
    | '+' :: cs => digits? cs
    | cs => digits? cs
  value.filter (· ≤ maxValue)

def positive? (s : String) : Option Nat := (number? s).filter (· ≠ 0)

/-- A truth value. -/
def bool? : String → Option Bool
  | "true" => some true
  | "false" => some false
  | _ => none

/-! ### The command line -/

/-- What was read so far. -/
structure Draft where
  language : Option String := none
  file : Option String := none
  strategy : Option Strategy := none
  pretty : Option Bool := none
  maxInputBytes : Option Nat := none
  callLimit : Option Nat := none
  explain : Bool := false
  verbose : Nat := 0
  listLanguages : Bool := false

/-- The most that `--verbose` counts to. -/
def maxVerbose : Nat := 255

/-- Options that take a value. -/
inductive Valued where
  | strategy | maxInputBytes | callLimit
deriving DecidableEq

/-- Options that take none. -/
inductive Flag where
  | pretty | explain | verbose | listLanguages | help | version
deriving DecidableEq

/-- The option of a long name. -/
def longOption? : String → Option (Valued ⊕ Flag)
  | "strategy" => some (.inl .strategy)
  | "max-input-bytes" => some (.inl .maxInputBytes)
  | "call-limit" => some (.inl .callLimit)
  | "pretty" => some (.inr .pretty)
  | "explain" => some (.inr .explain)
  | "verbose" => some (.inr .verbose)
  | "list-languages" => some (.inr .listLanguages)
  | "help" => some (.inr .help)
  | "version" => some (.inr .version)
  | _ => none

namespace Draft

/-- A value where there was none yet. -/
def once {α : Type} (old new : Option α) : Except Stop (Option α) :=
  match old, new with
  | none, some a => .ok (some a)
  | _, _ => .error .invalid

def setValue (d : Draft) (option : Valued) (value : String) : Except Stop Draft :=
  match option with
  | .strategy => return { d with strategy := ← once d.strategy (Strategy.ofName? value) }
  | .maxInputBytes => return { d with maxInputBytes := ← once d.maxInputBytes (number? value) }
  | .callLimit => return { d with callLimit := ← once d.callLimit (positive? value) }

def setFlag (d : Draft) (flag : Flag) (long : Bool) : Except Stop Draft :=
  match flag with
  | .pretty => return { d with pretty := ← once d.pretty (some true) }
  | .explain => if d.explain then throw .invalid else return { d with explain := true }
  | .verbose => return { d with verbose := min (d.verbose + 1) maxVerbose }
  | .listLanguages =>
    if d.listLanguages then throw .invalid else return { d with listLanguages := true }
  | .help => throw (.help long)
  | .version => throw .version

def setLetters (d : Draft) : List Char → Except Stop Draft
  | [] => .ok d
  | 'v' :: cs => do setLetters (← d.setFlag .verbose false) cs
  | 'h' :: _ => d.setFlag .help false
  | 'V' :: _ => d.setFlag .version false
  | _ :: _ => .error .invalid

/-- Take an argument that is not an option.  The file may not be empty. -/
def addPositional (d : Draft) (a : String) : Except Stop Draft :=
  match d.language, d.file with
  | none, _ => .ok { d with language := some a }
  | some _, none => if a.isEmpty then .error .invalid else .ok { d with file := some a }
  | some _, some _ => .error .invalid

end Draft

/-- Cut characters at the first equals sign. -/
def cutAtEquals : List Char → List Char × Option (List Char)
  | [] => ([], none)
  | '=' :: cs => ([], some cs)
  | c :: cs =>
    let (name, value) := cutAtEquals cs
    (c :: name, value)

/-- What an argument is, before `--` was seen. -/
inductive ArgumentForm where
  | endOfOptions
  /-- `--name` or `--name=value`. -/
  | long (name : String) (value : Option String)
  /-- `-abc`. -/
  | letters (cs : List Char)
  | positional

def formOf (a : String) : ArgumentForm :=
  match a.toList with
  | ['-', '-'] => .endOfOptions
  | '-' :: '-' :: cs =>
    let (name, value) := cutAtEquals cs
    .long (String.ofList name) (value.map String.ofList)
  | '-' :: c :: cs => .letters (c :: cs)
  | _ => .positional

/-- Whether an argument can be the value of the option before it. -/
def canBeValue (a : String) : Bool :=
  match formOf a with
  | .positional => true
  | _ => false

/-- Read a command line from left to right. -/
def readArguments (d : Draft) : List String → Except Stop Draft
  | [] => .ok d
  | a :: as =>
    match formOf a with
    | .endOfOptions => as.foldlM Draft.addPositional d
    | .letters cs => do readArguments (← d.setLetters cs) as
    | .positional => do readArguments (← d.addPositional a) as
    | .long name value =>
      match longOption? name, value, as with
      | some (.inr flag), none, as => do readArguments (← d.setFlag flag true) as
      | some (.inl option), some value, as => do readArguments (← d.setValue option value) as
      | some (.inl option), none, value :: as =>
        if canBeValue value then do readArguments (← d.setValue option value) as
        else .error .invalid
      | _, _, _ => .error .invalid

/-! ### The environment -/

/-- The values of environment variables. -/
abbrev Environment := String → Option String

def strategyVariable : String := "CSTJSON_STRATEGY"
def prettyVariable : String := "CSTJSON_PRETTY"
def maxInputBytesVariable : String := "CSTJSON_MAX_INPUT_BYTES"
def callLimitVariable : String := "CSTJSON_CALL_LIMIT"

/-- The value of an option: from the command line, or else from a variable, which must be right. -/
def valueOr {α : Type} (given : Option α) (fallback : Option String) (read : String → Option α) :
    Except Stop (Option α) :=
  match given, fallback with
  | some a, _ => .ok (some a)
  | none, none => .ok none
  | none, some s =>
    match read s with
    | some a => .ok (some a)
    | none => .error .invalid

/-- Fill in what the command line left out, and check that everything goes together. -/
def Draft.finish (d : Draft) (env : Environment) : Except Stop Arguments := do
  let strategy ← valueOr d.strategy (env strategyVariable) Strategy.ofName?
  let pretty ← valueOr d.pretty (env prettyVariable) bool?
  let maxInputBytes ← valueOr d.maxInputBytes (env maxInputBytesVariable) number?
  let callLimit ← valueOr d.callLimit (env callLimitVariable) positive?
  if d.listLanguages then
    if d.file.isSome then throw .invalid
  else if d.language.isNone then throw .invalid
  return {
    language := d.language
    file := d.file
    strategy := strategy.getD .stream
    pretty := pretty.getD false
    maxInputBytes := maxInputBytes
    callLimit := callLimit
    explain := d.explain
    verbose := d.verbose
    listLanguages := d.listLanguages }

/-- Read a command line in an environment. -/
def parseArguments (arguments : List String) (env : Environment) : Except Stop Arguments := do
  (← readArguments {} arguments).finish env

end ConcreteSyntax.Command
