import ConcreteSyntax.Command.Arguments

/-! # Help texts

The short and the long help.  Both show the values of the variables that stand in for options. -/

namespace ConcreteSyntax.Command

/-- A variable and its value, as the help shows them. -/
def envNote (env : Environment) (name : String) : String :=
  "[env: " ++ name ++ "=" ++ (env name).getD "" ++ "]"

def versionText : String := "cstjson 0.1.0\n"

/-- What the program is for, and how it is called. -/
def usageText : String :=
  "Encode the concrete syntax tree of a source file as JSON.\n\n" ++
  "Usage: cstjson [OPTIONS] [LANGUAGE] [FILE]\n\n"

/-- The text for `-h`. -/
def shortHelp (env : Environment) : String :=
  usageText ++
  "Arguments:\n" ++
  "  [LANGUAGE]  Registered grammar name, matched exactly (e.g. Java, Json, Hcl)\n" ++
  "  [FILE]      Source file to read. Standard input is drained when absent\n\n" ++
  "Options:\n" ++
  "      --strategy <STRATEGY>      How the document is produced " ++
    envNote env strategyVariable ++
    " [default: stream] [possible values: stream, materialize]\n" ++
  "      --pretty                   Indent the document with two spaces " ++
    envNote env prettyVariable ++ "\n" ++
  "      --max-input-bytes <BYTES>  Reject inputs larger than this many bytes " ++
    envNote env maxInputBytesVariable ++ "\n" ++
  "      --call-limit <CALLS>       Abandon parses that invoke more grammar rules than this " ++
    envNote env callLimitVariable ++ "\n" ++
  "      --explain                  Print a full diagnostic report instead of a one-line error\n" ++
  "  -v, --verbose...               Log to standard error (repeat for more detail)\n" ++
  "      --list-languages           Print the registered grammars as JSON and exit\n" ++
  "  -h, --help                     Print help (see more with '--help')\n" ++
  "  -V, --version                  Print version\n"

/-- The text for `--help`. -/
def longHelp (env : Environment) : String :=
  usageText ++
  "Arguments:\n" ++
  "  [LANGUAGE]\n" ++
  "          Registered grammar name, matched exactly (e.g. Java, Json, Hcl)\n\n" ++
  "  [FILE]\n" ++
  "          Source file to read. Standard input is drained when absent\n\n" ++
  "Options:\n" ++
  "      --strategy <STRATEGY>\n" ++
  "          How the document is produced\n\n" ++
  "          Possible values:\n" ++
  "          - stream:      Emit JSON during traversal\n" ++
  "          - materialize: Build the whole document in memory, then serialize it\n" ++
  "          \n" ++
  "          " ++ envNote env strategyVariable ++ "\n" ++
  "          [default: stream]\n\n" ++
  "      --pretty\n" ++
  "          Indent the document with two spaces\n" ++
  "          \n" ++
  "          " ++ envNote env prettyVariable ++ "\n\n" ++
  "      --max-input-bytes <BYTES>\n" ++
  "          Reject inputs larger than this many bytes\n" ++
  "          \n" ++
  "          " ++ envNote env maxInputBytesVariable ++ "\n\n" ++
  "      --call-limit <CALLS>\n" ++
  "          Abandon parses that invoke more grammar rules than this\n" ++
  "          \n" ++
  "          " ++ envNote env callLimitVariable ++ "\n\n" ++
  "      --explain\n" ++
  "          Print a full diagnostic report instead of a one-line error\n\n" ++
  "  -v, --verbose...\n" ++
  "          Log to standard error (repeat for more detail)\n\n" ++
  "      --list-languages\n" ++
  "          Print the registered grammars as JSON and exit\n\n" ++
  "  -h, --help\n" ++
  "          Print help (see a summary with '-h')\n\n" ++
  "  -V, --version\n" ++
  "          Print version\n"

end ConcreteSyntax.Command
