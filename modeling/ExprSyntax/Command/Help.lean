/-!
# Help texts of the command
-/

namespace ExprSyntax

namespace Command

/-- Lines of text, each ended by a line feed. -/
def ofLines (lines : List String) : String :=
  String.join (lines.map (· ++ "\n"))

def version : String :=
  ofLines ["eztype 0.1.0"]

/-- The last line of a message about wrong usage. -/
def usage : String :=
  ofLines ["Usage: eztype [script]"]

def shortHelp : String :=
  ofLines [
    "Scanner, parser and tree printers for the ezType expression language",
    "",
    "Usage: eztype [OPTIONS] [SCRIPT]",
    "",
    "Arguments:",
    "  [SCRIPT]  Source file to parse; reads expressions interactively when omitted",
    "",
    "Options:",
    "      --print <PRINT>  Which rendering(s) of the tree to print [default: ast] " ++
      "[possible values: ast, rpn, both]",
    "      --tokens         Print the scanned tokens before parsing",
    "      --color <COLOR>  Colorize diagnostics [default: auto] " ++
      "[possible values: auto, always, never]",
    "  -h, --help           Print help (see more with '--help')",
    "  -V, --version        Print version"]

def longHelp : String :=
  ofLines [
    "Scanner, parser and tree printers for the ezType expression language",
    "",
    "Usage: eztype [OPTIONS] [SCRIPT]",
    "",
    "Arguments:",
    "  [SCRIPT]",
    "          Source file to parse; reads expressions interactively when omitted",
    "",
    "Options:",
    "      --print <PRINT>",
    "          Which rendering(s) of the tree to print",
    "",
    "          Possible values:",
    "          - ast:  Parenthesized prefix form",
    "          - rpn:  Reverse Polish notation",
    "          - both: Both forms, prefix first",
    "          ",
    "          [default: ast]",
    "",
    "      --tokens",
    "          Print the scanned tokens before parsing",
    "",
    "      --color <COLOR>",
    "          Colorize diagnostics",
    "          ",
    "          [default: auto]",
    "          [possible values: auto, always, never]",
    "",
    "  -h, --help",
    "          Print help (see a summary with '-h')",
    "",
    "  -V, --version",
    "          Print version"]

end Command

end ExprSyntax
