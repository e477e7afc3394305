import ExprSyntax.Parser
import ExprSyntax.Source.Scan

/-!
# Running a source

`run` scans a source and parses its tokens, adding what is wrong to a log. The parser runs even
after lexical errors, so that its diagnostic is logged too; a tree comes back only when the log is
empty in the end.
-/

namespace ExprSyntax

/-- Diagnostics in the order in which they were reported. -/
abbrev Log := List Diagnostic

/-- What parsing adds to a log. -/
def parseLog : Except Diagnostic Expr → Log
  | .ok _ => []
  | .error d => [d]

/-- The expression at the head of a token list, under the default bound on nesting. -/
def parseTokens (tokens : List Token) : Except Diagnostic Expr :=
  (Parser.ofTokens tokens Parser.defaultMaxDepth).parse.1

def run (log : Log) (source : String) : Option Expr × Log :=
  let scanned := scan source
  let result := parseTokens scanned.tokens
  let log := log ++ scanned.diagnostics ++ parseLog result
  (if log.isEmpty then result.toOption else none, log)

end ExprSyntax
