import ExprSyntax.Source.Run

/-!
# Sessions

A session keeps a log and at most one parser through a list of steps. Only `reset` takes anything
out of the log, and only `load`, `loadTokens`, `parse` and `synchronize` touch the parser.
-/

namespace ExprSyntax

structure Session where
  log : Log
  parser? : Option Parser
deriving DecidableEq

namespace Session

def start : Session := ⟨[], none⟩

inductive Step where
  /-- Scans a source and stands a parser at its first token. -/
  | load (source : String) (maxDepth : Nat)
  /-- Stands a parser at the first of the tokens. -/
  | loadTokens (tokens : List Token) (maxDepth : Nat)
  | parse
  | synchronize
  | scan (source : String)
  | run (source : String)
  | report (d : Diagnostic)
  /-- Empties the log. -/
  | reset

/-- What a step gives back. -/
inductive Answer where
  | nothing
  | count (n : Nat)
  | tokens (ts : List Token)
  | tree (e : Option Expr)
deriving DecidableEq

/-- One step; without a parser there is nothing to parse and nothing to skip. -/
def step (s : Session) : Step → Answer × Session
  | .load source maxDepth =>
    let scanned := ExprSyntax.scan source
    (.count scanned.tokens.length,
      ⟨s.log ++ scanned.diagnostics, some (.ofTokens scanned.tokens maxDepth)⟩)
  | .loadTokens tokens maxDepth =>
    (.nothing, { s with parser? := some (.ofTokens tokens maxDepth) })
  | .parse =>
    match s.parser? with
    | some parser =>
      let (result, parser) := parser.parse
      (.tree result.toOption, ⟨s.log ++ parseLog result, some parser⟩)
    | none => (.tree none, s)
  | .synchronize => (.nothing, { s with parser? := s.parser?.map Parser.synchronize })
  | .scan source =>
    let scanned := ExprSyntax.scan source
    (.tokens scanned.tokens, { s with log := s.log ++ scanned.diagnostics })
  | .run source =>
    let (tree, log) := ExprSyntax.run s.log source
    (.tree tree, { s with log := log })
  | .report d => (.nothing, { s with log := s.log ++ [d] })
  | .reset => (.nothing, { s with log := [] })

end Session

end ExprSyntax
