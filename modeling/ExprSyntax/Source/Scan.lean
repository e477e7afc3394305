import ExprSyntax.Diagnostic
import ExprSyntax.Source.Segment

/-!
# Scanning a source

`scan` turns the segments of a source into its tokens, the end marker last, and its lexical
diagnostics. A lexeme gives a token, an open string and a stray character a diagnostic, blanks and
comments nothing; nothing stops the scan.
-/

namespace ExprSyntax

namespace Segment

def lexeme (s : Segment) : String :=
  String.ofList s.text

/-- The value of a lexeme: what stands between the quotes, or the number that is written. -/
def literal? (kind : TokenKind) (s : Segment) : Option Literal :=
  match kind with
  | .string => some (.string (String.ofList s.text.tail.dropLast))
  | .number => (Binary64.ofText? s.lexeme).map .number
  | _ => none

/-- The token of a lexeme; its line is the one on which the lexeme ends. -/
def token? (s : Segment) : Option Token :=
  match s.cls with
  | .lexeme kind => some ⟨kind, s.lexeme, s.literal? kind, s.endLine⟩
  | _ => none

/-- What is wrong with a segment that is no lexeme, on the line on which it starts. -/
def diagnostic? (s : Segment) : Option Diagnostic :=
  match s.cls with
  | .openString => some (.lexical s.line "Unterminated string.")
  | .stray => some (.lexical s.line "Unexpected character.")
  | _ => none

end Segment

/-- What scanning a source gives. -/
structure Scan where
  tokens : List Token
  diagnostics : List Diagnostic
deriving DecidableEq, Inhabited

/-- Lines count from one, so the end marker is on the line after as many line feeds. -/
def scan (source : String) : Scan :=
  let chars := source.toList
  let segments := Segment.segments 1 chars
  ⟨segments.filterMap Segment.token? ++ [Token.eof (1 + chars.count '\n')],
    segments.filterMap Segment.diagnostic?⟩

end ExprSyntax
