import ExprSyntax.Token.Basic

/-!
# Diagnostics

What is wrong with a source, on which line and, for a syntax error, at which token.
`Diagnostic.text` is the plain form, `Diagnostic.formatted` may colour it, `Diagnostic.report`
writes a list of them.
-/

namespace ExprSyntax

/-- The place of an error within its line. -/
inductive Location where
  | unspecified
  | atEnd
  | atLexeme (lexeme : String)
deriving DecidableEq, Inhabited

namespace Location

def text : Location → String
  | unspecified => ""
  | atEnd => " at end"
  | atLexeme lexeme => " at '" ++ lexeme ++ "'"

/-- The location of a token. -/
def ofToken (t : Token) : Location :=
  if t.kind = .eof then atEnd else atLexeme t.lexeme

end Location

inductive DiagnosticKind where
  | lexical
  | syntactic
deriving DecidableEq, Inhabited

structure Diagnostic where
  kind : DiagnosticKind
  line : Nat
  location : Location
  message : String
deriving DecidableEq, Inhabited

namespace Diagnostic

def lexical (line : Nat) (message : String) : Diagnostic :=
  ⟨.lexical, line, .unspecified, message⟩

/-- A syntax error that points at `t`. -/
def atToken (t : Token) (message : String) : Diagnostic :=
  ⟨.syntactic, t.line, .ofToken t, message⟩

/-- The part after the word `Error`. -/
def detail (d : Diagnostic) : String :=
  d.location.text ++ ": " ++ d.message

/-- The word `Error`, bold and bright red on a colour terminal. -/
def errorWord (color : Bool) : String :=
  if color then "\x1b[38;5;9m\x1b[1mError\x1b[0m" else "Error"

def formatted (color : Bool) (d : Diagnostic) : String :=
  "[line " ++ d.line.repr ++ "] " ++ errorWord color ++ d.detail

def text (d : Diagnostic) : String :=
  d.formatted false

/-- All of `ds`, each ended by a line feed. -/
def report (color : Bool) (ds : List Diagnostic) : String :=
  String.join (ds.map fun d => d.formatted color ++ "\n")

end Diagnostic

end ExprSyntax
