import ExprSyntax.Command.Plain
import ExprSyntax.Expr.Polish

/-!
# Options of the command

The choices that a command line makes, with the words that stand for them, and what a command line
can get wrong (`UsageError`).
-/

namespace ExprSyntax

namespace Command

/-- Which written forms of a tree to print. -/
inductive PrintChoice where
  | ast
  | rpn
  | both
deriving DecidableEq, Inhabited

def PrintChoice.ofWord? : String → Option PrintChoice
  | "ast" => some .ast
  | "rpn" => some .rpn
  | "both" => some .both
  | _ => none

def PrintChoice.orders : PrintChoice → List Order
  | ast => [.polish]
  | rpn => [.reversePolish]
  | both => [.polish, .reversePolish]

/-- When to colour diagnostics. -/
inductive ColorChoice where
  | auto
  | always
  | never
deriving DecidableEq, Inhabited

def ColorChoice.ofWord? : String → Option ColorChoice
  | "auto" => some .auto
  | "always" => some .always
  | "never" => some .never
  | _ => none

/-- Whether to colour, given whether a terminal shows the diagnostics. -/
def ColorChoice.enabled (terminal : Bool) : ColorChoice → Bool
  | auto => terminal
  | always => true
  | never => false

/-- What a run of the command is asked for; without a script it reads lines from its input. -/
structure Options where
  print : PrintChoice
  tokens : Bool
  color : ColorChoice
  script : Option String
deriving DecidableEq, Inhabited

/-- What a command line asks for. -/
inductive Request where
  | help (long : Bool)
  | version
  | run (options : Options)
deriving DecidableEq, Inhabited

/-! ## Errors -/

/-- The arguments that take a value. -/
inductive ValueArgument where
  | print
  | color
  | script
deriving DecidableEq, Inhabited

def ValueArgument.label : ValueArgument → String
  | print => "--print <PRINT>"
  | color => "--color <COLOR>"
  | script => "[SCRIPT]"

/-- The arguments that stand for themselves. -/
inductive Flag where
  | tokens
  | help
  | version
deriving DecidableEq, Inhabited

def Flag.label : Flag → String
  | tokens => "--tokens"
  | help => "--help"
  | version => "--version"

inductive UsageError where
  /-- A flag that is not known, or a script after the first. -/
  | unexpectedArgument (text : String)
  | missingValue (argument : ValueArgument)
  | invalidValue (argument : ValueArgument) (value : String)
  /-- A flag with a value. -/
  | unexpectedValue (flag : Flag) (value : String)
  | repeatedOption (argument : ValueArgument)
  | repeatedFlag (flag : Flag)
deriving DecidableEq, Inhabited

/-- What is wrong, with the user's words in plain text. -/
def UsageError.message : UsageError → String
  | unexpectedArgument text => "unexpected argument '" ++ plain text ++ "' found"
  | missingValue argument =>
    "a value is required for '" ++ argument.label ++ "' but none was supplied"
  | invalidValue argument value =>
    "invalid value '" ++ plain value ++ "' for '" ++ argument.label ++ "'"
  | unexpectedValue flag value =>
    "unexpected value '" ++ plain value ++ "' for '" ++ flag.label ++
      "' found; no more were expected"
  | repeatedOption argument =>
    "the argument '" ++ argument.label ++ "' cannot be used multiple times"
  | repeatedFlag flag => "the argument '" ++ flag.label ++ "' cannot be used multiple times"

end Command

end ExprSyntax
