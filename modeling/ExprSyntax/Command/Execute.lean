import ExprSyntax.Command.Arguments
import ExprSyntax.Command.Console
import ExprSyntax.Command.Folder
import ExprSyntax.Command.Help
import ExprSyntax.Command.Lines

/-!
# Running the command

The command as a function: `execute` takes the arguments, a way to read files, the input and whether
diagnostics go to a terminal, and gives what is written and the exit code. `runFile` answers one
file and `prompt` each line of the input; both answer a source on a console by `Console.answer`,
which looks at all that its log holds, so the prompt empties the log behind each line.

The loop of the prompt, `promptFrom`, runs in any monad over anything that has lines, and hands what
it has written to `flush` before it asks for the next line. Here nothing is flushed;
`ExprSyntax.Main` runs the same loop on the input of the process.

Two things are left out: trace lines, which the environment can ask for and which go to the standard
error, and writes that fail.
-/

namespace ExprSyntax

namespace Command

/-- The exit codes other than zero. -/
def usageCode : Nat := 64
def dataCode : Nat := 65
def readCode : Nat := 74
def failureCode : Nat := 1

/-! ## One source -/

/-- Scans, parses and prints one source. What is wrong with it is added to the log; if the log holds
anything in the end, all of it is written in place of the tree. -/
def Console.answer (o : Options) (color : Bool) (c : Console) (source : String) : Console :=
  let scanned := scan source
  let c := c.report scanned.diagnostics
  let c := if o.tokens then c.print (ofLines (scanned.tokens.map Token.text)) else c
  let result := parseTokens scanned.tokens
  let c := c.report (parseLog result)
  if !c.log.isEmpty then c.complain (Diagnostic.report color c.log)
  else
    match result with
    | .ok tree => c.print (ofLines (o.print.orders.map tree.render))
    | .error _ => c

/-! ## A file -/

def readFailure (path : String) (e : ReadError) : Output :=
  ⟨readCode, "", ofLines ["Error: could not read '" ++ path ++ "': " ++ e.message]⟩

/-- Runs the text of the file at `path`. -/
def runFile (o : Options) (color : Bool) (path : String)
    (contents : Except ReadError (List UInt8)) : Output :=
  match contents with
  | .error e => readFailure path e
  | .ok bytes =>
    match decode? bytes with
    | some source =>
      let c := Console.start.answer o color source
      c.exit (if c.log.isEmpty then 0 else dataCode)
    | none => readFailure path .notText

/-! ## Line by line -/

/-- The prompt in front of each line. -/
def promptMark : String := "> "

def inputFailure : String :=
  ofLines ["Error: failed to read from stdin: " ++ ReadError.notText.message]

/-- Answers a line that the prompt stands in front of and forgets what was wrong with it; `none`
when it is no text. -/
def Console.answerLine? (o : Options) (color : Bool) (c : Console) (line : List UInt8) :
    Option Console :=
  (decode? line).map fun source => (c.answer o color source).reset

section
variable {m : Type → Type} {ρ : Type} [Monad m] [ForIn m ρ (List UInt8)]
  (flush : Console → m Console) (o : Options) (color : Bool)

/-- Answers `lines`, the first of which the prompt stands in front of; one that is no text ends the
run. -/
def promptFrom (c : Console) (lines : ρ) : m Output := do
  let mut c := c
  for line in lines do
    match c.answerLine? o color line with
    | some answered => c ← flush (answered.print promptMark)
    | none => return (c.complain inputFailure).exit failureCode
  return c.exit 0

def promptOver (lines : ρ) : m Output := do
  promptFrom flush o color (← flush (Console.start.print promptMark)) lines

end

def prompt (o : Options) (color : Bool) (input : List UInt8) : Output :=
  Id.run <| promptOver pure o color (lines input)

/-! ## The command -/

def usageFailure (e : UsageError) : Output :=
  ⟨usageCode, "", ofLines ["error: " ++ e.message] ++ usage⟩

def execute (args : List String) (read : String → Except ReadError (List UInt8))
    (input : List UInt8) (terminal : Bool) : Output :=
  match request args with
  | .error e => usageFailure e
  | .ok (.help long) => ⟨0, if long then longHelp else shortHelp, ""⟩
  | .ok .version => ⟨0, version, ""⟩
  | .ok (.run o) =>
    let color := o.color.enabled terminal
    match o.script with
    | some path => runFile o color path (read path)
    | none => prompt o color input

end Command

end ExprSyntax
