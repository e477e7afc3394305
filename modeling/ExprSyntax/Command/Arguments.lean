import ExprSyntax.Command.Options

/-!
# Reading a command line

`request` reads arguments from left to right. A value that stands in an argument of its own is not
looked at when it is read but only when the next known option, flag or script comes, or at the end:
until then it is pending. An argument that cannot be read at all (an unknown flag, a flag with a
value, a second script) is an error at once, whatever is pending.
-/

namespace ExprSyntax

namespace Command

/-- An argument that has been read but not checked; `none` is a value that has yet to come. -/
structure Pending where
  argument : ValueArgument
  value? : Option String
deriving DecidableEq

/-- What has been read of a command line. -/
structure Reading where
  print? : Option PrintChoice
  tokens : Bool
  color? : Option ColorChoice
  script? : Option String
  pending? : Option Pending
deriving DecidableEq

namespace Reading

def start : Reading := ⟨none, false, none, none, none⟩

/-- The options that were read; what was not given has its default. -/
def options (r : Reading) : Options :=
  ⟨r.print?.getD .ast, r.tokens, r.color?.getD .auto, r.script?⟩

/-- Why a value is not one of an option's words. -/
def wrongValue (argument : ValueArgument) (value : String) : UsageError :=
  if value = "" then .missingValue argument else .invalidValue argument value

/-- Checks a value and keeps it. -/
def put (r : Reading) (argument : ValueArgument) (value : String) : Except UsageError Reading :=
  match argument with
  | .print =>
    if r.print?.isSome then .error (.repeatedOption .print)
    else match PrintChoice.ofWord? value with
      | some choice => .ok { r with print? := some choice }
      | none => .error (wrongValue .print value)
  | .color =>
    if r.color?.isSome then .error (.repeatedOption .color)
    else match ColorChoice.ofWord? value with
      | some choice => .ok { r with color? := some choice }
      | none => .error (wrongValue .color value)
  | .script =>
    if value = "" then .error (.missingValue .script) else .ok { r with script? := some value }

/-- Checks the pending argument, if there is one. -/
def settle (r : Reading) : Except UsageError Reading :=
  match r.pending? with
  | none => .ok r
  | some ⟨argument, none⟩ => .error (.missingValue argument)
  | some ⟨argument, some value⟩ => { r with pending? := none }.put argument value

/-- Takes an option; a value that is not attached to it has yet to come. -/
def takeOption (r : Reading) (argument : ValueArgument) (attached? : Option String) :
    Except UsageError Reading := do
  let r ← r.settle
  match attached? with
  | some value => r.put argument value
  | none => return { r with pending? := some ⟨argument, none⟩ }

def takeTokens (r : Reading) : Except UsageError Reading := do
  let r ← r.settle
  if r.tokens then throw (.repeatedFlag .tokens) else return { r with tokens := true }

def hasScript (r : Reading) : Bool :=
  r.script?.isSome || r.pending?.any (·.argument = .script)

/-- Takes the script. -/
def takeScript (r : Reading) (text : String) : Except UsageError Reading := do
  if r.hasScript then throw (.unexpectedArgument text)
  let r ← r.settle
  return { r with pending? := some ⟨.script, some text⟩ }

/-- Takes an argument that is no flag: the value that an option waits for, or the script. -/
def takePlain (r : Reading) (text : String) : Except UsageError Reading :=
  match r.pending? with
  | some ⟨argument, none⟩ => .ok { r with pending? := some ⟨argument, some text⟩ }
  | _ => r.takeScript text

end Reading

/-- An argument by its form. A long flag may have a value attached to it by an equals sign. -/
inductive Word where
  | endOfFlags
  | long (name : String) (attached? : Option String)
  | short (letter : Char)
  | plain (text : String)
deriving DecidableEq

/-- Of a cluster of short flags only the first counts: the known ones end the reading, the others
are errors. -/
def Word.ofArgument (arg : String) : Word :=
  match arg.toList with
  | ['-', '-'] => .endOfFlags
  | '-' :: '-' :: cs =>
    .long (String.ofList (cs.takeWhile (· ≠ '=')))
      (match cs.dropWhile (· ≠ '=') with
        | [] => none
        | _ :: value => some (String.ofList value))
  | '-' :: letter :: _ => .short letter
  | _ => .plain arg

/-- Reads on when no more flags can come. -/
def requestPlain (r : Reading) : List String → Except UsageError Request
  | [] => do return .run (← r.settle).options
  | arg :: args => do requestPlain (← r.takeScript arg) args

def requestFrom (r : Reading) : List String → Except UsageError Request
  | [] => do return .run (← r.settle).options
  | arg :: args =>
    match Word.ofArgument arg with
    | .endOfFlags => requestPlain r args
    | .plain text => do requestFrom (← r.takePlain text) args
    | .long "print" attached? => do requestFrom (← r.takeOption .print attached?) args
    | .long "color" attached? => do requestFrom (← r.takeOption .color attached?) args
    | .long "tokens" none => do requestFrom (← r.takeTokens) args
    | .long "tokens" (some value) => .error (.unexpectedValue .tokens value)
    | .long "help" none => do
      let _ ← r.settle
      return .help true
    | .long "help" (some value) => .error (.unexpectedValue .help value)
    | .long "version" none => do
      let _ ← r.settle
      return .version
    | .long "version" (some value) => .error (.unexpectedValue .version value)
    | .long name _ => .error (.unexpectedArgument ("--" ++ name))
    | .short 'h' => do
      let _ ← r.settle
      return .help false
    | .short 'V' => do
      let _ ← r.settle
      return .version
    | .short letter => .error (.unexpectedArgument (String.ofList ['-', letter]))

/-- What the arguments of a command line ask for. -/
def request (args : List String) : Except UsageError Request :=
  requestFrom .start args

end Command

end ExprSyntax
