import ExprSyntax.Command.Execute

/-!
# The command line

Reads the files and the input that `ExprSyntax.Command` works on, and writes what it answers: behind
each line of the input what has been written so far.
-/

namespace ExprSyntax

namespace Command

/-- The failure of a read. A folder opens but cannot be read, so its code is that of the read call;
codes of failed opens come negated. -/
def ReadError.ofIO (e : IO.Error) : ReadError :=
  match e with
  | .noFileOrDirectory .. => .notFound
  | .inappropriateType _ code _ => if code = 21 then .isDirectory else .notDirectory
  | .invalidArgument _ code details =>
    if code = -36 then .nameTooLong else .system details
  | e => .system (toString e)

def readBytes (path : String) : IO (Except ReadError (List UInt8)) := do
  try
    return .ok (← IO.FS.readBinFile path).toList
  catch e =>
    return .error (.ofIO e)

def Output.write (o : Output) : IO UInt32 := do
  IO.print o.stdout
  IO.eprint o.stderr
  return o.code.toUInt32

/-- The bytes up to the next line feed, put behind those of `done`. -/
partial def readLine (input : IO.FS.Stream) (done : ByteArray) : IO ByteArray := do
  let next ← input.read 1
  if next.isEmpty then return done
  let done := done ++ next
  if next[0]? = some lineFeed then return done else readLine input done

/-- An input that is read line by line. -/
structure InputLines where
  stream : IO.FS.Stream

partial def InputLines.forIn {β : Type} (input : InputLines) (b : β)
    (f : List UInt8 → β → IO (ForInStep β)) : IO β := do
  match lines (← readLine input.stream .empty).toList with
  | [] => return b
  | line :: _ =>
    match ← f line b with
    | .done b => return b
    | .yield b => input.forIn b f

instance : ForIn IO InputLines (List UInt8) := ⟨InputLines.forIn⟩

/-- Writes what has been written to the console. -/
def Console.putOut (c : Console) : IO Console := do
  IO.print c.stdout
  IO.eprint c.stderr
  (← IO.getStdout).flush
  return c.drained

/-- Runs the command with the files and the input of the process. -/
def executeIO (args : List String) : IO UInt32 := do
  match request args with
  | .ok (.run o) =>
    let color := o.color.enabled (← (← IO.getStderr).isTty)
    match o.script with
    | some path => (runFile o color path (← readBytes path)).write
    | none =>
      let input : InputLines := ⟨← IO.getStdin⟩
      (← promptOver Console.putOut o color input).write
  | _ => (execute args (fun _ => .error .notFound) [] false).write

end Command

end ExprSyntax

def main (args : List String) : IO UInt32 :=
  ExprSyntax.Command.executeIO args
