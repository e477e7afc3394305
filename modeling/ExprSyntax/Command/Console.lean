import ExprSyntax.Source.Run

/-!
# The console of a running command

What the command has written to its two outputs so far, and the log of what was reported since it
was last emptied. Text is only ever added behind what has been written.
-/

namespace ExprSyntax

namespace Command

@[ext] structure Output where
  code : Nat
  stdout : String
  stderr : String
deriving DecidableEq, Inhabited

structure Console where
  log : Log
  stdout : String
  stderr : String
deriving DecidableEq, Inhabited

namespace Console

def start : Console := ⟨[], "", ""⟩

def print (c : Console) (text : String) : Console :=
  { c with stdout := c.stdout ++ text }

def complain (c : Console) (text : String) : Console :=
  { c with stderr := c.stderr ++ text }

def report (c : Console) (ds : List Diagnostic) : Console :=
  { c with log := c.log ++ ds }

/-- Forgets what was reported; what has been written stays. -/
def reset (c : Console) : Console :=
  { c with log := [] }

/-- The console behind all that has been written, when that is out. -/
def drained (c : Console) : Console :=
  { c with stdout := "", stderr := "" }

def exit (c : Console) (code : Nat) : Output :=
  ⟨code, c.stdout, c.stderr⟩

end Console

end Command

end ExprSyntax
