import ExprSyntax.Source.Scan

/-!
# Scanning with a cursor

A `Cursor` goes through the characters of a source by their places. It keeps the place at which the
segment under way starts, looks at the character at its own place and at the one behind that, and
cuts out what stands between two places. Nothing here takes for granted that these are places of the
source: `slice?` gives nothing if they are not, and then neither does `scanToken?`, which scans one
segment. `Scans` calls it until the end of the source is reached.
-/

namespace ExprSyntax

structure Cursor where
  input : Array Char
  /-- Where the segment under way starts. -/
  start : Nat
  position : Nat
  line : Nat
  tokens : List Token
  diagnostics : List Diagnostic

namespace Cursor

def ofSource (source : String) : Cursor :=
  ⟨source.toList.toArray, 0, 0, 1, [], []⟩

/-! ## Looking -/

def atEnd (s : Cursor) : Bool :=
  s.input.size ≤ s.position

def peek? (s : Cursor) : Option Char :=
  s.input[s.position]?

/-- The character behind the one that the cursor stands at. -/
def peekNext? (s : Cursor) : Option Char :=
  s.input[s.position + 1]?

/-- The text from `i` to in front of `j`, if these are places of the source in this order. -/
def slice? (s : Cursor) (i j : Nat) : Option String :=
  if i ≤ j ∧ j ≤ s.input.size then some (String.ofList (s.input.extract i j).toList) else none

/-- The text of the segment under way. -/
def lexeme? (s : Cursor) : Option String :=
  s.slice? s.start s.position

/-! ## Going forward -/

/-- The number of characters ahead. -/
def remaining (s : Cursor) : Nat :=
  s.input.size - s.position

def move (s : Cursor) (n : Nat) : Cursor :=
  { s with position := s.position + n }

/-- Goes past one character, if there is one. -/
def advance (s : Cursor) : Cursor :=
  match s.peek? with
  | some _ => s.move 1
  | none => s

/-- Counts a line feed. -/
def countLine (s : Cursor) (c : Char) : Cursor :=
  if c = '\n' then { s with line := s.line + 1 } else s

/-- Goes past the character `c` if the cursor stands at it. -/
def accept? (s : Cursor) (c : Char) : Option Cursor :=
  if s.peek? = some c then some (s.move 1) else none

theorem remaining_advance_lt {s : Cursor} {c : Char} (h : s.peek? = some c) :
    s.advance.remaining < s.remaining := by
  obtain ⟨hlt, -⟩ := Array.getElem?_eq_some_iff.1 h
  simp only [advance, h, move, remaining]
  omega

@[simp] theorem peek?_countLine (s : Cursor) (c : Char) : (s.countLine c).peek? = s.peek? := by
  unfold countLine
  split <;> rfl

@[simp] theorem remaining_countLine (s : Cursor) (c : Char) :
    (s.countLine c).remaining = s.remaining := by
  unfold countLine
  split <;> rfl

/-- Goes past the characters with a property. -/
def skipWhile (p : Char → Bool) (s : Cursor) : Cursor :=
  match _h : s.peek? with
  | some c => if p c then s.advance.skipWhile p else s
  | none => s
termination_by s.remaining
decreasing_by exact remaining_advance_lt ‹_›

/-- Goes to the next quote, or to the end of the source, and counts the lines on the way. -/
def skipInside (s : Cursor) : Cursor :=
  match _h : s.peek? with
  | some c =>
    if c = '"' then s
    else (s.countLine c).advance.skipInside
  | none => s
termination_by s.remaining
decreasing_by
  rw [← remaining_countLine s c]
  exact remaining_advance_lt ((peek?_countLine s c).trans ‹_›)

/-- Goes past a point and the digits behind it; a point without a digit stays. -/
def skipFraction (s : Cursor) : Cursor :=
  if s.peek? = some '.' ∧ s.peekNext?.any Char.isDigit then s.advance.skipWhile Char.isDigit else s

/-! ## One segment -/

def report (s : Cursor) (d : Diagnostic) : Cursor :=
  { s with diagnostics := s.diagnostics ++ [d] }

/-- Makes the segment under way a token. -/
def addToken? (s : Cursor) (kind : TokenKind) (literal : Option Literal) : Option Cursor :=
  s.lexeme?.map fun lexeme => { s with tokens := s.tokens ++ [⟨kind, lexeme, literal, s.line⟩] }

/-- A symbol that an equals sign makes longer. -/
def addPaired? (s : Cursor) (single double : TokenKind) : Option Cursor :=
  match s.accept? '=' with
  | some s => s.addToken? double none
  | none => s.addToken? single none

/-- A slash, or a comment up to the end of its line. -/
def slash? (s : Cursor) : Option Cursor :=
  match s.accept? '/' with
  | some s => some (s.skipWhile (· ≠ '\n'))
  | none => s.addToken? .slash none

/-- What a quote opens: a string up to the next quote, if there is one. -/
def string? (s : Cursor) : Option Cursor :=
  let inside := s.skipInside
  if inside.atEnd then some (inside.report (.lexical s.line "Unterminated string."))
  else
    let closed := inside.advance
    (closed.slice? (closed.start + 1) (closed.position - 1)).bind fun text =>
      closed.addToken? .string (some (.string text))

/-- A number; what cannot be read as one would be no number. -/
def number? (s : Cursor) : Option Cursor :=
  let s := (s.skipWhile Char.isDigit).skipFraction
  s.lexeme?.bind fun lexeme =>
    s.addToken? .number (some (.number ((Binary64.ofText? lexeme).getD .nan)))

/-- A keyword or an identifier. -/
def word? (s : Cursor) : Option Cursor :=
  let s := s.skipWhile Segment.isWordPart
  s.lexeme?.bind fun text => s.addToken? ((TokenKind.keyword? text).getD .identifier) none

/-- Scans the segment that starts at the cursor; nothing if it had to look outside of the source. -/
def scanToken? (s : Cursor) : Option Cursor :=
  match s.peek? with
  | none => some s
  | some c =>
    let s := s.advance
    if let some kind := Segment.symbol? c then s.addToken? kind none
    else if let some (single, double) := Segment.paired? c then s.addPaired? single double
    else if c = '/' then s.slash?
    else if Segment.isBlank c then some (s.countLine c)
    else if c = '"' then s.string?
    else if c.isDigit then s.number?
    else if Segment.isWordStart c then s.word?
    else some (s.report (.lexical s.line "Unexpected character."))

/-! ## The whole source -/

/-- The next segment starts at the cursor. -/
def mark (s : Cursor) : Cursor :=
  { s with start := s.position }

/-- A call of `scanToken?` that gave something. -/
structure Call where
  before : Cursor
  after : Cursor

/-- Calls of `scanToken?`, one behind the other, up to the end of the source. A call that gives
nothing ends no run, and neither do calls without end. -/
inductive Scans : Cursor → List Call → Cursor → Prop
  | done {s : Cursor} : s.atEnd → Scans s [] s
  | call {s after last : Cursor} {calls : List Call} : ¬ s.atEnd →
      s.mark.scanToken? = some after → Scans after calls last →
      Scans s (⟨s.mark, after⟩ :: calls) last

/-- What has been scanned, with the end marker behind the tokens. -/
def finish (s : Cursor) : Scan :=
  ⟨s.tokens ++ [Token.eof s.line], s.diagnostics⟩

end Cursor

end ExprSyntax
