import ExprSyntax.Token.Kind

/-!
# Segments of a source text

A source is cut, left to right, into segments: blanks, comments, lexemes, and the two kinds of text
that are no lexeme. `extent` looks at a character and what follows and says what kind of segment
begins there and how far it reaches; `segments` repeats that, counting lines. A segment is what
`List.take` cuts off and the rest what `List.drop` leaves, so no character is lost
(`text_segments`).
-/

namespace ExprSyntax

inductive SegmentClass where
  /-- One space, tab, carriage return or line feed. -/
  | blank
  /-- Two slashes and the rest of the line, without its line feed. -/
  | comment
  | lexeme (kind : TokenKind)
  /-- A quote that is not closed, and all that follows. -/
  | openString
  /-- A character that begins no other segment. -/
  | stray
deriving DecidableEq, Inhabited

/-- A piece of a source and the line on which it starts. -/
structure Segment where
  cls : SegmentClass
  text : List Char
  line : Nat
deriving DecidableEq, Inhabited

namespace Segment

/-- The line on which the segment ends. -/
def endLine (s : Segment) : Nat :=
  s.line + s.text.count '\n'

/-! ## Where a segment ends -/

def isWordStart (c : Char) : Bool :=
  c.isAlpha || c == '_'

def isWordPart (c : Char) : Bool :=
  c.isAlphanum || c == '_'

def isBlank (c : Char) : Bool :=
  c == ' ' || c == '\t' || c == '\r' || c == '\n'

/-- The symbols of one character that begin no longer one. -/
def symbol? : Char → Option TokenKind
  | '(' => some .leftParen
  | ')' => some .rightParen
  | '{' => some .leftBrace
  | '}' => some .rightBrace
  | ',' => some .comma
  | '.' => some .dot
  | '-' => some .minus
  | '+' => some .plus
  | ';' => some .semicolon
  | '*' => some .star
  | _ => none

/-- The symbols that an equals sign makes longer: alone, and with it. -/
def paired? : Char → Option (TokenKind × TokenKind)
  | '!' => some (.bang, .bangEqual)
  | '=' => some (.equal, .equalEqual)
  | '<' => some (.less, .lessEqual)
  | '>' => some (.greater, .greaterEqual)
  | _ => none

/-- The length of a fraction at the head of a text: a point counts only before a digit. -/
def fractionLength : List Char → Nat
  | '.' :: cs =>
    match (cs.takeWhile Char.isDigit).length with
    | 0 => 0
    | n + 1 => n + 2
  | _ => 0

/-- The class of the segment that begins with `c`, and how many of the characters `cs` after `c` it
takes. -/
def extent (c : Char) (cs : List Char) : SegmentClass × Nat :=
  if let some kind := symbol? c then (.lexeme kind, 0)
  else if let some (single, double) := paired? c then
    if cs.head? = some '=' then (.lexeme double, 1) else (.lexeme single, 0)
  else if c = '/' then
    if cs.head? = some '/' then (.comment, (cs.takeWhile (· ≠ '\n')).length)
    else (.lexeme .slash, 0)
  else if isBlank c then (.blank, 0)
  else if c = '"' then
    let inside := (cs.takeWhile (· ≠ '"')).length
    if (cs.drop inside).isEmpty then (.openString, inside) else (.lexeme .string, inside + 1)
  else if c.isDigit then
    let whole := (cs.takeWhile Char.isDigit).length
    (.lexeme .number, whole + fractionLength (cs.drop whole))
  else if isWordStart c then
    let word := cs.takeWhile isWordPart
    (.lexeme ((TokenKind.keyword? (String.ofList (c :: word))).getD .identifier), word.length)
  else (.stray, 0)

/-! ## Cutting -/

/-- The segment that begins with `c` on line `line`. -/
def first (line : Nat) (c : Char) (cs : List Char) : Segment :=
  ⟨(extent c cs).1, c :: cs.take (extent c cs).2, line⟩

/-- What follows the segment that begins with `c`. -/
def afterFirst (c : Char) (cs : List Char) : List Char :=
  cs.drop (extent c cs).2

theorem text_first_append (line : Nat) (c : Char) (cs : List Char) :
    (first line c cs).text ++ afterFirst c cs = c :: cs := by
  simp [first, afterFirst]

theorem length_afterFirst_le (c : Char) (cs : List Char) :
    (afterFirst c cs).length ≤ cs.length := by
  simp [afterFirst]

/-- The segments of a text that starts on line `line`, put behind those of `done`. -/
def segmentsOnto (done : Array Segment) (line : Nat) : List Char → Array Segment
  | [] => done
  | c :: cs =>
    let s := first line c cs
    segmentsOnto (done.push s) s.endLine (afterFirst c cs)
termination_by cs => cs.length
decreasing_by exact Nat.lt_succ_of_le (length_afterFirst_le c cs)

/-- The segments of a text that starts on line `line`. -/
def segments (line : Nat) (cs : List Char) : List Segment :=
  (segmentsOnto #[] line cs).toList

theorem toList_segmentsOnto (done : Array Segment) (line : Nat) (cs : List Char) :
    (segmentsOnto done line cs).toList = done.toList ++ segments line cs := by
  match cs with
  | [] => simp [segments, segmentsOnto]
  | c :: cs =>
    rw [segments, segmentsOnto, segmentsOnto, toList_segmentsOnto (done.push _),
      toList_segmentsOnto (#[].push _)]
    simp
termination_by cs.length
decreasing_by all_goals exact Nat.lt_succ_of_le (length_afterFirst_le c cs)

@[simp] theorem segments_nil (line : Nat) : segments line [] = [] := by
  simp [segments, segmentsOnto]

theorem segments_cons (line : Nat) (c : Char) (cs : List Char) :
    segments line (c :: cs) =
      first line c cs :: segments (first line c cs).endLine (afterFirst c cs) := by
  rw [segments, segmentsOnto, toList_segmentsOnto]
  simp

/-- The segments of a text put together are the text. -/
theorem text_segments (line : Nat) (cs : List Char) :
    (segments line cs).flatMap text = cs := by
  match cs with
  | [] => simp
  | c :: cs =>
    rw [segments_cons, List.flatMap_cons, text_segments, text_first_append]
termination_by cs.length
decreasing_by exact Nat.lt_succ_of_le (length_afterFirst_le c cs)

end Segment

end ExprSyntax
