/-!
# Plain text

Messages repeat what the user wrote without the parts that would control a terminal. `plain` leaves
out control characters, other than those that only move on in the text, and the sequences that an
escape character opens:

* an escape, any of the characters from space to slash, and a final character;
* a control sequence: an escape, a left bracket, characters below the at sign, and a final
  character;
* a title: an escape, a right bracket, and all up to a bell;
* a string: an escape, one of `P X ^ _`, and all up to a string terminator, which is a byte of its
  own. After `P` the terminator counts only behind the parameters of the string.

A sequence also ends where the next escape opens one, and at the two cancelling characters. It
swallows characters beyond ASCII, which are part of none; the string terminator is looked for among
the bytes of their encoding.
-/

namespace ExprSyntax

namespace Command

/-- Where a text stands with respect to sequences. -/
inductive PlainMode where
  | text
  | escape
  /-- In an escape that has taken characters before its final one. -/
  | intermediate
  | control
  | title
  /-- Behind an escape and `P`. -/
  | device
  | deviceParameters
  | deviceIntermediate
  /-- In a string that a string terminator ends. -/
  | string
deriving DecidableEq, Inhabited

namespace PlainMode

/-- The control characters that stay: tab, line feed, form feed and carriage return. -/
def isKept (c : Char) : Bool :=
  c == '\t' || c == '\n' || c == '\x0c' || c == '\r'

def stringTerminator : UInt8 := 0x9c

/-- The mode after an escape character and `c`. -/
def afterEscape (c : Char) : PlainMode :=
  if c < '0' then .intermediate
  else match c with
    | '[' => .control
    | ']' => .title
    | 'P' => .device
    | 'X' | '^' | '_' => .string
    | _ => .text

/-- The mode after a printable ASCII character; `none` where the character is text. -/
def afterPrintable (c : Char) : PlainMode → Option PlainMode
  | text => none
  | escape => some (afterEscape c)
  | intermediate => some (if c < '0' then intermediate else text)
  | control => some (if c < '@' then control else text)
  | title => some title
  | device =>
    some (if c < '0' then deviceIntermediate else if c < '@' then deviceParameters else string)
  | deviceParameters =>
    some (if c < '0' then deviceIntermediate else if c < '<' then deviceParameters else string)
  | deviceIntermediate => some (if c < '0' then deviceIntermediate else string)
  | string => some string

/-- Whether control characters are a part of the sequence. Elsewhere they keep their meaning. -/
def takesControls : PlainMode → Bool
  | text | escape | intermediate | control => false
  | title | device | deviceParameters | deviceIntermediate | string => true

/-- Takes one character; the second part is what is kept of it. -/
def next (mode : PlainMode) (c : Char) : PlainMode × Option Char :=
  if c = '\x18' ∨ c = '\x1a' then (text, none)
  else if c = '\x1b' then (escape, none)
  else if '\x7f' < c then
    if mode = text then (text, some c)
    else if mode = string ∧ stringTerminator ∈ String.utf8EncodeChar c then (text, none)
    else (mode, none)
  else if c < ' ' ∨ c = '\x7f' then
    if mode = title ∧ c = '\x07' then (text, none)
    else if isKept c ∧ mode.takesControls = false then (text, some c)
    else (mode, none)
  else
    match mode.afterPrintable c with
    | some mode => (mode, none)
    | none => (text, some c)

end PlainMode

/-- Adds what is kept of a character to what has been kept. -/
def keepPlain (kept : PlainMode × Array Char) (c : Char) : PlainMode × Array Char :=
  match kept.1.next c with
  | (mode, some c) => (mode, kept.2.push c)
  | (mode, none) => (mode, kept.2)

/-- The text without what would control a terminal. -/
def plain (text : String) : String :=
  String.ofList (text.toList.foldl keepPlain (.text, #[])).2.toList

end Command

end ExprSyntax
