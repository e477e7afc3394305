/-!
# Decimal fractions

A `Decimal` is a fraction whose denominator is a power of ten. `Decimal.text` writes it in
positional notation; `Decimal.read?` reads digits with an optional point from the head of a text,
and `Decimal.readScaled?` a whole text that may end in an exponent.
-/

namespace ExprSyntax

/-- The powers of ten. -/
def tenTo (n : Nat) : Nat :=
  Nat.pow 10 n

theorem tenTo_pos (n : Nat) : 0 < tenTo n :=
  Nat.pow_pos (by decide)

/-- The number `digits / tenTo places`. -/
structure Decimal where
  digits : Nat
  places : Nat
deriving DecidableEq, Inhabited

namespace Decimal

/-! ## Writing -/

/-- Positional notation: as many digits after the point as there are places, no point without. -/
def chars (d : Decimal) : List Char :=
  if d.places = 0 then Nat.toDigits 10 d.digits
  else
    Nat.toDigits 10 (d.digits / tenTo d.places) ++
      '.' :: (Nat.toDigits 10 (d.digits % tenTo d.places)).leftpad d.places '0'

def text (d : Decimal) : String :=
  String.ofList d.chars

/-- `d · 10 ^ exponent`. -/
def scale (d : Decimal) (exponent : Int) : Decimal :=
  let up := exponent.toNat
  if up ≤ d.places then ⟨d.digits, d.places - up + (-exponent).toNat⟩
  else ⟨d.digits * tenTo (up - d.places), 0⟩

/-- `k · 10 ^ drop` in units of the last of `places` places. -/
def onGrid (places drop k : Nat) : Decimal :=
  if drop ≤ places then ⟨k, places - drop⟩ else ⟨k * tenTo (drop - places), 0⟩

/-! ## Reading -/

/-- The digits at the head of `cs`, with a point and further digits where there is one, and what
follows them. At least one digit has to stand on one side of the point. -/
def read? (cs : List Char) : Option (Decimal × List Char) :=
  let whole := cs.takeWhile Char.isDigit
  let (fraction, rest) :=
    match cs.dropWhile Char.isDigit with
    | '.' :: cs => (cs.takeWhile Char.isDigit, cs.dropWhile Char.isDigit)
    | cs => ([], cs)
  if whole ++ fraction = [] then none
  else some (⟨Nat.ofDigitChars 10 (whole ++ fraction) 0, fraction.length⟩, rest)

/-- One or more digits and nothing else. -/
def natural? (cs : List Char) : Option Nat :=
  if cs ≠ [] ∧ cs.all Char.isDigit then some (Nat.ofDigitChars 10 cs 0) else none

/-- An exponent that fills `cs`: `e` or `E`, an optional sign and digits; nothing stands for
zero. -/
def exponent? : List Char → Option Int
  | [] => some 0
  | e :: cs =>
    if e = 'e' ∨ e = 'E' then
      match cs with
      | '-' :: cs => (natural? cs).map fun n => -(n : Int)
      | '+' :: cs => (natural? cs).map fun n => (n : Int)
      | cs => (natural? cs).map fun n => (n : Int)
    else none

/-- The number that fills `cs`: a decimal and its exponent, the latter brought into
`-bound .. bound`. -/
def readScaled? (bound : Nat) (cs : List Char) : Option Decimal := do
  let (d, rest) ← read? cs
  let exponent ← exponent? rest
  return d.scale (max (-(bound : Int)) (min bound exponent))

end Decimal

end ExprSyntax
