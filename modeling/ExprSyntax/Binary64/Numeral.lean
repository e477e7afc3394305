import ExprSyntax.Binary64.Basic
import ExprSyntax.Decimal

/-!
# Reading binary64 numbers

`Binary64.ofText?` reads a numeral and rounds it to the nearest number, ties to even. A numeral is
an optional sign and one of

* digits with an optional point among them or at either end, and an optional exponent;
* `inf`, `infinity` or `nan` in any case of their letters.
-/

namespace ExprSyntax

namespace Binary64

/-- The magnitude nearest to a decimal; `none` past the largest one. -/
def Magnitude.ofDecimal? (d : Decimal) : Option Magnitude :=
  nearest? d.digits (tenTo d.places)

theorem Magnitude.ofDecimal?_eq_some {d : Decimal} {m : Magnitude}
    (h : d.digits <<< unitBits = m.units * tenTo d.places) : ofDecimal? d = some m :=
  nearest?_units (tenTo_pos _) m h

def ofDecimal (negative : Bool) (d : Decimal) : Binary64 :=
  ofMagnitude? negative (Magnitude.ofDecimal? d)

/-- What follows the sign of a numeral. The exponent is read up to a bound only: the digits of `cs`
lie between the powers `-cs.length` and `cs.length` of ten when they are not all zero, so exponents
further than `400` past that give zero or no magnitude whatever they are, and no huge power is
formed. -/
def unsigned? (negative : Bool) (cs : List Char) : Option Binary64 :=
  let word := String.ofList (cs.map Char.toLower)
  if word = "inf" ∨ word = "infinity" then some (.infinite negative)
  else if word = "nan" then some .nan
  else (Decimal.readScaled? (400 + cs.length) cs).map (ofDecimal negative)

/-- The number written in `text`, if a numeral fills it. -/
def ofText? (text : String) : Option Binary64 :=
  match text.toList with
  | '-' :: cs => unsigned? true cs
  | '+' :: cs => unsigned? false cs
  | cs => unsigned? false cs

end Binary64

end ExprSyntax
