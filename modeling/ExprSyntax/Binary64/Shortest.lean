import ExprSyntax.Binary64.Numeral

/-!
# Writing binary64 numbers

`Binary64.text` writes a number with the fewest digits that read back as it, in positional notation
whatever its size. Of the decimals with that many digits the nearest to the number is written, the
upper one of two equally near.

The search for them starts from the exact decimal of a magnitude (`Magnitude.decimal`) and tries its
two neighbours among the multiples of each power of ten, the greatest power first; every magnitude
is a decimal, so the search ends at the latest with that one (`Magnitude.ofDecimal?_shortest`).
-/

namespace ExprSyntax

namespace Binary64

namespace Magnitude

/-- The exact value. Half a power of ten is a whole number, so below one the digits are those of
`significand · tenTo n` halved `n` times. -/
def decimal (m : Magnitude) : Decimal :=
  if unitBits ≤ m.scale then ⟨m.significand <<< (m.scale - unitBits), 0⟩
  else
    let places := unitBits - m.scale
    ⟨(m.significand * tenTo places) >>> places, places⟩

theorem shiftLeft_shiftRight_mul_tenTo (k n : Nat) : ((k * tenTo n) >>> n) <<< n = k * tenTo n := by
  rw [Nat.shiftRight_eq_div_pow, Nat.shiftLeft_eq]
  refine Nat.div_mul_cancel (Nat.dvd_mul_left_of_dvd ?_ k)
  exact ⟨_, Nat.mul_pow 2 5 n⟩

theorem ofDecimal?_decimal (m : Magnitude) : ofDecimal? m.decimal = some m := by
  apply ofDecimal?_eq_some
  unfold decimal
  split
  · rename_i h
    dsimp only
    rw [← Nat.shiftLeft_add, Nat.sub_add_cancel h, units, tenTo]
    exact (Nat.mul_one _).symm
  · rename_i h
    have hbits : unitBits = (unitBits - m.scale) + m.scale := by omega
    dsimp only
    generalize unitBits - m.scale = n at hbits ⊢
    rw [hbits, Nat.shiftLeft_add, shiftLeft_shiftRight_mul_tenTo, units, Nat.shiftLeft_eq,
      Nat.shiftLeft_eq, Nat.mul_right_comm]

/-- Of the two multiples of `tenTo drop` around `d`, the one that reads back as `m`; of two the
nearer, of two equally near the upper. -/
def neighbour? (m : Magnitude) (d : Decimal) (drop : Nat) : Option Decimal :=
  let k := d.digits / tenTo drop
  let below := Decimal.onGrid d.places drop k
  let above := Decimal.onGrid d.places drop (k + 1)
  if ofDecimal? above = some m then
    if ofDecimal? below = some m ∧ 2 * (d.digits % tenTo drop) < tenTo drop then some below
    else some above
  else if ofDecimal? below = some m then some below
  else none

theorem ofDecimal?_neighbour? {m : Magnitude} {d e : Decimal} {drop : Nat}
    (h : neighbour? m d drop = some e) : ofDecimal? e = some m := by
  unfold neighbour? at h
  dsimp only at h
  split at h
  · split at h
    · cases h
      rename_i hb
      exact hb.1
    · cases h
      assumption
  · split at h
    · cases h
      assumption
    · cases h

/-- The powers of ten up to past `digits`, the greatest first. A third of the binary logarithm
reaches further than the decimal one. -/
def drops (digits : Nat) : List Nat :=
  (List.range (digits.log2 / 3 + 2)).reverse

/-- The shortest decimal that reads back as `m`. -/
def shortest (m : Magnitude) : Decimal :=
  if m.significand = 0 then ⟨0, 0⟩
  else ((drops m.decimal.digits).findSome? (neighbour? m m.decimal)).getD m.decimal

theorem ofDecimal?_shortest (m : Magnitude) : ofDecimal? m.shortest = some m := by
  unfold shortest
  split
  · rename_i h
    apply ofDecimal?_eq_some
    simp [units, h]
  · cases h : (drops m.decimal.digits).findSome? (neighbour? m m.decimal) with
    | none => exact m.ofDecimal?_decimal
    | some e =>
      obtain ⟨drop, -, hdrop⟩ := List.exists_of_findSome?_eq_some h
      exact ofDecimal?_neighbour? hdrop

end Magnitude

def signText (negative : Bool) : String :=
  if negative then "-" else ""

/-- The text of a number; that of a finite one reads back as it. -/
def text : Binary64 → String
  | nan => "NaN"
  | infinite negative => signText negative ++ "inf"
  | finite negative m => signText negative ++ m.shortest.text

end Binary64

end ExprSyntax
