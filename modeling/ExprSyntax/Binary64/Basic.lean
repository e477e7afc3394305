/-!
# Binary64 numbers

The value of a number literal is a binary64 number, kept exactly: a sign and a `Magnitude`, which is
a whole number of units of `2 ^ -unitBits`. `Magnitude.nearest?` rounds a fraction of naturals to
the nearest magnitude, ties to the even significand; `Magnitude.nearest?_units` says that a fraction
which is a magnitude is not changed by it.

`==` on `Binary64` is the comparison of the number format (a NaN differs from itself, the two zeros
are equal) and `=` is identity.
-/

namespace ExprSyntax

/-- `num / den` to the nearest integer, a half going to the even neighbour. -/
def roundDiv (num den : Nat) : Nat :=
  let quotient := num / den
  let twice := 2 * (num % den)
  if twice < den ∨ twice = den ∧ quotient % 2 = 0 then quotient else quotient + 1

theorem div_le_roundDiv (num den : Nat) : num / den ≤ roundDiv num den := by
  unfold roundDiv
  dsimp only
  split <;> omega

/-- A multiple of the divisor is divided exactly. -/
theorem roundDiv_mul_self {den : Nat} (h : 0 < den) (n : Nat) : roundDiv (n * den) den = n := by
  simp [roundDiv, Nat.mul_div_cancel n h, h]

namespace Binary64

/-- The number of times that one is halved to reach a unit, the smallest size above zero. -/
@[irreducible] def unitBits : Nat := 1074

/-- The least significand of 53 bits. -/
def leastFull : Nat := 1 <<< 52

/-- The size of a finite number: `significand <<< scale` units. Only the smallest scale has
significands of less than 53 bits, so a size is written in one way only. -/
structure Magnitude where
  significand : Nat
  scale : Nat
  significand_lt : significand < 2 * leastFull
  scale_le : scale ≤ 2045
  full_of_scale : scale = 0 ∨ leastFull ≤ significand
deriving DecidableEq

namespace Magnitude

def zero : Magnitude := ⟨0, 0, by decide, by decide, .inl rfl⟩

instance : Inhabited Magnitude := ⟨zero⟩

/-- The size in units. -/
def units (m : Magnitude) : Nat :=
  m.significand <<< m.scale

/-- The scale that leaves `units` a significand of 53 bits, as far as scales go down. -/
def scaleFor (units : Nat) : Nat :=
  units.log2 - 52

theorem leastFull_shiftLeft (n : Nat) : leastFull <<< n = 1 <<< (52 + n) := by
  rw [leastFull, ← Nat.shiftLeft_add]

theorem full_or_scaleFor_eq_zero (units den : Nat) :
    scaleFor (units / den) = 0 ∨
      leastFull ≤ roundDiv units (den <<< scaleFor (units / den)) := by
  by_cases h : (units / den).log2 ≤ 52
  · exact .inl (Nat.sub_eq_zero_of_le h)
  · refine .inr (Nat.le_trans ?_ (div_le_roundDiv _ _))
    have hq : units / den ≠ 0 := by
      intro h0
      simp [h0] at h
    rw [Nat.shiftLeft_eq, ← Nat.div_div_eq_div_mul, Nat.le_div_iff_mul_le (Nat.two_pow_pos _),
      ← Nat.shiftLeft_eq, leastFull_shiftLeft, scaleFor, Nat.add_sub_cancel' (by omega),
      Nat.one_shiftLeft]
    exact Nat.log2_self_le hq

/-- The magnitude nearest to `num / den`, ties to the even significand; `none` when it would lie
past the largest one. -/
def nearest? (num den : Nat) : Option Magnitude :=
  let units := num <<< unitBits
  let scale := scaleFor (units / den)
  let significand := roundDiv units (den <<< scale)
  if hs : significand < 2 * leastFull then
    if hk : scale ≤ 2045 then
      some ⟨significand, scale, hs, hk, full_or_scaleFor_eq_zero units den⟩
    else none
  else if hk : scale + 1 ≤ 2045 then
    some ⟨leastFull, scale + 1, by decide, hk, .inr (Nat.le_refl _)⟩
  else none

theorem scaleFor_units (m : Magnitude) : scaleFor m.units = m.scale := by
  have hlt : m.units < 1 <<< (53 + m.scale) := by
    rw [Nat.shiftLeft_add, units, Nat.shiftLeft_eq, Nat.shiftLeft_eq (1 <<< 53)]
    exact Nat.mul_lt_mul_of_pos_right m.significand_lt (Nat.two_pow_pos _)
  by_cases h0 : m.units = 0
  · have hs : m.significand = 0 := by
      rw [units, Nat.shiftLeft_eq, Nat.mul_eq_zero] at h0
      exact h0.resolve_right (Nat.ne_of_gt (Nat.two_pow_pos _))
    have hk : m.scale = 0 := m.full_of_scale.resolve_right fun h => by
      rw [hs] at h
      exact absurd h (by decide)
    simp [scaleFor, h0, hk]
  · have hup : m.units.log2 < 53 + m.scale := by
      rwa [Nat.log2_lt h0, ← Nat.one_shiftLeft]
    rcases m.full_of_scale with hk | hs
    · rw [scaleFor, hk]
      omega
    · have hlow : 52 + m.scale ≤ m.units.log2 := by
        rw [Nat.le_log2 h0, ← Nat.one_shiftLeft, ← leastFull_shiftLeft, units, Nat.shiftLeft_eq,
          Nat.shiftLeft_eq]
        exact Nat.mul_le_mul_right _ hs
      rw [scaleFor]
      omega

/-- A fraction that is a magnitude rounds to that magnitude. -/
theorem nearest?_units {num den : Nat} (hden : 0 < den) (m : Magnitude)
    (h : num <<< unitBits = m.units * den) : nearest? num den = some m := by
  have hscale : scaleFor (m.units * den / den) = m.scale := by
    rw [Nat.mul_div_cancel _ hden, scaleFor_units]
  have hsig : roundDiv (m.units * den) (den <<< m.scale) = m.significand := by
    rw [units, Nat.shiftLeft_eq, Nat.shiftLeft_eq, Nat.mul_assoc, Nat.mul_comm _ den]
    exact roundDiv_mul_self (Nat.mul_pos hden (Nat.two_pow_pos _)) _
  unfold nearest?
  simp only [h, hscale, hsig, m.significand_lt, m.scale_le, dite_true]

/-! ### Small sizes -/

def half : Magnitude := ⟨1 <<< 52, 1021, by decide, by decide, .inr (by decide)⟩

def one : Magnitude := ⟨1 <<< 52, 1022, by decide, by decide, .inr (by decide)⟩

def threeHalves : Magnitude := ⟨3 <<< 51, 1022, by decide, by decide, .inr (by decide)⟩

def two : Magnitude := ⟨1 <<< 52, 1023, by decide, by decide, .inr (by decide)⟩

def three : Magnitude := ⟨3 <<< 51, 1023, by decide, by decide, .inr (by decide)⟩

end Magnitude

end Binary64

open Binary64 in
/-- A binary64 number. NaN has no sign and no payload: no operation here can tell two apart. -/
inductive Binary64 where
  | nan
  | infinite (negative : Bool)
  | finite (negative : Bool) (magnitude : Magnitude)
deriving DecidableEq

namespace Binary64

instance : Inhabited Binary64 := ⟨.nan⟩

/-- Equality of numbers: a NaN equals nothing and the sign of a zero does not count. -/
instance : BEq Binary64 where
  beq
    | infinite s, infinite t => s == t
    | finite s m, finite t n => m = n && (s == t || m.significand == 0)
    | _, _ => false

@[simp] theorem nan_beq (x : Binary64) : (nan == x) = false := by
  cases x <;> rfl

/-- A number with its sign, infinite where there is no magnitude. -/
def ofMagnitude? (negative : Bool) : Option Magnitude → Binary64
  | some m => finite negative m
  | none => infinite negative

end Binary64

end ExprSyntax
