import ExprSyntax.Binary64.Numeral
import Mathlib

/-!
# Numerals without sign and exponent

Digits with an optional fraction always are a numeral, and its number is the one nearest to the
decimal that they write (`ofText?_whole`, `ofText?_fraction`).
-/

namespace ExprSyntax

namespace Decimal

variable {cs ds : List Char}

theorem read?_whole (hne : cs ≠ []) (h : ∀ c ∈ cs, c.isDigit) :
    read? cs = some (⟨Nat.ofDigitChars 10 cs 0, 0⟩, []) := by
  have ht : cs.takeWhile Char.isDigit = cs := List.takeWhile_eq_self_iff.mpr h
  have hd : cs.dropWhile Char.isDigit = [] := List.dropWhile_eq_nil_iff.mpr h
  simp [read?, ht, hd, hne]

theorem read?_fraction (hne : cs ≠ []) (h : ∀ c ∈ cs, c.isDigit) (h' : ∀ d ∈ ds, d.isDigit) :
    read? (cs ++ '.' :: ds) = some (⟨Nat.ofDigitChars 10 (cs ++ ds) 0, ds.length⟩, []) := by
  have ht : ds.takeWhile Char.isDigit = ds := List.takeWhile_eq_self_iff.mpr h'
  have hd : ds.dropWhile Char.isDigit = [] := List.dropWhile_eq_nil_iff.mpr h'
  simp [read?, List.takeWhile_append_of_pos h, List.dropWhile_append_of_pos h, ht, hd, hne]

/-- Where no exponent is written, the decimal stays as it is. -/
theorem readScaled?_of_read? {bound : Nat} {d : Decimal} (h : read? cs = some (d, [])) :
    readScaled? bound cs = some d := by
  have hz : max (-(bound : Int)) (min bound 0) = 0 := by omega
  have hd : d.scale 0 = d := by simp [scale]
  simp only [readScaled?, h, exponent?, Option.bind_eq_bind, Option.bind_some, hz, hd]
  rfl

end Decimal

namespace Binary64

variable {c : Char} {cs : List Char}

/-- Digits are not the words for numbers that no digits write. -/
theorem unsigned?_of_isDigit {negative : Bool} (hc : c.isDigit) :
    unsigned? negative (c :: cs) =
      (Decimal.readScaled? (400 + (c :: cs).length) (c :: cs)).map (ofDecimal negative) := by
  have hl : c.toLower = c := by
    rw [Char.toLower, dif_neg]
    rintro ⟨hu, -⟩
    simp [Char.isDigit, UInt32.le_iff_toNat_le] at hc hu
    omega
  have hw (w : String) (hd : w.toList.head?.any Char.isDigit = false) :
      String.ofList ((c :: cs).map Char.toLower) ≠ w := by
    rintro rfl
    simp [hl, hc] at hd
  rw [unsigned?, if_neg (not_or.mpr ⟨hw "inf" rfl, hw "infinity" rfl⟩), if_neg (hw "nan" rfl)]

theorem ofText?_of_isDigit (hc : c.isDigit) :
    ofText? (String.ofList (c :: cs)) = unsigned? false (c :: cs) := by
  have hm : c ≠ '-' := by rintro rfl; exact absurd hc (by decide)
  have hp : c ≠ '+' := by rintro rfl; exact absurd hc (by decide)
  simp [ofText?, hm, hp]

theorem ofText?_of_read? {d : Decimal} (hc : c.isDigit)
    (h : Decimal.read? (c :: cs) = some (d, [])) :
    ofText? (String.ofList (c :: cs)) = some (ofDecimal false d) := by
  rw [ofText?_of_isDigit hc, unsigned?_of_isDigit hc, Decimal.readScaled?_of_read? h,
    Option.map_some]

theorem ofText?_whole (h : ∀ d ∈ c :: cs, d.isDigit) :
    ofText? (String.ofList (c :: cs)) =
      some (ofDecimal false ⟨Nat.ofDigitChars 10 (c :: cs) 0, 0⟩) :=
  ofText?_of_read? (h c List.mem_cons_self) (Decimal.read?_whole (List.cons_ne_nil c cs) h)

theorem ofText?_fraction {ds : List Char} (h : ∀ d ∈ c :: cs, d.isDigit)
    (h' : ∀ d ∈ ds, d.isDigit) :
    ofText? (String.ofList (c :: cs ++ '.' :: ds)) =
      some (ofDecimal false ⟨Nat.ofDigitChars 10 (c :: cs ++ ds) 0, ds.length⟩) :=
  ofText?_of_read? (h c List.mem_cons_self)
    (Decimal.read?_fraction (List.cons_ne_nil c cs) h h')

end Binary64

end ExprSyntax
