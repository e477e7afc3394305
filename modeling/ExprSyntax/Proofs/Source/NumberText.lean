import ExprSyntax.Binary64.Shortest
import ExprSyntax.Proofs.Source.Extent

/-!
# The text of a number

A decimal is written as digits, with a point and as many digits behind it as it has places
(`Decimal.exists_digits`), so it is a number of the notation and reads back as itself. A finite
number is the nearest to the decimal that it is written as, so its text reads back as the number
(`Binary64.ofText?_text`, and with its sign and the infinite ones
`Binary64.ofText?_text_of_ne_nan`).
-/

namespace ExprSyntax

namespace Decimal

theorem isDigit_of_mem_toDigits {n : Nat} : ∀ c ∈ Nat.toDigits 10 n, c.isDigit :=
  fun _ hc => Nat.isDigit_of_mem_toDigits (by decide) (by decide) hc

/-- The digits of a number that is less than a power of ten, filled up with zeros to the length of
the power. -/
theorem leftpad_toDigits {r n : Nat} (hn : n ≠ 0) (hr : r < tenTo n) :
    let ds := (Nat.toDigits 10 r).leftpad n '0'
    (∀ d ∈ ds, d.isDigit) ∧ ds.length = n ∧ Nat.ofDigitChars 10 ds 0 = r := by
  have hlen : (Nat.toDigits 10 r).length ≤ n :=
    (Nat.length_toDigits_le_iff (by decide) (Nat.pos_of_ne_zero hn)).2 hr
  refine ⟨fun d hd => ?_, ?_, ?_⟩
  · rw [List.leftpad, List.mem_append] at hd
    rcases hd with hd | hd
    · rw [List.eq_of_mem_replicate hd]
      decide
    · exact isDigit_of_mem_toDigits d hd
  · rw [List.length_leftpad, Nat.max_eq_left hlen]
  · rw [List.leftpad, Nat.ofDigitChars_append, Nat.ofDigitChars_replicate_zero, Nat.mul_zero,
      Nat.ofDigitChars_ten_toDigits]

/-- The digits that a decimal is written with, in front of the point and behind it. -/
theorem exists_digits (d : Decimal) : ∃ c cs ds, (∀ e ∈ c :: cs, e.isDigit) ∧
    (∀ e ∈ ds, e.isDigit) ∧ ds.length = d.places ∧
    Nat.ofDigitChars 10 (c :: cs ++ ds) 0 = d.digits ∧
    d.chars = if d.places = 0 then c :: cs else c :: cs ++ '.' :: ds := by
  obtain ⟨c, cs, hc⟩ := List.exists_cons_of_ne_nil
    (Nat.toDigits_ne_nil (n := d.digits / tenTo d.places) (b := 10))
  have hcs : ∀ e ∈ c :: cs, e.isDigit := hc ▸ isDigit_of_mem_toDigits
  have hval : Nat.ofDigitChars 10 (c :: cs) 0 = d.digits / tenTo d.places := by
    rw [← hc, Nat.ofDigitChars_ten_toDigits]
  by_cases hp : d.places = 0
  · have hone : d.digits / tenTo d.places = d.digits := by rw [hp]; exact Nat.div_one _
    refine ⟨c, cs, [], hcs, List.forall_mem_nil _, hp.symm, ?_, ?_⟩
    · rw [List.append_nil, hval, hone]
    · rw [chars, if_pos hp, if_pos hp, ← hc, hone]
  · obtain ⟨hds, hlen, hfraction⟩ :=
      leftpad_toDigits hp (Nat.mod_lt d.digits (tenTo_pos d.places))
    refine ⟨c, cs, _, hcs, hds, hlen, ?_, ?_⟩
    · rw [Nat.ofDigitChars_append, hval, Nat.ofDigitChars_eq_ofDigitChars_zero, hlen, hfraction]
      exact Nat.div_add_mod d.digits (tenTo d.places)
    · rw [chars, if_neg hp, if_neg hp, hc]

/-- What is written of a decimal reads back as it. -/
theorem read?_chars (d : Decimal) : read? d.chars = some (d, []) := by
  obtain ⟨c, cs, ds, hcs, hds, hlen, hval, hchars⟩ := d.exists_digits
  have hd : d = ⟨Nat.ofDigitChars 10 (c :: cs ++ ds) 0, ds.length⟩ := by rw [hval, hlen]
  rw [hchars]
  split
  · rename_i hp
    obtain rfl : ds = [] := List.length_eq_zero_iff.1 (hlen.trans hp)
    rw [read?_whole (List.cons_ne_nil c cs) hcs, hd, List.append_nil]
    rfl
  · rw [read?_fraction (List.cons_ne_nil c cs) hcs hds, ← hd]

/-- What is written of a decimal is a number of the notation. -/
theorem described_chars (d : Decimal) (rest : List Char) : Described .number d.chars rest := by
  obtain ⟨c, cs, ds, hcs, hds, hlen, -, hchars⟩ := d.exists_digits
  have hcs' : ∀ e ∈ c :: cs, IsDigit e := fun e he => Segment.isDigit_iff.1 (hcs e he)
  rw [hchars]
  split
  · exact .whole hcs'
  · rename_i hp
    obtain ⟨first, others, rfl⟩ :=
      List.exists_cons_of_length_pos (Nat.pos_of_ne_zero (hlen ▸ hp))
    exact .fraction hcs' fun e he => Segment.isDigit_iff.1 (hds e he)

/-- A decimal is written with digits and a point only. -/
theorem mem_chars {d : Decimal} : ∀ c ∈ d.chars, c.isDigit ∨ c = '.' := by
  obtain ⟨first, cs, ds, hcs, hds, -, -, hchars⟩ := d.exists_digits
  intro c hc
  rw [hchars] at hc
  split at hc
  · exact .inl (hcs c hc)
  · rcases List.mem_append.1 hc with hc | hc
    · exact .inl (hcs c hc)
    · rcases List.mem_cons.1 hc with hc | hc
      · exact .inr hc
      · exact .inl (hds c hc)

theorem exists_chars_eq_cons (d : Decimal) : ∃ c cs, d.chars = c :: cs ∧ c.isDigit := by
  obtain ⟨c, cs, ds, hcs, -, -, -, hchars⟩ := d.exists_digits
  rw [hchars]
  split <;> exact ⟨c, _, rfl, hcs c List.mem_cons_self⟩

end Decimal

namespace Binary64

theorem text_finite (negative : Bool) (m : Magnitude) :
    (finite negative m).text = String.ofList ((signText negative).toList ++ m.shortest.chars) := by
  simp [text, Decimal.text, String.ofList_append]

theorem unsigned?_shortest (negative : Bool) (m : Magnitude) :
    unsigned? negative m.shortest.chars = some (finite negative m) := by
  obtain ⟨c, cs, hchars, hc⟩ := m.shortest.exists_chars_eq_cons
  have hread := m.shortest.read?_chars
  rw [hchars] at hread ⊢
  rw [unsigned?_of_isDigit hc, Decimal.readScaled?_of_read? hread, Option.map_some, ofDecimal,
    Magnitude.ofDecimal?_shortest]
  rfl

/-- The text of a number that is finite and not negative reads back as the number. -/
theorem ofText?_text (m : Magnitude) :
    ofText? (finite false m).text = some (finite false m) := by
  obtain ⟨c, cs, hchars, hc⟩ := m.shortest.exists_chars_eq_cons
  have htext : (finite false m).text = String.ofList (c :: cs) := by
    rw [text_finite, hchars]
    rfl
  rw [htext, ofText?_of_isDigit hc, ← hchars, unsigned?_shortest]

/-- The text of every number reads back as the number. -/
theorem ofText?_text_of_ne_nan {x : Binary64} (hx : x ≠ nan) : ofText? x.text = some x := by
  match x with
  | nan => exact absurd rfl hx
  | infinite false | infinite true => decide +kernel
  | finite false m => exact ofText?_text m
  | finite true m =>
    rw [text_finite, ofText?, String.toList_ofList]
    exact unsigned?_shortest true m

theorem eq_of_mem_signText {negative : Bool} : ∀ c ∈ (signText negative).toList, c = '-' := by
  cases negative <;> simp [signText]

/-- The characters that a number is written with. -/
theorem mem_text {x : Binary64} (hx : x ≠ nan) :
    ∀ c ∈ x.text.toList, c.isDigit ∨ c ∈ ['-', '.', 'i', 'n', 'f'] := by
  intro c hc
  match x with
  | nan => exact absurd rfl hx
  | infinite negative =>
    rw [text, String.toList_append, List.mem_append] at hc
    rcases hc with hc | hc
    · exact .inr (by simp [eq_of_mem_signText c hc])
    · exact .inr (List.mem_append_right ['-', '.'] hc)
  | finite negative m =>
    rw [text_finite, String.toList_ofList, List.mem_append] at hc
    rcases hc with hc | hc
    · exact .inr (by simp [eq_of_mem_signText c hc])
    · rcases Decimal.mem_chars c hc with hd | rfl
      · exact .inl hd
      · exact .inr (by simp)

end Binary64

end ExprSyntax
