import ExprSyntax.Proofs.Source.Segmentation
import ExprSyntax.Source.Cursor

/-!
# Where a cursor stands

What a cursor sees are the characters `ahead` of it, and all that it does before it makes a token is
to go past some of them: by `move` if no line ends there, by `past` in general. `skipWhile_eq`,
`skipInside_eq` and `skipFraction_eq` say past which. What it has gone past can be cut out of the
source (`slice?_of_ahead`).
-/

namespace ExprSyntax

namespace Cursor

variable {s : Cursor}

/-- The characters from the cursor on. -/
def ahead (s : Cursor) : List Char :=
  s.input.toList.drop s.position

theorem peek?_eq (s : Cursor) : s.peek? = s.ahead.head? := by
  simp [peek?, ahead, List.head?_drop]

theorem peekNext?_eq (s : Cursor) : s.peekNext? = s.ahead.tail.head? := by
  simp [peekNext?, ahead, List.head?_drop]

theorem atEnd_iff : s.atEnd ↔ s.ahead = [] := by
  simp [atEnd, ahead, List.drop_eq_nil_iff]

/-! ## Going forward -/

@[simp] theorem ahead_move (s : Cursor) (n : Nat) : (s.move n).ahead = s.ahead.drop n := by
  simp [ahead, move, List.drop_drop]

@[simp] theorem move_zero (s : Cursor) : s.move 0 = s := rfl

@[simp] theorem move_move (s : Cursor) (m n : Nat) : (s.move m).move n = s.move (m + n) := by
  simp [move, Nat.add_assoc]

/-- The cursor behind a text that it stands in front of. -/
def past (s : Cursor) (text : List Char) : Cursor :=
  { s with position := s.position + text.length, line := s.line + text.count '\n' }

@[simp] theorem ahead_past (s : Cursor) (text : List Char) :
    (s.past text).ahead = s.ahead.drop text.length :=
  ahead_move s text.length

@[simp] theorem past_past (s : Cursor) (text more : List Char) :
    (s.past text).past more = s.past (text ++ more) := by
  simp [past, Nat.add_assoc]

theorem move_length {text : List Char} (h : '\n' ∉ text) : s.move text.length = s.past text := by
  simp [move, past, List.count_eq_zero.2 h]

theorem countLine_move_one (s : Cursor) (c : Char) : (s.move 1).countLine c = s.past [c] := by
  by_cases hfeed : c = '\n'
  · simp [countLine, hfeed, move, past]
  · simp [countLine, hfeed, move, past]

section
variable {c : Char} {cs : List Char} (h : s.ahead = c :: cs)
include h

theorem advance_of_cons : s.advance = s.move 1 := by
  simp [advance, peek?_eq, h]

theorem advance_countLine : (s.countLine c).advance = s.past [c] := by
  have hc : (s.countLine c).peek? = some c := by simp [peek?_eq s, h]
  unfold advance
  rw [hc]
  by_cases hfeed : c = '\n'
  · simp [countLine, hfeed, move, past]
  · simp [countLine, hfeed, move, past]

theorem ahead_move_one : (s.move 1).ahead = cs := by
  rw [ahead_move, h, List.drop_one, List.tail_cons]

end

theorem skipWhile_eq (p : Char → Bool) (s : Cursor) :
    s.skipWhile p = s.move (s.ahead.takeWhile p).length := by
  fun_induction skipWhile p s with
  | case1 s c hc hp ih =>
    rw [peek?_eq, List.head?_eq_some_iff] at hc
    obtain ⟨cs, hcs⟩ := hc
    rw [ih, advance_of_cons hcs, ahead_move, hcs, List.takeWhile_cons_of_pos hp, move_move]
    simp [Nat.add_comm]
  | case2 s c hc hp =>
    rw [peek?_eq, List.head?_eq_some_iff] at hc
    obtain ⟨cs, hcs⟩ := hc
    rw [hcs, List.takeWhile_cons_of_neg hp]
    rfl
  | case3 s hc =>
    rw [peek?_eq, List.head?_eq_none_iff] at hc
    rw [hc]
    rfl

theorem skipWhile_move_one {c : Char} {cs : List Char} (h : s.ahead = c :: cs) (p : Char → Bool) :
    (s.move 1).skipWhile p = s.move ((cs.takeWhile p).length + 1) := by
  rw [skipWhile_eq, ahead_move_one h, move_move, Nat.add_comm]

theorem skipInside_eq (s : Cursor) : s.skipInside = s.past (s.ahead.takeWhile (· ≠ '"')) := by
  fun_induction skipInside s with
  | case1 s hq =>
    rw [peek?_eq, List.head?_eq_some_iff] at hq
    obtain ⟨cs, hcs⟩ := hq
    rw [hcs, List.takeWhile_cons_of_neg (by simp)]
    rfl
  | case2 s c hc hne ih =>
    rw [peek?_eq, List.head?_eq_some_iff] at hc
    obtain ⟨cs, hcs⟩ := hc
    have htake : (c :: cs).takeWhile (· ≠ '"') = c :: cs.takeWhile (· ≠ '"') :=
      List.takeWhile_cons_of_pos (by simpa using hne)
    rw [ih, advance_countLine hcs, ahead_past, hcs, htake, past_past]
    rfl
  | case3 s hc =>
    rw [peek?_eq, List.head?_eq_none_iff] at hc
    rw [hc]
    rfl

theorem skipInside_move_one {cs : List Char} (h : s.ahead = '"' :: cs) :
    (s.move 1).skipInside = s.past ('"' :: cs.takeWhile (· ≠ '"')) := by
  rw [skipInside_eq, ahead_move_one h]
  exact past_past s ['"'] (cs.takeWhile (· ≠ '"'))

theorem skipFraction_eq (s : Cursor) :
    s.skipFraction = s.move (Segment.fractionLength s.ahead) := by
  unfold skipFraction
  rw [peek?_eq, peekNext?_eq]
  by_cases h : s.ahead.head? = some '.' ∧ s.ahead.tail.head?.any Char.isDigit
  · obtain ⟨hpoint, hdigit⟩ := h
    obtain ⟨cs, hcs⟩ := List.head?_eq_some_iff.1 hpoint
    rw [hcs, List.tail_cons, Option.any_eq_true] at hdigit
    obtain ⟨d, hd, hdd⟩ := hdigit
    obtain ⟨ds, rfl⟩ := List.head?_eq_some_iff.1 hd
    have hlen : Segment.fractionLength ('.' :: d :: ds) =
        ((d :: ds).takeWhile Char.isDigit).length + 1 := by
      simp [Segment.fractionLength, hdd]
    rw [advance_of_cons hcs, skipWhile_move_one hcs, hcs, hlen]
    simp [hdd]
  · rw [if_neg h]
    rcases Segment.fractionLength_cases s.ahead with hz | ⟨d, ds, rest, hr, hds, -⟩
    · rw [hz, move_zero]
    · refine absurd ⟨by simp [hr], ?_⟩ h
      simpa [hr] using Segment.isDigit_iff.2 (hds d List.mem_cons_self)

/-! ## Cutting out -/

theorem position_add_le {text rest : List Char} (h : s.ahead = text ++ rest) (ht : text ≠ []) :
    s.position + text.length ≤ s.input.size := by
  have hlen : (text ++ rest).length = s.input.size - s.position := by simp [← h, ahead]
  have hpos := List.length_pos_iff.2 ht
  rw [List.length_append] at hlen
  omega

theorem le_of_slice?_eq_some {i j : Nat} {text : String} (h : s.slice? i j = some text) :
    i ≤ j := by
  by_contra hij
  simp [slice?, hij] at h

/-- The text `b`, which stands behind `a` ahead of the cursor. -/
theorem slice?_of_ahead {a b rest : List Char} (h : s.ahead = a ++ b ++ rest) (hne : a ++ b ≠ []) :
    s.slice? (s.position + a.length) (s.position + (a.length + b.length)) =
      some (String.ofList b) := by
  have hle := position_add_le h hne
  rw [List.length_append] at hle
  have hdrop : s.input.toList.drop (s.position + a.length) = b ++ rest := by
    rw [← List.drop_drop]
    show s.ahead.drop a.length = _
    rw [h, List.append_assoc, List.drop_left]
  have hlen : s.position + (a.length + b.length) - (s.position + a.length) = b.length := by omega
  rw [slice?, if_pos ⟨by omega, hle⟩, Array.toList_extract, List.extract_eq_take_drop, hdrop, hlen,
    List.take_left]

/-- A segment can be cut out as soon as the cursor is past it. -/
theorem lexeme?_move {text rest : List Char} (h : s.ahead = text ++ rest)
    (hs : s.start = s.position) (ht : text ≠ []) :
    (s.move text.length).lexeme? = some (String.ofList text) := by
  have hslice := slice?_of_ahead (a := []) (by simpa using h) (by simpa using ht)
  show s.slice? s.start (s.position + text.length) = _
  simpa [hs] using hslice

/-- So can what stands between the quotes of a string, even if it is nothing. -/
theorem slice?_inside {inside rest : List Char} (h : s.ahead = '"' :: inside ++ ['"'] ++ rest)
    (hs : s.start = s.position) :
    s.slice? (s.start + 1) (s.position + ('"' :: inside ++ ['"']).length - 1) =
      some (String.ofList inside) := by
  have happend : s.ahead = ['"'] ++ inside ++ '"' :: rest := by simpa using h
  have hslice := slice?_of_ahead happend (by simp)
  have hpos : s.position + ('"' :: inside ++ ['"']).length - 1 =
      s.position + (['"'].length + inside.length) := by
    simp
    omega
  rw [hs, hpos]
  exact hslice

end Cursor

end ExprSyntax
