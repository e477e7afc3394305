import ExprSyntax.Proofs.Source.Cut
import ExprSyntax.Proofs.Source.Numeral

/-!
# How far a segment reaches

`extent` decides by the first character of a segment. For each class of pieces there is an equation
for it (`extent_whitespace` …), and from them follows that it reaches as far as any piece that the
notation describes (`Described.covered`).
-/

namespace ExprSyntax

namespace Segment

variable {c : Char} {cs : List Char}

/-! ## Classes of characters -/

theorem isBlank_iff : isBlank c = true ↔ IsWhitespace c := by
  simp [isBlank, IsWhitespace, or_assoc]

theorem isDigit_iff : c.isDigit = true ↔ IsDigit c := by
  simp [Char.isDigit, IsDigit, Char.le_def]

theorem isWordStart_iff : isWordStart c = true ↔ IsLetter c := by
  simp [isWordStart, IsLetter, Char.isAlpha, Char.isUpper, Char.isLower, Char.le_def, or_assoc]

theorem isWordPart_iff : isWordPart c = true ↔ IsLetter c ∨ IsDigit c := by
  rw [← isWordStart_iff, ← isDigit_iff]
  simp [isWordPart, isWordStart, Char.isAlphanum, or_right_comm]

/-- The spellings of symbols, by the way in which `extent` finds them. -/
inductive Spelled : TokenKind → List Char → Prop
  | alone {k c} : symbol? c = some k → Spelled k [c]
  | single {k double c} : paired? c = some (k, double) → Spelled k [c]
  | double {k single c} : paired? c = some (single, k) → Spelled k [c, '=']
  | slash : Spelled .slash ['/']

theorem spelled_iff {k : TokenKind} {text : List Char} :
    Spelled k text ↔ k ∈ TokenKind.symbols ∧ k.spelling? = some (String.ofList text) := by
  constructor
  · rintro (@⟨_, c, h⟩ | @⟨_, _, c, h⟩ | @⟨_, _, c, h⟩ | _)
    · unfold symbol? at h
      split at h <;> cases h <;> decide
    · unfold paired? at h
      split at h <;> cases h <;> decide
    · unfold paired? at h
      split at h <;> cases h <;> decide
    · decide
  · rintro ⟨hk, hs⟩
    have ht : text = (k.spelling?.getD "").toList := by simp [hs]
    subst ht
    simp only [TokenKind.symbols, List.mem_cons, List.not_mem_nil, or_false] at hk
    rcases hk with rfl | rfl | rfl | rfl | rfl | rfl | rfl | rfl | rfl | rfl | rfl | rfl | rfl |
      rfl | rfl | rfl | rfl | rfl | rfl <;>
    first
      | exact .alone rfl
      | exact .single rfl
      | exact .double rfl
      | exact .slash

/-- The characters with which symbols begin. -/
def symbolHeads : List Char :=
  ['(', ')', '{', '}', ',', '.', '-', '+', ';', '*', '!', '=', '<', '>', '/']

/-- A character with a property that no symbol begins with begins no symbol. -/
theorem not_symbol {p : Char → Bool} (h : p c = true) (hp : symbolHeads.all (!p ·) = true) :
    symbol? c = none ∧ paired? c = none ∧ c ≠ '/' := by
  have hc : c ∉ symbolHeads := fun hm => by simpa [h] using List.all_eq_true.mp hp c hm
  simp [symbolHeads] at hc
  simp [symbol?, paired?, hc]

/-- Nor is it blank or a quote, if neither has the property. -/
theorem not_blank {p : Char → Bool} (h : p c = true)
    (hp : [' ', '\t', '\r', '\n', '"'].all (!p ·) = true) : isBlank c = false ∧ c ≠ '"' := by
  have hc : c ∉ [' ', '\t', '\r', '\n', '"'] := fun hm => by
    simpa [h] using List.all_eq_true.mp hp c hm
  simp at hc
  simp [isBlank, hc]

theorem isDigit_eq_false (h : IsLetter c) : c.isDigit = false := by
  rw [Bool.eq_false_iff, Ne, isDigit_iff]
  simp only [IsLetter, IsDigit, Char.le_def, UInt32.le_iff_toNat_le] at h ⊢
  rcases h with h | h | rfl <;> simp at * <;> omega

/-! ## One equation for each class -/

theorem extent_symbol {k : TokenKind} (h : symbol? c = some k) : extent c cs = (.lexeme k, 0) := by
  simp [extent, h]

theorem extent_paired {single double : TokenKind} (h : paired? c = some (single, double)) :
    extent c cs = if cs.head? = some '=' then (.lexeme double, 1) else (.lexeme single, 0) := by
  have hs : symbol? c = none := by
    unfold paired? at h
    split at h <;> first | rfl | cases h
  simp [extent, hs, h]

theorem extent_slash :
    extent '/' cs = if cs.head? = some '/' then (.comment, (cs.takeWhile (· ≠ '\n')).length)
      else (.lexeme .slash, 0) := by
  simp [extent, symbol?, paired?]

theorem extent_whitespace (h : IsWhitespace c) : extent c cs = (.blank, 0) := by
  have hb : isBlank c := isBlank_iff.mpr h
  obtain ⟨hs, hp, hc⟩ := not_symbol hb rfl
  simp [extent, hs, hp, hc, hb]

theorem extent_quote :
    extent '"' cs = if (cs.drop (cs.takeWhile (· ≠ '"')).length).isEmpty then
        (.openString, (cs.takeWhile (· ≠ '"')).length)
      else (.lexeme .string, (cs.takeWhile (· ≠ '"')).length + 1) := by
  simp [extent, symbol?, paired?, isBlank]

theorem extent_digit (h : IsDigit c) :
    extent c cs = (.lexeme .number, (cs.takeWhile Char.isDigit).length +
      fractionLength (cs.drop (cs.takeWhile Char.isDigit).length)) := by
  have hd : c.isDigit := isDigit_iff.mpr h
  obtain ⟨hs, hp, hc⟩ := not_symbol hd rfl
  obtain ⟨hb, hq⟩ := not_blank hd rfl
  simp [extent, hs, hp, hc, hb, hq, hd]

theorem extent_letter (h : IsLetter c) :
    extent c cs = (.lexeme ((TokenKind.keyword?
      (String.ofList (c :: cs.takeWhile isWordPart))).getD .identifier),
      (cs.takeWhile isWordPart).length) := by
  have hw : isWordStart c := isWordStart_iff.mpr h
  obtain ⟨hs, hp, hc⟩ := not_symbol hw rfl
  obtain ⟨hb, hq⟩ := not_blank hw rfl
  simp [extent, hs, hp, hc, hb, hq, isDigit_eq_false h, hw]

end Segment

/-! ## No piece reaches further -/

/-- The class of the pieces that the segments of a class are. -/
def SegmentClass.pieceClass : SegmentClass → PieceClass
  | blank => .whitespace
  | comment => .comment
  | lexeme .string => .closedString
  | lexeme .number => .number
  | lexeme k => if k ∈ TokenKind.symbols then .symbol else .word
  | openString => .openString
  | stray => .other

theorem SegmentClass.pieceClass_symbol :
    ∀ k ∈ TokenKind.symbols, (lexeme k).pieceClass = .symbol := by
  decide

theorem SegmentClass.pieceClass_word (w : String) :
    (lexeme ((TokenKind.keyword? w).getD .identifier)).pieceClass = .word := by
  have h : ∀ k ∈ TokenKind.keywords, (lexeme k).pieceClass = .word := by decide
  cases hk : TokenKind.keyword? w with
  | none => rfl
  | some k => exact h k (TokenKind.keyword?_eq_some_iff.mp hk).1

/-- A piece of class `cls` with `n` characters is no longer than a segment of the extent `e`; if it
is as long, they are of one class. -/
structure Covers (e : SegmentClass × Nat) (cls : PieceClass) (n : Nat) : Prop where
  ne_stray : e.1 ≠ .stray
  length_le : n ≤ e.2 + 1
  cls_eq : n = e.2 + 1 → e.1.pieceClass = cls

namespace Segment

variable {c : Char} {cs text rest : List Char}

theorem Spelled.covered {k : TokenKind} (h : Spelled k text) (ht : text ++ rest = c :: cs) :
    Covers (extent c cs) .symbol text.length := by
  have hk := (spelled_iff.mp h).1
  cases h with
  | alone h =>
    obtain ⟨rfl, rfl⟩ := List.cons.inj ht
    rw [extent_symbol h]
    exact ⟨nofun, Nat.le_refl 1, fun _ => SegmentClass.pieceClass_symbol k hk⟩
  | single h =>
    obtain ⟨rfl, rfl⟩ := List.cons.inj ht
    rw [extent_paired h]
    split
    · exact ⟨nofun, by simp, nofun⟩
    · exact ⟨nofun, by simp, fun _ => SegmentClass.pieceClass_symbol k hk⟩
  | double h =>
    obtain ⟨rfl, rfl⟩ := List.cons.inj ht
    rw [extent_paired h, List.append_eq, List.cons_append, List.head?_cons, if_pos rfl]
    exact ⟨nofun, by simp, fun _ => SegmentClass.pieceClass_symbol k hk⟩
  | slash =>
    obtain ⟨rfl, rfl⟩ := List.cons.inj ht
    rw [extent_slash]
    split
    · rcases rest with - | ⟨d, rest⟩
      · contradiction
      · rename_i hd
        obtain rfl : d = '/' := by simpa using hd
        exact ⟨nofun, by simp, by simp⟩
    · exact ⟨nofun, by simp, fun _ => rfl⟩

theorem ne_of_not_mem {x : Char} {ds : List Char} (h : x ∉ ds) :
    ∀ d ∈ ds, decide (d ≠ x) = true :=
  fun _ hd => decide_eq_true fun he => h (he ▸ hd)

theorem takeWhile_inside (rest : List Char) (h : '"' ∉ cs) :
    (cs ++ '"' :: rest).takeWhile (· ≠ '"') = cs := by
  rw [List.takeWhile_append_of_pos (ne_of_not_mem h), List.takeWhile_cons_of_neg (by decide),
    List.append_nil]

/-- The next quote closes a string. -/
theorem extent_closed (h : '"' ∉ cs) :
    extent '"' (cs ++ '"' :: rest) = (.lexeme .string, cs.length + 1) := by
  rw [extent_quote, takeWhile_inside rest h, List.drop_left]
  rfl

theorem extent_open (h : '"' ∉ cs) : extent '"' cs = (.openString, cs.length) := by
  rw [extent_quote, List.takeWhile_eq_self_iff.mpr (ne_of_not_mem h), List.drop_length]
  rfl

/-- A point counts, and the digits behind it. -/
theorem fractionLength_point {d : Char} {ds : List Char} (rest : List Char)
    (h : ∀ e ∈ d :: ds, e.isDigit) :
    (d :: ds).length + 1 ≤ fractionLength ('.' :: d :: (ds ++ rest)) := by
  rw [fractionLength, ← List.cons_append, List.takeWhile_append_of_pos h]
  simp

end Segment

open Segment

/-- The scanner takes at least what the notation describes. -/
theorem Described.covered {cls : PieceClass} {c : Char} {cs text rest : List Char}
    (h : Described cls text rest) (ht : text ++ rest = c :: cs) :
    Covers (extent c cs) cls text.length := by
  cases h with
  | whitespace h =>
    obtain ⟨rfl, rfl⟩ := List.cons.inj ht
    rw [extent_whitespace h]
    exact ⟨nofun, by simp, fun _ => rfl⟩
  | @comment body _ hb hr =>
    simp only [List.cons_append, List.cons.injEq] at ht
    obtain ⟨rfl, rfl⟩ := ht
    rw [extent_slash, List.head?_cons, if_pos rfl, List.takeWhile_cons_of_pos (by decide),
      List.takeWhile_append_of_pos (ne_of_not_mem hb)]
    exact ⟨nofun, by simp, fun _ => rfl⟩
  | symbol hk hs => exact (spelled_iff.mpr ⟨hk, hs⟩).covered ht
  | @word _ ds _ h hp =>
    simp only [List.cons_append, List.cons.injEq] at ht
    obtain ⟨rfl, rfl⟩ := ht
    have hp' : ∀ d ∈ ds, isWordPart d := fun d hd => isWordPart_iff.mpr (hp d hd)
    rw [extent_letter h, List.takeWhile_append_of_pos hp']
    exact ⟨nofun, by simp, fun _ => SegmentClass.pieceClass_word _⟩
  | @whole _ ds _ h =>
    simp only [List.cons_append, List.cons.injEq] at ht
    obtain ⟨rfl, rfl⟩ := ht
    have hd : ∀ d ∈ ds, d.isDigit := fun d hd => isDigit_iff.mpr (h d (List.mem_cons_of_mem _ hd))
    rw [extent_digit (h _ List.mem_cons_self), List.takeWhile_append_of_pos hd]
    exact ⟨nofun, by simp; omega, fun _ => rfl⟩
  | @fraction _ ds d es _ h h' =>
    simp only [List.cons_append, List.append_assoc, List.cons.injEq] at ht
    obtain ⟨rfl, rfl⟩ := ht
    have hd : ∀ d ∈ ds, d.isDigit := fun d hd => isDigit_iff.mpr (h d (List.mem_cons_of_mem _ hd))
    have he : ∀ e ∈ d :: es, e.isDigit := fun e he => isDigit_iff.mpr (h' e he)
    have hf := fractionLength_point rest he
    rw [extent_digit (h _ List.mem_cons_self), List.takeWhile_append_of_pos hd,
      List.takeWhile_cons_of_neg (by decide), List.append_nil, List.drop_left]
    exact ⟨nofun, by simp at hf ⊢; omega, fun _ => rfl⟩
  | @closedString inside _ h =>
    simp only [List.cons_append, List.append_assoc, List.nil_append, List.cons.injEq] at ht
    obtain ⟨rfl, rfl⟩ := ht
    rw [extent_closed h]
    exact ⟨nofun, by simp, fun _ => rfl⟩
  | @openString inside h =>
    simp only [List.append_nil, List.cons.injEq] at ht
    obtain ⟨rfl, rfl⟩ := ht
    rw [extent_open h]
    exact ⟨nofun, by simp, fun _ => rfl⟩

end ExprSyntax
