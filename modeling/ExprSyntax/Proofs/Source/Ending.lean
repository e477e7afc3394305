import ExprSyntax.Proofs.Source.Continuation
import ExprSyntax.Proofs.Source.LineNumbers

/-!
# What the end of a source changes

More text at the end of a source changes only what touches the end. The segments in front of a text
that settles where they end stay as they are (`Segment.segments_append`), and so do all stray
characters (`Segment.filter_isStray_prefix`). Hence a token that ends two characters before the end
of a source is found in its place in every longer source (`scan_append_of_stop`).
-/

namespace ExprSyntax

/-- The diagnostic reports a character that begins no other segment. -/
def Diagnostic.isStray (d : Diagnostic) : Bool :=
  d.message = "Unexpected character."

namespace Segment

variable {line : Nat} {c : Char} {cs rest : List Char}

theorem Settles.append_left (h : Settles rest) (cs : List Char) : Settles (cs ++ rest) := by
  cases cs with
  | nil => exact h
  | cons c cs => simp [Settles, h.1]

theorem settles_of_two_le (h : 2 ≤ rest.length) : Settles rest := by
  constructor <;> rintro rfl <;> exact absurd h (by decide)

theorem flatMap_text_of_segments_eq {ss later : List Segment}
    (h : segments line cs = ss ++ later) : cs = ss.flatMap text ++ later.flatMap text := by
  rw [← List.flatMap_append, ← h, text_segments]

/-- The segments in front of a text that settles where they end are those of every longer text. -/
theorem segments_append {ss later : List Segment} (h : segments line cs = ss ++ later)
    (hs : Settles (later.flatMap text)) (more : List Char) :
    segments line (cs ++ more) =
      ss ++ segments (line + (ss.flatMap text).count '\n') (later.flatMap text ++ more) := by
  induction ss generalizing line cs with
  | nil =>
    rw [flatMap_text_of_segments_eq h]
    rfl
  | cons s ss ih =>
    cases cs with
    | nil =>
      rw [segments_nil] at h
      cases h
    | cons c cs =>
      rw [segments_cons, List.cons_append, List.cons.injEq] at h
      obtain ⟨rfl, h⟩ := h
      have hafter : Settles (afterFirst c cs) := by
        rw [flatMap_text_of_segments_eq h]
        exact hs.append_left _
      have he : extent c (cs ++ more) = extent c cs := extent_append (.inl hafter)
      rw [List.cons_append, segments_cons, first_append line he, afterFirst_append he, ih h,
        List.cons_append, List.flatMap_cons, List.count_append, ← Nat.add_assoc]
      rfl

/-! ## Stray characters -/

theorem extent_stray_append (h : (extent c cs).1 = .stray) (more : List Char) :
    extent c (cs ++ more) = extent c cs := by
  revert h
  fun_cases extent c cs with
  | case11 =>
    intro _
    simp_all [extent]
  | _ => rintro ⟨⟩

/-- An open string is the last segment. -/
theorem afterFirst_of_openString (h : (extent c cs).1 = .openString) : afterFirst c cs = [] := by
  unfold afterFirst
  revert h
  fun_cases extent c cs with
  | case7 _ _ _ n hn => exact fun _ => List.isEmpty_iff.1 hn
  | _ => rintro ⟨⟩

theorem filter_isStray_diagnostic? {s : Segment} (h : s.cls ≠ .openString) :
    s.diagnostic?.toList.filter Diagnostic.isStray = s.diagnostic?.toList := by
  obtain ⟨cls, text, line⟩ := s
  cases cls with
  | openString => exact absurd rfl h
  | _ => rfl

theorem filter_isStray_diagnostic?_eq_nil {s : Segment} (h : s.cls ≠ .stray) :
    s.diagnostic?.toList.filter Diagnostic.isStray = [] := by
  obtain ⟨cls, text, line⟩ := s
  cases cls with
  | stray => exact absurd rfl h
  | _ => rfl

/-- Nothing is wrong with what does not settle where the segment in front of it ends. -/
theorem filterMap_diagnostic?_eq_nil (h : ¬ Settles cs) (line : Nat) :
    (segments line cs).filterMap diagnostic? = [] := by
  obtain rfl | rfl : cs = [] ∨ cs = ['.'] := by
    by_contra! hne
    exact h hne
  · rw [segments_nil, List.filterMap_nil]
  · have he : extent '.' [] = (.lexeme .dot, 0) := extent_symbol rfl
    rw [segments_cons, first, afterFirst, he, List.drop_zero, segments_nil]
    rfl

/-- More text behind a text keeps the reports of its stray characters, in front of all others. -/
theorem filter_isStray_prefix (line : Nat) (cs more : List Char) :
    ((segments line cs).filterMap diagnostic?).filter Diagnostic.isStray <+:
      (segments line (cs ++ more)).filterMap diagnostic? := by
  match cs with
  | [] =>
    rw [segments_nil]
    exact List.nil_prefix
  | c :: cs =>
    have ih := filter_isStray_prefix (first line c cs).endLine (afterFirst c cs) more
    rw [segments_cons, filterMap_cons_toList, List.filter_append]
    by_cases hkeeps : (extent c cs).1 = .stray ∨ Settles (afterFirst c cs)
    · have he : extent c (cs ++ more) = extent c cs :=
        hkeeps.elim (extent_stray_append · more) fun hs => extent_append (.inl hs)
      have hcls : (first line c cs).cls ≠ .openString := fun ho =>
        hkeeps.elim (fun hs => nomatch hs.symm.trans ho) fun hs =>
          hs.1 (afterFirst_of_openString ho)
      rw [List.cons_append, segments_cons, first_append line he, afterFirst_append he,
        filterMap_cons_toList, filter_isStray_diagnostic? hcls]
      exact (List.prefix_append_right_inj _).2 ih
    · -- the rest of the text is nothing or a point, so there is no stray character in it
      obtain ⟨hstray, hafter⟩ := not_or.1 hkeeps
      rw [filter_isStray_diagnostic?_eq_nil hstray, filterMap_diagnostic?_eq_nil hafter]
      exact List.nil_prefix
termination_by cs.length
decreasing_by exact Nat.lt_succ_of_le (length_afterFirst_le c cs)

/-! ## Tokens by their places -/

/-- A place counts as a lexeme if its segment gives a token. -/
theorem isLexeme_place (before : List Char) (s : Segment) :
    Place.isLexeme ⟨before, s.piece⟩ = s.token?.isSome := by
  obtain ⟨cls, text, line⟩ := s
  cases cls with
  | lexeme k => cases k <;> rfl
  | _ => rfl

/-- The segment at a place that is counted as a lexeme, and those in front of it. -/
theorem exists_segment_of_place {before : List Char} {segs : List Segment} {i : Nat} {q : Place}
    (h : ((places before (segs.map piece)).filter Place.isLexeme)[i]? = some q) :
    ∃ ss s later, segs = ss ++ s :: later ∧ q = ⟨before ++ ss.flatMap text, s.piece⟩ ∧
      i = (ss.filterMap token?).length ∧ s.token?.isSome := by
  induction segs generalizing before i with
  | nil => cases h
  | cons s segs ih =>
    rw [List.map_cons, places] at h
    by_cases hs : s.token?.isSome
    · rw [List.filter_cons_of_pos ((isLexeme_place before s).trans hs)] at h
      cases i with
      | zero =>
        obtain rfl := Option.some.inj h
        exact ⟨[], s, segs, rfl, by rw [List.flatMap_nil, List.append_nil], rfl, hs⟩
      | succ i =>
        obtain ⟨ss, t, later, rfl, rfl, rfl, ht⟩ := ih h
        obtain ⟨u, hu⟩ := Option.isSome_iff_exists.1 hs
        refine ⟨s :: ss, t, later, rfl, ?_, ?_, ht⟩
        · rw [List.flatMap_cons, ← List.append_assoc]
          rfl
        · rw [List.filterMap_cons_some hu, List.length_cons]
    · rw [List.filter_cons_of_neg (by rwa [isLexeme_place])] at h
      obtain ⟨ss, t, later, rfl, rfl, rfl, ht⟩ := ih h
      refine ⟨s :: ss, t, later, rfl, ?_, ?_, ht⟩
      · rw [List.flatMap_cons, ← List.append_assoc]
        rfl
      · rw [List.filterMap_cons_none (by simpa using hs)]

/-- The index of a token is the number of the tokens in front of it. -/
theorem getElem?_tokens_scan {source : String} {ss later : List Segment} {s : Segment} {t : Token}
    (h : segments 1 source.toList = ss ++ s :: later) (ht : s.token? = some t) :
    (scan source).tokens[(ss.filterMap token?).length]? = some t := by
  rw [scan, h, List.filterMap_append, List.filterMap_cons_some ht, List.append_assoc,
    List.getElem?_append_right (Nat.le_refl _), Nat.sub_self]
  rfl

end Segment

/-- How many characters of the source are in front of the end of the piece. -/
def Place.stop (q : Place) : Nat :=
  (q.before ++ q.piece.text).length

/-- Behind a lexeme that is followed by two characters, `a` may go on as it likes. -/
theorem Segment.getElem?_tokens_append {a : String} {i : Nat} {q : Place}
    (hq : ((places [] ((segments 1 a.toList).map piece)).filter Place.isLexeme)[i]? = some q)
    (hstop : q.stop + 2 ≤ a.toList.length) (b : String) :
    (scan (a ++ b)).tokens[i]? = (scan a).tokens[i]? := by
  obtain ⟨ss, s, later, hsegs, rfl, rfl, hs⟩ := exists_segment_of_place hq
  obtain ⟨t, ht⟩ := Option.isSome_iff_exists.1 hs
  have hfront : segments 1 a.toList = (ss ++ [s]) ++ later := by
    rw [hsegs, List.append_assoc, List.singleton_append]
  have hafter : Settles (later.flatMap text) := by
    apply settles_of_two_le
    rw [flatMap_text_of_segments_eq hsegs, List.flatMap_cons] at hstop
    simp only [Place.stop, piece, List.nil_append, List.length_append] at hstop
    omega
  have hlonger := segments_append hfront hafter b.toList
  rw [← String.toList_append, List.append_assoc, List.singleton_append] at hlonger
  rw [getElem?_tokens_scan hlonger ht, getElem?_tokens_scan hsegs ht]

/-- Two characters settle where a token ends: if so many follow it in `a`, it is the same token at
the same index however `a` goes on. The reports of stray characters stay the first ones in any
case. -/
theorem scan_append_of_stop (a b : String) : ∃ pieces tokens, Cut a.toList pieces ∧
    (scan a).tokens = tokens ++ [Token.eof (lineAfter a.toList)] ∧
    List.Forall₂ Place.HasToken ((places [] pieces).filter Place.isLexeme) tokens ∧
    (∀ (i : Nat) (q : Place) (t : Token), ((places [] pieces).filter Place.isLexeme)[i]? = some q →
      tokens[i]? = some t → q.stop + 2 ≤ a.toList.length → (scan (a ++ b)).tokens[i]? = some t) ∧
    (scan a).diagnostics.filter (·.message = "Unexpected character.") <+:
      (scan (a ++ b)).diagnostics := by
  have hcut := Segment.cut_segments 1 a.toList
  obtain ⟨tokens, heq, hplaces, -⟩ :=
    (Segment.scanned_segments 1 a.toList).exists_places hcut [] rfl
  have htokens : (scan a).tokens = tokens ++ [Token.eof (lineAfter a.toList)] := heq
  refine ⟨_, tokens, hcut, htokens, hplaces, fun i q t hq ht hstop => ?_, ?_⟩
  · obtain ⟨hlt, -⟩ := List.getElem?_eq_some_iff.1 ht
    rw [Segment.getElem?_tokens_append hq hstop, htokens, List.getElem?_append_left hlt, ht]
  · have hprefix := Segment.filter_isStray_prefix 1 a.toList b.toList
    rwa [← String.toList_append] at hprefix

/-- One character is not enough, for a point may begin a fraction. -/
example : (scan "3.").tokens.map Token.lexeme = ["3", ".", ""] ∧
    (scan ("3." ++ "5")).tokens.map Token.lexeme = ["3.5", ""] := by
  decide +kernel

end ExprSyntax
