import ExprSyntax.Proofs.Grammar.Viability
import ExprSyntax.Proofs.Source.Lexemes

/-!
# The lines of a report

A report has a line feed behind each diagnostic and those within its text
(`Diagnostic.count_report`). What the scanner reports has none, and a syntax error only those of the
lexeme that it points at. Of the lexemes only strings have line feeds, and the one fault that a
string can have is to stand where a parenthesis is missed. So a diagnostic of a run takes more than
one line exactly if the parser stops at such a string (`report_lines_iff`).
-/

namespace ExprSyntax

/-! ## Cutting at line feeds -/

theorem length_splitOn_lineFeed (cs : List Char) :
    (cs.splitOn '\n').length = cs.count '\n' + 1 := by
  rw [List.splitOn_eq_splitOnP]
  induction cs with
  | nil => rfl
  | cons c cs ih =>
    rw [List.splitOnP_cons_eq_if_modifyHead]
    by_cases hc : c = '\n'
    · simp [hc, ih]
    · simp [hc, ih]

namespace Diagnostic

/-- The line feeds in what a diagnostic says. -/
def lineFeeds (d : Diagnostic) : Nat :=
  d.detail.toList.count '\n'

theorem count_formatted (color : Bool) (d : Diagnostic) :
    (d.formatted color).toList.count '\n' = d.lineFeeds := by
  have hline : d.line.repr.toList.count '\n' = 0 := by
    rw [Nat.toList_repr]
    refine List.count_eq_zero.2 fun hmem => ?_
    exact absurd (Decimal.isDigit_of_mem_toDigits _ hmem) (by decide)
  have hword : (errorWord color).toList.count '\n' = 0 := by
    cases color <;> rfl
  have hopen : "[line ".toList.count '\n' = 0 := rfl
  have hclose : "] ".toList.count '\n' = 0 := rfl
  rw [formatted, lineFeeds]
  simp only [String.toList_append, List.count_append]
  omega

theorem toList_report_cons (color : Bool) (d : Diagnostic) (ds : List Diagnostic) :
    (report color (d :: ds)).toList =
      (d.formatted color).toList ++ '\n' :: (report color ds).toList := by
  simp [report]

/-- A report has a line feed for each diagnostic, and those within them. -/
theorem count_report (color : Bool) (ds : List Diagnostic) :
    (report color ds).toList.count '\n' = ds.length + (ds.map lineFeeds).sum := by
  induction ds with
  | nil => simp [report]
  | cons d ds ih =>
    rw [toList_report_cons, List.count_append, List.count_cons_self, count_formatted, ih,
      List.map_cons, List.sum_cons, List.length_cons]
    omega

/-- Diagnostics without line feeds are the lines of their report, and nothing stands behind them. -/
theorem splitOn_report (color : Bool) {ds : List Diagnostic} (h : ∀ d ∈ ds, d.lineFeeds = 0) :
    (report color ds).toList.splitOn '\n' =
      ds.map (fun d => (d.formatted color).toList) ++ [[]] := by
  induction ds with
  | nil => simp [report]
  | cons d ds ih =>
    rw [List.forall_mem_cons] at h
    have hd : '\n' ∉ (d.formatted color).toList :=
      List.count_eq_zero.1 ((count_formatted color d).trans h.1)
    have hline : ∀ c ∈ (d.formatted color).toList, (c == '\n') = false := fun c hc =>
      beq_false_of_ne fun he => hd (he ▸ hc)
    have hrest := ih h.2
    rw [List.splitOn_eq_splitOnP] at hrest ⊢
    rw [toList_report_cons, List.splitOnP_append_cons _ _ (by decide),
      List.splitOnP_eq_singleton hline, hrest]
    rfl

theorem splitOn_report_iff (color : Bool) (ds : List Diagnostic) :
    (report color ds).toList.splitOn '\n' =
        ds.map (fun d => (d.formatted color).toList) ++ [[]] ↔
      (report color ds).toList.count '\n' = ds.length := by
  constructor
  · intro h
    have hlength := congrArg List.length h
    rw [length_splitOn_lineFeed] at hlength
    simpa using hlength
  · intro h
    rw [count_report] at h
    refine splitOn_report color fun d hd => ?_
    exact List.sum_eq_zero_iff.1 (by omega) _ (List.mem_map_of_mem hd)

end Diagnostic

/-! ## What a diagnostic says -/

theorem lineFeeds_of_mem_diagnostics {source : String} {d : Diagnostic}
    (h : d ∈ (scan source).diagnostics) : d.lineFeeds = 0 := by
  obtain ⟨s, -, hs⟩ := List.mem_filterMap.1 h
  unfold Segment.diagnostic? at hs
  split at hs <;> cases hs <;>
    simp [Diagnostic.lineFeeds, Diagnostic.detail, Diagnostic.lexical, Location.text]

/-- A syntax error has the line feeds of the lexeme that it points at. -/
theorem Diagnostic.lineFeeds_atToken (t : Token) (f : SyntaxFault) :
    (Diagnostic.atToken t f.message).lineFeeds =
      if t.kind = .eof then 0 else t.lexeme.toList.count '\n' := by
  have hmessage : f.message.toList.count '\n' = 0 := by
    cases f <;> rfl
  have hcolon : ": ".toList.count '\n' = 0 := rfl
  rw [lineFeeds, detail, atToken, Location.ofToken]
  split
  · have hend : Location.atEnd.text.toList.count '\n' = 0 := rfl
    simp only [String.toList_append, List.count_append, hend, hcolon, hmessage]
  · have hat : " at '".toList.count '\n' = 0 := rfl
    have hquote : "'".toList.count '\n' = 0 := rfl
    simp only [Location.text, String.toList_append, List.count_append, hat, hquote, hcolon,
      hmessage, Nat.zero_add, Nat.add_zero]

/-! ## Where the parser stops -/

namespace Token.Lexical

variable {t : Token}

/-- Only strings are written over more than one line. -/
theorem kind_of_lineFeed_mem (h : t.Lexical) (hl : '\n' ∈ t.lexeme.toList) : t.kind = .string := by
  obtain ⟨cls, hd, hm⟩ := h
  by_contra hk
  exact hd.lineFeed_not_mem hm.isLexeme (hm.cls_ne_closedString hk) hl

theorem literal_ne_none (h : t.Lexical) (hk : t.kind = .string) : t.literal ≠ none := by
  obtain ⟨cls, -, hm⟩ := h
  rw [hk] at hm
  obtain ⟨inside, -, hvalue⟩ := hm.exists_inside
  simp [hvalue]

/-- The one fault that a string can have is to stand where a group should end. -/
theorem fault_eq (h : t.Lexical) (hk : t.kind = .string) {f : SyntaxFault} (hf : f.Blames t) :
    f = .expectedRightParen := by
  cases f with
  | expectedExpression => exact absurd (by simp [hk]) hf.2
  | expectedRightParen => rfl
  | nestedTooDeeply =>
    have hnot : ¬ (t.kind = .leftParen ∨ t.kind = .bang ∨ t.kind = .minus) := by
      rw [hk]
      decide
    exact absurd hf hnot
  | missingValue => exact absurd hf.2 (h.literal_ne_none hk)

end Token.Lexical

/-- What the parser stops at is a token of the source. -/
theorem exists_offender_of_parseTokens {source : String} {d : Diagnostic}
    (h : parseTokens (scan source).tokens = .error d) :
    ∃ err : SyntaxError, d = err.diagnostic ∧ err.offender ∈ (scan source).tokens ∧
      err.fault.Blames err.offender := by
  obtain ⟨err, rfl, hr⟩ := Parser.reads_of_parse_error (Prod.ext h rfl)
  obtain ⟨read, behind, hts, -⟩ := hr.viable_of_failed (Nat.zero_le _)
  refine ⟨err, rfl, ?_, hr.blames_of_failed⟩
  rw [Parser.ahead_ofTokens, closeList_tokens_scan] at hts
  rw [hts]
  exact List.mem_append_right read List.mem_cons_self

/-- The parser misses a closing parenthesis at a string that is written over more than one line. -/
structure StopsOverLines (source : String) (t : Token) : Prop where
  mem : t ∈ (scan source).tokens
  kind : t.kind = .string
  lineFeed : '\n' ∈ t.lexeme.toList
  stops : parseTokens (scan source).tokens = .error (.atToken t "Expect ')' after expression.")

/-- The lines that the diagnostics of a run take too many. -/
def extraLines (source : String) : Nat :=
  ((run [] source).2.map Diagnostic.lineFeeds).sum

theorem extraLines_eq (source : String) :
    extraLines source =
      ((parseLog (parseTokens (scan source).tokens)).map Diagnostic.lineFeeds).sum := by
  have hlexical : ((scan source).diagnostics.map Diagnostic.lineFeeds).sum = 0 :=
    List.sum_eq_zero (List.forall_mem_map.2 fun _ => lineFeeds_of_mem_diagnostics)
  rw [extraLines, snd_run, List.nil_append, List.map_append, List.sum_append, hlexical,
    Nat.zero_add]

theorem StopsOverLines.extraLines_eq_count {source : String} {t : Token}
    (h : StopsOverLines source t) : extraLines source = t.lexeme.toList.count '\n' := by
  have hend : t.kind ≠ .eof := by
    rw [h.kind]
    decide
  have hfeeds := Diagnostic.lineFeeds_atToken t .expectedRightParen
  rw [if_neg hend] at hfeeds
  rw [extraLines_eq, h.stops]
  exact hfeeds

theorem exists_stopsOverLines {source : String} (h : extraLines source ≠ 0) :
    ∃ t, StopsOverLines source t := by
  rw [extraLines_eq] at h
  cases hparse : parseTokens (scan source).tokens with
  | ok tree =>
    rw [hparse] at h
    exact absurd rfl h
  | error d =>
    obtain ⟨⟨fault, t⟩, rfl, hmem, hblames⟩ := exists_offender_of_parseTokens hparse
    have hfeeds : (Diagnostic.atToken t fault.message).lineFeeds ≠ 0 := by
      rw [hparse] at h
      exact h
    rw [Diagnostic.lineFeeds_atToken] at hfeeds
    -- the end marker is named by its place, all other tokens by their lexemes
    split at hfeeds
    · exact absurd rfl hfeeds
    · rename_i hend
      have hlexical := lexical_of_mem_tokens_scan hmem hend
      have hmemFeed : '\n' ∈ t.lexeme.toList := by
        by_contra hnot
        exact hfeeds (List.count_eq_zero.2 hnot)
      have hkind := hlexical.kind_of_lineFeed_mem hmemFeed
      obtain rfl : fault = .expectedRightParen := hlexical.fault_eq hkind hblames
      exact ⟨t, hmem, hkind, hmemFeed, hparse⟩

/-- A run is reported with one line for each diagnostic, so that the lines of the report are the
diagnostics, exactly if the parser stops at no string over several lines; such a string makes the
report longer by the line feeds in it. -/
theorem report_lines_iff (source : String) (color : Bool) :
    let ds := (run [] source).2
    let out := (Diagnostic.report color ds).toList
    (out.count '\n' = ds.length ↔ ¬ ∃ t, StopsOverLines source t) ∧
      (out.splitOn '\n' = ds.map (fun d => (d.formatted color).toList) ++ [[]] ↔
        ¬ ∃ t, StopsOverLines source t) ∧
      ∀ t, StopsOverLines source t → out.count '\n' = ds.length + t.lexeme.toList.count '\n' := by
  intro ds out
  have hcount : out.count '\n' = ds.length + extraLines source := Diagnostic.count_report color ds
  have hlines : out.count '\n' = ds.length ↔ ¬ ∃ t, StopsOverLines source t := by
    rw [hcount, Nat.add_eq_left]
    constructor
    · rintro hzero ⟨t, ht⟩
      rw [ht.extraLines_eq_count] at hzero
      exact List.count_eq_zero.1 hzero ht.lineFeed
    · intro hnone
      by_contra hne
      exact hnone (exists_stopsOverLines hne)
  refine ⟨hlines, (Diagnostic.splitOn_report_iff color ds).trans hlines, fun t ht => ?_⟩
  rw [hcount, ht.extraLines_eq_count]

/-- The one diagnostic of a group that a string follows takes two lines. -/
theorem report_takes_two_lines :
    let source := "(nil \"\n\""
    let ds := (run [] source).2
    ds.length = 1 ∧ (Diagnostic.report false ds).toList.count '\n' = 2 ∧
      Diagnostic.report false ds =
        "[line 2] Error at '\"\n\"': Expect ')' after expression.\n" := by
  intro source ds
  exact ⟨by decide +kernel, by decide +kernel, by decide +kernel⟩

end ExprSyntax
