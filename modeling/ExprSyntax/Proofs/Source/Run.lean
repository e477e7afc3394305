import ExprSyntax.Proofs.Parser.Reading
import ExprSyntax.Source.Run

/-!
# What running a source gives

The scanner reports lexical entries and the parser at most one, which is syntactic. A run gives a
tree exactly if the log was empty, the scanner reported nothing and the tokens are parsed
(`fst_run_eq_some_iff`), which is if nothing is in the log at the end (`isSome_fst_run`).
-/

namespace ExprSyntax

/-! ## Kinds of diagnostics -/

theorem kind_of_mem_diagnostics {source : String} {d : Diagnostic}
    (h : d ∈ (scan source).diagnostics) : d.kind = .lexical := by
  obtain ⟨s, -, hs⟩ := List.mem_filterMap.1 h
  unfold Segment.diagnostic? at hs
  split at hs <;> cases hs <;> rfl

theorem Parser.kind_of_parse_error {p : Parser} {d : Diagnostic} (h : p.parse.1 = .error d) :
    d.kind = .syntactic := by
  obtain ⟨err, rfl, -⟩ := reads_of_parse_error (Prod.ext h rfl)
  rfl

/-- A parse gives a tree or adds one syntactic entry. -/
theorem Parser.parse_cases (p : Parser) :
    (∃ tree, p.parse.1 = .ok tree ∧ parseLog p.parse.1 = []) ∨
      ∃ d, p.parse.1 = .error d ∧ d.kind = .syntactic ∧ parseLog p.parse.1 = [d] := by
  cases h : p.parse.1 with
  | ok tree => exact .inl ⟨tree, rfl, rfl⟩
  | error d => exact .inr ⟨d, rfl, kind_of_parse_error h, rfl⟩

/-! ## A run -/

/-- The tokens of a source end in an end marker as they are. -/
theorem closeList_tokens_scan (source : String) :
    Token.closeList (scan source).tokens = (scan source).tokens := by
  rw [Token.closeList, if_pos]
  simp [scan, Token.eof]

theorem snd_run (log : Log) (source : String) :
    (run log source).2 =
      log ++ (scan source).diagnostics ++ parseLog (parseTokens (scan source).tokens) := rfl

/-- A tree comes back exactly if the log is empty in the end: what is not parsed is reported. -/
theorem isSome_fst_run (log : Log) (source : String) :
    (run log source).1.isSome = (run log source).2.isEmpty := by
  rw [run]
  cases h : parseTokens (scan source).tokens with
  | error d => simp [parseLog]
  | ok tree =>
    dsimp only
    split
    · simp_all [Except.toOption]
    · simp_all

theorem fst_run_eq_some_iff {log : Log} {source : String} {tree : Expr} :
    (run log source).1 = some tree ↔ log = [] ∧ (scan source).diagnostics = [] ∧
      parseTokens (scan source).tokens = .ok tree := by
  rw [run]
  cases h : parseTokens (scan source).tokens with
  | error d => simp [parseLog]
  | ok tree' => simp [parseLog, Except.toOption, and_assoc]

end ExprSyntax
