import ExprSyntax.Proofs.Expr.RoundTrip
import ExprSyntax.Proofs.Parser.NestingBound

/-!
# Layout and spelling

A parse looks at the kinds and the values of tokens only. With other lexemes and lines it ends in
the same way at the same place (`parseWithin_alike`), so sources that differ in no more than blanks,
comments and line breaks give trees that differ in no more than the lines of their operators, and
that are written alike.
-/

namespace ExprSyntax

variable {f : Token → Token} {tokens tokens' : List Token} {m : Nat}

/-- Two parses that end alike: the first one is of `tokens`, the second one of a list with `f t` for
each of these tokens. Both give a tree and the second one has `f t` for each operator `t`, or both
give a diagnostic with the same message, and the second one is at `f t` if the first one is at `t`.
The parser stops at the same place, which is at `t` or behind it. -/
inductive ParsedAlike (f : Token → Token) (tokens : List Token) :
    Except Diagnostic Expr × Nat → Except Diagnostic Expr × Nat → Prop
  | tree {e n} : ParsedAlike f tokens (.ok e, n) (.ok (e.mapOps f), n)
  | diagnostic {t i n message} : tokens[i]? = some t → n = i ∨ n = i + 1 →
      ParsedAlike f tokens (.error (.atToken t message), n) (.error (.atToken (f t) message), n)

namespace ParsedAlike

variable {e : Expr} {n : Nat} {r : Except Diagnostic Expr × Nat}

theorem of_ok_left (h : ParsedAlike f tokens (.ok e, n) r) : r = (.ok (e.mapOps f), n) := by
  cases h
  rfl

theorem of_ok_right (h : ParsedAlike f tokens r (.ok e, n)) :
    ∃ tree, r = (.ok tree, n) ∧ tree.mapOps f = e := by
  generalize hr : ((.ok e, n) : Except Diagnostic Expr × Nat) = r' at h
  cases h with
  | tree =>
    cases hr
    exact ⟨_, rfl, rfl⟩
  | diagnostic => cases hr

end ParsedAlike

theorem SyntaxError.map_left (err : SyntaxError) (behind : List Token) :
    (err.left behind).map f = (err.map f).left (behind.map f) := by
  unfold left
  rw [map]
  split <;> simp

namespace Parser

/-- Lists that are the same up to spelling once they are closed are parsed alike. -/
theorem parsedAlike_of_closeList_eq_map (hf : Token.Respelling f)
    (h : Token.closeList tokens' = (Token.closeList tokens).map f) :
    ParsedAlike f (Token.closeList tokens) (parseWithin m tokens) (parseWithin m tokens') := by
  have hr := reads_ofTokens tokens m
  have hlocal := hr.local
  generalize ((ofTokens tokens m).read .expression).outcome = o at hr hlocal
  have hr' := hr.map hf
  rw [← h] at hr'
  cases o with
  | parsed e rest =>
    obtain ⟨read, hts, -⟩ := hlocal
    rw [hts, List.map_append] at h
    rw [parseWithin_of_parsed hts hr, parseWithin_of_parsed h hr', List.length_map]
    exact .tree
  | failed err rest =>
    obtain ⟨read, behind, hts, rfl, -⟩ := hlocal
    rw [hts, List.map_append, List.map_cons] at h
    simp only [Task.map, Outcome.map, SyntaxError.map_left] at hr'
    rw [parseWithin_of_failed hts hr, parseWithin_of_failed h hr', List.length_map]
    refine .diagnostic (i := read.length) (by simp [hts]) ?_
    cases err.fault <;> simp [SyntaxFault.taken]

theorem parsedAlike_map (hf : Token.Respelling f)
    (h : tokens.getLast?.map Token.kind = some .eof) :
    ParsedAlike f tokens (parseWithin m tokens) (parseWithin m (tokens.map f)) := by
  -- the end of the list is an end marker in any spelling, so nothing is added to either list
  have hmap : (tokens.map f).getLast?.map Token.kind = some .eof := by
    rw [List.getLast?_map, Option.map_map, show Token.kind ∘ f = Token.kind from funext hf.kind, h]
  have hclosed : Token.closeList tokens = tokens := if_pos h
  have hclosed' : Token.closeList (tokens.map f) = tokens.map f := if_pos hmap
  have halike : ParsedAlike f (Token.closeList tokens) (parseWithin m tokens)
      (parseWithin m (tokens.map f)) :=
    parsedAlike_of_closeList_eq_map hf (by rw [hclosed, hclosed'])
  rwa [hclosed] at halike

end Parser

/-! ## Sources -/

/-- The lines of operators are not shown in the written forms of a tree. -/
theorem Expr.render_eq_of_unplaced_eq {e e' : Expr} (h : e'.unplaced = e.unplaced)
    (order : Order) : e'.render order = e.render order := by
  have hlexeme : ∀ t : Token, t.unplaced.lexeme = t.lexeme := fun _ => rfl
  rw [← render_mapOps hlexeme e', ← render_mapOps hlexeme e]
  exact congrArg (·.render order) h

section
variable {source source' : String} {e : Expr}
  (h : (scan source).tokens.map Token.unplaced = (scan source').tokens.map Token.unplaced)
include h

/-- Sources whose tokens differ in their lines only are both parsed as the tokens on no line are. -/
theorem exists_parseWithin_of_layout {n : Nat}
    (hp : Parser.parseWithin m (scan source).tokens = (.ok e, n)) :
    ∃ e', Parser.parseWithin m (scan source').tokens = (.ok e', n) ∧ e'.unplaced = e.unplaced := by
  have hend : ∀ s : String, (scan s).tokens.getLast?.map Token.kind = some .eof := by
    simp [scan, Token.eof]
  have halike := Parser.parsedAlike_map (m := m) Token.respelling_unplaced (hend source)
  have halike' := Parser.parsedAlike_map (m := m) Token.respelling_unplaced (hend source')
  rw [hp] at halike
  rw [← h, halike.of_ok_left] at halike'
  exact halike'.of_ok_right

theorem exists_run_of_layout (hrun : (run [] source).1 = some e)
    (hd : (scan source').diagnostics = []) :
    ∃ e', run [] source' = (some e', []) ∧ e'.unplaced = e.unplaced := by
  obtain ⟨-, -, hparse⟩ := fst_run_eq_some_iff.1 hrun
  obtain ⟨e', hparse', he⟩ := exists_parseWithin_of_layout h (Prod.ext hparse rfl)
  replace hparse' : parseTokens (scan source').tokens = .ok e' := congrArg Prod.fst hparse'
  refine ⟨e', Prod.ext (fst_run_eq_some_iff.2 ⟨rfl, hd, hparse'⟩) ?_, he⟩
  rw [snd_run, hd, hparse']
  rfl

end

/-- A parse does not look at lexemes and lines: with others it gives the same tree but for its
operators, or the same message at the same token, and stops at the same place. So sources whose
tokens differ in their lines only give trees that differ in the lines of their operators only, and
that are written alike. -/
theorem parse_layout :
    (∀ (f : Token → Token) (tokens : List Token) (m : Nat), Token.Respelling f →
      tokens.getLast?.map Token.kind = some .eof →
        ParsedAlike f tokens (Parser.parseWithin m tokens) (Parser.parseWithin m (tokens.map f))) ∧
    ∀ source source' : String,
      (scan source).tokens.map Token.unplaced = (scan source').tokens.map Token.unplaced →
        (∀ m e n, Parser.parseWithin m (scan source).tokens = (.ok e, n) →
          ∃ e', Parser.parseWithin m (scan source').tokens = (.ok e', n) ∧
            e'.unplaced = e.unplaced ∧ ∀ order, e'.render order = e.render order) ∧
        ∀ e, (run [] source).1 = some e → (scan source').diagnostics = [] →
          ∃ e', run [] source' = (some e', []) ∧ e'.unplaced = e.unplaced ∧
            ∀ order, e'.render order = e.render order := by
  refine ⟨fun f tokens m hf hend => Parser.parsedAlike_map hf hend,
    fun source source' h => ⟨?_, ?_⟩⟩
  · intro m e n hp
    obtain ⟨e', hp', he⟩ := exists_parseWithin_of_layout h hp
    exact ⟨e', hp', he, Expr.render_eq_of_unplaced_eq he⟩
  · intro e hrun hd
    obtain ⟨e', hrun', he⟩ := exists_run_of_layout h hrun hd
    exact ⟨e', hrun', he, Expr.render_eq_of_unplaced_eq he⟩

/-- A sign keeps its place under another name on another line, and of a comment in front of an
expression only the line of the operator tells. -/
theorem parse_layout_sign :
    let sign : Token := .spelled .minus
    let f : Token → Token := fun t => { t with lexeme := "+", line := 7 }
    let tokens : List Token := [sign, .spelled .kwNil, .eof 1]
    let source := "// c\n! nil"
    let source' := "!nil"
    Token.Respelling f ∧ tokens.getLast?.map Token.kind = some .eof ∧
      Parser.parseWithin 1 tokens = (.ok (.unary sign (.literal .nil)), 2) ∧
      Parser.parseWithin 1 (tokens.map f) = (.ok (.unary (f sign) (.literal .nil)), 2) ∧
      (scan source).tokens.map Token.unplaced = (scan source').tokens.map Token.unplaced ∧
      (scan source').diagnostics = [] ∧
      ∃ e e', (run [] source).1 = some e ∧ run [] source' = (some e', []) ∧
        e'.unplaced = e.unplaced ∧ ∀ order, e'.render order = e.render order := by
  intro sign f tokens source source'
  have hf : Token.Respelling f := ⟨fun _ => rfl, fun _ => rfl⟩
  have hend : tokens.getLast?.map Token.kind = some .eof := rfl
  have hparse : Parser.parseWithin 1 tokens = (.ok (.unary sign (.literal .nil)), 2) := by cbv
  have halike := parse_layout.1 f tokens 1 hf hend
  rw [hparse] at halike
  obtain ⟨hlayout, hd, hrun⟩ :
      (scan source).tokens.map Token.unplaced = (scan source').tokens.map Token.unplaced ∧
        (scan source').diagnostics = [] ∧
        (run [] source).1 =
          some (.unary { Token.spelled .bang with line := 2 } (.literal .nil)) := by
    decide +kernel
  exact ⟨hf, hend, hparse, halike.of_ok_left, hlayout, hd, _,
    ((parse_layout.2 source source' hlayout).2 _ hrun hd).imp fun _ he => ⟨hrun, he⟩⟩

end ExprSyntax
