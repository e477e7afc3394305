import ExprSyntax.Proofs.Grammar.Openings
import ExprSyntax.Proofs.Parser.Acceptance
import ExprSyntax.Proofs.Parser.Reuse
import ExprSyntax.Proofs.Parser.SyntaxErrors

/-!
# The bound on nesting is a threshold

The tokens alone say how deep a parse goes (`deepestNesting`). A bound that is at least as large is
not felt, and any smaller one ends the parse at the first token behind which more is open than it
allows (`parse_threshold`).
-/

namespace ExprSyntax

/-- The token at `i` is the first behind which `level` groups and signs are open. -/
def OpensFirst (ts : List Token) (level i : Nat) : Prop :=
  (nestingLevels ts)[i]? = some level ∧ ∀ l ∈ (nestingLevels ts).take i, l < level

theorem deepestNesting_le_iff {ts : List Token} {b : Nat} :
    deepestNesting ts ≤ b ↔ ∀ l ∈ nestingLevels ts, l ≤ b := by
  rw [deepestNesting]
  induction nestingLevels ts with
  | nil => simp
  | cons l ls ih => rw [List.foldr_cons, Nat.max_le, ih, List.forall_mem_cons]

theorem SyntaxFault.message_injective : Function.Injective message := by
  intro f g
  cases f <;> cases g <;> decide

/-- Where a reading that the bound ends has its offender. -/
theorem Reads.opensFirst_of_tooDeep {b : Nat} {ts rest : List Token} {offender : Token}
    (h : Reads b (.phrase .expression) ts (.failed ⟨.nestedTooDeeply, offender⟩ rest)) :
    ∃ read, ts = read ++ offender :: rest ∧ OpensFirst ts (b + 1) read.length := by
  obtain ⟨read, ls, more, hts, hls, hlen, hle⟩ := h.levels_of_tooDeep
  refine ⟨read, hts, ?_, ?_⟩
  · rw [hls, ← hlen, List.getElem?_append_right (Nat.le_refl _), Nat.sub_self]
    rfl
  · rw [hls, ← hlen, List.take_left]
    exact fun l hl => Nat.lt_succ_of_le (hle l hl)

theorem OpensFirst.lt_deepestNesting {ts : List Token} {b i : Nat} (h : OpensFirst ts (b + 1) i) :
    b < deepestNesting ts := by
  apply Nat.lt_of_not_le
  intro hle
  exact Nat.not_succ_le_self b (deepestNesting_le_iff.1 hle _ (List.mem_of_getElem? h.1))

/-- A reading is ended by the bound exactly if the tokens open more than it allows. -/
theorem Reads.withinBound_iff {b : Nat} {ts : List Token} {o : Outcome}
    (h : Reads b (.phrase .expression) ts o) : o.WithinBound ↔ deepestNesting ts ≤ b := by
  constructor
  · intro ho
    exact deepestNesting_le_iff.2 (h.levels_of_withinBound ho).1
  · intro hb
    cases o with
    | parsed => trivial
    | failed err rest =>
      obtain ⟨fault, offender⟩ := err
      rintro rfl
      obtain ⟨_, -, hfirst⟩ := h.opensFirst_of_tooDeep
      exact Nat.not_lt_of_le hb hfirst.lt_deepestNesting

namespace Parser

/-- What a new parser over `tokens` gives within the bound `m`, and where it stands then. -/
def parseWithin (m : Nat) (tokens : List Token) : Except Diagnostic Expr × Nat :=
  let (result, q) := (ofTokens tokens m).parse
  (result, q.position)

section
variable {tokens : List Token} {m m' : Nat}

theorem reads_ofTokens (tokens : List Token) (m : Nat) :
    Reads m (.phrase .expression) (Token.closeList tokens)
      ((ofTokens tokens m).read .expression).outcome := by
  have hr := reads_read .expression (ofTokens tokens m)
  rwa [ahead_ofTokens] at hr

theorem parseWithin_fst (m : Nat) (tokens : List Token) :
    (parseWithin m tokens).1 = ((ofTokens tokens m).read .expression).outcome.result :=
  parse_fst _

/-- A tree that is read of the tokens is parsed, up to the tokens that are left. -/
theorem parseWithin_of_parsed {e : Expr} {read rest : List Token}
    (hts : Token.closeList tokens = read ++ rest)
    (hr : Reads m (.phrase .expression) (Token.closeList tokens) (.parsed e rest)) :
    parseWithin m tokens = (.ok e, read.length) := by
  have ho := (reads_ofTokens tokens m).deterministic hr
  have hleft : (ofTokens tokens m).parse.2.ahead = rest := by
    rw [ahead_parse_snd, ho]
    rfl
  have hahead : (ofTokens tokens m).ahead = read ++ (ofTokens tokens m).parse.2.ahead := by
    rw [ahead_ofTokens, hts, hleft]
  have hpos := (forward_parse (ofTokens tokens m)).position_eq hahead
  refine Prod.ext ?_ (hpos.trans (Nat.zero_add _))
  rw [parseWithin_fst, ho]
  rfl

/-- An error that is read of the tokens is reported, and the parser stands at its offender, or
behind it if it has been taken. -/
theorem parseWithin_of_failed {err : SyntaxError} {read behind : List Token}
    (hts : Token.closeList tokens = read ++ err.offender :: behind)
    (hr : Reads m (.phrase .expression) (Token.closeList tokens)
      (.failed err (err.left behind))) :
    parseWithin m tokens =
      (.error err.diagnostic, read.length + if err.fault.taken then 1 else 0) := by
  have ho := (reads_ofTokens tokens m).deterministic hr
  have hleft : (ofTokens tokens m).parse.2.ahead = err.left behind := by
    rw [ahead_parse_snd, ho]
    rfl
  have hpos := position_of_failed (forward_parse _) ((ahead_ofTokens tokens m).trans hts) hleft
  refine Prod.ext ?_ (hpos.trans (congrArg (· + _) (Nat.zero_add _)))
  rw [parseWithin_fst, ho]
  rfl

/-- Two bounds that are not felt give the same parse. -/
theorem parseWithin_eq_of_le (h : deepestNesting (Token.closeList tokens) ≤ m) (hm : m ≤ m') :
    parseWithin m' tokens = parseWithin m tokens := by
  have hr := reads_ofTokens tokens m
  have ho := (hr.mono hm (hr.withinBound_iff.2 h)).deterministic (reads_ofTokens tokens m')
  have ha : (ofTokens tokens m).ahead = (ofTokens tokens m').ahead := by
    rw [ahead_ofTokens, ahead_ofTokens]
  obtain ⟨hres, hpos⟩ := parse_eq_of_outcome_eq ha ho
  exact Prod.ext hres.symm hpos.symm

/-- The parser takes the tokens that have a level, and besides only a token without its value. -/
theorem parseWithin_position (h : deepestNesting (Token.closeList tokens) ≤ m) :
    (nestingLevels (Token.closeList tokens)).length ≤ (parseWithin m tokens).2 ∧
      (parseWithin m tokens).2 ≤ (nestingLevels (Token.closeList tokens)).length + 1 := by
  have hr := reads_ofTokens tokens m
  obtain ⟨-, hle, hge⟩ := hr.levels_of_withinBound (hr.withinBound_iff.2 h)
  have hpos := (forward_parse (ofTokens tokens m)).position_add_length
  rw [ahead_parse_snd, ahead_ofTokens] at hpos
  have hstart : (ofTokens tokens m).position = 0 := rfl
  have hdef : (parseWithin m tokens).2 = (ofTokens tokens m).parse.2.position := rfl
  omega

/-- A bound that is felt ends the parse at the first token that opens more. -/
theorem parseWithin_of_lt (h : m < deepestNesting (Token.closeList tokens)) :
    ∃ i t, OpensFirst (Token.closeList tokens) (m + 1) i ∧
      (Token.closeList tokens)[i]? = some t ∧
      (t.kind = .leftParen ∨ t.kind = .bang ∨ t.kind = .minus) ∧
      parseWithin m tokens = (.error (.atToken t "Expression nested too deeply."), i + 1) := by
  have hr := reads_ofTokens tokens m
  have hdeep := mt hr.withinBound_iff.1 (Nat.not_le_of_lt h)
  generalize ((ofTokens tokens m).read .expression).outcome = o at hr hdeep
  cases o with
  | parsed => exact absurd trivial hdeep
  | failed err rest =>
    obtain ⟨fault, t⟩ := err
    obtain rfl : fault = .nestedTooDeeply := not_not.1 hdeep
    obtain ⟨read, hts, hfirst⟩ := hr.opensFirst_of_tooDeep
    refine ⟨read.length, t, hfirst, by simp [hts], hr.offender_of_failed.1 rfl, ?_⟩
    exact parseWithin_of_failed hts hr

/-- Only a reading that the bound ends reports that something is nested too deeply. -/
theorem parseWithin_tooDeep_iff :
    (∃ t, (parseWithin m tokens).1 = .error (.atToken t "Expression nested too deeply.")) ↔
      m < deepestNesting (Token.closeList tokens) := by
  constructor
  · rintro ⟨t, ht⟩
    have hr := reads_ofTokens tokens m
    rw [parseWithin_fst] at ht
    generalize ((ofTokens tokens m).read .expression).outcome = o at hr ht
    cases o with
    | parsed => cases ht
    | failed err rest =>
      apply Nat.lt_of_not_le
      intro hle
      have hmessage : err.fault.message = SyntaxFault.nestedTooDeeply.message :=
        congrArg Diagnostic.message (Except.error.inj ht)
      exact hr.withinBound_iff.2 hle (SyntaxFault.message_injective hmessage)
  · intro h
    obtain ⟨_, t, -, -, -, heq⟩ := parseWithin_of_lt h
    exact ⟨t, congrArg Prod.fst heq⟩

/-- What is nested in a tree is what is open at once: groups beside each other do not add up. -/
theorem nesting_eq_of_parseWithin {e : Expr} (h : (parseWithin m tokens).1 = .ok e) :
    e.nesting = deepestNesting (Token.closeList tokens) := by
  have hle : deepestNesting (Token.closeList tokens) ≤ m := by
    apply Nat.le_of_not_lt
    intro hlt
    obtain ⟨t, ht⟩ := parseWithin_tooDeep_iff.2 hlt
    rw [h] at ht
    cases ht
  rw [parseWithin_eq_of_le (Nat.le_refl _) hle] at h
  obtain ⟨ts, hts, he, hnest, hnext⟩ := derives_of_parse (Prod.ext h rfl)
  rw [ahead_ofTokens, ahead_eq_cons] at hts
  refine Nat.le_antisymm hnest ?_
  rw [hts]
  exact (he.reads_expression (Nat.le_refl _) hnext _).withinBound_iff.1 trivial

end

/-- Whatever the tokens, no bound from their deepest nesting on is felt, and every smaller one is
reported at the first token that opens more than it allows. -/
theorem parse_threshold (tokens : List Token) :
    let ts := Token.closeList tokens
    let deepest := deepestNesting ts
    (∀ m m', deepest ≤ m → deepest ≤ m' → parseWithin m' tokens = parseWithin m tokens) ∧
      (∀ m, m < deepest → ∃ i t, OpensFirst ts (m + 1) i ∧ ts[i]? = some t ∧
        (t.kind = .leftParen ∨ t.kind = .bang ∨ t.kind = .minus) ∧
        parseWithin m tokens = (.error (.atToken t "Expression nested too deeply."), i + 1)) ∧
      (∀ m, (∃ t, (parseWithin m tokens).1 =
        .error (.atToken t "Expression nested too deeply.")) ↔ m < deepest) ∧
      (∀ m m', m ≤ m' →
        (∀ t, (parseWithin m tokens).1 ≠ .error (.atToken t "Expression nested too deeply.")) →
        parseWithin m' tokens = parseWithin m tokens) ∧
      (∀ m, deepest ≤ m → (nestingLevels ts).length ≤ (parseWithin m tokens).2 ∧
        (parseWithin m tokens).2 ≤ (nestingLevels ts).length + 1) ∧
      (∀ m e, (parseWithin m tokens).1 = .ok e → e.nesting = deepest) := by
  intro ts deepest
  refine ⟨fun m m' hm hm' => ?_, fun m => parseWithin_of_lt, fun m => parseWithin_tooDeep_iff,
    fun m m' hm h => ?_, fun m => parseWithin_position, fun m e => nesting_eq_of_parseWithin⟩
  · rw [parseWithin_eq_of_le (Nat.le_refl _) hm, parseWithin_eq_of_le (Nat.le_refl _) hm']
  · have hle : deepest ≤ m := Nat.le_of_not_lt fun hlt =>
      (parseWithin_tooDeep_iff.2 hlt).elim h
    exact parseWithin_eq_of_le hle hm

end Parser

end ExprSyntax
