import ExprSyntax.Proofs.Grammar.Viability
import ExprSyntax.Proofs.Parser.Reading

/-!
# Where a syntax error is reported

A parser that fails reports the first token that no expression can have there: the tokens in front
of it are viable, and with it they are not (`parse_error_cases`). The offender is the token at which
the parser stands, or the one in front if it has been taken: a group or sign that is nested too
deeply, which is viable without the bound, or a token without its value.
-/

namespace ExprSyntax

/-- The diagnostic names the line and the lexeme of `t`, or the end if `t` is an end marker. -/
def Diagnostic.PointsAt (d : Diagnostic) (t : Token) : Prop :=
  d.line = t.line ∧ d.location = if t.kind = .eof then .atEnd else .atLexeme t.lexeme

/-- A parser over `ts` stands in front of a token that goes on with no expression. -/
structure Unexpected (ts : List Token) (bound n : Nat) (d : Diagnostic) : Prop where
  message : d.message = "Expected expression." ∨ d.message = "Expect ')' after expression."
  offender : ∃ t, ts[n]? = some t ∧ d.PointsAt t
  viable : Viable (some bound) (ts.take n)
  not_viable : ¬ Viable none (ts.take (n + 1))

/-- A parser over `ts` stands behind a token that would open one nesting level too many. -/
structure TooDeep (ts : List Token) (bound n : Nat) (d : Diagnostic) : Prop where
  message : d.message = "Expression nested too deeply."
  pos : 0 < n
  offender : ∃ t, ts[n - 1]? = some t ∧ d.PointsAt t ∧
    (t.kind = .leftParen ∨ t.kind = .bang ∨ t.kind = .minus)
  viable : Viable (some bound) (ts.take (n - 1))
  viable_without : Viable none (ts.take n)
  not_viable : ¬ Viable (some bound) (ts.take n)

/-- A parser over `ts` stands behind a token that has no value. -/
structure Valueless (ts : List Token) (bound n : Nat) (d : Diagnostic) : Prop where
  message : d.message = "Literal token has no value."
  pos : 0 < n
  offender : ∃ t, ts[n - 1]? = some t ∧ d.PointsAt t ∧
    (t.kind = .number ∨ t.kind = .string) ∧ t.literal = none
  viable : Viable (some bound) (ts.take (n - 1))
  not_viable : ¬ Viable none (ts.take n)

/-! ## The three cases exclude each other -/

section
variable {ts : List Token} {bound n : Nat} {d : Diagnostic}

theorem Unexpected.not_tooDeep (h : Unexpected ts bound n d) : ¬ TooDeep ts bound n d := by
  intro h'
  rcases h.message with hm | hm <;>
  · rw [h'.message] at hm
    exact absurd hm (by decide)

theorem Unexpected.not_valueless (h : Unexpected ts bound n d) : ¬ Valueless ts bound n d := by
  intro h'
  rcases h.message with hm | hm <;>
  · rw [h'.message] at hm
    exact absurd hm (by decide)

theorem TooDeep.not_valueless (h : TooDeep ts bound n d) : ¬ Valueless ts bound n d := by
  intro h'
  have hm := h.message
  rw [h'.message] at hm
  exact absurd hm (by decide)

end

theorem SyntaxError.diagnostic_pointsAt (e : SyntaxError) : e.diagnostic.PointsAt e.offender :=
  ⟨rfl, rfl⟩

namespace Parser

/-- Where a failed parser stands, seen from the offender. -/
theorem position_of_failed {p q : Parser} (h : Forward p q) {read behind : List Token}
    {err : SyntaxError} (hts : p.ahead = read ++ err.offender :: behind)
    (hrest : q.ahead = err.left behind) :
    q.position = p.position + read.length + if err.fault.taken then 1 else 0 := by
  unfold SyntaxError.left at hrest
  split
  · rename_i ht
    rw [if_pos ht] at hrest
    have hp : p.ahead = (read ++ [err.offender]) ++ q.ahead := by simp [hts, hrest]
    rw [h.position_eq hp]
    simp [Nat.add_assoc]
  · rename_i ht
    rw [if_neg ht] at hrest
    exact h.position_eq (by rw [hts, hrest])

/-- The offender of a failed parse and what stands in front of it. -/
theorem exists_case_of_parse_error {tokens : List Token} {maxDepth : Nat} {d : Diagnostic}
    {q : Parser} (h : (ofTokens tokens maxDepth).parse = (.error d, q)) :
    Unexpected (Token.closeList tokens) maxDepth q.position d ∨
      TooDeep (Token.closeList tokens) maxDepth q.position d ∨
      Valueless (Token.closeList tokens) maxDepth q.position d := by
  obtain ⟨err, rfl, hr⟩ := reads_of_parse_error h
  obtain ⟨read, behind, hts, hrest, hviable, hdeep⟩ := hr.viable_of_failed (Nat.zero_le _)
  obtain ⟨hnested, hvalue⟩ := hr.offender_of_failed
  have hn : q.position = read.length + if err.fault.taken then 1 else 0 := by
    rw [← Nat.zero_add read.length]
    exact position_of_failed (Forward.of_parse h) hts hrest
  rw [hrest, hts] at hr
  rw [ahead_ofTokens] at hts
  generalize Token.closeList tokens = ts at hts ⊢
  have hget : ts[read.length]? = some err.offender := by simp [hts]
  have htake : ts.take read.length = read := by simp [hts]
  have htake' : ts.take (read.length + 1) = read ++ [err.offender] := by
    rw [hts, List.append_cons, List.take_left' (by simp)]
  have hpoints := err.diagnostic_pointsAt
  have hwithin := hr.not_viable (some maxDepth) (.inl rfl)
  have hwithout := fun hf => hr.not_viable none (.inr hf)
  rw [← htake] at hviable
  rw [← htake'] at hdeep hwithin hwithout
  rw [hn]
  obtain ⟨fault, offender⟩ := err
  cases fault with
  | expectedExpression =>
    exact .inl ⟨.inl rfl, ⟨offender, hget, hpoints⟩, hviable, hwithout nofun⟩
  | expectedRightParen =>
    exact .inl ⟨.inr rfl, ⟨offender, hget, hpoints⟩, hviable, hwithout nofun⟩
  | nestedTooDeeply =>
    exact .inr (.inl ⟨rfl, Nat.succ_pos _, ⟨offender, hget, hpoints, hnested rfl⟩, hviable,
      hdeep rfl, hwithin⟩)
  | missingValue =>
    exact .inr (.inr ⟨rfl, Nat.succ_pos _, ⟨offender, hget, hpoints, hvalue rfl⟩, hviable,
      hwithout nofun⟩)

/-- A failed parse of a new parser is exactly one of the three cases. -/
theorem parse_error_cases (tokens : List Token) (maxDepth : Nat) (d : Diagnostic)
    (h : (ofTokens tokens maxDepth).parse.1 = .error d) :
    let ts := Token.closeList tokens
    let n := (ofTokens tokens maxDepth).parse.2.position
    Unexpected ts maxDepth n d ∧ ¬ TooDeep ts maxDepth n d ∧ ¬ Valueless ts maxDepth n d ∨
      ¬ Unexpected ts maxDepth n d ∧ TooDeep ts maxDepth n d ∧ ¬ Valueless ts maxDepth n d ∨
      ¬ Unexpected ts maxDepth n d ∧ ¬ TooDeep ts maxDepth n d ∧ Valueless ts maxDepth n d := by
  intro ts n
  rcases exists_case_of_parse_error (Prod.ext h rfl) with hu | hd | hv
  · exact .inl ⟨hu, hu.not_tooDeep, hu.not_valueless⟩
  · exact .inr (.inl ⟨fun hu => hu.not_tooDeep hd, hd, hd.not_valueless⟩)
  · exact .inr (.inr ⟨fun hu => hu.not_valueless hv, fun hd => hd.not_valueless hv, hv⟩)

/-- In `(nil + -nil` a bound of one is run into at the sign, behind which the parser then stands. -/
theorem parse_error_cases_sign :
    let op : Token := ⟨.minus, "-", none, 2⟩
    let tokens : List Token :=
      [⟨.leftParen, "(", none, 1⟩, .leaf, ⟨.plus, "+", none, 1⟩, op, .leaf]
    let d : Diagnostic := ⟨.syntactic, 2, .atLexeme "-", "Expression nested too deeply."⟩
    (ofTokens tokens 1).parse.1 = .error d ∧ TooDeep (Token.closeList tokens) 1 4 d := by
  intro op tokens d
  have hp : (ofTokens tokens 1).parse.1 = .error d := by cbv
  have hn : (ofTokens tokens 1).parse.2.position = 4 := by cbv
  refine ⟨hp, ?_⟩
  rcases parse_error_cases tokens 1 d hp with ⟨hu, -⟩ | ⟨-, hd, -⟩ | ⟨-, -, hv⟩
  · rcases hu.message with hm | hm <;> exact absurd hm (by decide)
  · rwa [hn] at hd
  · exact absurd hv.message (by decide)

end Parser

end ExprSyntax
