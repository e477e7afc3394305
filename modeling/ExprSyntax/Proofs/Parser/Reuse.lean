import ExprSyntax.Proofs.Parser.Reading
import ExprSyntax.Source.Run

/-!
# Using a parser again

A parser can be called any number of times, whatever came of the calls before. Every call leads
`Forward` (`forward_call`), so all of them together do: the tokens, the bound and the nesting
counter are as they were, and no end marker has been passed. A parse depends on the tokens ahead and
the nesting to spare only, so it is that of a new parser over the tokens ahead
(`parse_eq_of_ahead_eq`).
-/

namespace ExprSyntax

namespace Parser

/-- A call on a parser; a parse is given the log to which it reports. -/
inductive Call where
  | parse (log : Log)
  | synchronize
  | current

/-- What a call gives back. -/
inductive Answer where
  | tree (tree : Option Expr) (log : Log)
  | nothing
  | token (t : Token)

def call (p : Parser) : Call → Answer × Parser
  | .parse log =>
    let (result, q) := p.parse
    (.tree result.toOption (log ++ parseLog result), q)
  | .synchronize => (.nothing, p.synchronize)
  | .current => (.token p.current, p)

/-- The parser after a sequence of calls. -/
def afterCalls (p : Parser) (calls : List Call) : Parser :=
  calls.foldl (fun p c => (p.call c).2) p

/-! ## What calls keep -/

theorem forward_call (p : Parser) (c : Call) : Forward p (p.call c).2 := by
  cases c with
  | parse => exact forward_parse p
  | synchronize => exact forward_synchronize p
  | current => exact .refl p

theorem forward_afterCalls (p : Parser) (calls : List Call) : Forward p (p.afterCalls calls) := by
  induction calls generalizing p with
  | nil => exact .refl p
  | cons c calls ih => exact (forward_call p c).trans (ih _)

/-- The number of tokens in front of the next end marker. -/
def toEnd (p : Parser) : Nat :=
  p.ahead.findIdx fun t => t.kind = .eof

theorem toEnd_eq_zero_iff {p : Parser} : p.toEnd = 0 ↔ p.atEnd := by
  rw [toEnd, ahead_eq_cons, List.findIdx_cons, atEnd]
  cases decide (p.current.kind = .eof) <;> simp

/-- What has been taken on the way is in front of what is ahead, with no end marker in it. -/
theorem Forward.exists_ahead {p q : Parser} (h : Forward p q) :
    ∃ taken, p.ahead = taken ++ q.ahead ∧ ∀ t ∈ taken, t.kind ≠ .eof := by
  obtain ⟨n, hn⟩ := Nat.exists_eq_add_of_le h.position
  have hdrop : q.ahead = p.ahead.drop n := by
    rw [ahead, ahead, h.tokens, hn, List.drop_drop]
  refine ⟨p.ahead.take n, by rw [hdrop, List.take_append_drop], fun t ht => ?_⟩
  obtain ⟨i, hi, hget⟩ := List.mem_take_iff_getElem.1 ht
  refine h.kind_ne_eof (p.position + i) (Nat.le_add_right ..) (by omega) t ?_
  rw [← Array.getElem?_toList, ← List.getElem?_drop]
  exact List.getElem?_eq_some_iff.2 ⟨_, hget⟩

/-- The next end marker stays where it is. -/
theorem Forward.position_add_toEnd {p q : Parser} (h : Forward p q) :
    q.position + q.toEnd = p.position + p.toEnd := by
  obtain ⟨taken, hahead, hne⟩ := h.exists_ahead
  have hnone : taken.findIdx (fun t => decide (t.kind = .eof)) = taken.length :=
    List.findIdx_eq_length.2 fun t ht => decide_eq_false (hne t ht)
  have hfind : p.toEnd = q.toEnd + taken.length := by
    rw [toEnd, toEnd, hahead, List.findIdx_append, hnone, if_neg (Nat.lt_irrefl _)]
  rw [hfind, h.position_eq hahead]
  omega

/-- No end marker stands in front of a parser that began at the first token. -/
theorem Forward.position_le_findIdx {p q : Parser} (h : Forward p q) (hp : p.position = 0) :
    q.position ≤ p.tokens.toList.findIdx fun t => t.kind = .eof := by
  have hsum := h.position_add_toEnd
  have hall : p.toEnd = p.tokens.toList.findIdx fun t => t.kind = .eof := by
    rw [toEnd, ahead, hp, List.drop_zero]
  omega

/-! ## A parse depends on what is ahead -/

/-- A parse is told by the tokens ahead and the outcome of reading them. -/
theorem parse_eq_of_outcome_eq {p p' : Parser} (ha : p.ahead = p'.ahead)
    (ho : (p.read .expression).outcome = (p'.read .expression).outcome) :
    p.parse.1 = p'.parse.1 ∧
      p.parse.2.position + p'.position = p'.parse.2.position + p.position := by
  have hpos := (forward_parse p).position_add_length
  have hpos' := (forward_parse p').position_add_length
  rw [ahead_parse_snd, ho, ha] at hpos
  rw [ahead_parse_snd] at hpos'
  exact ⟨by rw [parse_fst, parse_fst, ho], by omega⟩

theorem parse_eq_of_ahead_eq {p p' : Parser} (ha : p.ahead = p'.ahead)
    (hb : p.allowance = p'.allowance) :
    p.parse.1 = p'.parse.1 ∧
      p.parse.2.position + p'.position = p'.parse.2.position + p.position := by
  have hr := reads_read .expression p
  rw [ha, hb] at hr
  exact parse_eq_of_outcome_eq ha (hr.deterministic (reads_read .expression p'))

/-- A list that ends in an end marker is closed as it is. -/
theorem closeList_ahead (p : Parser) : Token.closeList p.ahead = p.ahead := by
  have hlast : p.ahead.getLast?.map Token.kind = some .eof := by
    rw [ahead, List.getLast?_drop, if_neg (by simpa using p.position_lt)]
    simpa using p.closed
  rw [Token.closeList, if_pos hlast]

/-- After any calls the tokens, the bound and the counter are those of the new parser, and a parse
is that of a new parser over the tokens from the position on. -/
theorem parse_afterCalls (tokens : List Token) (maxDepth : Nat) (calls : List Call) :
    let ts := Token.closeList tokens
    let p := (ofTokens tokens maxDepth).afterCalls calls
    let fresh := ofTokens (ts.drop p.position) maxDepth
    p.tokens.toList = ts ∧ p.maxDepth = maxDepth ∧ p.depth = 0 ∧
      p.position < ts.length ∧ p.position ≤ ts.findIdx (fun t => t.kind = .eof) ∧
      (∀ c, p.position ≤ (p.call c).2.position) ∧
      ∀ log, (p.call (.parse log)).1 = (fresh.call (.parse log)).1 ∧
        (p.call (.parse log)).2.position = p.position + (fresh.call (.parse log)).2.position := by
  intro ts p fresh
  have hf : Forward (ofTokens tokens maxDepth) p := forward_afterCalls _ calls
  have hts : p.tokens.toList = ts := by rw [hf.tokens, tokens_ofTokens]
  have hmax : p.maxDepth = maxDepth := hf.maxDepth
  have hdepth : p.depth = 0 := hf.depth
  have hahead : p.ahead = fresh.ahead := by
    rw [ahead_ofTokens, ← hts]
    exact (closeList_ahead p).symm
  have hallow : p.allowance = fresh.allowance := by
    rw [allowance, hmax, hdepth]
    rfl
  obtain ⟨hres, hpos⟩ := parse_eq_of_ahead_eq hahead hallow
  refine ⟨hts, hmax, hdepth, ?_, ?_, fun c => (forward_call p c).position, fun log => ⟨?_, ?_⟩⟩
  · simpa [← hts] using p.position_lt
  · simpa [tokens_ofTokens] using hf.position_le_findIdx rfl
  · simp only [call, hres]
  · rw [Nat.add_comm]
    exact hpos

end Parser

end ExprSyntax
