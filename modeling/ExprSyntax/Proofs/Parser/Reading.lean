import ExprSyntax.Proofs.Grammar.Reads
import Mathlib

/-!
# The reading of a parser

What a parser reads depends on the tokens ahead of it and on the nesting levels it has to spare
only: `reads_read` says that its reading is the outcome of `Reads` for these two.
-/

namespace ExprSyntax

namespace Parser

/-- The tokens from the current one on. -/
def ahead (p : Parser) : List Token :=
  p.tokens.toList.drop p.position

/-- The nesting levels that are still to be opened. -/
def allowance (p : Parser) : Nat :=
  p.maxDepth - p.depth

/-! ## The tokens ahead -/

theorem tokens_ofTokens (tokens : List Token) (maxDepth : Nat) :
    (ofTokens tokens maxDepth).tokens.toList = Token.closeList tokens := by
  simp [ofTokens]

theorem ahead_ofTokens (tokens : List Token) (maxDepth : Nat) :
    (ofTokens tokens maxDepth).ahead = Token.closeList tokens := by
  simp [ahead, ofTokens]

theorem ahead_eq_cons (p : Parser) :
    p.ahead = p.current :: p.tokens.toList.drop (p.position + 1) := by
  rw [ahead, List.drop_eq_getElem_cons (by simpa using p.position_lt)]
  simp [current]

theorem ahead_eq_cons_advance {p : Parser} (h : ¬ p.atEnd) :
    p.ahead = p.current :: p.advance.ahead := by
  rw [ahead_eq_cons]
  simp [ahead, advance, h]

theorem previous_advance {p : Parser} (h : ¬ p.atEnd) : p.advance.previous = p.current := by
  simp [previous, current, advance, h]

theorem of_accept?_eq_some {p q : Parser} {kinds : List TokenKind}
    (h : p.accept? kinds = some q) :
    p.current.kind ∈ kinds ∧ p.ahead = p.current :: q.ahead ∧ q.previous = p.current := by
  obtain ⟨hend, hk, rfl⟩ := accept?_eq_some h
  exact ⟨hk, ahead_eq_cons_advance hend, previous_advance hend⟩

theorem of_accept?_eq_none {p : Parser} {kinds : List TokenKind} (hk : .eof ∉ kinds)
    (h : p.accept? kinds = none) : p.current.kind ∉ kinds := by
  intro hmem
  have hend : p.current.kind ≠ .eof := fun he => hk (he ▸ hmem)
  simp [accept?, looksAt, atEnd, hend, hmem] at h

theorem Forward.allowance_eq {p q : Parser} (h : Forward p q) : q.allowance = p.allowance := by
  rw [allowance, allowance, h.maxDepth, h.depth]

@[simp] theorem ahead_leave (p : Parser) : p.leave.ahead = p.ahead := rfl

theorem of_enter_eq_ok {p q : Parser} (h : p.enter = .ok q) :
    q.ahead = p.ahead ∧ q.allowance + 1 = p.allowance := by
  unfold enter at h
  split at h
  · cases h
  · cases h
    exact ⟨rfl, by simp only [allowance]; omega⟩

theorem of_enter_eq_error {p : Parser} {e : SyntaxError} (h : p.enter = .error e) :
    e = ⟨.nestedTooDeeply, p.previous⟩ ∧ p.allowance = 0 := by
  unfold enter at h
  split at h
  · cases h
    exact ⟨rfl, Nat.sub_eq_zero_of_le ‹_›⟩
  · cases h

end Parser

/-! ## Outcomes of readings -/

namespace Reading

variable {p q : Parser}

def outcome (r : Reading p) : Outcome :=
  match r.result with
  | .ok tree => .parsed tree r.after.ahead
  | .error error => .failed error r.after.ahead

theorem outcome_of_ok {r : Reading p} {e : Expr} (h : r.result = .ok e) :
    r.outcome = .parsed e r.after.ahead := by
  simp [outcome, h]

theorem outcome_of_error {r : Reading p} {e : SyntaxError} (h : r.result = .error e) :
    r.outcome = .failed e r.after.ahead := by
  simp [outcome, h]

@[simp] theorem outcome_done (p : Parser) (e : Expr) : (done p e).outcome = .parsed e p.ahead := rfl

@[simp] theorem outcome_fail (p : Parser) (e : SyntaxError) :
    (fail p e).outcome = .failed e p.ahead := rfl

@[simp] theorem outcome_behind (h : p.Forward q) (r : Reading q) :
    (behind h r).outcome = r.outcome := rfl

theorem andThen_of_ok {r : Reading p} {e : Expr} (h : r.result = .ok e)
    (next : Expr → (q : Parser) → p.Forward q → Reading q) :
    r.andThen next = (next e r.after r.forward).behind r.forward := by
  simp [andThen, h]

theorem andThen_of_error {r : Reading p} {e : SyntaxError} (h : r.result = .error e)
    (next : Expr → (q : Parser) → p.Forward q → Reading q) : r.andThen next = r := by
  simp [andThen, h]

end Reading

namespace Parser

/-! ## The rules -/

theorem eof_not_mem_operators (l : Precedence) : TokenKind.eof ∉ l.operators := by
  cases l <;> decide

theorem reads_readLeaf {p : Parser} (hp : p.current.kind ≠ .leftParen) (b : Nat) :
    Reads b (.phrase .primary) p.ahead p.readLeaf.outcome := by
  unfold readLeaf
  split
  · rename_i v hv
    have hend : ¬ p.atEnd := by
      intro he
      simp [show p.current.kind = .eof by simpa [atEnd] using he, TokenKind.constant?] at hv
    rw [ahead_eq_cons_advance hend]
    exact .constant hv
  · rename_i hv
    split
    · rename_i q h
      obtain ⟨hk, ha, hq⟩ := of_accept?_eq_some h
      rw [ha]
      split
      · rename_i v hl
        exact .value hk (hq ▸ hl)
      · rename_i hl
        rw [Reading.outcome_behind, Reading.outcome_fail, hq]
        exact .valueMissing hk (hq ▸ hl)
    · rename_i h
      have hk := of_accept?_eq_none (by decide) h
      rw [Reading.outcome_fail, ahead_eq_cons]
      exact .unexpected hv (by simp_all)

theorem reads_closeGroup {p : Parser} {b : Nat} {t : Token} {ts : List Token} {e : Expr}
    (ht : t.kind = .leftParen) (h : Reads b (.phrase .expression) ts (.parsed e p.ahead)) :
    Reads (b + 1) (.phrase .primary) (t :: ts) (closeGroup e p).outcome := by
  unfold closeGroup
  split
  · rename_i q hq
    obtain ⟨hk, ha, -⟩ := of_accept?_eq_some hq
    rw [ha] at h
    exact .group ht (by simpa using hk) h
  · rename_i hq
    have hk := of_accept?_eq_none (by decide) hq
    rw [Reading.outcome_fail]
    rw [ahead_eq_cons] at h ⊢
    exact .groupOpen ht (by simpa using hk) h

/-- A sign is read as its operand is, one level further in. -/
theorem reads_sign {p q : Parser} (hq : p.accept? TokenKind.signs = some q)
    (hin : ∀ i, q.enter = .ok i →
      Reads i.allowance (.phrase .unary) i.ahead (i.read .unary).outcome) :
    Reads p.allowance (.phrase .unary) p.ahead
      ((q.nested fun i _ => i.read .unary).map (.unary q.previous)).outcome := by
  obtain ⟨hk, ha, hprev⟩ := of_accept?_eq_some hq
  rw [ha, ← (forward_accept hq).allowance_eq, hprev]
  unfold nested
  split
  · rename_i i hi
    obtain ⟨hia, hib⟩ := of_enter_eq_ok hi
    have ho := hin i hi
    rw [← hib, ← hia]
    cases hr : (i.read .unary).result with
    | error e =>
      rw [Reading.outcome_of_error hr] at ho
      simpa [Reading.outcome, Reading.map, hr, Except.map] using Reads.signFailed hk ho
    | ok e =>
      rw [Reading.outcome_of_ok hr] at ho
      simpa [Reading.outcome, Reading.map, hr, Except.map] using Reads.sign hk ho
  · rename_i e he
    obtain ⟨rfl, hb⟩ := of_enter_eq_error he
    rw [hb, hprev]
    exact .signDeep hk

/-- A group is read as what is inside, one level further in, and then has to be closed. -/
theorem reads_group {p q : Parser} (hq : p.accept? [.leftParen] = some q)
    (hin : ∀ i, q.enter = .ok i →
      Reads i.allowance (.phrase .expression) i.ahead (i.read .expression).outcome) :
    Reads p.allowance (.phrase .primary) p.ahead
      ((q.nested fun i _ => i.read .expression).andThen fun e r _ => closeGroup e r).outcome := by
  obtain ⟨hk, ha, hprev⟩ := of_accept?_eq_some hq
  replace hk : p.current.kind = .leftParen := by simpa using hk
  rw [ha, ← (forward_accept hq).allowance_eq]
  unfold nested
  split
  · rename_i i hi
    obtain ⟨hia, hib⟩ := of_enter_eq_ok hi
    have ho := hin i hi
    rw [← hib, ← hia]
    cases hr : (i.read .expression).result with
    | error e =>
      rw [Reading.outcome_of_error hr] at ho
      simpa [Reading.outcome, Reading.andThen, hr] using Reads.groupFailed hk ho
    | ok e =>
      rw [Reading.outcome_of_ok hr] at ho
      simpa [Reading.andThen, hr] using reads_closeGroup (p := (i.read _).after.leave) hk ho
  · rename_i e he
    obtain ⟨rfl, hb⟩ := of_enter_eq_error he
    rw [hb, hprev]
    exact .groupDeep hk

mutual

theorem reads_read (n : Nonterminal) (p : Parser) :
    Reads p.allowance (.phrase n) p.ahead (p.read n).outcome := by
  cases n with
  | binary l =>
    rw [read]
    have ho := reads_read l.operand p
    cases hr : (p.read l.operand).result with
    | error e =>
      rw [Reading.outcome_of_error hr] at ho
      simp only [Reading.andThen_of_error hr, Reading.outcome_of_error hr]
      exact .operandFailed ho
    | ok left =>
      have hc := reads_readChain l left (p.read l.operand).after
      rw [(p.read l.operand).forward.allowance_eq] at hc
      rw [Reading.outcome_of_ok hr] at ho
      simp only [Reading.andThen_of_ok hr, Reading.outcome_behind]
      exact .operand ho hc
  | unary =>
    rw [read]
    split
    · rename_i q hq
      rw [Reading.outcome_behind]
      exact reads_sign hq fun i hi => reads_read .unary i
    · rename_i hq
      have ho := reads_read .primary p
      rw [ahead_eq_cons] at ho ⊢
      exact .unsigned (of_accept?_eq_none (by decide) hq) ho
  | primary =>
    rw [read]
    split
    · rename_i q hq
      rw [Reading.outcome_behind]
      exact reads_group hq fun i hi => reads_read .expression i
    · rename_i hq
      exact reads_readLeaf (by simpa using of_accept?_eq_none (by decide) hq) _
termination_by p.remaining * 10 + n.rank
decreasing_by
  · have := Nonterminal.rank_operand l
    omega
  · have := Nonterminal.rank_operand l
    have := (p.read l.operand).forward.remaining_le
    omega
  · have := remaining_enter_lt ‹p.accept? _ = _› ‹_›
    omega
  · simp only [Nonterminal.rank]
    omega
  · have := remaining_enter_lt ‹p.accept? _ = _› ‹_›
    have := Nonterminal.rank_le .expression
    omega

theorem reads_readChain (l : Precedence) (left : Expr) (p : Parser) :
    Reads p.allowance (.chain l left) p.ahead (p.readChain l left).outcome := by
  rw [readChain]
  split
  · rename_i q hq
    obtain ⟨hk, ha, hprev⟩ := of_accept?_eq_some hq
    have ho := reads_read l.operand q
    rw [(forward_accept hq).allowance_eq] at ho
    rw [ha, Reading.outcome_behind, hprev]
    cases hr : (q.read l.operand).result with
    | error e =>
      rw [Reading.outcome_of_error hr] at ho
      simp only [Reading.andThen_of_error hr, Reading.outcome_of_error hr]
      exact .stepFailed hk ho
    | ok right =>
      have hlt := Nat.lt_of_le_of_lt (q.read l.operand).forward.remaining_le
        (remaining_accept_lt hq)
      have hc := reads_readChain l (.binary left p.current right) (q.read l.operand).after
      rw [((forward_accept hq).trans (q.read l.operand).forward).allowance_eq] at hc
      rw [Reading.outcome_of_ok hr] at ho
      simp only [Reading.andThen_of_ok hr, Reading.outcome_behind]
      exact .step hk ho hc
  · rename_i hq
    rw [Reading.outcome_done, ahead_eq_cons]
    exact .stop (of_accept?_eq_none (eof_not_mem_operators l) hq)
termination_by p.remaining * 10 + l.operand.rank + 1
decreasing_by
  · have := remaining_accept_lt ‹_›
    omega
  · omega

end

/-! ## Parsing -/

theorem parse_fst (p : Parser) : p.parse.1 = (p.read .expression).outcome.result := by
  cases h : (p.read .expression).result <;>
    simp [parse, Reading.outcome, Outcome.result, h, Except.mapError]

theorem ahead_parse_snd (p : Parser) : p.parse.2.ahead = (p.read .expression).outcome.rest := by
  cases h : (p.read .expression).result <;> simp [parse, Reading.outcome, h]

theorem reads_of_parse_ok {p q : Parser} {e : Expr} (h : p.parse = (.ok e, q)) :
    Reads p.allowance (.phrase .expression) p.ahead (.parsed e q.ahead) := by
  have hres := p.parse_fst
  have hrest := p.ahead_parse_snd
  have hr := reads_read .expression p
  rw [h] at hres hrest
  cases ho : (p.read .expression).outcome with
  | parsed e' rest =>
    rw [ho] at hres hrest hr
    cases hres
    rwa [hrest]
  | failed err rest =>
    rw [ho] at hres
    cases hres

theorem reads_of_parse_error {p q : Parser} {d : Diagnostic} (h : p.parse = (.error d, q)) :
    ∃ err : SyntaxError, d = err.diagnostic ∧
      Reads p.allowance (.phrase .expression) p.ahead (.failed err q.ahead) := by
  have hres := p.parse_fst
  have hrest := p.ahead_parse_snd
  have hr := reads_read .expression p
  rw [h] at hres hrest
  cases ho : (p.read .expression).outcome with
  | parsed e rest =>
    rw [ho] at hres
    cases hres
  | failed err rest =>
    rw [ho] at hres hrest hr
    cases hres
    exact ⟨err, rfl, by rwa [hrest]⟩

theorem parse_of_reads {p : Parser} {e : Expr} {rest : List Token}
    (h : Reads p.allowance (.phrase .expression) p.ahead (.parsed e rest)) :
    ∃ q, p.parse = (.ok e, q) ∧ q.ahead = rest := by
  have ho := (reads_read .expression p).deterministic h
  exact ⟨p.parse.2, Prod.ext (by rw [parse_fst, ho]; rfl) rfl, by rw [ahead_parse_snd, ho]; rfl⟩

theorem Forward.of_parse {p q : Parser} {r : Except Diagnostic Expr} (h : p.parse = (r, q)) :
    Forward p q := by
  have := forward_parse p
  rwa [h] at this

/-- What has been taken is what is not ahead any more. -/
theorem Forward.position_add_length {p q : Parser} (h : Forward p q) :
    q.position + q.ahead.length = p.position + p.ahead.length := by
  have hp := p.position_lt
  have hq := q.position_lt
  simp only [ahead, List.length_drop, h.tokens, Array.length_toList] at hq ⊢
  omega

/-- How far a parser has gone is told by the tokens that it has left behind. -/
theorem Forward.position_eq {p q : Parser} (h : Forward p q) {taken : List Token}
    (ht : p.ahead = taken ++ q.ahead) : q.position = p.position + taken.length := by
  have hsum := h.position_add_length
  rw [ht, List.length_append] at hsum
  omega

end Parser

end ExprSyntax
