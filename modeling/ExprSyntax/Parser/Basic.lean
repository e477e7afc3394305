import ExprSyntax.Grammar.SyntaxError

/-!
# A place in a token list

A `Parser` stands at a position of a token list that ends in an end marker, and counts the groups
and signs that are open there. It looks at the current token and the one before, goes forward one
token at a time and never past an end marker (`advance`), and goes one nesting level in and out
(`enter`, `leave`). Every position that it can take is one of its list, so tokens are read by index.
-/

namespace ExprSyntax

structure Parser where
  tokens : Array Token
  position : Nat
  maxDepth : Nat
  /-- The number of groups and signs that are open. -/
  depth : Nat
  position_lt : position < tokens.size
  closed : tokens.back?.map Token.kind = some .eof
deriving DecidableEq

/-- A list with an end marker behind it, on the line of its last token, if it does not end in
one. -/
def Token.closeList (tokens : List Token) : List Token :=
  if tokens.getLast?.map kind = some .eof then tokens
  else tokens ++ [.eof ((tokens.getLast?.map line).getD 1)]

theorem Token.getLast?_closeList (tokens : List Token) :
    (closeList tokens).getLast?.map kind = some .eof := by
  unfold closeList
  split
  · assumption
  · simp [eof]

theorem Token.closeList_ne_nil (tokens : List Token) : closeList tokens ≠ [] := by
  intro h
  simpa [h] using getLast?_closeList tokens

namespace Parser

/-- The nesting of groupings and unary operators that is allowed where nothing else is said. -/
def defaultMaxDepth : Nat := 128

/-- A parser at the first of the tokens. -/
def ofTokens (tokens : List Token) (maxDepth : Nat) : Parser where
  tokens := (Token.closeList tokens).toArray
  position := 0
  maxDepth := maxDepth
  depth := 0
  position_lt := by simpa [List.length_pos_iff] using Token.closeList_ne_nil tokens
  closed := by simpa using Token.getLast?_closeList tokens

/-! ## Looking -/

/-- The token that the parser looks at. -/
def current (p : Parser) : Token :=
  getElem p.tokens p.position p.position_lt

theorem getElem?_position (p : Parser) : p.tokens[p.position]? = some p.current :=
  Array.getElem?_eq_getElem p.position_lt

/-- The token in front of the current one; the first token has only itself. -/
def previous (p : Parser) : Token :=
  getElem p.tokens (p.position - 1) (Nat.lt_of_le_of_lt (Nat.sub_le _ _) p.position_lt)

def atEnd (p : Parser) : Bool :=
  p.current.kind = .eof

/-- Whether the current token is of one of the kinds; an end marker never is. -/
def looksAt (p : Parser) (kinds : List TokenKind) : Bool :=
  !p.atEnd && p.current.kind ∈ kinds

/-- The number of tokens from the current one on. -/
def remaining (p : Parser) : Nat :=
  p.tokens.size - p.position

/-! ## Going forward -/

theorem succ_position_lt {p : Parser} (h : ¬ p.atEnd) : p.position + 1 < p.tokens.size := by
  refine Nat.lt_of_le_of_ne p.position_lt fun hlast => h ?_
  have hback : p.tokens.back? = some p.current := by
    rw [Array.back?, ← hlast, Nat.add_sub_cancel, getElem?_position]
  simpa [hback, atEnd] using p.closed

/-- Goes past the current token, unless it is an end marker. -/
def advance (p : Parser) : Parser :=
  if h : p.atEnd then p
  else { p with position := p.position + 1, position_lt := succ_position_lt h }

/-- Goes past the current token if it is of one of the kinds. -/
def accept? (p : Parser) (kinds : List TokenKind) : Option Parser :=
  if p.looksAt kinds then some p.advance else none

/-! ## Nesting -/

/-- Goes one nesting level further in; the token that was taken last would open it. -/
def enter (p : Parser) : Except SyntaxError Parser :=
  if p.maxDepth ≤ p.depth then .error ⟨.nestedTooDeeply, p.previous⟩
  else .ok { p with depth := p.depth + 1 }

/-- Goes one nesting level out. -/
def leave (p : Parser) : Parser :=
  { p with depth := p.depth - 1 }

/-! ## Parsers further on -/

/-- `q` stands in the list of `p` at the same nesting and not in front of `p`, and no end marker has
been passed on the way. -/
structure Forward (p q : Parser) : Prop where
  tokens : q.tokens = p.tokens
  maxDepth : q.maxDepth = p.maxDepth
  depth : q.depth = p.depth
  position : p.position ≤ q.position
  kind_ne_eof : ∀ i, p.position ≤ i → i < q.position →
    ∀ t, p.tokens[i]? = some t → t.kind ≠ .eof

namespace Forward

theorem refl (p : Parser) : Forward p p :=
  ⟨rfl, rfl, rfl, Nat.le_refl _, fun _ hle hlt => absurd hlt (Nat.not_lt_of_le hle)⟩

theorem trans {p q r : Parser} (hpq : Forward p q) (hqr : Forward q r) : Forward p r := by
  refine ⟨hqr.tokens.trans hpq.tokens, hqr.maxDepth.trans hpq.maxDepth, hqr.depth.trans hpq.depth,
    Nat.le_trans hpq.position hqr.position, fun i hle hlt t ht => ?_⟩
  by_cases hi : i < q.position
  · exact hpq.kind_ne_eof i hle hi t ht
  · exact hqr.kind_ne_eof i (Nat.le_of_not_lt hi) hlt t (hpq.tokens ▸ ht)

theorem remaining_le {p q : Parser} (h : Forward p q) : q.remaining ≤ p.remaining := by
  rw [remaining, remaining, h.tokens]
  exact Nat.sub_le_sub_left h.position _

end Forward

theorem forward_advance (p : Parser) : Forward p p.advance := by
  unfold advance
  split
  · exact .refl p
  · rename_i hend
    refine ⟨rfl, rfl, rfl, Nat.le_succ _, fun i hle hlt t ht => ?_⟩
    obtain rfl : i = p.position := Nat.le_antisymm (Nat.le_of_lt_succ hlt) hle
    rw [getElem?_position, Option.some.injEq] at ht
    simpa [atEnd, ht] using hend

theorem remaining_advance_lt {p : Parser} (h : ¬ p.atEnd) : p.advance.remaining < p.remaining := by
  have := p.position_lt
  simp only [advance, h, Bool.false_eq_true, dite_false, remaining]
  omega

theorem accept?_eq_some {p q : Parser} {kinds : List TokenKind} (h : p.accept? kinds = some q) :
    ¬ p.atEnd ∧ p.current.kind ∈ kinds ∧ q = p.advance := by
  rw [accept?, Option.ite_none_right_eq_some] at h
  simp only [looksAt, Bool.and_eq_true, Bool.not_eq_true', decide_eq_true_eq] at h
  exact ⟨by simp [h.1.1], h.1.2, (Option.some.inj h.2).symm⟩

theorem forward_accept {p q : Parser} {kinds : List TokenKind} (h : p.accept? kinds = some q) :
    Forward p q := by
  rw [(accept?_eq_some h).2.2]
  exact forward_advance p

theorem remaining_accept_lt {p q : Parser} {kinds : List TokenKind}
    (h : p.accept? kinds = some q) : q.remaining < p.remaining := by
  obtain ⟨hend, -, rfl⟩ := accept?_eq_some h
  exact remaining_advance_lt hend

theorem remaining_enter_lt {p q r : Parser} {kinds : List TokenKind} (h : p.accept? kinds = some q)
    (hr : q.enter = .ok r) : r.remaining < p.remaining := by
  have := remaining_accept_lt h
  unfold enter at hr
  split at hr
  · cases hr
  · cases hr
    exact this

/-- Going in, forward and out again ends at the nesting at which it began. -/
theorem forward_leave {p q r : Parser} (h : p.enter = .ok q) (hqr : Forward q r) :
    Forward p r.leave := by
  unfold enter at h
  split at h
  · cases h
  · cases h
    exact ⟨hqr.tokens, hqr.maxDepth, by simp [leave, hqr.depth], hqr.position, hqr.kind_ne_eof⟩

end Parser

end ExprSyntax
