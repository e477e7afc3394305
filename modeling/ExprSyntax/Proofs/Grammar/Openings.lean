import ExprSyntax.Proofs.Grammar.Derivation
import ExprSyntax.Proofs.Grammar.Lookahead

/-!
# What is open in an expression

Nesting without a parser: from left to right, a parenthesis opens a group up to the one that closes
it, and a sign is open up to the end of its operand. A `Front` is what is open at one place, and
`nestingLevels` counts it behind each token, as far as the tokens are the beginning of an
expression. A reading that the bound does not end takes the tokens that are counted, and nowhere is
more open than the bound allows; one that the bound ends has come to the first token that opens more
(`Reads.levels_of_withinBound`, `Reads.levels_of_tooDeep`).
-/

namespace ExprSyntax

inductive Opening where
  | group
  | sign
deriving DecidableEq

/-- A place in an expression: what is open there, the innermost first, and whether an operand has to
follow. -/
structure Front where
  openings : List Opening
  atOperand : Bool

/-- What is still open behind an operand: the signs in front of it end there. -/
def closeSigns (openings : List Opening) : List Opening :=
  openings.dropWhile (· = .sign)

@[simp] theorem closeSigns_nil : closeSigns [] = [] := rfl

@[simp] theorem closeSigns_sign (openings : List Opening) :
    closeSigns (.sign :: openings) = closeSigns openings := rfl

@[simp] theorem closeSigns_group (openings : List Opening) :
    closeSigns (.group :: openings) = .group :: openings := rfl

/-- The token is an operand by itself. -/
def Token.isOperand (t : Token) : Bool :=
  t.kind.constant?.isSome || decide (t.kind ∈ [.number, .string]) && t.literal.isSome

namespace Front

/-- The place behind a token, if an expression can go on with it. -/
def take? (f : Front) (t : Token) : Option Front :=
  if f.atOperand then
    if t.kind ∈ TokenKind.signs then some ⟨.sign :: f.openings, true⟩
    else if t.kind = .leftParen then some ⟨.group :: f.openings, true⟩
    else if t.isOperand then some ⟨closeSigns f.openings, false⟩
    else none
  else if t.kind ∈ TokenKind.binaryOperators then some ⟨f.openings, true⟩
  else
    match f.openings with
    | .group :: outer => if t.kind = .rightParen then some ⟨closeSigns outer, false⟩ else none
    | _ => none

/-- How much is open behind each of the tokens, up to the first that does not go on. -/
def levels (f : Front) : List Token → List Nat
  | [] => []
  | t :: ts =>
    match f.take? t with
    | some g => g.openings.length :: g.levels ts
    | none => []

theorem levels_cons_of_some {f g : Front} {t : Token} (h : f.take? t = some g) (ts : List Token) :
    f.levels (t :: ts) = g.openings.length :: g.levels ts := by
  rw [levels, h]

theorem levels_cons_of_none {f : Front} {t : Token} (h : f.take? t = none) (ts : List Token) :
    f.levels (t :: ts) = [] := by
  rw [levels, h]

end Front

/-- The number of groups and signs that are open behind each token. -/
def nestingLevels (ts : List Token) : List Nat :=
  Front.levels ⟨[], true⟩ ts

/-- The greatest number of groups and signs that are open at once. -/
def deepestNesting (ts : List Token) : Nat :=
  (nestingLevels ts).foldr max 0

/-- In `-(nil + (nil)) * nil` the sign ends with the first group. -/
example :
    let t (k : TokenKind) : Token := ⟨k, "", none, 1⟩
    nestingLevels [t .minus, t .leftParen, t .kwNil, t .plus, t .leftParen, t .kwNil, t .rightParen,
      t .rightParen, t .star, t .kwNil, t .eof] = [1, 2, 2, 2, 3, 3, 2, 0, 0, 0] := by
  decide

/-! ## One token -/

namespace Front

variable {openings : List Opening} {t : Token}

theorem take?_sign (h : t.kind ∈ TokenKind.signs) :
    take? ⟨openings, true⟩ t = some ⟨.sign :: openings, true⟩ := by
  simp [take?, h]

theorem take?_leftParen (h : t.kind = .leftParen) :
    take? ⟨openings, true⟩ t = some ⟨.group :: openings, true⟩ := by
  simp [take?, h, TokenKind.mem_signs]

theorem take?_operand (hs : t.kind ∉ TokenKind.signs) (hp : t.kind ≠ .leftParen)
    (h : t.isOperand) : take? ⟨openings, true⟩ t = some ⟨closeSigns openings, false⟩ := by
  simp [take?, hs, hp, h]

theorem take?_not_operand (hs : t.kind ∉ TokenKind.signs) (hp : t.kind ≠ .leftParen)
    (h : ¬ t.isOperand) : take? ⟨openings, true⟩ t = none := by
  simp [take?, hs, hp, h]

theorem take?_operator (h : t.kind ∈ TokenKind.binaryOperators) :
    take? ⟨openings, false⟩ t = some ⟨openings, true⟩ := by
  simp [take?, h]

theorem take?_rightParen (h : t.kind = .rightParen) :
    take? ⟨.group :: openings, false⟩ t = some ⟨closeSigns openings, false⟩ := by
  have hn : TokenKind.rightParen ∉ TokenKind.binaryOperators := by decide
  simp [take?, h, hn]

theorem take?_not_rightParen (hn : t.kind ∉ TokenKind.binaryOperators) (h : t.kind ≠ .rightParen) :
    take? ⟨.group :: openings, false⟩ t = none := by
  simp [take?, hn, h]

theorem take?_outermost (hn : t.kind ∉ TokenKind.binaryOperators) :
    take? ⟨[], false⟩ t = none := by
  simp [take?, hn]

/-! ## A run of tokens -/

/-- An expression goes on from one place to another with the tokens between them, and never more
than `bound` groups and signs are open behind one of them. -/
inductive Passes (bound : Nat) : Front → List Token → Front → Prop
  | nil {f} : Passes bound f [] f
  | cons {f g h t ts} : f.take? t = some g → g.openings.length ≤ bound → Passes bound g ts h →
      Passes bound f (t :: ts) h

namespace Passes

variable {bound : Nat} {f g h : Front} {ts us : List Token}

theorem append (hf : Passes bound f ts g) (hg : Passes bound g us h) :
    Passes bound f (ts ++ us) h := by
  induction hf with
  | nil => exact hg
  | cons ht hb _ ih => exact .cons ht hb (ih hg)

theorem one {t : Token} (ht : f.take? t = some g) (hb : g.openings.length ≤ bound) :
    Passes bound f [t] g :=
  .cons ht hb .nil

theorem levels_append (hf : Passes bound f ts g) (rest : List Token) :
    ∃ ls, f.levels (ts ++ rest) = ls ++ g.levels rest ∧ ls.length = ts.length ∧
      ∀ l ∈ ls, l ≤ bound := by
  induction hf with
  | nil => exact ⟨[], rfl, rfl, List.forall_mem_nil _⟩
  | cons ht hb _ ih =>
    obtain ⟨ls, hls, hlen, hle⟩ := ih
    refine ⟨_ :: ls, ?_, congrArg Nat.succ hlen, List.forall_mem_cons.2 ⟨hb, hle⟩⟩
    rw [List.cons_append, levels_cons_of_some ht, hls, List.cons_append]

end Passes

end Front

theorem length_closeSigns_le (openings : List Opening) :
    (closeSigns openings).length ≤ openings.length :=
  (List.dropWhile_suffix _).length_le

/-! ## What a reading passes -/

/-- What is read passes to a place behind an operand, with `outer` still open; what fails passes to
a place at which its offender does not go on, or opens one more than the bound allows. -/
def Outcome.Passed (bound : Nat) (f : Front) (outer : List Opening) (ts : List Token) :
    Outcome → Prop
  | parsed _ rest => ∃ read, ts = read ++ rest ∧ f.Passes bound read ⟨outer, false⟩
  | failed err rest => ∃ read behind g, ts = read ++ err.offender :: behind ∧
      rest = err.left behind ∧ f.Passes bound read g ∧
      if err.fault = .nestedTooDeeply then
        ∃ h, g.take? err.offender = some h ∧ h.openings.length = bound + 1
      else g.take? err.offender = none

theorem Outcome.Passed.prepend {bound : Nat} {f g : Front} {outer : List Opening}
    {read ts : List Token} {o : Outcome} (h : o.Passed bound g outer ts)
    (hf : f.Passes bound read g) : o.Passed bound f outer (read ++ ts) := by
  cases o with
  | parsed e rest =>
    obtain ⟨more, rfl, hg⟩ := h
    exact ⟨read ++ more, (List.append_assoc ..).symm, hf.append hg⟩
  | failed err rest =>
    obtain ⟨more, behind, g', rfl, hrest, hg, hend⟩ := h
    exact ⟨read ++ more, behind, g', (List.append_assoc ..).symm, hrest, hf.append hg, hend⟩

/-- What is passed inside of a group or behind a sign is passed one level further out with the token
that opens it in front. -/
theorem Outcome.Passed.opened {b : Nat} {x : Opening} {openings outer : List Opening} {t : Token}
    {ts : List Token} {o : Outcome}
    (h : o.Passed ((x :: openings).length + b) ⟨x :: openings, true⟩ outer ts)
    (ht : Front.take? ⟨openings, true⟩ t = some ⟨x :: openings, true⟩) :
    o.Passed (openings.length + (b + 1)) ⟨openings, true⟩ outer (t :: ts) := by
  have hbound : (x :: openings).length + b = openings.length + (b + 1) := by
    rw [List.length_cons]
    omega
  rw [hbound] at h
  have hlen : (x :: openings).length ≤ openings.length + (b + 1) := hbound ▸ Nat.le_add_right ..
  exact h.prepend (.one ht hlen)

namespace Task

/-- Where a task begins to read. -/
def front (openings : List Opening) : Task → Front
  | phrase _ => ⟨openings, true⟩
  | chain _ _ => ⟨openings, false⟩

/-- A level does not begin behind a sign, and a primary expression does not begin with one. -/
def StartsIn (openings : List Opening) (ts : List Token) : Task → Prop
  | phrase (.binary _) => closeSigns openings = openings
  | phrase .unary => True
  | phrase .primary => ∀ t ∈ ts.head?, t.kind ∉ TokenKind.signs
  | chain _ _ => closeSigns openings = openings

theorem startsIn_operand {openings : List Opening} (h : closeSigns openings = openings)
    (l : Precedence) (ts : List Token) : (phrase l.operand).StartsIn openings ts := by
  cases l <;> first | exact h | trivial

theorem startsIn_expression (openings : List Opening) (ts : List Token) :
    (phrase .expression).StartsIn (.group :: openings) ts :=
  closeSigns_group openings

end Task

theorem Precedence.operators_subset (l : Precedence) :
    l.operators ⊆ TokenKind.binaryOperators := by
  cases l <;> decide

/-! ### Operands -/

theorem Token.isOperand_of_constant? {t : Token} {v : Literal} (h : t.kind.constant? = some v) :
    t.isOperand := by
  simp [isOperand, h]

theorem Token.isOperand_of_value {t : Token} {v : Literal} (hk : t.kind ∈ [.number, .string])
    (hv : t.literal = some v) : t.isOperand := by
  simp [isOperand, hk, hv]

theorem Token.not_isOperand_of_missing {t : Token} (hk : t.kind ∈ [.number, .string])
    (hv : t.literal = none) : ¬ t.isOperand := by
  have hc : t.kind.constant? = none := by
    rcases List.mem_cons.1 hk with hk | hk
    · rw [hk]; rfl
    · rw [List.mem_singleton.1 hk]; rfl
  simp [isOperand, hc, hv]

theorem Token.not_isOperand_of_unexpected {t : Token} (hc : t.kind.constant? = none)
    (hk : t.kind ∉ [.number, .string, .leftParen]) : ¬ t.isOperand := by
  simp_all [isOperand]

theorem Outcome.passed_operand {b : Nat} {openings : List Opening} {t : Token} {ts : List Token}
    {e : Expr} (hs : t.kind ∉ TokenKind.signs) (hp : t.kind ≠ .leftParen) (h : t.isOperand) :
    (parsed e ts).Passed (openings.length + b) ⟨openings, true⟩ (closeSigns openings) (t :: ts) :=
  ⟨[t], rfl, .one (Front.take?_operand hs hp h)
    (Nat.le_add_right_of_le (length_closeSigns_le openings))⟩

/-! ### All rules -/

theorem Token.kind_ne_leftParen {t : Token} (hk : t.kind ∈ [.number, .string]) :
    t.kind ≠ .leftParen := by
  intro hp
  rw [hp] at hk
  exact absurd hk (by decide)

/-- A reading passes from where its task begins to where its operand ends or its error is, with what
is open around it and the levels that it has to spare as the bound. -/
theorem Reads.passed {b : Nat} {task : Task} {ts : List Token} {o : Outcome}
    (h : Reads b task ts o) (openings : List Opening) (hs : task.StartsIn openings ts) :
    o.Passed (openings.length + b) (task.front openings) (closeSigns openings) ts := by
  -- what is open around the task grows on the way in, by as much as the levels to spare shrink
  induction h generalizing openings with
  | @operand _ l _ _ _ _ _ _ ih ihc =>
    obtain ⟨read, rfl, hread⟩ := ih openings (Task.startsIn_operand hs l _)
    have hclosed : closeSigns openings = openings := hs
    rw [hclosed] at hread
    exact (ihc openings hs).prepend hread
  | @operandFailed _ l _ _ _ _ ih => exact ih openings (Task.startsIn_operand hs l _)
  | stop =>
    have hclosed : closeSigns openings = openings := hs
    rw [hclosed]
    exact ⟨[], rfl, .nil⟩
  | @step _ l _ op _ _ _ _ hop _ _ ih ihc =>
    obtain ⟨read, rfl, hread⟩ := ih openings (Task.startsIn_operand hs l _)
    have hclosed : closeSigns openings = openings := hs
    rw [hclosed] at hread
    have hop' : Front.take? ⟨openings, false⟩ op = some ⟨openings, true⟩ :=
      Front.take?_operator (l.operators_subset hop)
    exact (ihc openings hs).prepend (.cons hop' (Nat.le_add_right ..) hread)
  | @stepFailed _ l _ op _ _ _ hop _ ih =>
    have hop' : Front.take? ⟨openings, false⟩ op = some ⟨openings, true⟩ :=
      Front.take?_operator (l.operators_subset hop)
    exact (ih openings (Task.startsIn_operand hs l _)).prepend (.one hop' (Nat.le_add_right ..))
  | sign hop _ ih | signFailed hop _ ih =>
    exact (ih (.sign :: openings) trivial).opened (Front.take?_sign hop)
  | signDeep hop => exact ⟨[], _, _, rfl, rfl, .nil, _, Front.take?_sign hop, rfl⟩
  | unsigned ht _ ih =>
    refine ih openings ?_
    rintro _ ⟨⟩
    exact ht
  | constant hv =>
    exact Outcome.passed_operand (hs _ rfl) (TokenKind.not_mem_of_constant? hv).2
      (Token.isOperand_of_constant? hv)
  | value hk hv =>
    exact Outcome.passed_operand (hs _ rfl) (Token.kind_ne_leftParen hk)
      (Token.isOperand_of_value hk hv)
  | valueMissing hk hv =>
    exact ⟨[], _, _, rfl, rfl, .nil, Front.take?_not_operand (hs _ rfl)
      (Token.kind_ne_leftParen hk) (Token.not_isOperand_of_missing hk hv)⟩
  | @group b t ts e close rest ht hu _ ih =>
    obtain ⟨read, hts, hread⟩ :=
      (ih (.group :: openings) (Task.startsIn_expression openings ts)).opened
        (Front.take?_leftParen ht)
    have hclose : Front.take? ⟨.group :: openings, false⟩ close =
        some ⟨closeSigns openings, false⟩ := Front.take?_rightParen hu
    have hle : (closeSigns openings).length ≤ openings.length + (b + 1) :=
      Nat.le_add_right_of_le (length_closeSigns_le openings)
    exact ⟨read ++ [close], by simp [hts], hread.append (.one hclose hle)⟩
  | @groupFailed _ _ ts _ _ ht _ ih =>
    exact (ih (.group :: openings) (Task.startsIn_expression openings ts)).opened
      (Front.take?_leftParen ht)
  | @groupOpen _ _ ts _ u rest ht hu h ih =>
    obtain ⟨read, hts, hread⟩ :=
      (ih (.group :: openings) (Task.startsIn_expression openings ts)).opened
        (Front.take?_leftParen ht)
    have hop : u.kind ∉ TokenKind.binaryOperators := fun hk =>
      h.endsAt (Nonterminal.mem_takenOperators_expression.2 hk)
    exact ⟨read, rest, _, hts, rfl, hread, Front.take?_not_rightParen hop hu⟩
  | groupDeep ht => exact ⟨[], _, _, rfl, rfl, .nil, _, Front.take?_leftParen ht, rfl⟩
  | @unexpected _ t _ hv hk =>
    have hp : t.kind ≠ .leftParen := fun hp => hk (by simp [hp])
    exact ⟨[], _, _, rfl, rfl, .nil,
      Front.take?_not_operand (hs _ rfl) hp (Token.not_isOperand_of_unexpected hv hk)⟩

/-! ## The levels of what is read -/

section
variable {b : Nat} {ts : List Token}

theorem SyntaxError.length_left (e : SyntaxError) (behind : List Token) :
    behind.length ≤ (e.left behind).length ∧ (e.left behind).length ≤ behind.length + 1 := by
  unfold left
  split <;> simp

theorem Reads.passed_expression {o : Outcome} (h : Reads b (.phrase .expression) ts o) :
    o.Passed b ⟨[], true⟩ [] ts := by
  simpa [Task.front] using h.passed [] rfl

/-- A reading that the bound does not end takes the tokens that have a level, with none above the
bound; only an offender without a value is taken besides. -/
theorem Reads.levels_of_withinBound {o : Outcome} (h : Reads b (.phrase .expression) ts o)
    (ho : o.WithinBound) : (∀ l ∈ nestingLevels ts, l ≤ b) ∧
      (nestingLevels ts).length + o.rest.length ≤ ts.length ∧
      ts.length ≤ (nestingLevels ts).length + o.rest.length + 1 := by
  cases o with
  | parsed e rest =>
    obtain ⟨read, rfl, hread⟩ := h.passed_expression
    obtain ⟨ls, hls, hlen, hle⟩ := hread.levels_append rest
    have hend : Front.levels ⟨[], false⟩ rest = [] := by
      cases rest with
      | nil => rfl
      | cons next rest =>
        have hnext : next.kind ∉ TokenKind.binaryOperators := fun hk =>
          h.endsAt (Nonterminal.mem_takenOperators_expression.2 hk)
        exact Front.levels_cons_of_none (Front.take?_outermost hnext) rest
    rw [hend, List.append_nil] at hls
    rw [nestingLevels, hls, Outcome.rest_parsed, List.length_append, hlen]
    exact ⟨hle, Nat.le_refl _, Nat.le_succ _⟩
  | failed err rest =>
    obtain ⟨read, behind, g, rfl, rfl, hread, hend⟩ := h.passed_expression
    obtain ⟨ls, hls, hlen, hle⟩ := hread.levels_append (err.offender :: behind)
    rw [if_neg ho] at hend
    rw [Front.levels_cons_of_none hend, List.append_nil] at hls
    rw [nestingLevels, hls, Outcome.rest_failed, List.length_append, hlen]
    have hleft := err.length_left behind
    rw [List.length_cons]
    exact ⟨hle, by omega, by omega⟩

/-- A reading that the bound ends has come to the first token behind which more is open. -/
theorem Reads.levels_of_tooDeep {offender : Token} {rest : List Token}
    (h : Reads b (.phrase .expression) ts (.failed ⟨.nestedTooDeeply, offender⟩ rest)) :
    ∃ read ls more, ts = read ++ offender :: rest ∧ nestingLevels ts = ls ++ (b + 1) :: more ∧
      ls.length = read.length ∧ ∀ l ∈ ls, l ≤ b := by
  obtain ⟨read, behind, g, rfl, hrest, hread, hend⟩ := h.passed_expression
  obtain ⟨ls, hls, hlen, hle⟩ := hread.levels_append (offender :: behind)
  obtain ⟨deeper, htake, hopen⟩ := hend
  rw [Front.levels_cons_of_some htake, hopen] at hls
  obtain rfl : rest = behind := hrest
  exact ⟨read, ls, _, rfl, hls, hlen, hle⟩

end

end ExprSyntax
